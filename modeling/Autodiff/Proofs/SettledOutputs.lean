import Autodiff.Proofs.CopySweeps
import Autodiff.Proofs.Gains
import Autodiff.Proofs.Leaves
import Autodiff.Proofs.LinearRecordings
import Autodiff.Proofs.RangeSweeps

namespace Autodiff

variable {F : Type} [Scalar F]

namespace Tape

variable {kernels : Kernels F} {token : Token} {t base : Tape F} {st : Statement F} {e : Event F}
  {q : Identifier → F} {v : Slots F}

structure Plays (kernels : Kernels F) (base : Tape F) (q : Identifier → F) (st : Statement F)
    (e : Event F) : Prop where
  outputs_eq : e.outputs = base.outputs st
  sources_subset : e.sources ⊆ base.sources st
  regular : e.Regular
  step : ∀ (s : Traced F) (v : Slots F), s.tape.Carries base v q →
    Yields (Traced.adjointStep kernels s st) fun s' => s'.tape.Carries base (e.adjoint v) q

theorem undoPrimal_of_linear (hrolls : t.traits.rollsBack = false) (st : Statement F) :
    Traced.undoPrimal st t = t := by
  rw [Traced.undoPrimal, hrolls]
  rfl

section Events

variable [LawfulCells F] (hk : kernels token = some Product.kernel)
  (hrolls : base.traits.rollsBack = false) (h : base.Ascending token) (hg : base.Grounded)
  (hq : q passive = 0)
include hk hrolls h hg hq

theorem exists_plays (hst : st ∈ base.log) : ∃ e, Plays kernels base q st e := by
  have hground := hg.log st hst
  cases hkind : st.kind with
  | input =>
    refine ⟨.input st.output 0, ?_, List.nil_subset _, trivial, fun s v hs => ?_⟩
    · simp [outputs, hkind, Event.outputs]
    · rw [Traced.adjointStep, hkind]
      refine .ok ?_
      change (Traced.undoPrimal st s.tape).Carries base v q
      rw [undoPrimal_of_linear (by rw [hs.traits_eq, hrolls])]
      exact hs
  | elementary =>
    have hout := hground.output_ne (by simp [hkind])
    refine ⟨.elementary st.output st.arguments 0, ?_, List.subset_append_left _ _,
      ⟨hout, hground.arguments_ne⟩, fun s v hs => ?_⟩
    · simp [outputs, hkind, Event.outputs]
    · rw [Traced.adjointStep, hkind]
      refine .ok ?_
      change ((Traced.undoPrimal st s.tape).withAdjoints _).Carries base _ q
      rw [undoPrimal_of_linear (by rw [hs.traits_eq, hrolls])]
      refine hs.replace _ s.tape.pool hs.lent_eq rfl ?_ hs.primals_eq
      rw [hs.adjoints_eq]
      rfl
  | external k =>
    have hlt := (h.bounded.log st hst).record_lt k hkind
    have hr : base.records[k]? = some base.records[k] := List.getElem?_eq_getElem hlt
    obtain ⟨c, olds, hstores, -, -⟩ := h.bounded.records _ (List.getElem_mem hlt)
    have hseen := hstores.seen q
    have houtputs : base.outputs st = (c.seen base.traits q).results := by
      simp only [outputs, hkind, hr, Option.map_some, Option.getD_some, hseen.results_eq]
    refine ⟨.product (c.seen base.traits q), houtputs.symm, ?_, ⟨hseen.fits, ?_⟩,
      fun s v hs => ?_⟩
    · refine List.Subset.trans ?_ (List.subset_append_right _ _)
      simp only [factors, hkind, hr, Option.map_some, Option.getD_some, hseen.factors_eq]
      exact List.Subset.refl _
    · exact houtputs ▸ h.distinct st hst
    · have hyields := Traced.replay_reverse_yields (p := q) hk hs hr hseen
        (fun hb => by rw [hrolls] at hb; cases hb) fun hp => by
          rw [Product.Call.rewound, hrolls, if_neg Bool.false_ne_true, hs.primal_eq hp hq]
          exact Product.Call.seen_agrees hp
      rw [hrolls] at hyields
      rw [Traced.adjointStep, hkind]
      exact hyields

theorem exists_events : ∃ event : Statement F → Event F,
    ∀ st ∈ base.log, Plays kernels base q st (event st) := by
  have : Nonempty (Event F) := ⟨.input passive 0⟩
  choose! event hevent using fun (st : Statement F) (hst : st ∈ base.log) =>
    exists_plays hk hrolls h hg hq hst
  exact ⟨event, hevent⟩

end Events

variable {event : Statement F → Event F}

theorem fold_carries {log : List (Statement F)} {s : Traced F}
    (hevent : ∀ st ∈ log, Plays kernels base q st (event st)) (hs : s.tape.Carries base v q) :
    Yields (log.reverse.foldlM (Traced.adjointStep kernels) s) fun s' =>
      s'.tape.Carries base (History.adjoint (log.map event) v) q := by
  induction log with
  | nil => exact .ok hs
  | cons st log ih =>
    obtain ⟨hst, hevent⟩ := List.forall_mem_cons.mp hevent
    rw [List.reverse_cons, List.foldlM_append]
    refine (ih hevent).bind fun s' hs' => ?_
    rw [List.foldlM_cons]
    exact (hst.step s' _ hs').bind fun s'' hs'' => .ok hs''

variable (hevent : ∀ st ∈ base.log, Plays kernels base q st (event st))
include hevent

theorem sweep_carries (hrolls : base.traits.rollsBack = false) (ht : t.Carries base v q) :
    Yields (t.adjointSweepAll kernels) fun s => ∃ u : Slots F,
      s.tape.Carries base (History.adjoint (base.log.map event) u) q ∧ u.slot = v.slot ∧
        (base.log ≠ [] → base.issuer.largest < u.size) := by
  by_cases hlog : t.log = []
  · rw [adjointSweepAll_of_nil hlog]
    have hnil : base.log = [] := ht.log_eq ▸ hlog
    rw [hnil]
    exact .ok ⟨v, ht, rfl, fun hne => absurd rfl hne⟩
  · rw [adjointSweepAll_of_ne hlog, ht.log_eq]
    refine (fold_carries hevent ht.widen).bind fun s hs => .ok ?_
    refine ⟨v.ensure base.issuer.largest, ?_, funext fun id => Slots.slot_ensure .., fun _ => ?_⟩
    · have hsettle : t.settle s.tape = s.tape := by
        rw [settle, ht.traits_eq, hrolls]
        rfl
      change (t.settle s.tape).Carries base _ q
      rw [hsettle]
      exact hs
    · rw [Slots.size_ensure]
      exact Nat.lt_of_lt_of_le (Nat.lt_succ_self _) (Nat.le_max_right _ _)

theorem flatMap_outputs : (base.log.map event).flatMap Event.outputs = base.outputIds := by
  rw [outputIds, List.flatMap_map]
  exact List.flatMap_congr fun st hst => (hevent st hst).outputs_eq

theorem rising_events (h : base.Ascending token) : History.Rising (base.log.map event) := by
  constructor
  · intro e he id hid hne hmem
    obtain ⟨st, hst, rfl⟩ := List.mem_map.mp he
    have hplays := hevent st hst
    exact Nat.lt_irrefl id (h.sources_lt st hst id (hplays.outputs_eq ▸ hid) hne id
      (hplays.sources_subset hmem))
  · rw [List.pairwise_map]
    refine h.rises.imp_of_mem fun {st st'} hst hst' hprecedes id hid hne hmem => ?_
    have hplays := hevent st hst
    have hlt := hprecedes id ((hevent st' hst').outputs_eq ▸ hid) hne id
    refine Nat.lt_irrefl id (hlt (List.mem_append.mpr ?_))
    exact (List.mem_append.mp hmem).imp (hplays.outputs_eq ▸ ·) fun h => hplays.sources_subset h

omit hevent

theorem exists_carries (hg : t.Grounded) (hl : t.pool.lent = 0) :
    ∃ q : Identifier → F, q passive = 0 ∧ ∀ v, (t.withAdjoints v).Carries t v q := by
  cases hp : t.vectors.primals with
  | none =>
    refine ⟨fun _ => 0, rfl, fun v => ⟨rfl, rfl, rfl, rfl, rfl, hl, rfl, fun p hmem => ?_⟩⟩
    rw [withAdjoints, hp] at hmem
    cases hmem
  | some p =>
    refine ⟨p.slot, hg.primal_eq p hp, fun v => ⟨rfl, rfl, rfl, rfl, rfl, hl, rfl, ?_⟩⟩
    intro p' hmem
    rw [withAdjoints, hp] at hmem
    exact congrArg Slots.slot (Option.some.inj hmem).symm

def Settles (kernels : Kernels F) (t : Tape F) : Prop :=
  ∀ v : Slots F, ∃ terms : Identifier → List F, ∀ w : Slots F,
    (∀ id ∈ t.outputIds, v.slot id = w.slot id) →
    ∃ s : Traced F, (t.withAdjoints w).adjointSweepAll kernels = .ok s ∧ ∀ id ≠ passive,
      if id ∈ t.outputIds then Scalar.isZero (s.tape.vectors.adjoints.slot id) = true
      else s.tape.vectors.adjoints.slot id = (terms id).foldl (· + ·) (w.slot id)

variable [LawfulCells F]

theorem Ascending.settles (h : t.Ascending token) (hk : kernels token = some Product.kernel)
    (hzero : Scalar.isZero (0 : F) = true) (hrolls : t.traits.rollsBack = false) (hg : t.Grounded)
    (hl : t.pool.lent = 0) : t.Settles kernels := by
  obtain ⟨q, hq, hcarries⟩ := exists_carries hg hl
  obtain ⟨event, hevent⟩ := exists_events hk hrolls h hg hq
  have hids := flatMap_outputs hevent
  have hregular : ∀ e ∈ t.log.map event, e.Regular :=
    List.forall_mem_map.mpr fun st hst => (hevent st hst).regular
  have hle : ∀ id ∈ (t.log.map event).flatMap Event.outputs, id ≤ t.issuer.largest := by
    rw [hids]
    intro id hid
    obtain ⟨st, hst, hid⟩ := List.mem_flatMap.mp hid
    exact h.outputs_le st hst id hid
  intro v
  refine ⟨termsAt (History.gain (t.log.map event) (v.ensure t.issuer.largest)), fun w hw => ?_⟩
  obtain ⟨s, hs, u, hsweep, hslot, hsize⟩ := sweep_carries hevent hrolls (hcarries w)
  refine ⟨s, hs, fun id hne => ?_⟩
  rw [hsweep.adjoints_eq, ← hids]
  by_cases hnil : t.log = []
  · rw [hnil]
    exact (if_neg List.not_mem_nil).mpr (congrFun hslot id)
  · have hwide := hsize hnil
    split
    case isTrue hid =>
      exact History.isZero_adjoint hregular hzero (rising_events hevent h)
        (fun i hi => (hle i hi).trans_lt hwide) hid hne
    case isFalse hid =>
      have hagree : Slots.AgreeOn t.issuer.largest ((t.log.map event).flatMap Event.outputs) u
          (v.ensure t.issuer.largest) := by
        refine ⟨hwide, ?_, fun i hi => ?_⟩
        · rw [Slots.size_ensure]
          exact Nat.lt_of_lt_of_le (Nat.lt_succ_self _) (Nat.le_max_right _ _)
        · rw [Slots.slot_ensure, hslot]
          exact (hw i (hids ▸ hi)).symm
      rw [History.slot_adjoint_of_notMem hregular hne hid, hslot,
        History.gain_congr hregular hagree (fun _ hi => hi) hle]

/-- On a linear recording no identifier is set twice, and what a statement sets is larger than its
arguments. So a sweep in any arithmetic and from any adjoints leaves zero at every output, and so does
every sweep after it, which adds to the other adjoints what the seeds on the outputs give. -/
theorem Charted.outputs_settle (hzero : Scalar.isZero (0 : F) = true)
    (hk : kernels token = some Product.kernel) {ps : List Position}
    (h : t.Charted kernels token ps) :
    (∀ (i j : Nat) (st st' : Statement F), t.log[i]? = some st → t.log[j]? = some st' →
      ∀ id ≠ passive, id ∈ t.outputs st → id ∈ t.outputs st' → i = j) ∧
    (∀ st ∈ t.log, DistinctActive (t.outputs st) ∧
      ∀ id ∈ t.outputs st, id ≠ passive → ∀ i ∈ t.sources st, i < id) ∧
    t.Settles kernels ∧
    ∀ (v : Slots F) (s : Traced F), (t.withAdjoints v).adjointSweepAll kernels = .ok s →
      s.tape.outputIds = t.outputIds ∧ s.tape.Settles kernels := by
  have hclimbs := h.climbs hk
  have hground := h.grounded
  have hascending := hclimbs.ascending
  have hrolls : t.traits.rollsBack = false := by
    rw [hclimbs.traits_eq]
    exact Bool.and_false _
  refine ⟨fun i j st st' hi hj id hne hid hid' => hascending.single hi hj hne hid hid',
    fun st hst => ⟨hascending.distinct st hst, hascending.sources_lt st hst⟩,
    hascending.settles hk hzero hrolls hground hclimbs.lent_eq, fun v s hs => ?_⟩
  obtain ⟨q, hq, hcarries⟩ := exists_carries hground hclimbs.lent_eq
  obtain ⟨event, hevent⟩ := exists_events hk hrolls hascending hground hq
  obtain ⟨s', hs', u, hsweep, -, -⟩ := sweep_carries hevent hrolls (hcarries v)
  obtain rfl : s' = s := Except.ok.inj (hs'.symm.trans hs)
  have hids : s'.tape.outputIds = t.outputIds := by
    simp only [outputIds, hsweep.log_eq]
    unfold outputs
    rw [hsweep.records_eq, hsweep.traits_eq]
  have hswept : s'.tape.Ascending token := by
    refine hascending.rest ?_ ?_ hsweep.log_eq hsweep.records_eq hsweep.traits_eq ?_
    all_goals rw [hsweep.issuer_eq]
    · exact hascending.bounded.issuer
    · rw [hsweep.pending_eq]
      exact hascending.bounded.pending_le
  have hgrounded : s'.tape.Grounded := by
    refine ⟨fun p hp => ?_, hsweep.issuer_eq ▸ hground.unused_ne,
      hsweep.pending_eq ▸ hground.pending_ne, hsweep.log_eq ▸ hground.log⟩
    rw [hsweep.primals_eq p hp]
    exact hq
  exact ⟨hids, hswept.settles hk hzero (hsweep.traits_eq ▸ hrolls) hgrounded hsweep.lent_eq⟩

def doubleProducts : Kernels Float := fun _ => some Product.kernel

theorem outputs_settle_reissued :
    ∃ (x y : Variable Float) (t₁ t₂ t₃ : Tape Float) (s s₁ s₂ : Traced Float)
      (ys : List (Variable Float)),
      (new .linear .primalValues : Tape Float).input ⟨3, passive⟩ = .ok (x, t₁) ∧
      t₁.assign ⟨0, passive⟩ 6 [(x.identifier, 2)] = .ok (y, t₂) ∧
      t₂.backTo doubleProducts t₁.position = .ok s ∧
      Product.multiply s.tape doubleProducts ⟨0⟩ .byRow 1 1 1 [x] [x] [y] = .ok (ys, t₃) ∧
      y.identifier = 2 ∧ t₃.outputIds = [2] ∧
      (t₃.withAdjoints ⟨0, [1, 0 / 0]⟩).adjointSweepAll doubleProducts = .ok s₁ ∧
      Scalar.isZero (s₁.tape.vectors.adjoints.slot 2) = true ∧
      (s₁.tape.withAdjoints ⟨0, [0, 1 / 0]⟩).adjointSweepAll doubleProducts = .ok s₂ ∧
      Scalar.isZero (s₂.tape.vectors.adjoints.slot 2) = true := by
  have hrun : ∃ (x y : Variable Float) (t₁ t₂ t₃ : Tape Float) (s : Traced Float)
      (ys : List (Variable Float)),
      (new .linear .primalValues : Tape Float).input ⟨3, passive⟩ = .ok (x, t₁) ∧
      t₁.assign ⟨0, passive⟩ 6 [(x.identifier, 2)] = .ok (y, t₂) ∧
      t₂.backTo doubleProducts t₁.position = .ok s ∧
      Product.multiply s.tape doubleProducts ⟨0⟩ .byRow 1 1 1 [x] [x] [y] = .ok (ys, t₃) ∧
      y.identifier = 2 ∧ t₃.outputIds = [2] ∧ x.identifier ≤ t₁.issuer.largest ∧
      x.identifier ≤ s.tape.issuer.largest :=
    ⟨_, _, _, _, _, _, _, rfl, rfl, rfl, rfl, rfl, by decide, by decide, by decide⟩
  obtain ⟨x, y, t₁, t₂, t₃, s, ys, h₁, h₂, h₃, h₄, hy, hids, hle₁, hle₂⟩ := hrun
  have hcharted : t₃.Charted doubleProducts ⟨0⟩ [t₁.position] := by
    have hstart : t₁.Charted doubleProducts ⟨0⟩ [t₁.position] := .mark (.input (.new _) h₁)
    have hassigned : t₂.Charted doubleProducts ⟨0⟩ ([] ++ [t₁.position]) :=
      .assign hstart (by simpa using hle₁) h₂
    exact .multiply (.backTo hassigned h₃) (by simpa using hle₂) h₄
  obtain ⟨-, -, hsettles, hagain⟩ := hcharted.outputs_settle (by decide) rfl
  have hmem : 2 ∈ t₃.outputIds := by
    rw [hids]
    exact List.mem_singleton_self 2
  obtain ⟨_, hterms⟩ := hsettles ⟨0, [1, 0 / 0]⟩
  obtain ⟨s₁, hs₁, hzero₁⟩ := hterms _ fun _ _ => rfl
  obtain ⟨hsame, hsettles₁⟩ := hagain _ s₁ hs₁
  obtain ⟨_, hterms₁⟩ := hsettles₁ ⟨0, [0, 1 / 0]⟩
  obtain ⟨s₂, hs₂, hzero₂⟩ := hterms₁ _ fun _ _ => rfl
  have hslot₁ := hzero₁ 2 (by decide)
  have hslot₂ := hzero₂ 2 (by decide)
  rw [if_pos hmem] at hslot₁
  rw [if_pos (hsame ▸ hmem)] at hslot₂
  exact ⟨x, y, t₁, t₂, t₃, s, s₁, s₂, ys, h₁, h₂, h₃, h₄, hy, hids, hs₁, hslot₁, hs₂, hslot₂⟩

end Tape

end Autodiff
