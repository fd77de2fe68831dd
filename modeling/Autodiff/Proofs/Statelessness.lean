import Autodiff.Proofs.Likeness
import Autodiff.Proofs.Shelves

namespace Autodiff

variable {F : Type} [Scalar F]

theorem Slots.ensure_ensure (v : Slots F) (n : Identifier) :
    (v.ensure n).ensure n = v.ensure n := by
  have hlt : n < (v.ensure n).size := by
    rw [size_ensure]
    exact Nat.lt_of_lt_of_le (Nat.lt_succ_self n) (Nat.le_max_right ..)
  rw [ensure, if_pos hlt]

theorem Slots.get_ensure {v : Slots F} (h : v.slot passive = 0) (n : Identifier) :
    (v.ensure n).get = v.get :=
  get_congr (funext (slot_ensure v n)) ((slot_ensure v n passive).trans h)

/-- The adjoint callback of the record runs to its end, whatever the vectors hold. It gives back all
buffers that it borrows, and where no primals are rolled back it leaves them alone. -/
def Record.Obliges (record : Record F) (kernels : Kernels F) (t : Tape F) : Prop :=
  ∃ kernel, kernels record.token = some kernel ∧ kernel.reverse.Blind ∧
    ∀ r : Replay F, r.Opens t.traits record → r.pool.lent = t.pool.lent →
      r.vectors.hasPrimals = t.hasPrimals → kernel.reverse.Ensures r fun _ r' =>
        r'.pool.lent = r.pool.lent ∧
          (t.traits.linear = true → r'.vectors.primals = r.vectors.primals)

theorem Record.Obliges.heeds {record : Record F} {kernels : Kernels F} {t : Tape F}
    (h : record.Obliges kernels t) : record.Heeds kernels t.traits fun _ => True := by
  obtain ⟨kernel, hkernel, hblind, -⟩ := h
  intro kernel' hkernel'
  obtain rfl := Option.some.inj (hkernel.symm.trans hkernel')
  exact ⟨hblind, fun r _ => kernel.reverse.within_of_forall (fun _ => trivial) r⟩

namespace Tape

structure Sweeping (t u : Tape F) : Prop where
  same : t.widen.SameRecording u
  lent_eq : u.pool.lent = t.pool.lent
  primals_eq : t.traits.linear = true → u.vectors.primals = t.widen.vectors.primals

namespace Sweeping

variable {kernels : Kernels F} {t : Tape F} {s s' : Traced F} {st : Statement F}

theorem traits_eq {u : Tape F} (h : t.Sweeping u) : u.traits = t.traits :=
  (t.widen_sameRecording.trans h.same).traits_eq

theorem replay (h : t.Sweeping s.tape) {k : Nat} {record : Record F}
    (hk : t.records[k]? = some record) (hobliges : record.Obliges kernels t) :
    Yields (s.replay kernels Kernel.reverse k) fun s' => t.Sweeping s'.tape := by
  obtain ⟨kernel, hkernel, -, hruns⟩ := hobliges
  have hrecord : s.tape.records[k]? = some record := by
    rw [h.same.records_eq]
    exact hk
  have hprimals : s.tape.hasPrimals = t.hasPrimals :=
    h.same.hasPrimals_eq.trans t.widen_sameRecording.hasPrimals_eq
  obtain ⟨⟨_, r⟩, hrun, hlent, hkept⟩ :=
    hruns (s.tape.replayOf record s.tape.vectors s.notes) ⟨h.traits_eq, rfl, rfl⟩ h.lent_eq hprimals
  have hreplay : s.replay kernels Kernel.reverse k =
      .ok ⟨{ s.tape with vectors := r.vectors, pool := r.pool }, r.notes⟩ :=
    Traced.replay_of_run hrecord hkernel hrun
  refine ⟨_, hreplay, h.same.trans (Traced.replay_sameRecording hreplay),
    hlent.trans h.lent_eq, fun hlinear => ?_⟩
  exact (hkept hlinear).trans (h.primals_eq hlinear)

theorem undoPrimal (h : t.Sweeping s.tape) (st : Statement F) :
    t.Sweeping (Traced.undoPrimal st s.tape) := by
  refine ⟨h.same.trans (Traced.undoPrimal_sameRecording st s.tape), ?_, fun hlinear => ?_⟩
  · rw [Traced.undoPrimal]
    split <;> exact h.lent_eq
  · have hkept : Traced.undoPrimal st s.tape = s.tape := by
      rw [Traced.undoPrimal, h.traits_eq, Traits.rollsBack, hlinear]
      simp
    rw [hkept]
    exact h.primals_eq hlinear

theorem adjointStep (h : t.Sweeping s.tape)
    (hfinds : ∀ k, st.kind = .external k → k < t.records.length)
    (hobliges : ∀ record ∈ t.records, record.Obliges kernels t) :
    Yields (s.adjointStep kernels st) fun s' => t.Sweeping s'.tape := by
  rw [Traced.adjointStep]
  cases hkind : st.kind with
  | elementary =>
    have hundo := h.undoPrimal st
    exact .ok ⟨hundo.same.trans ⟨rfl, rfl, rfl, rfl, rfl⟩, hundo.lent_eq, hundo.primals_eq⟩
  | input => exact .ok (h.undoPrimal st)
  | external k =>
    have hlt := hfinds k hkind
    exact h.replay (List.getElem?_eq_getElem hlt) (hobliges _ (List.getElem_mem hlt))

theorem widen (t : Tape F) : t.Sweeping t.widen := ⟨.refl _, rfl, fun _ => rfl⟩

theorem adjointFold {log : List (Statement F)}
    (hfinds : ∀ st ∈ log, ∀ k, st.kind = .external k → k < t.records.length)
    (hobliges : ∀ record ∈ t.records, record.Obliges kernels t) :
    Yields (log.foldlM (Traced.adjointStep kernels) ⟨t.widen, []⟩) fun s => t.Sweeping s.tape :=
  Yields.foldlM (fun st hst _ h => h.adjointStep (hfinds st hst) hobliges) (widen t)

theorem adjointStep_missing (h : t.Sweeping s.tape) {k : Nat} (hkind : st.kind = .external k)
    (hk : t.records.length ≤ k) :
    s.adjointStep kernels st = .error ⟨.missingRecord, s.notes⟩ := by
  have hnone : s.tape.records[k]? = none := by
    rw [h.same.records_eq]
    exact List.getElem?_eq_none hk
  rw [Deed.adjointStep_eq, Deed.adjoint, hkind]
  exact Deed.run_replay_missing kernels hnone .adjoint

theorem adjointFold_missing {log : List (Statement F)} (h : t.Sweeping s.tape)
    (hmissing : ¬ ∀ st ∈ log, ∀ k, st.kind = .external k → k < t.records.length)
    (hobliges : ∀ record ∈ t.records, record.Obliges kernels t) :
    ∃ notes, log.foldlM (Traced.adjointStep kernels) s = .error ⟨.missingRecord, notes⟩ := by
  -- What is swept before such a call succeeds, since the records that are there oblige.
  induction log generalizing s with
  | nil => exact absurd nofun hmissing
  | cons st log ih =>
    rw [List.foldlM_cons]
    by_cases hst : ∀ k, st.kind = .external k → k < t.records.length
    · obtain ⟨s₁, hs₁, h₁⟩ := h.adjointStep hst hobliges
      rw [hs₁]
      exact ih h₁ fun hlog => hmissing (List.forall_mem_cons.mpr ⟨hst, hlog⟩)
    · obtain ⟨k, hk⟩ := not_forall.mp hst
      obtain ⟨hkind, hk⟩ := Classical.not_imp.mp hk
      rw [h.adjointStep_missing hkind (Nat.le_of_not_lt hk)]
      exact ⟨_, rfl⟩

end Sweeping

def FindsAll (t : Tape F) (start stop : Position) : Prop :=
  ∀ st ∈ t.range start stop, ∀ k, st.kind = .external k → k < t.records.length

theorem adjointSweep_of_ne {t : Tape F} {start stop : Position}
    (hspan : start.statements ≤ stop.statements ∧ stop.statements ≤ t.statementCount)
    (hne : start.statements ≠ stop.statements) (kernels : Kernels F) :
    t.adjointSweep kernels start stop =
      (t.range start stop).reverse.foldlM (Traced.adjointStep kernels) ⟨t.widen, []⟩ >>= fun s =>
        .ok (s.mapTape t.settle) := by
  have hcheck : t.checkSpan start stop = .ok () := if_pos hspan
  rw [adjointSweep_eq, hcheck, adjointDeeds, if_neg hne, List.cons_append]
  change Deed.runAll kernels ⟨t, []⟩ _ = _
  rw [Deed.runAll_update, Deed.runAll_append, Deed.runAll, List.foldlM_map]
  simp only [← Deed.adjointStep_eq]
  rfl

theorem adjointSweep_of_eq {t : Tape F} {start stop : Position}
    (hspan : start.statements ≤ stop.statements ∧ stop.statements ≤ t.statementCount)
    (heq : start.statements = stop.statements) (kernels : Kernels F) :
    t.adjointSweep kernels start stop = .ok ⟨t, []⟩ := by
  have hcheck : t.checkSpan start stop = .ok () := if_pos hspan
  rw [adjointSweep_eq, hcheck, adjointDeeds, if_pos heq]
  rfl

variable {t u : Tape F}

theorem adjoints_settle (t u : Tape F) : (t.settle u).vectors.adjoints = u.vectors.adjoints := by
  rw [settle]
  split <;> rfl

theorem Sweeping.primals_settle (h : t.Sweeping u) :
    (t.settle u).vectors.primals = t.widen.vectors.primals := by
  rw [settle]
  split
  case isTrue => rfl
  case isFalse hb =>
    cases hlinear : t.traits.linear with
    | true => exact h.primals_eq hlinear
    | false =>
      -- Without primals there is nothing to roll back.
      have hpolicy : t.issuer.policy.isLinear = false := hlinear
      have hprimals : t.hasPrimals = false := by
        simpa [Traits.rollsBack, traits, hpolicy] using hb
      have hwiden := t.widen_sameRecording.hasPrimals_eq.trans hprimals
      have hu := h.same.hasPrimals_eq.trans hwiden
      rw [hasPrimals, Vectors.hasPrimals, Option.isSome_eq_false_iff, Option.isNone_iff_eq_none]
        at hwiden hu
      rw [hwiden, hu]

theorem Sweeping.settle_sameRecording (h : t.Sweeping u) : t.SameRecording (t.settle u) := by
  have hwiden := t.widen_sameRecording
  have hsame := hwiden.trans h.same
  refine ⟨?_, ?_, ?_, ?_, ?_⟩
  · rw [settle]
    split <;> exact hsame.issuer_eq
  · rw [settle]
    split <;> exact hsame.log_eq
  · rw [settle]
    split <;> exact hsame.pending_eq
  · rw [settle]
    split <;> exact hsame.records_eq
  · rw [hasPrimals, Vectors.hasPrimals, h.primals_settle]
    exact hwiden.hasPrimals_eq

theorem Sweeping.lent_settle (h : t.Sweeping u) : (t.settle u).pool.lent = t.pool.lent := by
  rw [settle]
  split <;> exact h.lent_eq

theorem primal_widen (h : t.Grounded) (hp : u.vectors.primals = t.widen.vectors.primals)
    (id : Identifier) : u.primal? id = t.primal? id := by
  rw [primal?, primal?, hp]
  change (t.vectors.primals.map _).map _ = _
  cases hprimals : t.vectors.primals with
  | none => rfl
  | some p =>
    change some ((p.ensure t.issuer.largest).get id) = some (p.get id)
    rw [Slots.get_ensure (h.primal_eq p hprimals)]

theorem vectors_widen (hp : u.vectors.primals = t.widen.vectors.primals)
    (hissuer : u.issuer = t.issuer) :
    (u.withAdjoints t.vectors.adjoints).widen.vectors = t.widen.vectors := by
  change Vectors.mk (t.vectors.adjoints.ensure u.issuer.largest)
    (u.vectors.primals.map (·.ensure u.issuer.largest)) = _
  rw [hissuer, hp]
  change Vectors.mk _ ((t.vectors.primals.map _).map _) = Vectors.mk _ (t.vectors.primals.map _)
  rw [Option.map_map]
  refine congrArg (Vectors.mk _) (congrArg (t.vectors.primals.map ·) ?_)
  funext p
  exact p.ensure_ensure t.issuer.largest

structure Steady (kernels : Kernels F) (start stop : Position) (t u : Tape F) : Prop where
  log_eq : u.log = t.log
  pending_eq : u.pending = t.pending
  records_eq : u.records = t.records
  issuer_eq : u.issuer = t.issuer
  primal_eq : ∀ id, u.primal? id = t.primal? id
  again : Yields ((u.withAdjoints t.vectors.adjoints).adjointSweep kernels start stop) fun s =>
    s.tape.vectors.adjoints = u.vectors.adjoints
  again_of_slot_eq : ∀ v : Slots F, t.vectors.adjoints.slot passive = 0 →
    v.slot = t.vectors.adjoints.slot →
    Yields ((u.withAdjoints v).adjointSweep kernels start stop) fun s =>
      s.tape.vectors.adjoints.slot = u.vectors.adjoints.slot

theorem Sweeping.restart {known : Identifier → Prop} {V : Vectors F → Vectors F → Prop}
    {kernels : Kernels F} {start stop : Position} {s : Traced F} (hV : Vectors.Bisimulation known V)
    (hlog : ∀ st ∈ t.log, st.Grounded)
    (hheeds : ∀ record ∈ t.records, record.Heeds kernels t.traits known)
    (hspan : start.statements ≤ stop.statements ∧ stop.statements ≤ t.statementCount)
    (hne : start.statements ≠ stop.statements)
    (hfold : (t.range start stop).reverse.foldlM (Traced.adjointStep kernels) ⟨t.widen, []⟩ = .ok s)
    (h : t.Sweeping s.tape) {v : Slots F}
    (hv : V t.widen.vectors ((t.settle s.tape).withAdjoints v).widen.vectors) :
    Yields (((t.settle s.tape).withAdjoints v).adjointSweep kernels start stop) fun s' =>
      ∃ w, V s.tape.vectors w ∧ s'.tape.vectors.adjoints = w.adjoints := by
  have hsame := h.settle_sameRecording
  have hrange : ((t.settle s.tape).withAdjoints v).range start stop = t.range start stop :=
    congrArg (fun log => (List.take stop.statements log).drop start.statements) hsame.log_eq
  have hcount : ((t.settle s.tape).withAdjoints v).statementCount = t.statementCount :=
    congrArg List.length hsame.log_eq
  rw [adjointSweep_of_ne (by rw [hcount]; exact hspan) hne, hrange]
  have htraits : ((t.settle s.tape).withAdjoints v).widen.traits = t.widen.traits :=
    congrArg₂ Traits.mk (hV.hasPrimals_eq hv).symm
      (congrArg (fun m : Issuer => m.policy.isLinear) hsame.issuer_eq)
  have halike : t.widen.Alike V ((t.settle s.tape).withAdjoints v).widen :=
    ⟨htraits, hsame.records_eq, h.lent_settle, hv⟩
  have hagain : Yields ((t.range start stop).reverse.foldlM (Traced.adjointStep kernels)
      ⟨((t.settle s.tape).withAdjoints v).widen, []⟩) fun u => s.tape.Alike V u.tape := by
    apply Traced.adjointFold_alike hV _ halike (t.widen_sameRecording.traits_eq ▸ hheeds) hfold
    intro st hst
    exact hlog st (mem_of_mem_range (List.mem_reverse.mp hst))
  exact hagain.bind fun s' hs' => .ok ⟨_, hs'.vectors, adjoints_settle ..⟩

theorem adjointSweep_missing {kernels : Kernels F} {start stop : Position}
    (hmissing : ¬ t.FindsAll start stop)
    (hobliges : ∀ record ∈ t.records, record.Obliges kernels t)
    (hspan : start.statements ≤ stop.statements ∧ stop.statements ≤ t.statementCount) :
    ∃ notes, t.adjointSweep kernels start stop = .error ⟨.missingRecord, notes⟩ := by
  have hne : start.statements ≠ stop.statements := by
    intro heq
    refine hmissing fun st hst => ?_
    rw [range, heq, List.drop_eq_nil_of_le (List.length_take_le ..)] at hst
    cases hst
  have hfold : ∃ notes, (t.range start stop).reverse.foldlM (Traced.adjointStep kernels)
      ⟨t.widen, []⟩ = .error ⟨.missingRecord, notes⟩ := by
    refine (Sweeping.widen t).adjointFold_missing (fun hfinds => hmissing ?_) hobliges
    exact fun st hst => hfinds st (List.mem_reverse.mpr hst)
  obtain ⟨notes, hfold⟩ := hfold
  rw [adjointSweep_of_ne hspan hne, hfold]
  exact ⟨notes, rfl⟩

theorem adjointSweep_steady {kernels : Kernels F} {start stop : Position} (h : t.Grounded)
    (hfinds : t.FindsAll start stop)
    (hobliges : ∀ record ∈ t.records, record.Obliges kernels t)
    (hspan : start.statements ≤ stop.statements ∧ stop.statements ≤ t.statementCount) :
    Yields (t.adjointSweep kernels start stop) fun s => Steady kernels start stop t s.tape := by
  by_cases heq : start.statements = stop.statements
  · rw [adjointSweep_of_eq hspan heq]
    exact .ok ⟨rfl, rfl, rfl, rfl, fun _ => rfl,
      ⟨_, adjointSweep_of_eq (t := t.withAdjoints _) hspan heq kernels, rfl⟩,
      fun v _ hv => ⟨_, adjointSweep_of_eq (t := t.withAdjoints v) hspan heq kernels, hv⟩⟩
  · rw [adjointSweep_of_ne hspan heq]
    have hyields : Yields ((t.range start stop).reverse.foldlM (Traced.adjointStep kernels)
        ⟨t.widen, []⟩) fun s => t.Sweeping s.tape := by
      apply Sweeping.adjointFold _ hobliges
      intro st hst
      exact hfinds st (List.mem_reverse.mp hst)
    obtain ⟨s, hfold, hsweeping⟩ := hyields
    rw [hfold]
    have hsame := hsweeping.settle_sameRecording
    have hprimals := hsweeping.primals_settle
    have hheeds := fun record hrecord => (hobliges record hrecord).heeds
    refine .ok ⟨hsame.log_eq, hsame.pending_eq, hsame.records_eq, hsame.issuer_eq,
      primal_widen h hprimals, ?_, fun v hz hv => ?_⟩
    · have hagain := hsweeping.restart (Vectors.bisimulation_eq _) h.log hheeds hspan heq hfold
        (vectors_widen hprimals hsame.issuer_eq).symm
      refine hagain.mono ?_
      rintro s' ⟨w, rfl, hw⟩
      exact hw.trans (adjoints_settle ..).symm
    · have hreads : Vectors.Reads (fun _ => True) t.widen.vectors
          ((t.settle s.tape).withAdjoints v).widen.vectors := by
        have hsettled := congrArg Vectors.primals (vectors_widen hprimals hsame.issuer_eq)
        have hkept : ((t.settle s.tape).withAdjoints v).widen.vectors.primals =
            t.widen.vectors.primals := hsettled
        refine .of_primals_eq ?_ ?_ hkept ?_
        · funext id
          change (t.vectors.adjoints.ensure _).slot id = (v.ensure _).slot id
          rw [Slots.slot_ensure, Slots.slot_ensure, hv]
        · exact (Slots.slot_ensure ..).trans hz
        · exact (h.samePassive t.widen_sameRecording (.ensure ..)).primal_eq
      refine (hsweeping.restart (Vectors.bisimulation_reads _) h.log hheeds hspan heq hfold
        hreads).mono ?_
      rintro s' ⟨w, hw, heq⟩
      change s'.tape.vectors.adjoints.slot = (t.settle s.tape).vectors.adjoints.slot
      rw [heq, adjoints_settle]
      exact hw.adjoint_eq.symm

end Tape

namespace Shelf

theorem Runs.grounded {accept : Shelf F → Tape F → Position → Prop} {s : Shelf F}
    {ps : List (Posting F)} (h : s.Runs accept ps) :
    ∀ reel, some reel ∈ s.reels → reel.tape.Grounded :=
  (h.invariant (P := fun reel => reel.tape.Grounded) (M := fun _ => True) Tape.grounded_new
    (fun _ _ => trivial) fun _ hgrounded ha => ha.grounded hgrounded).1

/-- Where each call in the range has its record, an adjoint sweep leaves all but the adjoints as it was.
Where one has none, the sweep cannot be finished. As long as tapes go back only to what they still hold,
no record is missing. -/
theorem Runs.adjointSweep_repeats {accept : Shelf F → Tape F → Position → Prop} {s : Shelf F}
    {ps : List (Posting F)} (h : s.Runs accept ps) {reel : Reel F} (hreel : some reel ∈ s.reels)
    {kernels : Kernels F} {start stop : Position}
    (hspan : start.statements ≤ stop.statements ∧ stop.statements ≤ reel.tape.statementCount)
    (hobliges : ∀ record ∈ reel.tape.records, record.Obliges kernels reel.tape) :
    (reel.tape.FindsAll start stop →
      Yields (reel.tape.adjointSweep kernels start stop) fun u =>
        Tape.Steady kernels start stop reel.tape u.tape) ∧
    (¬ reel.tape.FindsAll start stop →
      ∃ notes, reel.tape.adjointSweep kernels start stop = .error ⟨.missingRecord, notes⟩) ∧
    (s.Runs StillPrefix ps → reel.tape.FindsAll start stop) := by
  refine ⟨fun hfinds => ?_, fun hmissing => ?_, fun hstill st hst k hk => ?_⟩
  · exact Tape.adjointSweep_steady (h.grounded reel hreel) hfinds hobliges hspan
  · exact Tape.adjointSweep_missing hmissing hobliges hspan
  · exact (hstill.ordered.1 reel hreel).record_lt (Tape.mem_of_mem_range hst) hk

def overreaching : Kernel Int where
  name := "overreaching"
  forward := .pure ()
  reverse := do
    let b ← Program.act (.lendValues 1)
    let g ← Program.act (.takeGradient 1)
    Program.act (.addGradient 3 (g + b.items.getD 0 5))
    Program.act (.setPrimal 1 8)
    Program.act (.setPrimal 9 8)
    Program.act (.returnValues b)
  delete := .pure ()

theorem overreaching_blind : overreaching.reverse.Blind := by
  refine .perform _ fun b b' hb => .perform _ fun g g' hg => ?_
  obtain rfl : g = g' := hg
  have hitems : b.items = b'.items := hb
  rw [hitems]
  refine .perform _ fun _ _ _ => .perform _ fun _ _ _ => .perform _ fun _ _ _ => ?_
  exact .returnValues b b' (.pure rfl)

theorem overreaching_obliges (record : Record Int) {t : Tape Int} (ht : t.traits.linear = false) :
    record.Obliges (fun _ => some overreaching) t := by
  refine ⟨overreaching, rfl, overreaching_blind, fun r _ _ _ => ?_⟩
  refine ⟨((), _), rfl, rfl, fun hlinear => ?_⟩
  rw [ht] at hlinear
  cases hlinear

theorem runs_overreached : ∃ (s : Shelf Int) (ps : List (Posting Int)) (reel : Reel Int),
    s.Runs StillPrefix ps ∧ some reel ∈ s.reels ∧ reel.tape.traits.rollsBack = true ∧
      reel.tape.statementCount = 2 ∧ reel.tape.vectors.adjoints = ⟨0, [7]⟩ ∧
      reel.tape.vectors.primals = some ⟨0, [5]⟩ := by
  have opened : Runs (F := Int) StillPrefix _ _ := Runs.empty.create .reuse .primalValues
  have closed := opened.act (i := 0) rfl (.closeStatement _ passive 5)
  have called := closed.act (i := 0) rfl (.addBlank _ 1 3)
  have seeded := called.act (i := 0) rfl (.seed _ ⟨0, [7]⟩)
  exact ⟨_, _, _, seeded, List.mem_singleton.mpr rfl, rfl, rfl, rfl, rfl⟩

theorem Runs.adjointSweep_repeats_overreaching :
    ∃ (s : Shelf Int) (ps : List (Posting Int)) (reel : Reel Int),
      s.Runs StillPrefix ps ∧ some reel ∈ s.reels ∧ reel.tape.statementCount = 2 ∧
        (∀ record ∈ reel.tape.records, record.Obliges (fun _ => some overreaching) reel.tape) ∧
        Yields (reel.tape.adjointSweep (fun _ => some overreaching) .zero reel.tape.position)
          fun u => Tape.Steady (fun _ => some overreaching) .zero reel.tape.position reel.tape
            u.tape := by
  obtain ⟨s, ps, reel, h, hreel, hrolls, hcount, -, -⟩ := runs_overreached
  have hlinear : reel.tape.traits.linear = false := by
    simpa [Traits.rollsBack] using (Bool.and_eq_true_iff.mp hrolls).2
  have hobliges : ∀ record ∈ reel.tape.records,
      record.Obliges (fun _ => some overreaching) reel.tape :=
    fun record _ => overreaching_obliges record hlinear
  have hspan : Position.zero.statements ≤ reel.tape.position.statements ∧
      reel.tape.position.statements ≤ reel.tape.statementCount := ⟨Nat.zero_le _, Nat.le_refl _⟩
  obtain ⟨hsteady, -, hfinds⟩ := h.adjointSweep_repeats hreel hspan hobliges
  exact ⟨s, ps, reel, h, hreel, hcount, hobliges, hsteady (hfinds h)⟩

/-- The mark stands after two statements. After the reset, two records and the way back to the mark, both
statements are calls, and neither has its record. -/
theorem not_adjointSweep_repeats_stale :
    ∃ (s : Shelf Int) (ps : List (Posting Int)) (reel : Reel Int),
      s.Runs (fun s _ p => ∃ u ∈ s.marked, p = u.position) ps ∧ s.reels = [some reel] ∧
        reel.tape.log.map Statement.kind = [.external 0, .external 1] ∧
        (∀ record ∈ reel.tape.records, record.Obliges silent reel.tape) ∧
        reel.tape.adjointSweep silent .zero reel.tape.position = .error ⟨.missingRecord, []⟩ := by
  have opened : Runs (F := Int) (fun s _ p => ∃ u ∈ s.marked, p = u.position) _ _ :=
    Runs.empty.create .reuse .jacobian
  have closed := opened.act (i := 0) rfl (.closeStatement _ passive 5)
  have marked := (closed.act (i := 0) rfl (.closeStatement _ passive 7)).mark (i := 0) rfl
  have cleared := marked.act (i := 0) rfl (.clear (show Tape.clear _ silent = .ok _ from rfl))
  have called := cleared.act (i := 0) rfl (.addBlank _ 0 0)
  have again := called.act (i := 0) rfl (.addBlank _ 0 0)
  have stale := again.act (i := 0) rfl (.backTo (show Tape.backTo _ silent ⟨2, 0, 2⟩ = .ok _ from rfl)
    ⟨_, List.mem_singleton.mpr rfl, rfl⟩)
  exact ⟨_, _, _, stale, rfl, rfl, fun _ hrecord => absurd hrecord List.not_mem_nil, rfl⟩

end Shelf

end Autodiff
