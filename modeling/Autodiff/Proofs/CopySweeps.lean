import Autodiff.Proofs.Statelessness

namespace Autodiff

variable {F : Type} [Scalar F]

/-- A seed that a copy hands on as it is, in an arithmetic where a sweep tells zero. -/
structure Scalar.Transmits (x : F) : Prop where
  copied : 0 + 1 * x = x
  eq_zero : isZero x = true → x = 0
  isZero_zero : isZero (0 : F) = true

theorem Scalar.transmits {F : Type} [ExactScalar F] (x : F) : Transmits x :=
  ⟨by rw [one_mul, zero_add], (isZero_iff x).mp, (isZero_iff 0).mpr rfl⟩

namespace Statement

def pulled (st : Statement F) (v : Slots F) : Slots F :=
  match st.kind with
  | .elementary => st.propagate v
  | _ => v

def Sends (st : Statement F) (new old : Identifier) (x : F) : Prop :=
  ∀ v : Slots F, (∀ i, v.slot i = if new = i then x else 0) →
    ∀ i, (st.pulled v).slot i = if old = i then x else 0

variable {st : Statement F} {old new : Identifier} {x : F}

theorem sends_of_ne (hx : Scalar.Transmits x) (hnew : new ≠ passive) (hout : new ≠ st.output) :
    st.Sends new new x := by
  intro v hv i
  have hpassive : v.slot passive = 0 := by rw [hv, if_neg hnew]
  rw [pulled]
  split
  case h_1 =>
    rw [propagate, Slots.get_eq_slot hpassive, hv, if_neg hout, if_pos hx.isZero_zero]
    exact hv i
  case h_2 => exact hv i

theorem sends_copy (hx : Scalar.Transmits x) (hnew : new ≠ passive) (hne : old ≠ new)
    (overwrite : Option (Overwrite F)) :
    (⟨new, .elementary, [(old, 1)], overwrite⟩ : Statement F).Sends new old x := by
  intro v hv i
  have hpassive : v.slot passive = 0 := by rw [hv, if_neg hnew]
  change (propagate ⟨new, .elementary, [(old, 1)], overwrite⟩ v).slot i = _
  rw [propagate]
  dsimp only
  rw [Slots.get_eq_slot hpassive, hv, if_pos rfl]
  split
  case isTrue hzero => rw [hv, hx.eq_zero hzero, ite_self, ite_self]
  case isFalse =>
    change ((v.set new 0).modify old (· + 1 * x)).slot i = _
    rw [Slots.modify, Slots.slot_set, Slots.slot_set, if_neg (Ne.symm hne), hv,
      if_neg (Ne.symm hne), hx.copied]
    split
    case isTrue => rfl
    case isFalse =>
      rw [Slots.slot_set, hv]
      split <;> rfl

end Statement

namespace Tape

variable {t u w : Tape F} {st : Statement F} {id old new mid : Identifier} {x : F}
  {kernels : Kernels F}

def seeded (t : Tape F) (id : Identifier) (x : F) : Tape F := t.zeroAdjoints.writeGradient id x

theorem slot_seeded (t : Tape F) (id : Identifier) (x : F) (i : Identifier) :
    (t.seeded id x).vectors.adjoints.slot i = if id = i then x else 0 := by
  change (t.vectors.adjoints.zeroAll.set id x).slot i = _
  rw [Slots.slot_set, Slots.slot_zeroAll]

theorem slot_seeded_widen (t : Tape F) (id : Identifier) (x : F) (i : Identifier) :
    (t.seeded id x).widen.vectors.adjoints.slot i = if id = i then x else 0 :=
  (Slots.slot_ensure ..).trans (slot_seeded t id x i)

theorem gradient_widen (hz : t.vectors.adjoints.slot passive = 0) (id : Identifier) :
    t.widen.gradient id = t.gradient id := by
  change (t.vectors.adjoints.ensure _).get id = t.vectors.adjoints.get id
  rw [Slots.get_ensure hz]

theorem gradient_settle (t u : Tape F) (id : Identifier) :
    (t.settle u).gradient id = u.gradient id := by
  rw [gradient, gradient, Vectors.gradient, adjoints_settle]
  rfl

theorem adjointSweepAll_of_ne (hne : t.log ≠ []) :
    t.adjointSweepAll kernels = t.log.reverse.foldlM (Traced.adjointStep kernels) ⟨t.widen, []⟩ >>=
      fun s => .ok (s.mapTape t.settle) := by
  have hcount : Position.zero.statements ≠ t.position.statements := fun h =>
    hne (List.length_eq_zero_iff.mp h.symm)
  rw [adjointSweepAll, adjointSweep_of_ne ⟨Nat.zero_le _, Nat.le_refl _⟩ hcount,
    t.range_zero_position]

theorem adjointSweepAll_of_nil (hnil : t.log = []) : t.adjointSweepAll kernels = .ok ⟨t, []⟩ := by
  have hcount : Position.zero.statements = t.position.statements :=
    (congrArg List.length hnil).symm
  exact adjointSweep_of_eq ⟨Nat.zero_le _, Nat.le_refl _⟩ hcount kernels

theorem exists_fold_of_adjointSweepAll {s : Traced F} (hz : t.vectors.adjoints.slot passive = 0)
    (h : t.adjointSweepAll kernels = .ok s) :
    Yields (t.log.reverse.foldlM (Traced.adjointStep kernels) ⟨t.widen, []⟩) fun s' =>
      ∀ id, s'.tape.gradient id = s.tape.gradient id := by
  by_cases hlog : t.log = []
  · rw [adjointSweepAll_of_nil hlog] at h
    cases h
    rw [hlog]
    exact .ok (gradient_widen hz)
  · rw [adjointSweepAll_of_ne hlog] at h
    obtain ⟨u, hu, h⟩ := exists_of_bind_eq_ok h
    cases h
    exact ⟨u, hu, fun id => (gradient_settle t u.tape id).symm⟩

theorem adjointSweepAll_of_fold {Q : Traced F → Prop} (hz : t.vectors.adjoints.slot passive = 0)
    (h : Yields (t.log.reverse.foldlM (Traced.adjointStep kernels) ⟨t.widen, []⟩) Q) :
    Yields (t.adjointSweepAll kernels) fun s =>
      ∃ s', Q s' ∧ ∀ id, s.tape.gradient id = s'.tape.gradient id := by
  by_cases hlog : t.log = []
  · rw [hlog] at h
    obtain ⟨s', hs', hQ⟩ := h
    cases hs'
    rw [adjointSweepAll_of_nil hlog]
    exact .ok ⟨_, hQ, fun id => (gradient_widen hz id).symm⟩
  · rw [adjointSweepAll_of_ne hlog]
    exact h.bind fun s' hQ => .ok ⟨s', hQ, gradient_settle t s'.tape⟩

/-- A linear tape will write the primals of later identifiers, so nothing is known of them. -/
def Knows (t : Tape F) (id : Identifier) : Prop :=
  t.traits.linear = true → t.traits.hasPrimals = true → id ≤ t.issuer.largest

/-- The second tape has more statements, and a sweep seeded at `new` gives the derivatives that one
seeded at `old` gave on the first tape. -/
structure Echoes (t : Tape F) (old : Identifier) (u : Tape F) (new : Identifier) : Prop where
  records_eq : u.records = t.records
  traits_eq : u.traits = t.traits
  largest_le : t.issuer.largest ≤ u.issuer.largest
  gradient_eq : ∀ (kernels : Kernels F) (x : F), Scalar.Transmits x →
    (∀ record ∈ t.records, record.Heeds kernels t.traits t.Knows) →
    ∀ s, (t.seeded old x).adjointSweepAll kernels = .ok s →
      Yields ((u.seeded new x).adjointSweepAll kernels) fun s' =>
        ∀ id, s'.tape.gradient id = s.tape.gradient id

namespace Echoes

theorem refl (t : Tape F) (id : Identifier) : t.Echoes id t id :=
  ⟨rfl, rfl, Nat.le_refl _, fun _ _ _ _ s hs => ⟨s, hs, fun _ => rfl⟩⟩

theorem trans (h : t.Echoes old u mid) (h' : u.Echoes mid w new) : t.Echoes old w new := by
  refine ⟨h'.records_eq.trans h.records_eq, h'.traits_eq.trans h.traits_eq,
    h.largest_le.trans h'.largest_le, fun kernels x hx hheeds s hs => ?_⟩
  have hknows (id : Identifier) (hid : t.Knows id) : u.Knows id := by
    rw [Knows, h.traits_eq]
    exact fun hl hp => (hid hl hp).trans h.largest_le
  have hheeds' : ∀ record ∈ u.records, record.Heeds kernels u.traits u.Knows := by
    rw [h.records_eq, h.traits_eq]
    exact fun record hrecord => (hheeds record hrecord).mono hknows
  obtain ⟨s₁, hs₁, hgradient⟩ := h.gradient_eq kernels x hx hheeds s hs
  refine (h'.gradient_eq kernels x hx hheeds' s₁ hs₁).mono fun s' hs' id => ?_
  exact (hs' id).trans (hgradient id)

theorem of_later (ht : t.Grounded) (hold : old ≠ passive) (hnew : new ≠ passive)
    (hrecords : u.records = t.records) (htraits : u.traits = t.traits)
    (hlargest : t.issuer.largest ≤ u.issuer.largest) {later : List (Statement F)}
    (hlog : u.log = t.log ++ later)
    (hlater : ∀ (kernels : Kernels F) (x : F), Scalar.Transmits x →
      Yields (later.reverse.foldlM (Traced.adjointStep kernels) ⟨(u.seeded new x).widen, []⟩)
        fun s => (t.seeded old x).widen.Alike (Vectors.Reads t.Knows) s.tape) :
    t.Echoes old u new := by
  refine ⟨hrecords, htraits, hlargest, fun kernels x hx hheeds s hs => ?_⟩
  have hpassive {t : Tape F} {id : Identifier} (hid : id ≠ passive) :
      (t.seeded id x).vectors.adjoints.slot passive = 0 := by rw [slot_seeded, if_neg hid]
  obtain ⟨s₁, hs₁, hgradient⟩ := exists_fold_of_adjointSweepAll (hpassive hold) hs
  have htraits' : (t.seeded old x).widen.traits = t.traits :=
    (t.seeded old x).widen_sameRecording.traits_eq
  have hfold : Yields ((u.seeded new x).log.reverse.foldlM (Traced.adjointStep kernels)
      ⟨(u.seeded new x).widen, []⟩) fun s' =>
        s₁.tape.Alike (Vectors.Reads t.Knows) s'.tape := by
    have hlog' : (u.seeded new x).log = t.log ++ later := hlog
    rw [hlog', List.reverse_append, List.foldlM_append]
    refine (hlater kernels x hx).bind fun s₂ hs₂ => ?_
    apply Traced.adjointFold_alike (Vectors.bisimulation_reads t.Knows) _ hs₂ (htraits' ▸ hheeds)
      hs₁
    exact fun st hst => ht.log st (List.mem_reverse.mp hst)
  refine (adjointSweepAll_of_fold (hpassive hnew) hfold).mono ?_
  rintro s' ⟨s₂, halike, hs'⟩ id
  calc s'.tape.gradient id
      = s₂.tape.gradient id := hs' id
    _ = s₁.tape.gradient id :=
        ((Vectors.bisimulation_reads t.Knows).gradient_eq halike.vectors id).symm
    _ = s.tape.gradient id := hgradient id

end Echoes

structure Rests (t u : Tape F) : Prop where
  log_eq : u.log = t.log
  records_eq : u.records = t.records
  pool_eq : u.pool = t.pool
  traits_eq : u.traits = t.traits
  largest_le : t.issuer.largest ≤ u.issuer.largest
  primals_eq : ∀ p ∈ t.vectors.primals, ∀ q ∈ u.vectors.primals,
    q.slot passive = p.slot passive ∧ ∀ id, t.Knows id → q.slot id = p.slot id

structure Appends (t : Tape F) (st : Statement F) (u : Tape F) : Prop where
  output_ne : st.output ≠ passive
  own : ∀ k, st.kind ≠ .external k
  fresh : t.issuer.policy = .linear → t.issuer.largest < st.output
  log_eq : u.log = t.log ++ [st]
  records_eq : u.records = t.records
  pool_eq : u.pool = t.pool
  policy_eq : u.issuer.policy = t.issuer.policy
  largest_le : t.issuer.largest ≤ u.issuer.largest
  replaces : ∃ value, st.overwrite = t.overwriteOf st.output value ∧
    u.vectors.primals = t.vectors.primals.map (·.set st.output value)

theorem policy_of_linear (h : t.traits.linear = true) : t.issuer.policy = .linear := by
  change t.issuer.policy.isLinear = true at h
  cases hp : t.issuer.policy with
  | linear => rfl
  | reuse =>
    rw [hp] at h
    cases h

theorem seeded_alike (ht : t.Grounded) (hold : old ≠ passive) (htraits : u.traits = t.traits)
    (hrecords : u.records = t.records) (hpool : u.pool = t.pool)
    (hadjoints : ∀ i, u.vectors.adjoints.slot i = if old = i then x else 0)
    (hprimals : ∀ p ∈ t.vectors.primals, ∀ q ∈ u.vectors.primals,
      q.slot passive = p.slot passive ∧ ∀ id, t.Knows id → q.slot id = p.slot id) :
    (t.seeded old x).widen.Alike (Vectors.Reads t.Knows) u := by
  have hwiden := (t.seeded old x).widen_sameRecording
  have hhas : u.hasPrimals = (t.seeded old x).widen.hasPrimals :=
    (congrArg Traits.hasPrimals htraits).trans hwiden.hasPrimals_eq.symm
  refine ⟨htraits.trans hwiden.traits_eq.symm, hrecords, congrArg Pool.lent hpool, ?_, ?_,
    hhas.symm, fun p hp q hq => ?_⟩
  · funext i
    rw [slot_seeded_widen, hadjoints]
  · rw [slot_seeded_widen, if_neg hold]
  · obtain ⟨p₀, hp₀, rfl⟩ := Option.mem_map.mp hp
    obtain ⟨hpassive, hknown⟩ := hprimals p₀ hp₀ q hq
    refine ⟨?_, hpassive.trans (ht.primal_eq p₀ hp₀), fun id hid => ?_⟩
    · rw [Slots.slot_ensure]
      exact ht.primal_eq p₀ hp₀
    · rw [Slots.slot_ensure]
      exact (hknown id hid).symm

theorem Rests.echoes (h : t.Rests u) (ht : t.Grounded) (hid : id ≠ passive) : t.Echoes id u id := by
  have hlog : u.log = t.log ++ [] := by rw [h.log_eq, List.append_nil]
  refine .of_later ht hid hid h.records_eq h.traits_eq h.largest_le hlog fun kernels x hx => .ok ?_
  apply seeded_alike ht hid
  · exact (u.seeded id x).widen_sameRecording.traits_eq.trans h.traits_eq
  · exact h.records_eq
  · exact h.pool_eq
  · exact slot_seeded_widen u id x
  · intro p hp q hq
    obtain ⟨q₀, hq₀, rfl⟩ := Option.mem_map.mp hq
    obtain ⟨hpassive, hknown⟩ := h.primals_eq p hp q₀ hq₀
    refine ⟨(Slots.slot_ensure ..).trans hpassive, fun id hid => ?_⟩
    rw [Slots.slot_ensure]
    exact hknown id hid

namespace Appends

theorem traits_eq (h : t.Appends st u) : u.traits = t.traits := by
  obtain ⟨value, -, hprimals⟩ := h.replaces
  rw [traits, traits, h.policy_eq, hasPrimals, Vectors.hasPrimals, hprimals, Option.isSome_map]
  rfl

theorem primals_eq (h : t.Appends st u) (id : Identifier) (x : F) :
    ∀ p ∈ t.vectors.primals, ∀ q ∈ (Traced.undoPrimal st (u.seeded id x).widen).vectors.primals,
      q.slot passive = p.slot passive ∧ ∀ i, t.Knows i → q.slot i = p.slot i := by
  intro p hp q hq
  obtain ⟨value, hoverwrite, hprimals⟩ := h.replaces
  have htraits : (u.seeded id x).widen.traits = t.traits :=
    (u.seeded id x).widen_sameRecording.traits_eq.trans h.traits_eq
  have hwritten : (u.seeded id x).widen.vectors.primals =
      some ((p.set st.output value).ensure u.issuer.largest) := by
    change u.vectors.primals.map _ = _
    rw [hprimals, Option.mem_def.mp hp]
    rfl
  rw [Traced.undoPrimal, htraits] at hq
  split at hq
  case isTrue =>
    have hundo : st.undo = fun q : Slots F => q.set st.output (p.slot st.output) := by
      funext q
      rw [Statement.undo, hoverwrite, overwriteOf, Option.mem_def.mp hp, Option.map_some, replaced,
        if_neg h.output_ne]
    change q ∈ (u.seeded id x).widen.vectors.primals.map _ at hq
    rw [hwritten, hundo] at hq
    obtain rfl := Option.some.inj hq
    have hslot (i : Identifier) : (((p.set st.output value).ensure u.issuer.largest).set st.output
        (p.slot st.output)).slot i = p.slot i := by
      rw [Slots.slot_set, Slots.slot_ensure, Slots.slot_set]
      split
      case isTrue hi => rw [hi]
      case isFalse => rfl
    exact ⟨hslot passive, fun i _ => hslot i⟩
  case isFalse hrolls =>
    rw [hwritten] at hq
    obtain rfl := Option.some.inj hq
    have hhas : t.traits.hasPrimals = true := Option.isSome_of_mem hp
    have hlinear : t.traits.linear = true := by
      simpa [Traits.rollsBack, hhas] using hrolls
    have hslot {i : Identifier} (hi : st.output ≠ i) :
        ((p.set st.output value).ensure u.issuer.largest).slot i = p.slot i := by
      rw [Slots.slot_ensure, Slots.slot_set, if_neg hi]
    refine ⟨hslot h.output_ne, fun i hi => hslot ?_⟩
    exact (Nat.lt_of_le_of_lt (hi hlinear hhas) (h.fresh (policy_of_linear hlinear))).ne'

theorem adjointStep_alike (h : t.Appends st u) (ht : t.Grounded) (hold : old ≠ passive)
    (hsends : st.Sends new old x) (kernels : Kernels F) :
    Yields (Traced.adjointStep kernels ⟨(u.seeded new x).widen, []⟩ st) fun s =>
      (t.seeded old x).widen.Alike (Vectors.Reads t.Knows) s.tape := by
  have hprimals := h.primals_eq new x
  have hundo := Traced.undoPrimal_sameRecording st (u.seeded new x).widen
  have hstep : Traced.adjointStep kernels ⟨(u.seeded new x).widen, []⟩ st =
      .ok ⟨(Traced.undoPrimal st (u.seeded new x).widen).withAdjoints
        (st.pulled (Traced.undoPrimal st (u.seeded new x).widen).vectors.adjoints), []⟩ := by
    rw [Traced.adjointStep, Statement.pulled]
    cases hkind : st.kind with
    | external k => exact absurd hkind (h.own k)
    | _ => rfl
  have hkept : (Traced.undoPrimal st (u.seeded new x).widen).vectors.adjoints =
      (u.seeded new x).widen.vectors.adjoints ∧
        (Traced.undoPrimal st (u.seeded new x).widen).pool = u.pool := by
    rw [Traced.undoPrimal]
    split <;> exact ⟨rfl, rfl⟩
  rw [hstep]
  generalize Traced.undoPrimal st (u.seeded new x).widen = u' at hprimals hundo hkept ⊢
  have htraits : u'.traits = t.traits :=
    ((u.seeded new x).widen_sameRecording.trans hundo).traits_eq.trans h.traits_eq
  refine .ok (seeded_alike ht hold htraits (hundo.records_eq.trans h.records_eq)
    (hkept.2.trans h.pool_eq) ?_ hprimals)
  apply hsends
  rw [hkept.1]
  exact slot_seeded_widen u new x

theorem echoes (h : t.Appends st u) (ht : t.Grounded) (hold : old ≠ passive)
    (hnew : new ≠ passive) (hsends : ∀ x : F, Scalar.Transmits x → st.Sends new old x) :
    t.Echoes old u new := by
  refine .of_later ht hold hnew h.records_eq h.traits_eq h.largest_le h.log_eq ?_
  intro kernels x hx
  rw [List.reverse_singleton, List.foldlM_cons]
  exact (h.adjointStep_alike ht hold (hsends x hx) kernels).bind fun s hs => .ok hs

end Appends

inductive Idles (t : Tape F) (id : Identifier) : Tape F → Prop
  | rest {u : Tape F} (h : t.Rests u) : Idles t id u
  | statement {st : Statement F} {u : Tape F} (h : t.Appends st u) (hout : id ≠ st.output) :
      Idles t id u

theorem Idles.echoes (h : t.Idles id u) (ht : t.Grounded) (hid : id ≠ passive) :
    t.Echoes id u id := by
  cases h with
  | rest h => exact h.echoes ht hid
  | statement h hout =>
    exact h.echoes ht hid hid fun x hx => Statement.sends_of_ne hx hid hout

end Tape

end Autodiff
