import Autodiff.Proofs.CopySweeps
import Autodiff.Proofs.OrderedCalls
import Autodiff.Proofs.Passages

namespace Autodiff

open Product

variable {F : Type} [Scalar F]

def Record.SameEffect (traits : Traits) (token : Token) (record record' : Record F) : Prop :=
  ∃ c olds c' olds', record.Stores traits token c olds ∧ record'.Stores traits token c' olds' ∧
    Call.SameEffect traits c olds c' olds'

namespace Tape

structure Twin (token : Token) (t u : Tape F) : Prop where
  log_eq : u.log = t.log
  largest_eq : u.issuer.largest = t.issuer.largest
  traits_eq : u.traits = t.traits
  vectors_eq : u.vectors = t.vectors
  records : List.Forall₂ (Record.SameEffect t.traits token) t.records u.records
  record_lt : ∀ st ∈ t.log, ∀ k, st.kind = .external k → k < t.records.length
  lent_left : t.pool.lent = 0
  lent_right : u.pool.lent = 0

namespace Twin

variable {token : Token} {t u : Tape F}

theorem hasPrimals_eq (h : t.Twin token u) : u.hasPrimals = t.hasPrimals :=
  congrArg Traits.hasPrimals h.traits_eq

theorem replace (h : t.Twin token u) {v : Vectors F} (hv : v.hasPrimals = t.vectors.hasPrimals)
    {pool pool' : Pool F} (hl : pool.lent = 0) (hl' : pool'.lent = 0) :
    Twin token { t with vectors := v, pool := pool } { u with vectors := v, pool := pool' } := by
  have htraits : ({ t with vectors := v, pool := pool } : Tape F).traits = t.traits :=
    congrArg (Traits.mk · t.issuer.policy.isLinear) hv
  have hpolicy : u.issuer.policy.isLinear = t.issuer.policy.isLinear :=
    congrArg Traits.linear h.traits_eq
  refine ⟨h.log_eq, h.largest_eq, congrArg (Traits.mk v.hasPrimals) hpolicy, rfl, ?_, h.record_lt,
    hl, hl'⟩
  rw [htraits]
  exact h.records

theorem withVectors (h : t.Twin token u) {v : Vectors F}
    (hv : v.hasPrimals = t.vectors.hasPrimals) :
    Twin token { t with vectors := v } { u with vectors := v } :=
  h.replace hv h.lent_left h.lent_right

theorem withAdjoints (h : t.Twin token u) (v : Slots F) :
    (t.withAdjoints v).Twin token (u.withAdjoints v) := by
  rw [Tape.withAdjoints, Tape.withAdjoints, h.vectors_eq]
  exact h.withVectors rfl

theorem widen (h : t.Twin token u) : t.widen.Twin token u.widen := by
  rw [Tape.widen, Tape.widen, h.vectors_eq, h.largest_eq]
  exact h.withVectors (Vectors.hasPrimals_map ..)

theorem undoPrimal (h : t.Twin token u) (st : Statement F) :
    (Traced.undoPrimal st t).Twin token (Traced.undoPrimal st u) := by
  rw [Traced.undoPrimal, Traced.undoPrimal, h.traits_eq, Tape.withPrimals, Tape.withPrimals,
    h.vectors_eq]
  split
  · exact h.withVectors (Vectors.hasPrimals_map ..)
  · exact h

theorem settle {t₀ u₀ : Tape F} (h₀ : t₀.Twin token u₀) (h : t.Twin token u)
    (hp : t.hasPrimals = t₀.hasPrimals) : (t₀.settle t).Twin token (u₀.settle u) := by
  have hwiden := congrArg Vectors.primals h₀.widen.vectors_eq
  rw [Tape.settle, Tape.settle, h₀.traits_eq, hwiden, Tape.withPrimals, Tape.withPrimals,
    h.vectors_eq]
  split
  · have hkept : (Vectors.mk t.vectors.adjoints t₀.widen.vectors.primals).hasPrimals =
        t.vectors.hasPrimals := t₀.widen_sameRecording.hasPrimals_eq.trans hp.symm
    obtain ⟨hlog, hlargest, htraits, hvectors, hrecords, hlt, hl, hl'⟩ := h.withVectors hkept
    exact ⟨hlog, hlargest, htraits, hvectors, hrecords, hlt, hl, hl'⟩
  · exact h

end Twin

section Bounded

variable {token : Token} {t : Tape F}

theorem Bounded.sameEffect (h : t.Bounded token) :
    List.Forall₂ (Record.SameEffect t.traits token) t.records t.records := by
  refine List.forall₂_same.mpr fun record hrecord => ?_
  obtain ⟨c, olds, hstores, -⟩ := h.records record hrecord
  exact ⟨c, olds, c, olds, hstores, hstores, .refl t.traits c olds⟩

theorem Bounded.twin_withIssuer (h : t.Bounded token) (hidle : t.pool.lent = 0) {m m' : Issuer}
    (hpolicy : m.policy = t.issuer.policy) (hpolicy' : m'.policy = t.issuer.policy)
    (hlargest : m'.largest = m.largest) :
    Twin token { t with issuer := m } { t with issuer := m' } := by
  have htraits (m : Issuer) (hm : m.policy = t.issuer.policy) :
      ({ t with issuer := m } : Tape F).traits = t.traits :=
    congrArg (Traits.mk t.hasPrimals) (congrArg Policy.isLinear hm)
  refine ⟨rfl, hlargest, (htraits m' hpolicy').trans (htraits m hpolicy).symm, rfl, ?_,
    fun st hst => (h.log st hst).record_lt, hidle, hidle⟩
  rw [htraits m hpolicy]
  exact h.sameEffect

theorem Bounded.twin_withRecord {t' : Tape F} (h : t.Bounded token) (hsame : t.SameLog t')
    {record record' : Record F} {pool pool' : Pool F}
    (heffect : record.SameEffect t.traits token record') (hl : pool.lent = 0)
    (hl' : pool'.lent = 0) :
    Twin token { t'.withRecord record with pool := pool }
      { t'.withRecord record' with pool := pool' } := by
  have htraits : ({ t'.withRecord record with pool := pool } : Tape F).traits = t.traits :=
    hsame.traits_eq
  refine ⟨rfl, rfl, rfl, rfl, ?_, fun st hst k hk => ?_, hl, hl'⟩
  · rw [htraits]
    change List.Forall₂ _ (t'.records ++ [record]) (t'.records ++ [record'])
    rw [hsame.records_eq]
    exact List.rel_append h.sameEffect (.cons heffect .nil)
  · change k < (t'.records ++ [record]).length
    rw [List.length_append, List.length_singleton, Nat.lt_succ_iff]
    rcases List.mem_append.mp hst with hst | hst
    · rw [hsame.log_eq] at hst
      rw [hsame.records_eq]
      exact ((h.log st hst).record_lt k hk).le
    · rw [List.mem_singleton.mp hst] at hk
      cases hk
      exact Nat.le_refl _

theorem Bounded.twin_self (h : t.Bounded token) (hidle : t.pool.lent = 0) : t.Twin token t :=
  h.twin_withIssuer hidle rfl rfl rfl

end Bounded

end Tape

namespace Traced

open Tape

variable {kernels : Kernels F} {token : Token} {s s' : Traced F} {st : Statement F} {k : Nat}

theorem foldlM_twin {step : Traced F → Statement F → Except (Halt F) (Traced F)}
    {log : List (Statement F)} (hlog : ∀ st ∈ log, st ∈ s.tape.log)
    (hsame : ∀ s s₁ st, step s st = .ok s₁ → s.tape.SameRecording s₁.tape)
    (hstep : ∀ st s s', st ∈ s.tape.log → s.tape.Twin token s'.tape →
      Yields (step s st) fun s₁ => Yields (step s' st) fun s₁' => s₁.tape.Twin token s₁'.tape)
    (h : s.tape.Twin token s'.tape) :
    Yields (log.foldlM step s) fun s₁ => Yields (log.foldlM step s') fun s₁' =>
      s.tape.SameRecording s₁.tape ∧ s₁.tape.Twin token s₁'.tape := by
  refine Yields.foldlM_pair (R := fun s₁ s₁' : Traced F => s.tape.SameRecording s₁.tape ∧
    s₁.tape.Twin token s₁'.tape) (fun st hst s₁ s₁' h₁ => ?_) ⟨.refl _, h⟩
  obtain ⟨s₂, hs₂, h₂⟩ := hstep st s₁ s₁' (h₁.1.log_eq ▸ hlog st hst) h₁.2
  exact ⟨s₂, hs₂, h₂.mono fun s₂' h₂' => ⟨h₁.1.trans (hsame _ _ _ hs₂), h₂'⟩⟩

variable [LawfulCells F]

section Replay

variable (hk : kernels token = some Product.kernel) (h : s.tape.Twin token s'.tape)
  (hlt : k < s.tape.records.length)
include hk h hlt

theorem replay_forward_twin :
    Yields (s.replay kernels Kernel.forward k) fun s₁ =>
      Yields (s'.replay kernels Kernel.forward k) fun s₁' => s₁.tape.Twin token s₁'.tape := by
  have hlt' : k < s'.tape.records.length := h.records.length_eq ▸ hlt
  obtain ⟨c, olds, c', olds', hc, hc', heffect⟩ := h.records.get hlt hlt'
  -- Both replays find the same primals.
  generalize hq : s.tape.vectors.primal = q
  have hagree (c : Call F) (hp : s.tape.hasPrimals = true) : (c.seen s.tape.traits q).Agrees q :=
    Call.seen_agrees hp
  have hseen' := hc'.seen q
  rw [← h.traits_eq] at hseen'
  have hleft := replay_forward_writes hk h.lent_left (List.getElem?_eq_getElem hlt) (hc.seen q)
    (hq ▸ hagree c)
  have hright := replay_forward_writes hk h.lent_right (List.getElem?_eq_getElem hlt') hseen' (by
    rw [h.vectors_eq, h.traits_eq, hq]
    exact fun hp => hagree c' (h.hasPrimals_eq ▸ hp))
  refine hleft.mono ?_
  rintro s₁ ⟨pool, hl, hs₁⟩
  refine hright.mono ?_
  rintro s₁' ⟨pool', hl', hs₁'⟩
  rw [hs₁, hs₁', h.vectors_eq, h.traits_eq, heffect.writes_eq, heffect.tangent_eq]
  refine h.replace ?_ hl hl'
  exact Vectors.hasPrimals_writePrimals ..

theorem replay_reverse_twin :
    Yields (s.replay kernels Kernel.reverse k) fun s₁ =>
      Yields (s'.replay kernels Kernel.reverse k) fun s₁' => s₁.tape.Twin token s₁'.tape := by
  have hlt' : k < s'.tape.records.length := h.records.length_eq ▸ hlt
  obtain ⟨c, olds, c', olds', hc, hc', heffect⟩ := h.records.get hlt hlt'
  generalize hq : (c.rewound s.tape.traits olds s.tape.vectors).primal = q
  have hsame (c : Call F) (olds : List F) (v : Vectors F) :
      (c.seen s.tape.traits q).rewound s.tape.traits olds v = c.rewound s.tape.traits olds v := by
    rw [Call.rewound, Call.rewound, Call.results_seen]
  have hagree (c : Call F) (hp : s.tape.hasPrimals = true) : (c.seen s.tape.traits q).Agrees q :=
    Call.seen_agrees hp
  have hseen' := hc'.seen q
  rw [← h.traits_eq] at hseen'
  have hleft := replay_reverse_writes hk h.lent_left (List.getElem?_eq_getElem hlt) (hc.seen q)
    (by rw [hsame, hq]; exact hagree c)
  have hright := replay_reverse_writes hk h.lent_right (List.getElem?_eq_getElem hlt') hseen' (by
    rw [h.vectors_eq, h.traits_eq, hsame, heffect.rewound_eq, hq]
    exact fun hp => hagree c' (h.hasPrimals_eq ▸ hp))
  refine hleft.mono ?_
  rintro s₁ ⟨pool, hl, hs₁⟩
  refine hright.mono ?_
  rintro s₁' ⟨pool', hl', hs₁'⟩
  rw [hs₁, hs₁', h.vectors_eq, h.traits_eq, hsame, hsame, heffect.rewound_eq, heffect.adjoint_eq]
  refine h.replace ?_ hl hl'
  change (c.rewound s.tape.traits olds s.tape.vectors).hasPrimals = _
  rw [Call.rewound]
  split
  · exact Vectors.hasPrimals_writePrimals ..
  · rfl

end Replay

variable (hk : kernels token = some Product.kernel)
include hk

theorem tangentStep_twin (hst : st ∈ s.tape.log) (h : s.tape.Twin token s'.tape) :
    Yields (tangentStep kernels s st) fun s₁ => Yields (tangentStep kernels s' st) fun s₁' =>
      s₁.tape.Twin token s₁'.tape := by
  rw [tangentStep, tangentStep]
  cases hkind : st.kind with
  | elementary =>
    refine .ok (.ok ?_)
    simp only [mapTape, h.vectors_eq]
    exact h.withVectors (Vectors.hasPrimals_map ..)
  | input =>
    refine .ok (.ok ?_)
    simp only [mapTape, withPrimals, h.vectors_eq]
    exact h.withVectors (Vectors.hasPrimals_map ..)
  | external k => exact replay_forward_twin hk h (h.record_lt st hst k hkind)

theorem adjointStep_twin (hst : st ∈ s.tape.log) (h : s.tape.Twin token s'.tape) :
    Yields (adjointStep kernels s st) fun s₁ => Yields (adjointStep kernels s' st) fun s₁' =>
      s₁.tape.Twin token s₁'.tape := by
  rw [adjointStep, adjointStep]
  cases hkind : st.kind with
  | elementary =>
    have hundone := h.undoPrimal st
    refine .ok (.ok ?_)
    simp only [mapTape, hundone.vectors_eq]
    exact hundone.withAdjoints _
  | input => exact .ok (.ok (h.undoPrimal st))
  | external k => exact replay_reverse_twin hk h (h.record_lt st hst k hkind)

end Traced

namespace Tape

variable [LawfulCells F] {kernels : Kernels F} {token : Token} {t u : Tape F}
  {start stop : Position} (hk : kernels token = some Product.kernel) (h : t.Twin token u)
include hk h

section Range

variable (hspan : start.statements ≤ stop.statements ∧ stop.statements ≤ t.statementCount)
include hspan

theorem tangentSweep_twin : Yields (t.tangentSweep kernels start stop) fun s =>
    Yields (u.tangentSweep kernels start stop) fun s' => s.tape.Twin token s'.tape := by
  have hcheck : t.checkSpan start stop = .ok () := if_pos hspan
  have hcheck' : u.checkSpan start stop = .ok () :=
    if_pos (by rwa [statementCount, h.log_eq])
  have hrange : u.range start stop = t.range start stop := by rw [range, range, h.log_eq]
  rw [tangentSweep, tangentSweep, hcheck, hcheck', hrange]
  change Yields (if start.statements = stop.statements then _ else _) fun s =>
    Yields (if start.statements = stop.statements then _ else _) _
  split
  · exact .ok (.ok h)
  · have hmem : ∀ st ∈ t.range start stop, st ∈ t.widen.log := fun st hst => mem_of_mem_range hst
    have hwiden : (Traced.mapTape ⟨t, []⟩ widen).tape.Twin token
        (Traced.mapTape ⟨u, []⟩ widen).tape := h.widen
    refine (Traced.foldlM_twin hmem (fun _ _ _ => Traced.tangentStep_sameRecording)
      (fun _ _ _ => Traced.tangentStep_twin hk) hwiden).mono ?_
    exact fun s hs => hs.mono fun s' hs' => hs'.2

theorem adjointSweep_twin : Yields (t.adjointSweep kernels start stop) fun s =>
    Yields (u.adjointSweep kernels start stop) fun s' => s.tape.Twin token s'.tape := by
  have hspan' : start.statements ≤ stop.statements ∧ stop.statements ≤ u.statementCount := by
    rwa [statementCount, h.log_eq]
  have hrange : u.range start stop = t.range start stop := by rw [range, range, h.log_eq]
  by_cases heq : start.statements = stop.statements
  · rw [adjointSweep_of_eq hspan heq, adjointSweep_of_eq hspan' heq]
    exact .ok (.ok h)
  · have hmem : ∀ st ∈ (t.range start stop).reverse, st ∈ t.widen.log :=
      fun st hst => mem_of_mem_range (List.mem_reverse.mp hst)
    have hwiden : (⟨t.widen, []⟩ : Traced F).tape.Twin token (⟨u.widen, []⟩ : Traced F).tape :=
      h.widen
    obtain ⟨s, hs, s', hs', hsame, htwin⟩ := Traced.foldlM_twin hmem
      (fun _ _ _ => Traced.adjointStep_sameRecording) (fun _ _ _ => Traced.adjointStep_twin hk)
      hwiden
    rw [adjointSweep_of_ne hspan heq, adjointSweep_of_ne hspan' heq, hrange, hs]
    refine .ok ?_
    rw [hs']
    exact .ok (h.settle htwin (hsame.hasPrimals_eq.trans t.widen_sameRecording.hasPrimals_eq))

end Range

omit [LawfulCells F] hk h in
theorem span_of_checkSpan {s : Traced F} {w : Traced F} {f : Unit → Except (Halt F) (Traced F)}
    (hs : s.attempt (t.checkSpan start stop) >>= f = .ok w) :
    start.statements ≤ stop.statements ∧ stop.statements ≤ t.statementCount := by
  by_contra hspan
  rw [checkSpan, if_neg hspan] at hs
  cases hs

theorem sweepAll_twin :
    (Yields (t.tangentSweepAll kernels) fun s => Yields (u.tangentSweepAll kernels) fun s' =>
      s'.tape.vectors = s.tape.vectors) ∧
    Yields (t.adjointSweepAll kernels) fun s => Yields (u.adjointSweepAll kernels) fun s' =>
      s'.tape.vectors = s.tape.vectors := by
  have hposition : u.position = t.position := by
    rw [position, position, statementCount, statementCount, h.log_eq, h.largest_eq,
      h.records.length_eq]
  have hspan : Position.zero.statements ≤ t.position.statements ∧
      t.position.statements ≤ t.statementCount := ⟨Nat.zero_le _, Nat.le_refl _⟩
  rw [tangentSweepAll, tangentSweepAll, adjointSweepAll, adjointSweepAll, hposition]
  exact ⟨(tangentSweep_twin hk h hspan).mono fun s hs => hs.mono fun s' hs' => hs'.vectors_eq,
    (adjointSweep_twin hk h hspan).mono fun s hs => hs.mono fun s' hs' => hs'.vectors_eq⟩

section Lent

variable {s : Traced F} (hbounded : t.Bounded token) (hidle : t.pool.lent = 0)
include hbounded hidle

omit h in
theorem tangentSweep_lent_eq (hs : t.tangentSweep kernels start stop = .ok s) :
    s.tape.pool.lent = 0 := by
  obtain ⟨s', hs', _, -, htwin⟩ :=
    tangentSweep_twin hk (hbounded.twin_self hidle) (span_of_checkSpan hs)
  obtain rfl := Except.ok.inj (hs'.symm.trans hs)
  exact htwin.lent_left

omit h in
theorem adjointSweep_lent_eq (hs : t.adjointSweep kernels start stop = .ok s) :
    s.tape.pool.lent = 0 := by
  obtain ⟨s', hs', _, -, htwin⟩ :=
    adjointSweep_twin hk (hbounded.twin_self hidle) (span_of_checkSpan hs)
  obtain rfl := Except.ok.inj (hs'.symm.trans hs)
  exact htwin.lent_left

end Lent

end Tape

end Autodiff
