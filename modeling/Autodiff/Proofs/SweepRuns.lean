import Autodiff.Proofs.SweepSteps

namespace Autodiff

variable {F : Type} [Scalar F]

abbrev History (F : Type) := List (Event F)

namespace History

def writes (es : History F) : List (Identifier × F) := es.flatMap Event.writes

def primals (es : History F) : Identifier → F := overwrite (fun _ => 0) (writes es)

def redo (traits : Traits) (es : History F) (q : Identifier → F) : Identifier → F :=
  (es.filter (Event.isLogged traits)).foldl Event.redo q

def tangent (es : History F) (v : Slots F) : Slots F := es.foldl Event.tangent v

def adjoint (es : History F) (v : Slots F) : Slots F := es.foldr (fun e v => e.adjoint v) v

inductive Logged (traits : Traits) (token : Token) (records : List (Record F)) :
    List (Statement F) → History F → Prop
  | nil : Logged traits token records [] []
  | skip {log es e} (h : Logged traits token records log es) (he : e.isLogged traits = false) :
      Logged traits token records log (es ++ [e])
  | append {log es st e} (h : Logged traits token records log es)
      (hst : st.Records traits token records (primals es) e) :
      Logged traits token records (log ++ [st]) (es ++ [e])

theorem primals_append_writes (es fs : History F) :
    primals (es ++ fs) = overwrite (primals es) (writes fs) := by
  rw [primals, writes, List.flatMap_append, overwrite_append]
  rfl

theorem primals_append (es : History F) (e : Event F) :
    primals (es ++ [e]) = e.redo (primals es) := by
  rw [primals_append_writes]
  simp [Event.redo, writes]

theorem primals_passive (es : History F) : primals es passive = 0 := overwrite_passive ..

theorem isLogged_of_records {traits : Traits} {token : Token} {records : List (Record F)}
    {p : Identifier → F} {st : Statement F} {e : Event F}
    (h : st.Records traits token records p e) : e.isLogged traits = true := by
  cases h with
  | elementary => rfl
  | input hid hb => exact hb
  | product => rfl

theorem adjoint_append (es : History F) (e : Event F) (v : Slots F) :
    adjoint (es ++ [e]) v = adjoint es (e.adjoint v) := by
  simp [adjoint]

theorem tangent_append (es : History F) (e : Event F) (v : Slots F) :
    tangent (es ++ [e]) v = e.tangent (tangent es v) := by
  simp [tangent]

variable {traits : Traits} {e : Event F}

theorem redo_append (es : History F) (e : Event F) (q : Identifier → F)
    (he : e.isLogged traits = true) :
    redo traits (es ++ [e]) q = e.redo (redo traits es q) := by
  simp [redo, he]

theorem redo_skip (es : History F) (q : Identifier → F) (he : e.isLogged traits = false) :
    redo traits (es ++ [e]) q = redo traits es q := by
  simp [redo, he]

theorem redo_passive (es : History F) (q : Identifier → F) :
    redo traits es q passive = q passive := by
  induction es using List.reverseRecOn with
  | nil => rfl
  | append_singleton es e ih =>
    cases he : e.isLogged traits with
    | false => rw [redo_skip _ _ he, ih]
    | true => rw [redo_append _ _ _ he, Event.redo, overwrite_passive, ih]

theorem tangent_skip (es : History F) (v : Slots F) (he : e.isLogged traits = false) :
    tangent (es ++ [e]) v = tangent es v := by
  obtain ⟨-, id, value, rfl⟩ := e.exists_input_of_isLogged he
  exact tangent_append es _ v

theorem adjoint_skip (es : History F) (v : Slots F) (he : e.isLogged traits = false) :
    adjoint (es ++ [e]) v = adjoint es v := by
  obtain ⟨-, id, value, rfl⟩ := e.exists_input_of_isLogged he
  exact adjoint_append es _ v

theorem Logged.moves_nil {token : Token} {records : List (Record F)}
    {log : List (Statement F)} {es : History F} (h : Logged traits token records log es)
    (hlog : log = []) :
    (∀ v, tangent es v = v) ∧ (∀ v, adjoint es v = v) ∧ ∀ q, redo traits es q = q := by
  induction h with
  | nil => exact ⟨fun _ => rfl, fun _ => rfl, fun _ => rfl⟩
  | skip h he ih =>
    obtain ⟨ht, ha, hr⟩ := ih hlog
    exact ⟨fun v => (tangent_skip _ v he).trans (ht v), fun v => (adjoint_skip _ v he).trans (ha v),
      fun q => (redo_skip _ q he).trans (hr q)⟩
  | append => simp at hlog

end History

open History

variable [LawfulCells F] {kernels : Kernels F} {token : Token} {base : Tape F} {s : Traced F}
  {log : List (Statement F)} {es : History F} {v : Slots F} {q : Identifier → F}

theorem tangentFold_yields (hk : ∀ e ∈ es, e.Served kernels token)
    (hlog : Logged base.traits token base.records log es) (hs : s.tape.Carries base v q)
    (hq : q passive = 0)
    (hready : ∀ es' e, es' ++ [e] <+: es → base.hasPrimals = true →
      e.Ready (redo base.traits es' q)) :
    Yields (log.foldlM (Traced.tangentStep kernels) s) fun s' =>
      s'.tape.Carries base (tangent es v) (redo base.traits es q) := by
  induction hlog with
  | nil => exact .ok hs
  | @skip log es e h he ih =>
    rw [tangent_skip _ _ he, redo_skip _ _ he]
    exact ih (fun e' he' => hk e' (List.mem_append_left _ he'))
      fun es' e' hp => hready es' e' (hp.trans (List.prefix_append ..))
  | @append log es st e h hst ih =>
    rw [List.foldlM_append, tangent_append, redo_append _ _ _ (isLogged_of_records hst)]
    have hfirst := ih (fun e' he' => hk e' (List.mem_append_left _ he'))
      fun es' e' hp => hready es' e' (hp.trans (List.prefix_append ..))
    refine hfirst.bind fun s' hs' => ?_
    have hstep := Traced.tangentStep_yields (hk e (by simp)) hs' (by rw [redo_passive, hq]) hst
      (hready es e (List.prefix_refl _))
    simpa only [List.foldlM_cons, List.foldlM_nil, bind_pure] using hstep

theorem adjointFold_yields (hk : ∀ e ∈ es, e.Served kernels token)
    (hlog : Logged base.traits token base.records log es) (hs : s.tape.Carries base v q)
    (hq : q passive = 0) (hroll : base.traits.rollsBack = true → q = primals es)
    (hready : ∀ es' e, es' ++ [e] <+: es → base.hasPrimals = true →
      e.Ready (if base.traits.rollsBack then primals es' else q)) :
    Yields (log.reverse.foldlM (Traced.adjointStep kernels) s) fun s' =>
      s'.tape.Carries base (adjoint es v) (if base.traits.rollsBack then fun _ => 0 else q) := by
  induction hlog generalizing s v q with
  | nil =>
    refine .ok ?_
    split
    · rename_i hb
      rw [hroll hb] at hs
      exact hs
    · exact hs
  | @skip log es e h he ih =>
    have hb := (e.exists_input_of_isLogged he).1
    rw [adjoint_skip _ _ he]
    exact ih (fun e' he' => hk e' (List.mem_append_left _ he')) hs hq
      (fun hb' => by simp [hb] at hb') fun es' e' hp =>
        hready es' e' (hp.trans (List.prefix_append ..))
  | @append log es st e h hst ih =>
    -- The last statement is swept first, and leaves the primals of the events before it.
    rw [List.reverse_append, List.reverse_singleton, List.singleton_append, List.foldlM_cons,
      adjoint_append]
    have hundo : (if base.traits.rollsBack then e.undo (primals es) q else q) =
        if base.traits.rollsBack then primals es else q := by
      split
      · rename_i hb
        rw [hroll hb, primals_append, Event.undo, Event.redo, overwrite_overwrite]
      · rfl
    have hstep := Traced.adjointStep_yields (hk e (by simp)) hs hq hst fun hp => by
      rw [hundo]
      exact hready es e (List.prefix_refl _) hp
    rw [hundo] at hstep
    refine hstep.bind fun s' hs' => ?_
    have hzero : (if base.traits.rollsBack then primals es else q) passive = 0 := by
      split
      · exact primals_passive es
      · exact hq
    have hafter := ih (fun e' he' => hk e' (List.mem_append_left _ he')) hs' hzero
      (fun hb => by rw [if_pos hb]) fun es' e' hp hprimals => by
        have hr := hready es' e' (hp.trans (List.prefix_append ..)) hprimals
        cases hb : base.traits.rollsBack <;> simpa [hb] using hr
    cases hb : base.traits.rollsBack <;> simpa [hb] using hafter

namespace Tape

variable {t : Tape F} {start stop : Position}

def opening (t : Tape F) (start stop : Position) : Slots F :=
  if start.statements = stop.statements then t.vectors.adjoints
  else t.vectors.adjoints.ensure t.issuer.largest

omit [LawfulCells F] in
theorem slot_opening (t : Tape F) (start stop : Position) :
    (t.opening start stop).slot = t.vectors.adjoints.slot := by
  rw [opening]
  split
  · rfl
  · exact funext fun id => Slots.slot_ensure ..

omit [LawfulCells F] in
theorem widen_carries (hl : t.pool.lent = 0) (hp : ∀ p ∈ t.vectors.primals, p.slot = q) :
    t.widen.Carries t (t.vectors.adjoints.ensure t.issuer.largest) q := by
  refine ⟨rfl, rfl, rfl, rfl, Vectors.hasPrimals_map .., hl, rfl, fun p hp' => ?_⟩
  obtain ⟨p₀, hp₀, rfl⟩ := Option.mem_map.mp hp'
  rw [← hp p₀ hp₀]
  exact funext fun id => Slots.slot_ensure ..

omit [LawfulCells F] in
theorem carries_self (hl : t.pool.lent = 0) (hp : ∀ p ∈ t.vectors.primals, p.slot = q) :
    t.Carries t t.vectors.adjoints q := ⟨rfl, rfl, rfl, rfl, rfl, hl, rfl, hp⟩

omit [LawfulCells F] in
theorem range_of_eq (t : Tape F) (h : start.statements = stop.statements) :
    t.range start stop = [] := by
  rw [range, h]
  exact List.drop_eq_nil_of_le (List.length_take_le ..)

theorem tangentSweep_yields (hk : ∀ e ∈ es, e.Served kernels token)
    (hspan : start.statements ≤ stop.statements ∧ stop.statements ≤ t.statementCount)
    (hl : t.pool.lent = 0) (hp : ∀ p ∈ t.vectors.primals, p.slot = q) (hq : q passive = 0)
    (hlog : Logged t.traits token t.records (t.range start stop) es)
    (hready : ∀ es' e, es' ++ [e] <+: es → t.hasPrimals = true → e.Ready (redo t.traits es' q)) :
    Yields (t.tangentSweep kernels start stop) fun s =>
      s.tape.Carries t (tangent es (t.opening start stop)) (redo t.traits es q) := by
  have hcheck : t.checkSpan start stop = .ok () := if_pos hspan
  rw [tangentSweep, hcheck]
  change Yields (if start.statements = stop.statements then _ else _) _
  rw [opening]
  split
  · rename_i heq
    obtain ⟨ht, -, hr⟩ := hlog.moves_nil (t.range_of_eq heq)
    exact .ok (by rw [ht, hr]; exact carries_self hl hp)
  · exact tangentFold_yields hk hlog (widen_carries hl hp) hq hready

theorem adjointSweep_yields (hk : ∀ e ∈ es, e.Served kernels token)
    (hspan : start.statements ≤ stop.statements ∧ stop.statements ≤ t.statementCount)
    (hl : t.pool.lent = 0) (hp : ∀ p ∈ t.vectors.primals, p.slot = q) (hq : q passive = 0)
    (hlog : Logged t.traits token t.records (t.range start stop) es)
    (hroll : t.traits.rollsBack = true → q = primals es)
    (hready : ∀ es' e, es' ++ [e] <+: es → t.hasPrimals = true →
      e.Ready (if t.traits.rollsBack then primals es' else q)) :
    Yields (t.adjointSweep kernels start stop) fun s =>
      s.tape.Carries t (adjoint es (t.opening start stop)) q := by
  have hcheck : t.checkSpan start stop = .ok () := if_pos hspan
  rw [adjointSweep, hcheck]
  change Yields (if start.statements = stop.statements then _ else _) _
  rw [opening]
  split
  · rename_i heq
    obtain ⟨-, ha, -⟩ := hlog.moves_nil (t.range_of_eq heq)
    exact .ok (by rw [ha]; exact carries_self hl hp)
  · have hwide := widen_carries hl hp
    refine (adjointFold_yields hk hlog hwide hq hroll hready).bind fun s hs => ?_
    cases h : t.traits.rollsBack with
    | false =>
      simp only [h, Bool.false_eq_true, if_false] at hs ⊢
      exact .ok hs
    | true =>
      -- The primals that the sweep started from are put back.
      refine .ok ⟨hs.issuer_eq, hs.log_eq, hs.pending_eq, hs.records_eq, hwide.hasPrimals_eq,
        hs.lent_eq, hs.adjoints_eq, hwide.primals_eq⟩

omit [LawfulCells F] in
theorem range_zero_position (t : Tape F) : t.range .zero t.position = t.log := by
  simp [range, position, Position.zero, statementCount]

end Tape

end Autodiff
