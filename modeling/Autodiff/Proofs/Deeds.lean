import Autodiff.Proofs.SweepFrames
/-!
Sweeps and deletions as lists of deeds: changes of the tape alone, and callbacks on its records.
-/

namespace Autodiff

variable {F : Type} [Scalar F]

inductive Direction
  | tangent
  | adjoint
  deriving DecidableEq, Repr

def Direction.callback : Direction → Kernel F → Program F Unit
  | tangent => Kernel.forward
  | adjoint => Kernel.reverse

inductive Deed (F : Type) [Scalar F]
  | update (f : Tape F → Tape F)
  | replay (d : Direction) (k : Nat)
  | delete (r : Record F)

namespace Deed

def run (kernels : Kernels F) (s : Traced F) : Deed F → Except (Halt F) (Traced F)
  | .update f => .ok (s.mapTape f)
  | .replay d k => s.replay kernels d.callback k
  | .delete r => Tape.deleteRecord kernels s r

def runAll (kernels : Kernels F) (s : Traced F) (ds : List (Deed F)) :
    Except (Halt F) (Traced F) := ds.foldlM (run kernels) s

theorem runAll_update (kernels : Kernels F) (s : Traced F) (f : Tape F → Tape F)
    (ds : List (Deed F)) : runAll kernels s (.update f :: ds) = runAll kernels (s.mapTape f) ds :=
  rfl

theorem runAll_append (kernels : Kernels F) (s : Traced F) (ds ds' : List (Deed F)) :
    runAll kernels s (ds ++ ds') = runAll kernels s ds >>= fun s => runAll kernels s ds' :=
  List.foldlM_append

def tangent (st : Statement F) : Deed F :=
  match st.kind with
  | .elementary => .update fun t => { t with
      vectors := ⟨t.vectors.adjoints.set st.output (st.tangent t.vectors.adjoints),
        t.vectors.primals.map st.redo⟩ }
  | .input => .update fun t => t.withPrimals (t.vectors.primals.map st.redo)
  | .external k => .replay .tangent k

def adjoint (st : Statement F) : Deed F :=
  match st.kind with
  | .elementary => .update fun t =>
      let t := Traced.undoPrimal st t
      t.withAdjoints (st.propagate t.vectors.adjoints)
  | .input => .update (Traced.undoPrimal st)
  | .external k => .replay .adjoint k

theorem tangentStep_eq (kernels : Kernels F) (s : Traced F) (st : Statement F) :
    s.tangentStep kernels st = (tangent st).run kernels s := by
  rw [Traced.tangentStep, tangent]
  cases st.kind <;> rfl

theorem adjointStep_eq (kernels : Kernels F) (s : Traced F) (st : Statement F) :
    s.adjointStep kernels st = (adjoint st).run kernels s := by
  rw [Traced.adjointStep, adjoint]
  cases st.kind <;> rfl

def Sweeps : Deed F → Prop
  | .update f => ∀ t, (f t).records = t.records
  | .replay _ _ => True
  | .delete _ => False

theorem sweeps_tangent (st : Statement F) : (tangent st).Sweeps := by
  rw [tangent]
  cases st.kind with
  | elementary => exact fun _ => rfl
  | input => exact fun _ => rfl
  | external => trivial

theorem sweeps_adjoint (st : Statement F) : (adjoint st).Sweeps := by
  rw [adjoint]
  cases st.kind with
  | elementary => exact fun t => (Traced.undoPrimal_sameRecording st t).records_eq
  | input => exact fun t => (Traced.undoPrimal_sameRecording st t).records_eq
  | external => trivial

variable {kernels : Kernels F} {s s' : Traced F} {ds : List (Deed F)}

theorem run_replay_missing (kernels : Kernels F) {k : Nat} (h : s.tape.records[k]? = none)
    (d : Direction) : run kernels s (.replay d k) = .error ⟨.missingRecord, s.notes⟩ := by
  rw [run, Traced.replay, h]
  rfl

theorem run_delete (kernels : Kernels F) (s : Traced F) (record : Record F) :
    run kernels s (.delete record) = s.attempt (kernels.find record.token) >>= fun kernel =>
      kernel.delete.run ⟨s.tape.traits, .new "fixed" record.fixed,
        .new "dynamic" record.dynamic, s.tape.pool, .none, s.notes⟩ >>= fun x =>
      .ok ⟨{ s.tape with pool := x.2.pool }, x.2.notes⟩ := rfl

theorem Sweeps.records_eq {d : Deed F} (hd : d.Sweeps) (h : d.run kernels s = .ok s') :
    s'.tape.records = s.tape.records := by
  cases d with
  | update f =>
    cases h
    exact hd s.tape
  | replay d k => exact (Traced.replay_sameRecording h).records_eq
  | delete r => exact hd.elim

theorem records_eq_of_runAll (hds : ∀ d ∈ ds, d.Sweeps) (h : runAll kernels s ds = .ok s') :
    s'.tape.records = s.tape.records :=
  foldlM_invariant (P := fun s₁ : Traced F => s₁.tape.records = s.tape.records)
    (fun d hd _ _ hs h => ((hds d hd).records_eq h).trans hs) rfl h

def Finds (t : Tape F) : Deed F → Prop
  | .update _ => True
  | .replay _ k => ∃ r, t.records[k]? = some r
  | .delete _ => False

theorem finds_of_runAll (hds : ∀ d ∈ ds, d.Sweeps) (h : runAll kernels s ds = .ok s') :
    ∀ d ∈ ds, d.Finds s.tape := by
  intro d hd
  obtain ⟨before, after, rfl⟩ := List.append_of_mem hd
  rw [runAll_append] at h
  obtain ⟨s₁, h₁, h⟩ := exists_of_bind_eq_ok h
  rw [runAll, List.foldlM_cons] at h
  obtain ⟨s₂, h₂, -⟩ := exists_of_bind_eq_ok h
  have hrecords := records_eq_of_runAll (fun d hd => hds d (List.mem_append_left _ hd)) h₁
  cases d with
  | update f => trivial
  | replay d k =>
    rw [Finds, ← hrecords]
    cases hrecord : s₁.tape.records[k]? with
    | none =>
      rw [run_replay_missing kernels hrecord] at h₂
      cases h₂
    | some r => exact ⟨r, rfl⟩
  | delete r => exact hds _ hd

end Deed

namespace Tape

def tangentDeeds (t : Tape F) (start stop : Position) : List (Deed F) :=
  if start.statements = stop.statements then []
  else .update widen :: (t.range start stop).map Deed.tangent

def settle (t : Tape F) (u : Tape F) : Tape F :=
  if t.traits.rollsBack then
    { u.withPrimals t.widen.vectors.primals with
      sweepCopy := u.vectors.primals.getD u.sweepCopy }
  else u

def adjointDeeds (t : Tape F) (start stop : Position) : List (Deed F) :=
  if start.statements = stop.statements then []
  else .update widen :: (t.range start stop).reverse.map Deed.adjoint ++ [.update t.settle]

def deleteDeeds (t : Tape F) (start : Nat) : List (Deed F) :=
  (t.records.drop start).reverse.map .delete ++
    [.update fun u => { u with records := u.records.take start }]

variable {kernels : Kernels F} {t : Tape F} {start stop : Position} {s : Traced F}

theorem tangentSweep_eq (kernels : Kernels F) (t : Tape F) (start stop : Position) :
    t.tangentSweep kernels start stop =
      Traced.attempt ⟨t, []⟩ (t.checkSpan start stop) >>= fun _ =>
        Deed.runAll kernels ⟨t, []⟩ (t.tangentDeeds start stop) := by
  rw [tangentSweep, tangentDeeds]
  apply bind_congr
  intro _
  split
  · rfl
  · rw [Deed.runAll_update, Deed.runAll, List.foldlM_map]
    simp only [← Deed.tangentStep_eq]

theorem adjointSweep_eq (kernels : Kernels F) (t : Tape F) (start stop : Position) :
    t.adjointSweep kernels start stop =
      Traced.attempt ⟨t, []⟩ (t.checkSpan start stop) >>= fun _ =>
        Deed.runAll kernels ⟨t, []⟩ (t.adjointDeeds start stop) := by
  rw [adjointSweep, adjointDeeds]
  apply bind_congr
  intro _
  split
  · rfl
  · rw [List.cons_append, Deed.runAll_update, Deed.runAll_append, Deed.runAll, List.foldlM_map]
    simp only [← Deed.adjointStep_eq]
    apply bind_congr
    intro u
    change _ = Except.ok (u.mapTape t.settle)
    unfold Traced.mapTape settle
    split <;> rfl

theorem deleteRecords_eq (kernels : Kernels F) (t : Tape F) (start : Nat) :
    t.deleteRecords kernels start = Deed.runAll kernels ⟨t, []⟩ (t.deleteDeeds start) := by
  rw [deleteRecords, deleteDeeds, Deed.runAll_append, Deed.runAll, List.foldlM_map]
  rfl

theorem backTo_eq (kernels : Kernels F) {p : Position}
    (h : p.statements ≤ t.statementCount ∧ p.externals ≤ t.records.length) :
    t.backTo kernels p = Deed.runAll kernels ⟨t, []⟩ (t.deleteDeeds p.externals) >>= fun s =>
      s.attempt (t.issuer.rewind p.largest) >>= fun m => .ok (s.mapTape fun u =>
        { u with log := u.log.take p.statements, pending := [], issuer := m }) := by
  rw [backTo, if_pos h, deleteRecords_eq]
  rfl

theorem backTo_eq_error (kernels : Kernels F) {p : Position}
    (h : ¬ (p.statements ≤ t.statementCount ∧ p.externals ≤ t.records.length)) :
    t.backTo kernels p = .error ⟨.fatal (.invalidRange p.statements t.statementCount), []⟩ := by
  rw [backTo, if_neg h]

theorem sweeps_tangentDeeds (t : Tape F) (start stop : Position) :
    ∀ d ∈ t.tangentDeeds start stop, d.Sweeps := by
  intro d hd
  rw [tangentDeeds] at hd
  split at hd
  · cases hd
  · rcases List.mem_cons.mp hd with rfl | hd
    · exact fun _ => rfl
    · obtain ⟨st, -, rfl⟩ := List.mem_map.mp hd
      exact Deed.sweeps_tangent st

theorem sweeps_adjointDeeds (t : Tape F) (start stop : Position) :
    ∀ d ∈ t.adjointDeeds start stop, d.Sweeps := by
  intro d hd
  rw [adjointDeeds] at hd
  split at hd
  · cases hd
  · rcases List.mem_append.mp hd with hd | hd
    · rcases List.mem_cons.mp hd with rfl | hd
      · exact fun _ => rfl
      · obtain ⟨st, -, rfl⟩ := List.mem_map.mp hd
        exact Deed.sweeps_adjoint st
    · rw [List.mem_singleton.mp hd]
      intro u
      rw [settle]
      split <;> rfl

theorem finds_tangentDeeds (h : t.tangentSweep kernels start stop = .ok s) :
    ∀ d ∈ t.tangentDeeds start stop, d.Finds t := by
  rw [tangentSweep_eq] at h
  obtain ⟨-, -, h⟩ := exists_of_bind_eq_ok h
  exact Deed.finds_of_runAll (t.sweeps_tangentDeeds start stop) h

theorem finds_adjointDeeds (h : t.adjointSweep kernels start stop = .ok s) :
    ∀ d ∈ t.adjointDeeds start stop, d.Finds t := by
  rw [adjointSweep_eq] at h
  obtain ⟨-, -, h⟩ := exists_of_bind_eq_ok h
  exact Deed.finds_of_runAll (t.sweeps_adjointDeeds start stop) h

end Tape

end Autodiff
