import Autodiff.Proofs.Coupling
import Autodiff.Proofs.Deeds

namespace Autodiff

variable {F : Type} [Scalar F]

def Tape.withPool (t : Tape F) (pool : Pool F) : Tape F := { t with pool := pool }

theorem Tape.records_withPool (t : Tape F) (pool : Pool F) :
    (t.withPool pool).records = t.records := rfl

structure Tape.UpToPool (lent : Nat) (t u : Tape F) : Prop where
  rest_eq : u = t.withPool u.pool
  lent_eq : t.pool.lent = lent
  lent_eq' : u.pool.lent = lent

def Tape.SparesPool (f : Tape F → Tape F) : Prop :=
  ∀ t pool, f (t.withPool pool) = (f t).withPool pool

structure Traced.UpToPool (s s' : Traced F) : Prop where
  tape : s.tape.UpToPool 0 s'.tape
  notes : List.Forall₂ Note.Alike s.notes s'.notes

def Kernels.Orderly (apart : Prop) (kernels : Kernels F) : Prop :=
  ∀ token kernel, kernels token = some kernel → kernel.Orderly apart

variable {apart : Prop} {kernels : Kernels F} {t u : Tape F} {s s' : Traced F}

namespace Tape.UpToPool

variable {lent : Nat}

theorem exists_eq (h : t.UpToPool lent u) :
    ∃ pool : Pool F, pool.lent = lent ∧ u = t.withPool pool := ⟨u.pool, h.lent_eq', h.rest_eq⟩

theorem of_pool {pool : Pool F} (h : t.pool.lent = lent) (hpool : pool.lent = lent) :
    t.UpToPool lent (t.withPool pool) := ⟨rfl, h, hpool⟩

theorem map (h : t.UpToPool lent u) {f : Tape F → Tape F} (hf : Tape.SparesPool f) :
    (f t).UpToPool lent (f u) := by
  obtain ⟨pool, hpool, rfl⟩ := h.exists_eq
  have hown : (f t).pool = t.pool := (congrArg Tape.pool (hf t t.pool)).trans rfl
  rw [hf]
  exact .of_pool (by rw [hown, h.lent_eq]) hpool

end Tape.UpToPool

namespace Traced

theorem UpToPool.start (h : t.UpToPool 0 u) : UpToPool ⟨t, []⟩ ⟨u, []⟩ := ⟨h, .nil⟩

theorem UpToPool.halt {α β : Type} {R : α → β → Prop} (h : s.UpToPool s') {fault : Fault}
    (hfault : ¬ fault.OfPool) : Coupled Halt.Agree R (s.halt fault) (s'.halt fault) :=
  .error ⟨⟨rfl, h.notes⟩, hfault⟩

theorem UpToPool.attempt {α : Type} {Q : α → Prop} (h : s.UpToPool s') {e : Except Fault α}
    (he : Avoids Fault.OfPool e Q) :
    Coupled Halt.Agree (fun x y => y = x ∧ Q x) (s.attempt e) (s'.attempt e) := by
  cases e with
  | ok x => exact .ok ⟨rfl, he⟩
  | error fault => exact h.halt he

omit [Scalar F] in
theorem find_avoids (kernels : Kernels F) (token : Token) :
    Avoids Fault.OfPool (kernels.find token) fun kernel => kernels token = some kernel := by
  rw [Kernels.find]
  split
  case h_1 hkernel => exact hkernel
  case h_2 => exact id

theorem replay_coupled (hk : kernels.Orderly apart) (h : Near apart UpToPool s s')
    (d : Direction) (k : Nat) :
    Coupled Halt.Agree UpToPool (s.replay kernels d.callback k) (s'.replay kernels d.callback k) := by
  obtain ⟨pool, hpool, htape⟩ := h.1.tape.exists_eq
  rw [replay, replay, htape, Tape.records_withPool]
  cases s.tape.records[k]? with
  | none => exact h.1.halt id
  | some record =>
    refine (h.1.attempt (find_avoids kernels record.token)).bind ?_
    rintro _ kernel ⟨rfl, hkernel⟩
    have horderly : (d.callback kernel).Orderly apart := by
      cases d with
      | tangent => exact (hk _ _ hkernel).forward
      | adjoint => exact (hk _ _ hkernel).reverse
    have hreplay : Near apart Replay.UpToPool (s.tape.replayOf record s.tape.vectors s.notes)
        ((s.tape.withPool pool).replayOf record s.tape.vectors s'.notes) := by
      refine ⟨⟨⟨rfl, rfl, rfl, hpool.trans h.1.tape.lent_eq.symm, rfl⟩, h.1.notes⟩, fun hapart => ?_⟩
      rw [← htape, h.2 hapart]
    refine (horderly.run_coupled hreplay h.1.tape.lent_eq).bind fun x y hxy => .ok ⟨?_, hxy.1.notes⟩
    rw [← hxy.1.alike.vectors]
    exact .of_pool hxy.2 (hxy.1.alike.lent_eq.trans hxy.2)

end Traced

theorem Tape.deleteRecord_coupled (hk : kernels.Orderly apart) (h : Near apart Traced.UpToPool s s')
    (record : Record F) :
    Coupled Halt.Agree Traced.UpToPool (deleteRecord kernels s record)
      (deleteRecord kernels s' record) := by
  obtain ⟨pool, hpool, htape⟩ := h.1.tape.exists_eq
  rw [deleteRecord, deleteRecord, htape]
  refine (h.1.attempt (Traced.find_avoids kernels record.token)).bind ?_
  rintro _ kernel ⟨rfl, hkernel⟩
  have hreplay : Near apart Replay.UpToPool (s.tape.replayOf record .none s.notes)
      ((s.tape.withPool pool).replayOf record .none s'.notes) := by
    refine ⟨⟨⟨rfl, rfl, rfl, hpool.trans h.1.tape.lent_eq.symm, rfl⟩, h.1.notes⟩, fun hapart => ?_⟩
    rw [← htape, h.2 hapart]
  refine ((hk _ _ hkernel).delete.run_coupled hreplay h.1.tape.lent_eq).bind fun x y hxy =>
    .ok ⟨?_, hxy.1.notes⟩
  exact .of_pool hxy.2 (hxy.1.alike.lent_eq.trans hxy.2)

namespace Deed

def SparesPool : Deed F → Prop
  | .update f => Tape.SparesPool f
  | _ => True

theorem undoPrimal_sparesPool (st : Statement F) : Tape.SparesPool (Traced.undoPrimal st) := by
  intro t pool
  rw [Traced.undoPrimal, Traced.undoPrimal, show (t.withPool pool).traits = t.traits from rfl]
  split <;> rfl

theorem sparesPool_tangent (st : Statement F) : (tangent st).SparesPool := by
  rw [tangent]
  cases st.kind with
  | elementary => exact fun _ _ => rfl
  | input => exact fun _ _ => rfl
  | external => trivial

theorem sparesPool_adjoint (st : Statement F) : (adjoint st).SparesPool := by
  rw [adjoint]
  cases st.kind with
  | elementary =>
    intro t pool
    dsimp only
    rw [undoPrimal_sparesPool]
    rfl
  | input => exact undoPrimal_sparesPool st
  | external => trivial

theorem run_coupled (hk : kernels.Orderly apart) {d : Deed F} (hd : d.SparesPool)
    (h : Near apart Traced.UpToPool s s') :
    Coupled Halt.Agree (Near apart Traced.UpToPool) (d.run kernels s) (d.run kernels s') := by
  refine Coupled.near ?_ fun hapart => by rw [h.2 hapart]
  cases d with
  | update f => exact .ok ⟨h.1.tape.map hd, h.1.notes⟩
  | replay d k => exact Traced.replay_coupled hk h d k
  | delete record => exact Tape.deleteRecord_coupled hk h record

theorem runAll_coupled (hk : kernels.Orderly apart) {ds : List (Deed F)}
    (hds : ∀ d ∈ ds, d.SparesPool) (h : Near apart Traced.UpToPool s s') :
    Coupled Halt.Agree (Near apart Traced.UpToPool) (runAll kernels s ds) (runAll kernels s' ds) :=
  Coupled.foldlM (fun d hd _ _ hs => run_coupled hk (hds d hd) hs) h

end Deed

namespace Tape

theorem start_near (h : Near apart (UpToPool 0) t u) :
    Near apart Traced.UpToPool (⟨t, []⟩ : Traced F) ⟨u, []⟩ :=
  ⟨.start h.1, fun hapart => by rw [h.2 hapart]⟩

theorem checkSpan_avoids (t : Tape F) (start stop : Position) :
    Avoids Fault.OfPool (t.checkSpan start stop) fun _ => True := .ite trivial id

theorem sparesPool_tangentDeeds (t : Tape F) (start stop : Position) :
    ∀ d ∈ t.tangentDeeds start stop, d.SparesPool := by
  intro d hd
  rw [tangentDeeds] at hd
  split at hd
  · cases hd
  · rcases List.mem_cons.mp hd with rfl | hd
    · exact fun _ _ => rfl
    · obtain ⟨st, -, rfl⟩ := List.mem_map.mp hd
      exact Deed.sparesPool_tangent st

theorem sparesPool_adjointDeeds (t : Tape F) (start stop : Position) :
    ∀ d ∈ t.adjointDeeds start stop, d.SparesPool := by
  intro d hd
  rw [adjointDeeds] at hd
  split at hd
  · cases hd
  · rcases List.mem_append.mp hd with hd | hd
    · rcases List.mem_cons.mp hd with rfl | hd
      · exact fun _ _ => rfl
      · obtain ⟨st, -, rfl⟩ := List.mem_map.mp hd
        exact Deed.sparesPool_adjoint st
    · rw [List.mem_singleton.mp hd]
      intro u pool
      rw [settle, settle]
      split <;> rfl

theorem sparesPool_deleteDeeds (t : Tape F) (start : Nat) :
    ∀ d ∈ t.deleteDeeds start, d.SparesPool := by
  intro d hd
  rcases List.mem_append.mp hd with hd | hd
  · obtain ⟨record, -, rfl⟩ := List.mem_map.mp hd
    trivial
  · rw [List.mem_singleton.mp hd]
    exact fun _ _ => rfl

theorem tangentSweep_coupled (hk : kernels.Orderly apart) (h : Near apart (UpToPool 0) t u)
    (start stop : Position) :
    Coupled Halt.Agree Traced.UpToPool (t.tangentSweep kernels start stop)
      (u.tangentSweep kernels start stop) := by
  obtain ⟨pool, -, hu⟩ := h.1.exists_eq
  have hdeeds : u.tangentDeeds start stop = t.tangentDeeds start stop := by
    rw [hu]
    rfl
  have hspan : u.checkSpan start stop = t.checkSpan start stop := by
    rw [hu]
    rfl
  rw [tangentSweep_eq, tangentSweep_eq, hdeeds, hspan]
  have hstart := start_near h
  refine (hstart.1.attempt (t.checkSpan_avoids start stop)).bind fun _ _ _ => ?_
  exact (Deed.runAll_coupled hk (t.sparesPool_tangentDeeds start stop) hstart).mono
    (fun _ _ => id) fun _ _ hs => hs.1

theorem adjointSweep_coupled (hk : kernels.Orderly apart) (h : Near apart (UpToPool 0) t u)
    (start stop : Position) :
    Coupled Halt.Agree Traced.UpToPool (t.adjointSweep kernels start stop)
      (u.adjointSweep kernels start stop) := by
  obtain ⟨pool, -, hu⟩ := h.1.exists_eq
  have hdeeds : u.adjointDeeds start stop = t.adjointDeeds start stop := by
    rw [hu]
    rfl
  have hspan : u.checkSpan start stop = t.checkSpan start stop := by
    rw [hu]
    rfl
  rw [adjointSweep_eq, adjointSweep_eq, hdeeds, hspan]
  have hstart := start_near h
  refine (hstart.1.attempt (t.checkSpan_avoids start stop)).bind fun _ _ _ => ?_
  exact (Deed.runAll_coupled hk (t.sparesPool_adjointDeeds start stop) hstart).mono
    (fun _ _ => id) fun _ _ hs => hs.1

theorem deleteRecords_coupled (hk : kernels.Orderly apart) (h : Near apart (UpToPool 0) t u)
    (start : Nat) :
    Coupled Halt.Agree Traced.UpToPool (t.deleteRecords kernels start)
      (u.deleteRecords kernels start) := by
  obtain ⟨pool, -, hu⟩ := h.1.exists_eq
  have hdeeds : u.deleteDeeds start = t.deleteDeeds start := by
    rw [hu]
    rfl
  rw [deleteRecords_eq, deleteRecords_eq, hdeeds]
  exact (Deed.runAll_coupled hk (t.sparesPool_deleteDeeds start) (start_near h)).mono
    (fun _ _ => id) fun _ _ hs => hs.1

end Tape

namespace Traced

theorem UpToPool.mapTape (h : s.UpToPool s') {f : Tape F → Tape F} (hf : Tape.SparesPool f) :
    (s.mapTape f).UpToPool (s'.mapTape f) := ⟨h.tape.map hf, h.notes⟩

end Traced

namespace Tape

theorem rewind_avoids (m : Issuer) (largest : Identifier) :
    Avoids Fault.OfPool (m.rewind largest) fun _ => True := by
  rw [Issuer.rewind]
  split
  · exact .ite trivial id
  · trivial

theorem backTo_coupled (hk : kernels.Orderly apart) (h : Near apart (UpToPool 0) t u)
    (p : Position) :
    Coupled Halt.Agree Traced.UpToPool (t.backTo kernels p) (u.backTo kernels p) := by
  have hdelete := deleteRecords_coupled hk h p.externals
  obtain ⟨pool, -, rfl⟩ := h.1.exists_eq
  rw [backTo, backTo]
  change Coupled _ _ _ (if p.statements ≤ t.statementCount ∧ p.externals ≤ t.records.length then _
    else _)
  split
  case isFalse => exact .error ⟨⟨rfl, .nil⟩, id⟩
  case isTrue =>
    refine hdelete.bind fun s s' hs => ?_
    refine (hs.attempt (rewind_avoids t.issuer p.largest)).bind fun m m' hm => ?_
    rw [hm.1]
    exact .ok (hs.mapTape fun _ _ => rfl)

theorem clear_coupled (hk : kernels.Orderly apart) (h : Near apart (UpToPool 0) t u) :
    Coupled Halt.Agree Traced.UpToPool (t.clear kernels) (u.clear kernels) :=
  (backTo_coupled hk h .zero).bind fun _ _ hs => .ok (hs.mapTape fun _ _ => rfl)

theorem shrink_coupled (h : t.UpToPool 0 u) :
    Coupled (fun f g : Fault => g = f ∧ ¬ f.OfPool) (UpToPool 0) t.shrink u.shrink := by
  obtain ⟨pool, hpool, rfl⟩ := h.exists_eq
  have hshrink (q : Pool F) (hq : q.lent = 0) :
      q.shrink = .ok { q with values := [], identifiers := [] } := by
    rw [Pool.shrink, if_pos (by simp [Pool.isIdle, hq])]
  rw [shrink, shrink, hshrink _ h.lent_eq, hshrink (t.withPool pool).pool hpool]
  exact .ok (.of_pool (t := { t.withAdjoints .new with
    sweepCopy := .new, pool := { t.pool with values := [], identifiers := [] } }) h.lent_eq hpool)

end Tape

end Autodiff
