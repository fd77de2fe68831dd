import Autodiff.Proofs.Loans
import Autodiff.Proofs.ProductRecording

namespace Autodiff

variable {F : Type}

namespace Schema

def SameScalars : (s : Schema F) → s.Record → s.Record → Prop
  | done, _, _ => True
  | scalar _ next, r, r' => ∃ rest, r' = ⟨r.1, rest⟩ ∧ (next r.1).SameScalars r.2 rest
  | input _ _ next, r, r' => next.SameScalars r.2 r'.2
  | output _ next, r, r' => next.SameScalars r.2 r'.2

theorem SameScalars.refl {s : Schema F} (r : s.Record) : s.SameScalars r r := by
  induction s with
  | done => trivial
  | scalar ty next ih => exact ⟨r.2, rfl, ih r.1 r.2⟩
  | input n use next ih => exact ih r.2
  | output n next ih => exact ih r.2

theorem SameScalars.length_arrays {s : Schema F} {r r' : s.Record} (h : s.SameScalars r r') :
    (s.arrays r').length = (s.arrays r).length := by
  induction s with
  | done => rfl
  | scalar ty next ih =>
    obtain ⟨rest, rfl, h⟩ := h
    exact ih _ h
  | input n use next ih => exact congrArg (· + 1) (ih h)
  | output n next ih => exact congrArg (· + 1) (ih h)

theorem detached_setPrimals (ids : List Identifier) (xs : List F) :
    (setPrimals ids xs).Detached fun _ => True := by
  induction ids generalizing xs with
  | nil => trivial
  | cons id ids ih =>
    cases xs with
    | nil => trivial
    | cons x xs => exact ⟨trivial, fun _ => ih xs⟩

theorem detached_fetch (ids : List Identifier) (xs : List F) :
    (fetch ids xs).Detached fun _ => True := by
  induction ids generalizing xs with
  | nil => trivial
  | cons id ids ih =>
    cases xs with
    | nil => trivial
    | cons x xs =>
      rw [fetch]
      split
      case isTrue => exact (ih xs).bind fun _ _ => trivial
      case isFalse => exact ⟨trivial, fun _ => (ih xs).bind fun _ _ => trivial⟩

theorem detached_fetchInput (traits : Traits) (use : InputRole) (a : Staged F) :
    (fetchInput traits use a).Detached fun _ => True := by
  rw [fetchInput]
  cases use.origin traits with
  | primalVector => exact (detached_fetch _ _).bind fun _ _ => trivial
  | _ => trivial

theorem detached_rollBack (s : Schema F) (r : s.Record) :
    (s.rollBack r).Detached fun _ => True := by
  induction s with
  | done => trivial
  | scalar ty next ih => exact ih _ _
  | input n use next ih => exact ih _
  | output n next ih => exact (detached_setPrimals _ _).bind fun _ _ => ih _

theorem detached_fetchPrimals (traits : Traits) (s : Schema F) (r : s.Record) :
    (s.fetchPrimals traits r).Detached (s.SameScalars r) := by
  induction s with
  | done => trivial
  | scalar ty next ih => exact (ih _ _).bind fun rest hrest => ⟨rest, rfl, hrest⟩
  | input n use next ih =>
    exact (detached_fetchInput traits use r.1).bind fun _ _ => (ih r.2).bind fun _ h => h
  | output n next ih => exact (ih r.2).bind fun _ h => h

end Schema

variable [Scalar F]

namespace Schema

open Program (act)

variable {base : Nat} {l : Loans} {traits : Traits}

theorem detached_restorePassive (ids : List Identifier) :
    (restorePassive (F := F) ids).Detached fun _ => True := by
  induction ids with
  | nil => trivial
  | cons id ids ih =>
    rw [restorePassive]
    split
    case isTrue => exact ⟨trivial, fun _ => ih.bind fun _ _ => trivial⟩
    case isFalse => exact ih.bind fun _ _ => trivial

theorem borrows_restoreInput (traits : Traits) (n : Nat) (use : InputRole) :
    (restoreInput (F := F) traits n use).Borrows base l fun _ l' => l' = l + .ofArrays 1 := by
  refine (Program.borrows_lendStaged _ _ _ _).bind fun a l' hl' => ?_
  refine (Program.Detached.borrows (Q := fun _ => True) ?_).mono fun _ _ h => h.2.trans hl'
  have hvalues (ids : List Identifier) {p : Program F (List F)} (hp : p.Detached fun _ => True) :
      (p >>= fun xs => pure (Staged.withValues
        { a with identifiers := a.identifiers.fill ids } xs)).Detached fun _ => True :=
    hp.bind fun _ _ => trivial
  have hreal : (act (F := F) (.readMany .dynamic .real n)).Detached fun _ => True :=
    Program.detached_act trivial
  dsimp only
  split
  case isTrue =>
    refine ⟨trivial, fun ids => ?_⟩
    cases use.origin traits with
    | absent => trivial
    | written => exact hvalues ids hreal
    | primalVector => exact hvalues ids (detached_restorePassive ids)
  case isFalse =>
    cases use.origin traits with
    | absent => trivial
    | written => exact hvalues [] hreal
    | primalVector => exact hvalues [] (detached_restorePassive [])

theorem borrows_restoreOutput (traits : Traits) (n : Nat) :
    (restoreOutput (F := F) traits n).Borrows base l fun _ l' => l' = l + .ofArrays 1 := by
  refine (Program.borrows_lendStaged _ _ _ _).bind fun a l' hl' => ?_
  have hrest : (do
      let ids ← act (.readMany .dynamic .identifier n)
      let os ← act (.readMany .dynamic .real (if traits.rollsBack then n else 0))
      return { a with identifiers := a.identifiers.fill ids, oldValues := a.oldValues.fill os } :
      Program F (Staged F)).Detached fun _ => True :=
    ⟨trivial, fun _ => ⟨trivial, fun _ => trivial⟩⟩
  exact hrest.borrows.mono fun _ _ h => h.2.trans hl'

theorem borrows_restore (traits : Traits) (s : Schema F) :
    (s.restore traits).Borrows base l fun r l' => l' = l + .ofArrays (s.arrays r).length := by
  have hnext (l : Loans) (n : Nat) : l + .ofArrays 1 + .ofArrays n = l + .ofArrays (n + 1) := by
    rw [add_assoc, add_comm (Loans.ofArrays 1), ← Loans.ofArrays_succ]
  induction s generalizing l with
  | done => exact Program.borrows_pure rfl
  | scalar ty next ih =>
    refine (Program.detached_act (a := .read .fixed ty) trivial).borrows.bind fun x l' hl' => ?_
    rw [hl'.2]
    exact (ih x).bind fun r l'' hl'' => Program.borrows_pure hl''
  | input n use next ih =>
    refine (borrows_restoreInput traits n use).bind fun a l' hl' => ?_
    refine ih.bind fun r l'' hl'' => Program.borrows_pure ?_
    rw [hl'', hl']
    exact hnext ..
  | output n next ih =>
    refine (borrows_restoreOutput traits n).bind fun a l' hl' => ?_
    refine ih.bind fun r l'' hl'' => Program.borrows_pure ?_
    rw [hl'', hl']
    exact hnext ..

theorem borrows_finishBoth :
    (Program.finishBoth : Program F Unit).Borrows base l fun _ l' => l' = l := by
  have hdetached : (Program.finishBoth : Program F Unit).Detached fun _ => True :=
    ⟨trivial, fun _ => ⟨trivial, fun _ => trivial⟩⟩
  exact hdetached.borrows.mono fun _ _ h => h.2

theorem borrows_release (s : Schema F) (r : s.Record) :
    (s.release r).Borrows base (.ofArrays (s.arrays r).length) fun _ l => l = 0 := by
  rw [← zero_add (Loans.ofArrays _)]
  refine (Program.borrows_reclaimAll (s.arrays r)).bind fun _ l hl => ?_
  refine Program.borrows_poolIdle.bind fun idle l' hl' => ?_
  obtain ⟨hidle, rfl⟩ := hl'
  subst hl
  cases idle with
  | true => exact Program.borrows_pure rfl
  | false =>
    have hbase : base ≠ 0 := by
      rintro rfl
      cases hidle
    exact fun _ _ _ => ⟨hbase, rfl⟩

def Keeps (s : Schema F) (body : s.Record → Program F s.Record) : Prop :=
  ∀ r, (body r).Detached (s.SameScalars r)

variable {s : Schema F} {body : s.Record → Program F s.Record}

theorem Keeps.borrows_release (h : s.Keeps body) (r : s.Record) :
    (body r >>= s.release).Borrows base (.ofArrays (s.arrays r).length) fun _ l => l = 0 := by
  refine (h r).borrows.bind fun r' l hl => ?_
  rw [hl.2, ← hl.1.length_arrays]
  exact Schema.borrows_release s r'

theorem Keeps.borrows_replay (h : s.Keeps body) (traits : Traits) (r : s.Record) :
    (s.fetchPrimals traits r >>= fun r => body r >>= s.release).Borrows base
      (.ofArrays (s.arrays r).length) fun _ l => l = 0 := by
  refine (detached_fetchPrimals traits s r).borrows.bind fun r' l hl => ?_
  rw [hl.2, ← hl.1.length_arrays]
  exact h.borrows_release r'

theorem borrows_opened {p : Traits → s.Record → Program F Unit} {Q : Unit → Loans → Prop}
    (h : ∀ traits r, (p traits r).Borrows base (.ofArrays (s.arrays r).length) Q) :
    (do
      let traits ← act .traits
      let r ← s.restore traits
      Program.finishBoth
      p traits r : Program F Unit).Borrows base 0 Q := by
  refine (Program.detached_act (a := .traits) trivial).borrows.bind fun traits l hl => ?_
  refine (borrows_restore traits s).bind fun r l' hl' => ?_
  refine borrows_finishBoth.bind fun _ l'' hl'' => ?_
  rw [hl'', hl', hl.2, zero_add]
  exact h traits r

theorem Keeps.borrows_forward (h : s.Keeps body) :
    (s.forward body).Borrows base 0 fun _ l => l = 0 :=
  borrows_opened fun traits r => h.borrows_replay traits r

theorem Keeps.borrows_reverse (h : s.Keeps body) :
    (s.reverse body).Borrows base 0 fun _ l => l = 0 := by
  refine borrows_opened fun traits r => ?_
  dsimp only
  split
  case isTrue =>
    refine (detached_rollBack s r).borrows.bind fun _ l hl => ?_
    rw [hl.2]
    exact h.borrows_replay traits r
  case isFalse => exact h.borrows_replay traits r

theorem Keeps.borrows_delete (h : s.Keeps body) :
    (s.delete body).Borrows base 0 fun _ l => l = 0 := by
  refine borrows_opened fun _ r => (h r).borrows.bind fun r' l hl => ?_
  rw [hl.2, ← hl.1.length_arrays, ← zero_add (Loans.ofArrays _)]
  exact Program.borrows_reclaimAll _

end Schema

namespace Program

variable {α : Type} {p : Program F α}

/-- A run that completes returns as many buffers of each kind as it takes. One that ends in a fault
of the pool has done so too, and the fault is that of buffers which were on loan before. -/
def Settles (p : Program F α) : Prop :=
  ∀ r : Replay F,
    match p.run r with
    | .ok (_, r') => p.taken r = p.returned r ∧ r'.pool.lent = r.pool.lent
    | .error halt => halt.fault.OfPool → p.taken r = p.returned r ∧ r.pool.lent ≠ 0

theorem settles_of_borrows (h : ∀ base, p.Borrows base 0 fun _ l => l = 0) : p.Settles := by
  intro r
  have hrun := h r.pool.lent r rfl
  cases hp : p.run r with
  | ok s =>
    rw [hp] at hrun
    obtain ⟨l, rfl, hlent, hbalance⟩ := hrun
    rw [zero_add, add_zero] at hbalance
    exact ⟨hbalance, hlent⟩
  | error halt =>
    rw [hp] at hrun
    intro hfault
    obtain ⟨hbase, hbalance⟩ := hrun hfault
    rw [zero_add] at hbalance
    exact ⟨hbalance, hbase⟩

theorem Detached.settles (h : p.Detached fun _ => True) : p.Settles :=
  settles_of_borrows fun _ => h.borrows.mono fun _ _ h => h.2

end Program

inductive Staging (F : Type)
  | inputs (xs : List (Variable F))
  | outputs (n : Nat)

namespace Pool

def stage (s : Pool F) : Staging F → Staged F × Pool F
  | .inputs xs => s.stageInputs xs
  | .outputs n => s.stageOutputs n

def stageEach (s : Pool F) : List (Staging F) → List (Staged F) × Pool F
  | [] => ([], s)
  | g :: gs =>
    let (a, s) := s.stage g
    let (as, s) := s.stageEach gs
    (a :: as, s)

end Pool

namespace Program

def stage : Staging F → Program F (Staged F)
  | .inputs xs => do
    let a ← lendStaged xs.length xs.length 0 0
    return { a with
      identifiers := a.identifiers.fill (xs.map Variable.identifier)
      values := a.values.fill (xs.map Variable.value) }
  | .outputs n => lendStaged n n 0 n

def stageEach : List (Staging F) → Program F (List (Staged F))
  | [] => return []
  | g :: gs => do
    let a ← stage g
    let as ← stageEach gs
    return a :: as

theorem run_stage (r : Replay F) (g : Staging F) :
    (stage g).run r = .ok ((r.pool.stage g).1, r.withPool (r.pool.stage g).2) := by
  cases g <;> rfl

theorem run_stageEach (r : Replay F) (gs : List (Staging F)) :
    (stageEach gs).run r = .ok ((r.pool.stageEach gs).1, r.withPool (r.pool.stageEach gs).2) := by
  induction gs generalizing r with
  | nil => rfl
  | cons g gs ih =>
    change ((stage g).bind fun a => (stageEach gs).bind fun as => pure (a :: as)).run r = _
    rw [run_bind, run_stage]
    change ((stageEach gs).bind fun as => pure (_ :: as)).run _ = _
    rw [run_bind, ih]
    rfl

theorem run_act_bind {r r' : Replay F} {a : Action F} {x : a.Result}
    (h : a.perform r = .ok (x, r')) (f : a.Result → Program F α) :
    (act a >>= f).run r = (f x).run r' := by
  change (perform a f).run r = _
  rw [run, h]

theorem perform_returnValues {r : Replay F} {b : Buffer F} {pool : Pool F}
    (h : r.pool.returnValues b = .ok pool) :
    (Action.returnValues b).perform r = .ok ((), r.withPool pool) := by
  rw [Action.perform, h]
  rfl

theorem perform_returnIdentifiers {r : Replay F} {b : Buffer Identifier} {pool : Pool F}
    (h : r.pool.returnIdentifiers b = .ok pool) :
    (Action.returnIdentifiers b : Action F).perform r = .ok ((), r.withPool pool) := by
  rw [Action.perform, h]
  rfl

theorem run_reclaim {r : Replay F} {a : Staged F} {pool : Pool F}
    (h : r.pool.reclaim a = .ok pool) : (reclaim a).run r = .ok ((), r.withPool pool) := by
  obtain ⟨pool₁, h₁, h⟩ := exists_of_bind_eq_ok h
  obtain ⟨pool₂, h₂, h⟩ := exists_of_bind_eq_ok h
  obtain ⟨pool₃, h₃, h⟩ := exists_of_bind_eq_ok h
  refine (run_act_bind (perform_returnIdentifiers h₁) _).trans ?_
  refine (run_act_bind (perform_returnValues (r := r.withPool pool₁) h₂) _).trans ?_
  refine (run_act_bind (perform_returnValues (r := r.withPool pool₂) h₃) _).trans ?_
  exact run_act_bind (perform_returnValues (r := r.withPool pool₃) h) pure

theorem run_reclaimAll {r : Replay F} {as : List (Staged F)} {pool : Pool F}
    (h : r.pool.reclaimAll as = .ok pool) : (reclaimAll as).run r = .ok ((), r.withPool pool) := by
  induction as generalizing r with
  | nil =>
    cases h
    rfl
  | cons a as ih =>
    obtain ⟨pool₁, h₁, h⟩ := exists_of_bind_eq_ok h
    change ((reclaim a).bind fun _ => reclaimAll as).run r = _
    rw [run_bind, run_reclaim h₁]
    exact ih (r := r.withPool pool₁) h

variable {base : Nat} {l : Loans}

theorem borrows_stage (g : Staging F) :
    (stage g).Borrows base l fun _ l' => l' = l + .ofArrays 1 := by
  cases g with
  | inputs xs => exact (borrows_lendStaged _ _ _ _).bind fun _ _ hl => borrows_pure hl
  | outputs n => exact borrows_lendStaged _ _ _ _

theorem borrows_stageEach (gs : List (Staging F)) :
    (stageEach gs).Borrows base l fun as l' =>
      as.length = gs.length ∧ l' = l + .ofArrays gs.length := by
  induction gs generalizing l with
  | nil => exact borrows_pure ⟨rfl, rfl⟩
  | cons g gs ih =>
    refine (borrows_stage g).bind fun a l' hl => ih.bind fun as l'' hl' => borrows_pure ?_
    refine ⟨congrArg (· + 1) hl'.1, ?_⟩
    rw [hl'.2, hl, add_assoc, add_comm (Loans.ofArrays 1), ← Loans.ofArrays_succ]
    rfl

variable {s : Schema F} {gs : List (Staging F)} {record : List (Staged F) → s.Record}

theorem settles_stageEach
    (h : ∀ as, as.length = gs.length → (s.arrays (record as)).length = gs.length) :
    (stageEach gs >>= fun as => reclaimAll (s.arrays (record as))).Settles := by
  refine settles_of_borrows fun base => (borrows_stageEach gs).bind fun as l hl => ?_
  rw [hl.2, ← h as hl.1]
  exact borrows_reclaimAll _

end Program

namespace Pool

theorem stageEach_eq (pool : Pool F) (gs : List (Staging F)) :
    (pool.stageEach gs).1.length = gs.length ∧
      (pool.stageEach gs).2.lent = pool.lent + 4 * gs.length := by
  induction gs generalizing pool with
  | nil => exact ⟨rfl, rfl⟩
  | cons g gs ih =>
    obtain ⟨hlength, hlent⟩ := ih (pool.stage g).2
    refine ⟨congrArg (· + 1) hlength, hlent.trans ?_⟩
    have hone : (pool.stage g).2.lent = pool.lent + 4 := by cases g <;> rfl
    rw [hone, List.length_cons]
    omega

end Pool

variable {s : Schema F} {gs : List (Staging F)} {record : List (Staged F) → s.Record}

theorem Program.run_stageEach_reclaimAll
    (h : ∀ as, as.length = gs.length → (s.arrays (record as)).length = gs.length) (r : Replay F) :
    Yields ((r.pool.stageEach gs).2.reclaimAll (s.arrays (record (r.pool.stageEach gs).1)))
      fun pool => (stageEach gs >>= fun as => reclaimAll (s.arrays (record as))).run r =
        .ok ((), r.withPool pool) := by
  obtain ⟨hlength, hlent⟩ := r.pool.stageEach_eq gs
  rw [← h _ hlength, Nat.add_comm] at hlent
  obtain ⟨pool, hpool, -⟩ := Pool.reclaimAll_yields _ hlent
  refine ⟨pool, hpool, ?_⟩
  change ((stageEach gs).bind fun as => reclaimAll (s.arrays (record as))).run r = _
  rw [run_bind, run_stageEach]
  exact run_reclaimAll (r := r.withPool _) hpool

end Autodiff
