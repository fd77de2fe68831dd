import Autodiff.Tape.Recording

namespace Autodiff.Tape

variable {F : Type} [Scalar F]

def addRecord {α : Type} (t : Tape F) (kernels : Kernels F) (token : Token)
    (fixedSize dynamicSize : Nat)
    (fill : Writer F → Writer F → Except Fault (α × Writer F × Writer F)) :
    Except Fault (α × Tape F) := do
  let _ ← kernels.find token
  let (x, fixed, dynamic) ← fill (.new "fixed" fixedSize) (.new "dynamic" dynamicSize)
  let record : Record F := ⟨token, fixed.cells, dynamic.cells⟩
  let added := { t with records := t.records ++ [record] }
  return (x, added.append passive (.external t.records.length) 0)

def writeRecord (t : Tape F) (kernels : Kernels F) (token : Token) (s : Schema F) (r : s.Record) :
    Except Fault (Tape F) := do
  let (_, t) ← t.addRecord kernels token (s.fixedSize r) (s.dynamicSize t.traits r)
    fun fixed dynamic => do
      let (fixed, dynamic) ← s.write t.traits r fixed dynamic
      fixed.finish
      dynamic.finish
      return ((), fixed, dynamic)
  return t

def reclaim (t : Tape F) (s : Schema F) (r : s.Record) : Except Fault (Tape F) := do
  let pool ← t.pool.reclaimAll (s.arrays r)
  return { t with pool := pool }

def stageInputs (t : Tape F) (xs : List (Variable F)) : Staged F × Tape F :=
  let (a, pool) := t.pool.stageInputs xs
  (a, { t with pool := pool })

def stageOutputs (t : Tape F) (n : Nat) : Staged F × Tape F :=
  let (a, pool) := t.pool.stageOutputs n
  (a, { t with pool := pool })

def stageAll (t : Tape F) : List (List (Variable F)) → List (Staged F) × Tape F
  | [] => ([], t)
  | xs :: rest =>
    let (a, t) := t.stageInputs xs
    let (as, t) := t.stageAll rest
    (a :: as, t)

def placeOutput (t : Tape F) (y : Variable F) (active : Bool) :
    Except Fault (F × Variable F × Tape F) :=
  if active then t.freshOutput y
  else do
    let (y, t) ← t.release y
    return (0, y, t)

def placeOutputs (t : Tape F) (ys : List (Variable F)) (a : Staged F) :
    List (Nat × Bool) → Except Fault (List (Variable F) × Staged F × Tape F)
  | [] => .ok (ys, a, t)
  | (i, active) :: rest => do
    let y := ys.getD i (.constant 0)
    let (old, y, t) ← t.placeOutput y active
    t.placeOutputs (ys.set i y) (a.setOutput i y old) rest

def releaseAll (t : Tape F) : List (Variable F) → Except Fault (List (Variable F) × Tape F)
  | [] => .ok ([], t)
  | y :: rest => do
    let (y, t) ← t.release y
    let (ys, t) ← t.releaseAll rest
    return (y :: ys, t)

end Autodiff.Tape
