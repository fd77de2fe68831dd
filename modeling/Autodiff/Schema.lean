import Autodiff.Program
/-!
The fields of an external record.

A schema lists the fields once, and later fields may depend on the scalars before them. Sizing,
writing, restoring, the upkeep of primal values and the return of buffers all walk this one list, so
the bytes a record is stored in are the bytes it is read from. Scalars lie in the fixed segment and
arrays in the dynamic one.
-/

namespace Autodiff

inductive Schema (F : Type)
  | done
  | scalar (ty : FieldType) (next : ty.Value F → Schema F)
  | input (length : Nat) (use : InputRole) (next : Schema F)
  | output (length : Nat) (next : Schema F)

namespace Schema

variable {F : Type}

@[reducible] def Record : Schema F → Type
  | done => Unit
  | scalar ty next => (x : ty.Value F) × (next x).Record
  | input _ _ next => Staged F × next.Record
  | output _ next => Staged F × next.Record

def arrays : (s : Schema F) → s.Record → List (Staged F)
  | done, _ => []
  | scalar _ next, r => (next r.1).arrays r.2
  | input _ _ next, r => r.1 :: next.arrays r.2
  | output _ next, r => r.1 :: next.arrays r.2

variable [Scalar F]

def passiveCount (ids : List Identifier) : Nat := (ids.filter (· == passive)).length

def fixedSize : (s : Schema F) → s.Record → Nat
  | done, _ => 0
  | scalar ty next, r => ty.width F + (next r.1).fixedSize r.2
  | input _ _ next, r => next.fixedSize r.2
  | output _ next, r => next.fixedSize r.2

def inputSize (traits : Traits) (n : Nat) (use : InputRole) (a : Staged F) : Nat :=
  (if use.active then n * FieldType.identifier.width F else 0) +
    match use.origin traits with
    | .absent => 0
    | .written => n * Scalar.width F
    | .primalVector => passiveCount (a.identifiers.items.take n) * Scalar.width F

def outputSize (traits : Traits) (n : Nat) : Nat :=
  n * FieldType.identifier.width F + if traits.rollsBack then n * Scalar.width F else 0

def dynamicSize (traits : Traits) : (s : Schema F) → s.Record → Nat
  | done, _ => 0
  | scalar _ next, r => (next r.1).dynamicSize traits r.2
  | input n use next, r => inputSize traits n use r.1 + next.dynamicSize traits r.2
  | output n next, r => outputSize (F := F) traits n + next.dynamicSize traits r.2

def writePassive (w : Writer F) : List Identifier → List F → Except Fault (Writer F)
  | id :: ids, x :: xs => do
    let w ← if id = passive then w.write .real x else .ok w
    writePassive w ids xs
  | _, _ => .ok w

def writeInput (traits : Traits) (n : Nat) (use : InputRole) (a : Staged F) (w : Writer F) :
    Except Fault (Writer F) := do
  let w ← if use.active then w.writeMany .identifier (a.identifiers.items.take n) else .ok w
  match use.origin traits with
  | .absent => .ok w
  | .written => w.writeMany .real (a.values.items.take n)
  | .primalVector => writePassive w (a.identifiers.items.take n) (a.values.items.take n)

def writeOutput (traits : Traits) (n : Nat) (a : Staged F) (w : Writer F) :
    Except Fault (Writer F) := do
  let w ← w.writeMany .identifier (a.identifiers.items.take n)
  if traits.rollsBack then w.writeMany .real (a.oldValues.items.take n) else .ok w

def write (traits : Traits) :
    (s : Schema F) → s.Record → Writer F → Writer F → Except Fault (Writer F × Writer F)
  | done, _, fixed, dynamic => .ok (fixed, dynamic)
  | scalar ty next, r, fixed, dynamic => do
    let fixed ← fixed.write ty r.1
    (next r.1).write traits r.2 fixed dynamic
  | input n use next, r, fixed, dynamic => do
    let dynamic ← writeInput traits n use r.1 dynamic
    next.write traits r.2 fixed dynamic
  | output n next, r, fixed, dynamic => do
    let dynamic ← writeOutput traits n r.1 dynamic
    next.write traits r.2 fixed dynamic

end Schema

namespace Program

variable {F : Type}

def lendStaged (identifiers values gradients oldValues : Nat) : Program F (Staged F) := do
  let ids ← act (.lendIdentifiers identifiers)
  let vs ← act (.lendValues values)
  let gs ← act (.lendValues gradients)
  let os ← act (.lendValues oldValues)
  return ⟨ids, vs, gs, os⟩

def reclaim (a : Staged F) : Program F Unit := do
  act (.returnIdentifiers a.identifiers)
  act (.returnValues a.values)
  act (.returnValues a.gradients)
  act (.returnValues a.oldValues)

def reclaimAll : List (Staged F) → Program F Unit
  | [] => return ()
  | a :: rest => do
    reclaim a
    reclaimAll rest

def finishBoth : Program F Unit := do
  act (.finish .fixed)
  act (.finish .dynamic)

end Program

namespace Schema

open Program (act)

variable {F : Type} [Scalar F]

def restorePassive : List Identifier → Program F (List F)
  | [] => return []
  | id :: ids => do
    let x ← if id = passive then act (.read .dynamic .real) else pure 0
    let xs ← restorePassive ids
    return x :: xs

def restoreInput (traits : Traits) (n : Nat) (use : InputRole) : Program F (Staged F) := do
  let active := if use.active then n else 0
  let needed := if use.keepsValues traits then n else 0
  let a ← Program.lendStaged active needed active 0
  let ids ← if use.active then act (.readMany .dynamic .identifier n) else pure []
  let a := { a with identifiers := a.identifiers.fill ids }
  match use.origin traits with
  | .absent => return a
  | .written =>
    let xs ← act (.readMany .dynamic .real n)
    return a.withValues xs
  | .primalVector =>
    let xs ← restorePassive ids
    return a.withValues xs

def restoreOutput (traits : Traits) (n : Nat) : Program F (Staged F) := do
  let old := if traits.rollsBack then n else 0
  let a ← Program.lendStaged n n n old
  let ids ← act (.readMany .dynamic .identifier n)
  let os ← act (.readMany .dynamic .real old)
  return { a with identifiers := a.identifiers.fill ids, oldValues := a.oldValues.fill os }

def restore (traits : Traits) : (s : Schema F) → Program F s.Record
  | done => return ()
  | scalar ty next => do
    let x ← act (.read .fixed ty)
    let r ← (next x).restore traits
    return ⟨x, r⟩
  | input n use next => do
    let a ← restoreInput traits n use
    let r ← next.restore traits
    return (a, r)
  | output n next => do
    let a ← restoreOutput traits n
    let r ← next.restore traits
    return (a, r)

def setPrimals : List Identifier → List F → Program F Unit
  | id :: ids, x :: xs => do
    act (.setPrimal id x)
    setPrimals ids xs
  | _, _ => return ()

def rollBack : (s : Schema F) → s.Record → Program F Unit
  | done, _ => return ()
  | scalar _ next, r => (next r.1).rollBack r.2
  | input _ _ next, r => next.rollBack r.2
  | output _ next, r => do
    setPrimals r.1.identifiers.items r.1.oldValues.items
    next.rollBack r.2

def fetch : List Identifier → List F → Program F (List F)
  | id :: ids, x :: xs => do
    let x ← if id = passive then pure x else act (.primal id)
    let xs ← fetch ids xs
    return x :: xs
  | _, xs => return xs

def fetchInput (traits : Traits) (use : InputRole) (a : Staged F) : Program F (Staged F) :=
  match use.origin traits with
  | .primalVector => do
    let xs ← fetch a.identifiers.items a.values.items
    return a.withValues xs
  | _ => return a

def fetchPrimals (traits : Traits) : (s : Schema F) → s.Record → Program F s.Record
  | done, r => return r
  | scalar _ next, r => do
    let rest ← (next r.1).fetchPrimals traits r.2
    return ⟨r.1, rest⟩
  | input _ use next, r => do
    let a ← fetchInput traits use r.1
    let rest ← next.fetchPrimals traits r.2
    return (a, rest)
  | output _ next, r => do
    let rest ← next.fetchPrimals traits r.2
    return (r.1, rest)

def release (s : Schema F) (r : s.Record) : Program F Unit := do
  Program.reclaimAll (s.arrays r)
  let idle ← act .poolIdle
  if idle then return () else .fail .buffersNotReturned

def forward (s : Schema F) (body : s.Record → Program F s.Record) : Program F Unit := do
  let traits ← act .traits
  let r ← s.restore traits
  Program.finishBoth
  let r ← s.fetchPrimals traits r
  let r ← body r
  s.release r

/-- Replays a record in a reverse sweep. Where identifiers are reused, the primal values from before
the record are put back first, so that the inputs are read as the record saw them. -/
def reverse (s : Schema F) (body : s.Record → Program F s.Record) : Program F Unit := do
  let traits ← act .traits
  let r ← s.restore traits
  Program.finishBoth
  if traits.rollsBack then s.rollBack r
  let r ← s.fetchPrimals traits r
  let r ← body r
  s.release r

def delete (s : Schema F) (body : s.Record → Program F s.Record) : Program F Unit := do
  let traits ← act .traits
  let r ← s.restore traits
  Program.finishBoth
  let r ← body r
  Program.reclaimAll (s.arrays r)

end Schema

end Autodiff
