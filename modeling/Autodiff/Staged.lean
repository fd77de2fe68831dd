import Autodiff.Pool
import Autodiff.Variable

namespace Autodiff

structure Staged (F : Type) where
  identifiers : Buffer Identifier
  values : Buffer F
  gradients : Buffer F
  oldValues : Buffer F
  deriving Repr

namespace Staged

variable {F : Type}

def length (s : Staged F) : Nat := max s.identifiers.items.length s.values.items.length

def isEmpty (s : Staged F) : Bool := s.length == 0

def isActive (s : Staged F) : Bool := s.identifiers.items.any (· != passive)

def withValues (s : Staged F) (xs : List F) : Staged F := { s with values := s.values.fill xs }

def withGradients (s : Staged F) (xs : List F) : Staged F :=
  { s with gradients := s.gradients.fill xs }

def setOutput (s : Staged F) (i : Nat) (x : Variable F) (old : F) : Staged F :=
  { s with
    identifiers := s.identifiers.setAt i x.identifier
    values := s.values.setAt i x.value
    oldValues := s.oldValues.setAt i old }

end Staged

namespace Pool

variable {F : Type} [Scalar F]

def lendStaged (s : Pool F) (identifiers values gradients oldValues : Nat) :
    Staged F × Pool F :=
  let (ids, s) := s.lendIdentifiers identifiers
  let (vs, s) := s.lendValues values
  let (gs, s) := s.lendValues gradients
  let (os, s) := s.lendValues oldValues
  (⟨ids, vs, gs, os⟩, s)

def stageInputs (s : Pool F) (xs : List (Variable F)) : Staged F × Pool F :=
  let (a, s) := s.lendStaged xs.length xs.length 0 0
  ({ a with
      identifiers := a.identifiers.fill (xs.map Variable.identifier)
      values := a.values.fill (xs.map Variable.value) }, s)

def stageOutputs (s : Pool F) (n : Nat) : Staged F × Pool F := s.lendStaged n n 0 n

def reclaim (s : Pool F) (a : Staged F) : Except Fault (Pool F) := do
  let s ← s.returnIdentifiers a.identifiers
  let s ← s.returnValues a.values
  let s ← s.returnValues a.gradients
  s.returnValues a.oldValues

def reclaimAll (s : Pool F) : List (Staged F) → Except Fault (Pool F)
  | [] => .ok s
  | a :: rest => do
    let s ← s.reclaim a
    s.reclaimAll rest

end Pool

end Autodiff
