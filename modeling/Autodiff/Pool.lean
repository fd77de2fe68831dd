import Autodiff.Fault
import Autodiff.Scalar
/-!
The pool of staging buffers that external records borrow while they are stored, replayed or deleted.

A buffer is lent cleared, the last one handed back first, and the pool counts the buffers out on
loan.
-/

namespace Autodiff

def total (sizes : List Nat) : Nat := sizes.foldr (· + ·) 0

/-- A buffer and the largest length it ever had, for which it keeps room. -/
structure Buffer (α : Type) where
  items : List α
  room : Nat
  deriving Repr

namespace Buffer

variable {α : Type}

def empty : Buffer α := ⟨[], 0⟩

def fill (b : Buffer α) (items : List α) : Buffer α := ⟨items, max b.room items.length⟩

def setAt (b : Buffer α) (i : Nat) (x : α) : Buffer α := { b with items := b.items.set i x }

end Buffer

structure Pool (F : Type) where
  values : List (Buffer F)
  identifiers : List (Buffer Identifier)
  lent : Nat
  peakBytes : Nat
  deriving Repr

namespace Pool

variable {F : Type}

def new : Pool F := ⟨[], [], 0, 0⟩

def isIdle (s : Pool F) : Bool := s.lent == 0

def lendIdentifiers (s : Pool F) (n : Nat) : Buffer Identifier × Pool F :=
  (((s.identifiers.head?).getD .empty).fill (List.replicate n passive),
    { s with identifiers := s.identifiers.tail, lent := s.lent + 1 })

variable [Scalar F]

def lendValues (s : Pool F) (n : Nat) : Buffer F × Pool F :=
  (((s.values.head?).getD .empty).fill (List.replicate n 0),
    { s with values := s.values.tail, lent := s.lent + 1 })

def pooledBytes (s : Pool F) : Nat :=
  total (s.values.map Buffer.room) * Scalar.width F + total (s.identifiers.map Buffer.room) * 4

def trackPeak (s : Pool F) : Pool F := { s with peakBytes := max s.peakBytes s.pooledBytes }

def returnValues (s : Pool F) (b : Buffer F) : Except Fault (Pool F) :=
  if s.lent = 0 then .error .bufferNotLent
  else .ok { s with values := b :: s.values, lent := s.lent - 1 }.trackPeak

def returnIdentifiers (s : Pool F) (b : Buffer Identifier) : Except Fault (Pool F) :=
  if s.lent = 0 then .error .bufferNotLent
  else .ok { s with identifiers := b :: s.identifiers, lent := s.lent - 1 }.trackPeak

def shrink (s : Pool F) : Except Fault (Pool F) :=
  if s.isIdle then .ok { s with values := [], identifiers := [] } else .error .shrinkWhileLent

end Pool

end Autodiff
