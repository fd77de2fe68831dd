import Autodiff.Fault
import Autodiff.Scalar
/-!
The active tape of each type of tape.

A guard makes a tape the active one until the guard is dropped, which puts back what was there
before. While an active tape is lent out, no other call can borrow it.
-/

namespace Autodiff

structure TapeType where
  precision : Precision
  policy : Policy
  deriving DecidableEq, Repr

inductive Occupant
  | tape (number : Nat)
  | lent
  deriving DecidableEq, Repr

variable {K : Type}

def ActiveTapes (K : Type) := K → Option Occupant

structure Guard (K : Type) where
  type : K
  previous : Option Occupant
  deriving DecidableEq, Repr

namespace ActiveTapes

def none : ActiveTapes K := fun _ => .none

variable [DecidableEq K]

def set (m : ActiveTapes K) (type : K) (o : Option Occupant) : ActiveTapes K :=
  fun type' => if type' = type then o else m type'

def replace (m : ActiveTapes K) (type : K) (o : Option Occupant) :
    Option Occupant × ActiveTapes K :=
  (m type, m.set type o)

def activate (m : ActiveTapes K) (type : K) (number : Nat) : Guard K × ActiveTapes K :=
  let (previous, m) := m.replace type (some (.tape number))
  (⟨type, previous⟩, m)

def restore (m : ActiveTapes K) (g : Guard K) : ActiveTapes K := (m.replace g.type g.previous).2

/-- A failing call leaves the entry as it was. -/
def borrow (m : ActiveTapes K) (type : K) : Except Fault Nat × ActiveTapes K :=
  match m.replace type (some .lent) with
  | (some (.tape number), m) => (.ok number, m)
  | (some .lent, m) => (.error .tapeAlreadyBorrowed, m)
  | (.none, m) => (.error .noActiveTape, (m.replace type .none).2)

def giveBack (m : ActiveTapes K) (type : K) (number : Nat) : ActiveTapes K :=
  (m.replace type (some (.tape number))).2

end ActiveTapes

end Autodiff
