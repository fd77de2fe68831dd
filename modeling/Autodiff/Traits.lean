namespace Autodiff

structure Traits where
  hasPrimals : Bool
  linear : Bool
  deriving DecidableEq, Repr

/-- Outputs carry the primal values they overwrote. -/
def Traits.rollsBack (t : Traits) : Bool := t.hasPrimals && !t.linear

inductive Origin
  | absent
  | written
  | primalVector
  deriving DecidableEq, Repr

/-- How an input takes part in a record: whether some element carries derivatives, and whether the
derivative of another argument needs its values. -/
structure InputRole where
  active : Bool
  valuesNeeded : Bool
  deriving DecidableEq, Repr

namespace InputRole

/-- Primal tapes recompute the outputs, so they always need the values. -/
def keepsValues (u : InputRole) (t : Traits) : Bool := u.valuesNeeded || t.hasPrimals

/-- Active elements on a primal tape are read from the primal vector; all other needed values are
written to the record. -/
def origin (u : InputRole) (t : Traits) : Origin :=
  if !u.keepsValues t then .absent
  else if t.hasPrimals && u.active then .primalVector
  else .written

end InputRole

end Autodiff
