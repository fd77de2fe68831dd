import Autodiff.Issuer
import Autodiff.Kernel
/-!
A recording: the log of its statements, the byte records of its external functions, and the vectors
that sweeps work on.

A statement keeps its own arguments, each with the partial derivative of the result. On a primal
tape it also keeps the value it wrote and the value it replaced.
-/

namespace Autodiff

inductive StatementKind
  | elementary
  | input
  | external (record : Nat)
  deriving DecidableEq, Repr

structure Overwrite (F : Type) where
  new : F
  old : F
  deriving DecidableEq, Repr

structure Statement (F : Type) where
  output : Identifier
  kind : StatementKind
  arguments : List (Identifier × F)
  overwrite : Option (Overwrite F)
  deriving DecidableEq, Repr

structure Record (F : Type) [Scalar F] where
  token : Token
  fixed : List (Scalar.Cell F)
  dynamic : List (Scalar.Cell F)

structure Tape (F : Type) [Scalar F] where
  issuer : Issuer
  log : List (Statement F)
  /-- Arguments pushed since the last statement. -/
  pending : List (Identifier × F)
  records : List (Record F)
  vectors : Vectors F
  /-- The rolled-back primals that the last reverse sweep left behind. -/
  sweepCopy : Slots F
  pool : Pool F

inductive TapeKind
  | jacobian
  | primalValues
  deriving DecidableEq, Repr

structure Position where
  statements : Nat
  externals : Nat
  largest : Identifier
  deriving DecidableEq, Repr

namespace Position

def zero : Position := ⟨0, 0, passive⟩

def order (a b : Position) : Ordering :=
  ((compare a.statements b.statements).then (compare a.externals b.externals)).then
    (compare a.largest b.largest)

def display (p : Position) : String := p.statements.repr

end Position

namespace Tape

variable {F : Type} [Scalar F]

def new (policy : Policy) (kind : TapeKind) : Tape F where
  issuer := .new policy
  log := []
  pending := []
  records := []
  vectors := ⟨.new, match kind with
    | .jacobian => none
    | .primalValues => some .new⟩
  sweepCopy := .new
  pool := .new

def hasPrimals (t : Tape F) : Bool := t.vectors.hasPrimals

def kind (t : Tape F) : TapeKind := if t.hasPrimals then .primalValues else .jacobian

def traits (t : Tape F) : Traits := ⟨t.hasPrimals, t.issuer.policy.isLinear⟩

def statementCount (t : Tape F) : Nat := t.log.length

def jacobianSize (t : Tape F) : Nat :=
  total (t.log.map fun s => s.arguments.length) + t.pending.length

def fixedBytes (t : Tape F) : Nat := total (t.records.map fun r => r.fixed.length)

def dynamicBytes (t : Tape F) : Nat := total (t.records.map fun r => r.dynamic.length)

def position (t : Tape F) : Position := ⟨t.statementCount, t.records.length, t.issuer.largest⟩

def withAdjoints (t : Tape F) (adjoints : Slots F) : Tape F :=
  { t with vectors := { t.vectors with adjoints := adjoints } }

def withPrimals (t : Tape F) (primals : Option (Slots F)) : Tape F :=
  { t with vectors := { t.vectors with primals := primals } }

def gradient (t : Tape F) (id : Identifier) : F := t.vectors.gradient id

def setGradient (t : Tape F) (id : Identifier) (x : F) : Tape F :=
  { t with vectors := t.vectors.setGradient id x }

/-- Writes a slot, that of passive variables included. -/
def writeGradient (t : Tape F) (id : Identifier) (x : F) : Tape F :=
  t.withAdjoints (t.vectors.adjoints.set id x)

def zeroAdjoints (t : Tape F) : Tape F := t.withAdjoints t.vectors.adjoints.zeroAll

def shrink (t : Tape F) : Except Fault (Tape F) := do
  let pool ← t.pool.shrink
  return { t.withAdjoints .new with sweepCopy := .new, pool := pool }

def primal? (t : Tape F) (id : Identifier) : Option F := t.vectors.primals.map (·.get id)

end Tape

end Autodiff
