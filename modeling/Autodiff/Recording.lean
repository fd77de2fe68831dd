import Autodiff.Catalogue

namespace Autodiff

inductive IdRef
  | variable (v : Nat)
  | identifier (id : Identifier)
  deriving DecidableEq, Repr

structure TermRef (F : Type) where
  elements : List Nat
  weight : F
  active? : Option Bool
  needed? : Option Bool

inductive Operation (F : Type)
  | issue
  | release (v : Nat)
  | constant (v : Nat) (value : F)
  | fromParts (v : Nat) (value : F) (id : Identifier)
  | setValue (v : Nat) (value : F)
  | copy (source v : Nat)
  | input (v : Nat)
  | output (v : Nat)
  | addArgument (arg : IdRef) (weight : F)
  | closeStatement (lhs : IdRef) (value : F)
  | assign (v : Nat) (value : F) (args : List (IdRef × F))
  | externalOutput (v : Nat)
  | scale (factor : F) (x y : List Nat)
  | sumSquares (terms : List (TermRef F)) (y : List Nat)
  | multiply (s : MatrixOrder) (n k m : Nat) (a b y : List Nat)

structure Recording (F : Type) [Scalar F] where
  tape : Tape F
  vars : List (Variable F)

namespace Recording

variable {F : Type} [Scalar F]

def get (r : Recording F) (v : Nat) : Variable F := r.vars.getD v (.constant 0)

def getAll (r : Recording F) (vs : List Nat) : List (Variable F) := vs.map r.get

def set (r : Recording F) (v : Nat) (x : Variable F) : Recording F :=
  { r with vars := r.vars.set v x }

/-- Writes results back in order; of a repeated number, the last one stays. -/
def setAll (r : Recording F) (vs : List Nat) (xs : List (Variable F)) : Recording F :=
  (vs.zip xs).foldl (fun r vx => r.set vx.1 vx.2) r

def withTape (r : Recording F) (t : Tape F) : Recording F := { r with tape := t }

def resolve (r : Recording F) : IdRef → Identifier
  | .variable v => (r.get v).identifier
  | .identifier id => id

def variableNote (x : Variable F) : Note F := .list [.count x.identifier, .real x.value]

def setResult (r : Recording F) (v : Nat) (result : Variable F × Tape F) : Note F × Recording F :=
  (.count result.1.identifier, (r.withTape result.2).set v result.1)

def setResults (r : Recording F) (vs : List Nat) (result : List (Variable F) × Tape F) :
    Note F × Recording F :=
  (.list (result.1.map variableNote), (r.withTape result.2).setAll vs result.1)

def term (r : Recording F) (a : TermRef F) : SquareSum.Term F :=
  ⟨r.getAll a.elements, a.weight, a.active?, a.needed?⟩

/-- The result of a statement updates the identifier of a variable, but not its value. -/
def closeStatement (r : Recording F) (lhs : IdRef) (value : F) : Note F × Recording F :=
  let (id, t) := r.tape.closeStatement (r.resolve lhs) value
  let r' := r.withTape t
  match lhs with
  | .variable v => (.count id, r'.set v { r.get v with identifier := id })
  | .identifier _ => (.count id, r')

def apply (r : Recording F) (c : Catalogue F) : Operation F → Except Fault (Note F × Recording F)
  | .issue =>
    let (id, t) := r.tape.issue
    .ok (.count id, r.withTape t)
  | .release v => do return r.setResult v (← r.tape.release (r.get v))
  | .constant v value => .ok (.nothing, r.set v (.constant value))
  | .fromParts v value id => .ok (.nothing, r.set v ⟨value, id⟩)
  | .setValue v value => .ok (.nothing, r.set v { r.get v with value := value })
  | .copy source v => .ok (.nothing, r.set v (r.get source))
  | .input v => do return r.setResult v (← r.tape.input (r.get v))
  | .output v => do return r.setResult v (← r.tape.output (r.get v))
  | .addArgument arg weight =>
    .ok (.nothing, r.withTape (r.tape.addArgument (r.resolve arg) weight))
  | .closeStatement lhs value => .ok (r.closeStatement lhs value)
  | .assign v value args => do
    let args := args.map fun arg => (r.resolve arg.1, arg.2)
    return r.setResult v (← r.tape.assign (r.get v) value args)
  | .externalOutput v => do
    let (old, y, t) ← r.tape.freshOutput (r.get v)
    return (.list [.count y.identifier, .real old], (r.withTape t).set v y)
  | .scale factor x y => do
    let result ← Scaling.scale r.tape c.kernels (c.token .scaling) factor (r.getAll x) (r.getAll y)
    return r.setResults y result
  | .sumSquares terms y => do
    let result ← SquareSum.sumSquares r.tape c.kernels (c.token .squareSum) (terms.map r.term)
      (r.getAll y)
    return r.setResults y result
  | .multiply s n k m a b y => do
    let result ← Product.multiply r.tape c.kernels (c.token .product) s n k m (r.getAll a)
      (r.getAll b) (r.getAll y)
    return r.setResults y result

def run (r : Recording F) (c : Catalogue F) : List (Operation F) → Except Fault (Recording F)
  | [] => .ok r
  | op :: ops => do
    let (_, r) ← r.apply c op
    r.run c ops

end Recording

end Autodiff
