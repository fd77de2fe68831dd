import Autodiff.Tape.Basic
import Autodiff.Variable

namespace Autodiff.Tape

variable {F : Type} [Scalar F]

def issue (t : Tape F) : Identifier × Tape F :=
  let (id, issuer) := t.issuer.issue
  (id, { t with issuer := issuer })

def retire (t : Tape F) (id : Identifier) : Except Fault (Tape F) := do
  let issuer ← t.issuer.retire id
  return { t with issuer := issuer }

def release (t : Tape F) (x : Variable F) : Except Fault (Variable F × Tape F) := do
  let t ← t.retire x.identifier
  return (x.release, t)

def addArgument (t : Tape F) (id : Identifier) (weight : F) : Tape F :=
  if id = passive then t else { t with pending := t.pending ++ [(id, weight)] }

def addArguments (t : Tape F) (args : List (Identifier × F)) : Tape F :=
  args.foldl (fun t arg => t.addArgument arg.1 arg.2) t

/-- The primal that a statement is about to replace; passive outputs replace none. -/
def replaced (p : Slots F) (output : Identifier) : F :=
  if output = passive then 0 else p.slot output

def append (t : Tape F) (output : Identifier) (kind : StatementKind) (value : F) : Tape F :=
  let overwrite := t.vectors.primals.map fun p => ⟨value, replaced p output⟩
  { t with
    log := t.log ++ [⟨output, kind, t.pending, overwrite⟩]
    pending := []
    vectors := t.vectors.setPrimal output value }

def closeStatement (t : Tape F) (lhs : Identifier) (value : F) : Identifier × Tape F :=
  let (id, issuer) := t.issuer.settle lhs
  (id, { t with issuer := issuer }.append id .elementary value)

def assign (t : Tape F) (lhs : Variable F) (value : F) (args : List (Identifier × F)) :
    Except Fault (Variable F × Tape F) :=
  if args.all fun arg => arg.1 == passive then t.release ⟨value, lhs.identifier⟩
  else
    let (id, t) := (t.addArguments args).closeStatement lhs.identifier value
    .ok (⟨value, id⟩, t)

/-- Makes a variable independent, under an identifier of its own. No statement clears the derivative
of an input; where identifiers are reused, the input is logged so that its primal can be rolled
back. -/
def input (t : Tape F) (x : Variable F) : Except Fault (Variable F × Tape F) := do
  let (id, issuer) ← t.issuer.exchange x.identifier
  let t := { t with issuer := issuer }
  let t :=
    if t.traits.rollsBack then t.append id .input x.value
    else t.withPrimals (t.vectors.primals.map (·.set id x.value))
  return (⟨x.value, id⟩, t)

def output (t : Tape F) (y : Variable F) : Except Fault (Variable F × Tape F) := do
  if y.identifier = passive then return (y, t)
  let (id, t) := (t.addArgument y.identifier 1).closeStatement passive y.value
  let t ← t.retire y.identifier
  return (⟨y.value, id⟩, t)

def freshOutput (t : Tape F) (y : Variable F) :
    Except Fault (F × Variable F × Tape F) := do
  let (id, issuer) ← t.issuer.exchange y.identifier
  let t := { t with issuer := issuer }
  let old := match t.vectors.primals with
    | some p => p.slot id
    | none => 0
  return (old, ⟨y.value, id⟩, t.withPrimals (t.vectors.primals.map (·.set id y.value)))

end Autodiff.Tape
