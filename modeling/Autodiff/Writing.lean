import Autodiff.Note

namespace Autodiff

inductive WritingStep (F : Type)
  | write (ty : FieldType) (x : ty.Value F)
  | writeMany (ty : FieldType) (xs : List (ty.Value F))
  | remaining
  | finish

namespace Writer

variable {F : Type} [Scalar F]

def step (w : Writer F) : WritingStep F → Except Fault (Note F × Writer F)
  | .write ty x => do
    let w ← w.write ty x
    return (.count w.remaining, w)
  | .writeMany ty xs => do
    let w ← w.writeMany ty xs
    return (.count w.remaining, w)
  | .remaining => .ok (.count w.remaining, w)
  | .finish => do
    w.finish
    return (.text "ok", w)

def runSteps (w : Writer F) : List (WritingStep F) → Except Fault (List (Note F) × Writer F)
  | [] => .ok ([], w)
  | st :: steps => do
    let (note, w) ← w.step st
    let (notes, w) ← w.runSteps steps
    return (note :: notes, w)

end Writer

end Autodiff
