import Autodiff.Kernel.Argument
import Autodiff.Tape.Records

namespace Autodiff.Scaling

variable {F : Type}

@[reducible] def schema : Schema F :=
  .scalar .activity fun activity =>
  .scalar (.natural 4) fun n =>
  .scalar .real fun _ =>
  .input n ⟨activity.get 0, false⟩ <|
  .output n .done

def note (callback : String) (x y : Staged F) : Note F :=
  .list [.text "scale", .text callback, .staged x, .staged y]

variable [Scalar F]

def forward : (schema (F := F)).Record → Program F (schema (F := F)).Record
  | ⟨activity, n, factor, x, y, _⟩ => do
    Program.act (.report (note "forward" x y))
    let x ← x.gather
    let y := y.withGradients (x.gradients.items.map (factor * ·))
    let primals ← Program.act .hasPrimals
    let y := if primals then y.withValues (x.values.items.map (factor * ·)) else y
    if primals then y.writePrimals
    y.scatter
    return ⟨activity, n, factor, x, y, ()⟩

def reverse : (schema (F := F)).Record → Program F (schema (F := F)).Record
  | ⟨activity, n, factor, x, y, _⟩ => do
    Program.act (.report (note "reverse" x y))
    let y ← y.take
    let x := if activity.get 0 then
      x.withGradients (y.gradients.items.map (factor * ·)) else x
    if activity.get 0 then x.accumulate
    return ⟨activity, n, factor, x, y, ()⟩

def delete : (schema (F := F)).Record → Program F (schema (F := F)).Record
  | ⟨activity, n, factor, x, y, _⟩ => do
    Program.act (.report (.list [.text "scale", .text "delete", .count n, .real factor]))
    return ⟨activity, n, factor, x, y, ()⟩

def kernel : Kernel F where
  name := "scale"
  forward := schema.forward forward
  reverse := schema.reverse reverse
  delete := schema.delete delete

def scale (t : Tape F) (kernels : Kernels F) (token : Token) (factor : F)
    (x y : List (Variable F)) : Except Fault (List (Variable F) × Tape F) := do
  let y := y.zipWith (fun y x => { y with value := factor * x.value }) x
  let activity ← ActivityMask.none.setFrom 0 [x.any Variable.isActive]
  if !activity.any then t.releaseAll y
  else
    let (sx, t) := t.stageInputs x
    let (sy, t) := t.stageOutputs y.length
    let (y, sy, t) ← t.placeOutputs y sy ((List.range y.length).map fun i => (i, true))
    let record : (schema (F := F)).Record := ⟨activity, x.length, factor, sx, sy, ()⟩
    let t ← t.writeRecord kernels token schema record
    let t ← t.reclaim schema record
    return (y, t)

end Autodiff.Scaling
