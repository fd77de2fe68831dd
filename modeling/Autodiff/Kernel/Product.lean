import Autodiff.Kernel.Argument
import Autodiff.Matrix
import Autodiff.Tape.Records
/-!
The matrix product `R = A · B` as one external function: `A` is `n × k` and `B` is `k × m`.

Tangents are `A' · B + A · B'`; adjoints add `R' · Bᵀ` to those of `A` and `Aᵀ · R'` to those of
`B`. The values of each factor are needed for the derivative of the other.
-/

namespace Autodiff.Product

variable {F : Type}

@[reducible] def schema : Schema F :=
  .scalar .activity fun activity =>
  .scalar (.natural 1) fun _ =>
  .scalar (.natural 4) fun n =>
  .scalar (.natural 4) fun k =>
  .scalar (.natural 4) fun m =>
  .input (n * k) ⟨activity.get 0, activity.get 1⟩ <|
  .input (k * m) ⟨activity.get 1, activity.get 0⟩ <|
  .output (n * m) .done

variable [Scalar F]

def addTerm (active : Bool) (sum term : Matrix F) : Matrix F := if active then sum.add term else sum

def gatherIf (active : Bool) (a : Staged F) : Program F (Staged F) :=
  if active then a.gather else return a

def forward : (schema (F := F)).Record → Program F (schema (F := F)).Record
  | ⟨activity, code, n, k, m, a, b, r, _⟩ => do
    let s := MatrixOrder.ofCode code
    let a ← gatherIf (activity.get 0) a
    let b ← gatherIf (activity.get 1) b
    let x := Matrix.ofList s n k a.values.items
    let y := Matrix.ofList s k m b.values.items
    let dx := Matrix.ofList s n k a.gradients.items
    let dy := Matrix.ofList s k m b.gradients.items
    let tangent := addTerm (activity.get 1)
      (addTerm (activity.get 0) .zero (.mul n k m dx y)) (.mul n k m x dy)
    let primals ← Program.act .hasPrimals
    let r := if primals then r.withValues ((Matrix.mul n k m x y).flatten s n m) else r
    if primals then r.writePrimals
    let r := r.withGradients (tangent.flatten s n m)
    r.scatter
    return ⟨activity, code, n, k, m, a, b, r, ()⟩

def reverse : (schema (F := F)).Record → Program F (schema (F := F)).Record
  | ⟨activity, code, n, k, m, a, b, r, _⟩ => do
    let s := MatrixOrder.ofCode code
    let r ← r.take
    let x := Matrix.ofList s n k a.values.items
    let y := Matrix.ofList s k m b.values.items
    let adjoint := Matrix.ofList s n m r.gradients.items
    let a := if activity.get 0 then
      a.withGradients ((Matrix.mul n m k adjoint y.transpose).flatten s n k) else a
    if activity.get 0 then a.accumulate
    let b := if activity.get 1 then
      b.withGradients ((Matrix.mul k n m x.transpose adjoint).flatten s k m) else b
    if activity.get 1 then b.accumulate
    return ⟨activity, code, n, k, m, a, b, r, ()⟩

def kernel : Kernel F where
  name := "matrix_multiply"
  forward := schema.forward forward
  reverse := schema.reverse reverse
  delete := schema.delete pure

def checkSize (operand : Operand) (xs : List (Variable F)) (size : Nat) : Except Fault Unit :=
  if xs.length = size then .ok () else .error (.operandSize operand)

def withValues (ys : List (Variable F)) (values : List F) : List (Variable F) :=
  ys.zipWith (fun y x => { y with value := x }) values

def isActiveAt (s : MatrixOrder) (n k m : Nat) (a b : List (Variable F)) (i j : Nat) : Bool :=
  (List.range k).any fun l =>
    (a[s.offset n k i l]?.any Variable.isActive) || (b[s.offset k m l j]?.any Variable.isActive)

/-- Computes a product and records it. If neither factor is active nothing is recorded and the
result is passive. -/
def multiply (t : Tape F) (kernels : Kernels F) (token : Token) (s : MatrixOrder) (n k m : Nat)
    (a b r : List (Variable F)) : Except Fault (List (Variable F) × Tape F) := do
  checkSize .left a (n * k)
  checkSize .right b (k * m)
  checkSize .result r (n * m)
  let x := Matrix.ofList s n k (a.map Variable.value)
  let y := Matrix.ofList s k m (b.map Variable.value)
  let r := withValues r ((Matrix.mul n k m x y).flatten s n m)
  let activity ← ActivityMask.none.setFrom 0 [a.any Variable.isActive, b.any Variable.isActive]
  if !activity.any then t.releaseAll r
  else
    let (sa, t) := t.stageInputs a
    let (sb, t) := t.stageInputs b
    let (sr, t) := t.stageOutputs (n * m)
    let (r, sr, t) ← t.placeOutputs r sr <|
      (indexPairs n m).map fun ij => (s.offset n m ij.1 ij.2, isActiveAt s n k m a b ij.1 ij.2)
    let record : (schema (F := F)).Record := ⟨activity, s.code, n, k, m, sa, sb, sr, ()⟩
    let t ← t.writeRecord kernels token schema record
    let t ← t.reclaim schema record
    return (r, t)

end Autodiff.Product
