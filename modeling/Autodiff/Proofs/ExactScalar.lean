import Autodiff.Proofs.Codec

namespace Autodiff

class ExactScalar (F : Type) extends CommRing F, Scalar F where
  isZero_eq (x : F) : Scalar.isZero x = true ↔ x = 0
  lawfulCells : LawfulCells F

instance (F : Type) [ExactScalar F] : LawfulCells F := ExactScalar.lawfulCells

theorem isZero_iff {F : Type} [ExactScalar F] (x : F) : Scalar.isZero x = true ↔ x = 0 :=
  ExactScalar.isZero_eq x

@[reducible] def Scalar.ofRing (F : Type) [CommRing F] [DecidableEq F] : Scalar F where
  isZero x := decide (x = 0)
  Cell := Nat ⊕ F
  digit := Sum.inl
  digitValue := Sum.elim id fun _ => 0
  width := 1
  encode x := [Sum.inr x]
  decode
    | [Sum.inr x] => x
    | _ => 0

@[reducible] def ExactScalar.ofRing (F : Type) [ring : CommRing F] [DecidableEq F] :
    ExactScalar F :=
  { ring, Scalar.ofRing F with
    isZero_eq := fun _ => decide_eq_true_iff
    lawfulCells := @LawfulCells.mk F (Scalar.ofRing F) (fun _ => rfl) (fun _ => rfl) fun _ => rfl }

instance : ExactScalar Int := .ofRing Int

end Autodiff
