/-!
The arithmetic a recording is differentiated in, and how a value is laid out in a byte segment.

No law is assumed here. The two floating-point types are instances, and so is any ring once it is
given a way to lay out its elements.
-/

namespace Autodiff

namespace Digits

/-- A number in a given count of base 256 places, lowest first. The top place keeps all that lies
above it, so no number is lost. -/
def ofNat : Nat → Nat → List Nat
  | 0, _ => []
  | 1, n => [n]
  | k + 2, n => n % 256 :: ofNat (k + 1) (n / 256)

def toNat : List Nat → Nat
  | [] => 0
  | d :: ds => d + 256 * toNat ds

theorem length_ofNat (k n : Nat) : (ofNat k n).length = k := by
  fun_induction ofNat k n with
  | case1 => rfl
  | case2 => rfl
  | case3 n k ih => simp [ih]

theorem toNat_ofNat (k n : Nat) : toNat (ofNat (k + 1) n) = n := by
  induction k generalizing n with
  | zero => simp [ofNat, toNat]
  | succ k ih => simp only [ofNat, toNat, ih]; omega

end Digits

/-- A type of reals. `isZero` is the test that lets a reverse sweep skip a statement; `Cell` is the
unit of a byte segment, and a cell can hold any base 256 digit. -/
class Scalar (F : Type) extends Zero F, One F, Add F, Mul F where
  isZero : F → Bool
  Cell : Type
  digit : Nat → Cell
  digitValue : Cell → Nat
  width : Nat
  encode : F → List Cell
  decode : List Cell → F

instance : Scalar Float where
  zero := 0.0
  one := 1.0
  add := Float.add
  mul := Float.mul
  isZero x := x == 0.0
  Cell := Nat
  digit n := n
  digitValue c := c
  width := 8
  encode x := Digits.ofNat 8 x.toBits.toNat
  decode cells := Float.ofBits (UInt64.ofNat (Digits.toNat cells))

instance : Scalar Float32 where
  zero := 0.0
  one := 1.0
  add := Float32.add
  mul := Float32.mul
  isZero x := x == 0.0
  Cell := Nat
  digit n := n
  digitValue c := c
  width := 4
  encode x := Digits.ofNat 4 x.toBits.toNat
  decode cells := Float32.ofBits (UInt32.ofNat (Digits.toNat cells))

inductive Precision
  | double
  | single
  deriving DecidableEq, Repr

namespace Precision

abbrev Carrier : Precision → Type
  | double => Float
  | single => Float32

instance (p : Precision) : Scalar p.Carrier :=
  match p with
  | double => inferInstanceAs (Scalar Float)
  | single => inferInstanceAs (Scalar Float32)

def bits : (p : Precision) → p.Carrier → Nat
  | double, x => x.toBits.toNat
  | single, x => x.toBits.toNat

def ofBits : (p : Precision) → Nat → p.Carrier
  | double, n => Float.ofBits (UInt64.ofNat n)
  | single, n => Float32.ofBits (UInt32.ofNat n)

end Precision

end Autodiff
