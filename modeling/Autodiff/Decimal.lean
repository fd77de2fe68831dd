/-!
Decimal text of binary floating-point numbers, computed exactly on natural numbers.

`shortest` writes the fewest digits that read back as the same number, and `fixed` rounds the exact
value to a number of places. Neither uses an exponent.
-/

namespace Autodiff.Decimal

structure Format where
  fractionBits : Nat
  exponentBits : Nat
  deriving DecidableEq, Repr

def binary64 : Format := ⟨52, 11⟩

def binary32 : Format := ⟨23, 8⟩

/-- A magnitude, if finite `significand * 2 ^ exponent`. It is `narrow` when the next number below
is half as far away as the next one above. -/
inductive Magnitude
  | nan
  | infinite
  | finite (significand : Nat) (exponent : Int) (narrow : Bool)
  deriving DecidableEq, Repr

namespace Format

def isNegative (f : Format) (bits : Nat) : Bool := bits.testBit (f.fractionBits + f.exponentBits)

def magnitude (f : Format) (bits : Nat) : Magnitude :=
  let fraction := bits % Nat.pow 2 f.fractionBits
  let field := bits / Nat.pow 2 f.fractionBits % Nat.pow 2 f.exponentBits
  let lowest := 2 - Int.ofNat (Nat.pow 2 (f.exponentBits - 1)) - Int.ofNat f.fractionBits
  if field = Nat.pow 2 f.exponentBits - 1 then if fraction = 0 then .infinite else .nan
  else if field = 0 then .finite fraction lowest false
  else
    .finite (Nat.pow 2 f.fractionBits + fraction) (lowest + (Int.ofNat field - 1))
      (fraction = 0 && 1 < field)

end Format

/-- The multiple of `10 ^ e` that reads back as `m * 2 ^ q`, if there is one. Of two, it is the
nearer, and the upper one when both are as near. Everything is measured in quarters of `2 ^ q`. -/
def hit? (m : Nat) (q : Int) (narrow : Bool) (e : Int) : Option Nat :=
  let scale := Nat.pow 2 (q - 2).toNat * Nat.pow 10 (-e).toNat
  let step := Nat.pow 2 (2 - q).toNat * Nat.pow 10 e.toNat
  let value := 4 * m * scale
  let lower := (4 * m - if narrow then 1 else 2) * scale
  let upper := (4 * m + 2) * scale
  let readsBack (d : Nat) : Bool :=
    if m % 2 = 0 then lower ≤ d * step && d * step ≤ upper
    else lower < d * step && d * step < upper
  let d := value / step
  if readsBack d then
    if readsBack (d + 1) && step ≤ 2 * (value - d * step) then some (d + 1) else some d
  else if readsBack (d + 1) then some (d + 1)
  else none

def powers : List Int := (List.range 700).map fun i => 330 - Int.ofNat i

/-- Digits and power of ten of the shortest decimal that reads back: the first grid with a hit. -/
def shortestDigits (m : Nat) (q : Int) (narrow : Bool) : Nat × Int :=
  (powers.findSome? fun e => (hit? m q narrow e).map (·, e)).getD (0, 0)

def zeros (n : Nat) : String := String.ofList (List.replicate n '0')

def withPoint (d places : Nat) : String :=
  if places = 0 then d.repr
  else
    let fraction := (d % Nat.pow 10 places).repr
    (d / Nat.pow 10 places).repr ++ "." ++ zeros (places - fraction.length) ++ fraction

def positional (d : Nat) (e : Int) : String := withPoint (d * Nat.pow 10 e.toNat) (-e).toNat

def roundDiv (n d : Nat) : Nat :=
  let q := n / d
  if 2 * (n % d) < d then q
  else if d < 2 * (n % d) then q + 1
  else q + q % 2

def signed (negative : Bool) (text : String) : String := if negative then "-" ++ text else text

def shortest (f : Format) (bits : Nat) : String :=
  match f.magnitude bits with
  | .nan => "NaN"
  | .infinite => signed (f.isNegative bits) "inf"
  | .finite 0 _ _ => signed (f.isNegative bits) "0"
  | .finite m q narrow =>
    let (d, e) := shortestDigits m q narrow
    signed (f.isNegative bits) (positional d e)

def fixed (f : Format) (places : Nat) (bits : Nat) : String :=
  match f.magnitude bits with
  | .nan => "NaN"
  | .infinite => signed (f.isNegative bits) "inf"
  | .finite m q _ =>
    signed (f.isNegative bits)
      (withPoint (roundDiv (m * Nat.pow 2 q.toNat * Nat.pow 10 places) (Nat.pow 2 (-q).toNat)) places)

end Autodiff.Decimal
