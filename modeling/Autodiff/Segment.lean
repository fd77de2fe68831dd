import Autodiff.ActivityMask
import Autodiff.Scalar
/-!
Cursors over the two byte segments of a record, and the typed values they carry.

A writer and a reader refuse to pass the end of their segment, and `finish` refuses a segment that
was not used up.
-/

namespace Autodiff

/-- The values a segment can hold. `natural k` and `integer k` take `k` bytes. -/
inductive FieldType
  | natural (bytes : Nat)
  | integer (bytes : Nat)
  | single
  | double
  | flag
  | activity
  | real
  deriving DecidableEq, Repr

namespace FieldType

abbrev Value (F : Type) : FieldType → Type
  | natural _ => Nat
  | integer _ => Int
  | single => Float32
  | double => Float
  | flag => Bool
  | activity => ActivityMask
  | real => F

variable {F : Type} [Scalar F]

def ofDigits (ds : List Nat) : List (Scalar.Cell F) := ds.map Scalar.digit

def toDigits (cells : List (Scalar.Cell F)) : List Nat := cells.map Scalar.digitValue

variable (F) in
def width : FieldType → Nat
  | natural bytes => bytes
  | integer bytes => bytes
  | single => 4
  | double => 8
  | flag => 1
  | activity => 4
  | real => Scalar.width F

/-- Numbers are little-endian, and negative integers in two's complement. -/
def encode : (ty : FieldType) → ty.Value F → List (Scalar.Cell F)
  | natural bytes, n => ofDigits (Digits.ofNat bytes n)
  | integer bytes, i => ofDigits (Digits.ofNat bytes (i % Int.ofNat (Nat.pow 256 bytes)).toNat)
  | single, x => ofDigits (Digits.ofNat 4 x.toBits.toNat)
  | double, x => ofDigits (Digits.ofNat 8 x.toBits.toNat)
  | flag, b => ofDigits [b.toNat]
  | activity, a => ofDigits (Digits.ofNat 4 a.mask)
  | real, x => Scalar.encode x

def decode : (ty : FieldType) → List (Scalar.Cell F) → ty.Value F
  | natural _, cells => Digits.toNat (toDigits cells)
  | integer bytes, cells => Int.bmod (Digits.toNat (toDigits cells)) (Nat.pow 256 bytes)
  | single, cells => Float32.ofBits (UInt32.ofNat (Digits.toNat (toDigits cells)))
  | double, cells => Float.ofBits (UInt64.ofNat (Digits.toNat (toDigits cells)))
  | flag, cells => Digits.toNat (toDigits cells) != 0
  | activity, cells => ⟨Digits.toNat (toDigits cells)⟩
  | real, cells => Scalar.decode cells

def decodeMany (ty : FieldType) : Nat → List (Scalar.Cell F) → List (ty.Value F)
  | 0, _ => []
  | n + 1, cells =>
    ty.decode (cells.take (ty.width F)) :: ty.decodeMany n (cells.drop (ty.width F))

abbrev identifier : FieldType := natural 4

end FieldType

structure Writer (F : Type) [Scalar F] where
  segment : String
  cells : List (Scalar.Cell F)
  position : Nat

namespace Writer

variable {F : Type} [Scalar F]

def new (segment : String) (size : Nat) : Writer F :=
  ⟨segment, List.replicate size (Scalar.digit 0), 0⟩

def mismatch (w : Writer F) (stop : Nat) : Fault :=
  .fatal (.layoutMismatch w.segment w.cells.length stop)

def put (w : Writer F) (cells : List (Scalar.Cell F)) : Except Fault (Writer F) :=
  let stop := w.position + cells.length
  if stop ≤ w.cells.length then
    .ok { w with cells := w.cells.take w.position ++ cells ++ w.cells.drop stop, position := stop }
  else .error (w.mismatch stop)

def write (w : Writer F) (ty : FieldType) (x : ty.Value F) : Except Fault (Writer F) :=
  w.put (ty.encode x)

def writeMany (w : Writer F) (ty : FieldType) (xs : List (ty.Value F)) : Except Fault (Writer F) :=
  w.put (xs.flatMap ty.encode)

def remaining (w : Writer F) : Nat := w.cells.length - w.position

def finish (w : Writer F) : Except Fault Unit :=
  if w.position = w.cells.length then .ok () else .error (w.mismatch w.position)

end Writer

structure Reader (F : Type) [Scalar F] where
  segment : String
  cells : List (Scalar.Cell F)
  position : Nat

namespace Reader

variable {F : Type} [Scalar F]

def new (segment : String) (cells : List (Scalar.Cell F)) : Reader F := ⟨segment, cells, 0⟩

def mismatch (r : Reader F) (stop : Nat) : Fault :=
  .fatal (.layoutMismatch r.segment r.cells.length stop)

def take (r : Reader F) (count : Nat) : Except Fault (List (Scalar.Cell F) × Reader F) :=
  let stop := r.position + count
  if stop ≤ r.cells.length then
    .ok ((r.cells.drop r.position).take count, { r with position := stop })
  else .error (r.mismatch stop)

def read (r : Reader F) (ty : FieldType) : Except Fault (ty.Value F × Reader F) := do
  let (cells, r) ← r.take (ty.width F)
  return (ty.decode cells, r)

def readMany (r : Reader F) (ty : FieldType) (count : Nat) :
    Except Fault (List (ty.Value F) × Reader F) := do
  let (cells, r) ← r.take (ty.width F * count)
  return (ty.decodeMany count cells, r)

def remaining (r : Reader F) : Nat := r.cells.length - r.position

def finish (r : Reader F) : Except Fault Unit :=
  if r.position = r.cells.length then .ok () else .error (r.mismatch r.position)

end Reader

end Autodiff
