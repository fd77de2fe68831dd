import Mathlib
import Autodiff.Proofs.Ensures

namespace Autodiff

/-- A cell holds any digit, and an element of the scalar type is laid out in `width` cells from which
it is read back. -/
class LawfulCells (F : Type) [Scalar F] : Prop where
  digitValue_digit (n : Nat) : Scalar.digitValue (Scalar.digit n : Scalar.Cell F) = n
  length_encode (x : F) : (Scalar.encode x).length = Scalar.width F
  decode_encode (x : F) : Scalar.decode (Scalar.encode x) = x

instance : LawfulCells Float where
  digitValue_digit _ := rfl
  length_encode _ := Digits.length_ofNat 8 _
  decode_encode x := by
    change Float.ofBits (UInt64.ofNat (Digits.toNat (Digits.ofNat 8 x.toBits.toNat))) = x
    rw [Digits.toNat_ofNat, UInt64.ofNat_toNat, Float.ofBits_toBits]

instance : LawfulCells Float32 where
  digitValue_digit _ := rfl
  length_encode _ := Digits.length_ofNat 4 _
  decode_encode x := by
    change Float32.ofBits (UInt32.ofNat (Digits.toNat (Digits.ofNat 4 x.toBits.toNat))) = x
    rw [Digits.toNat_ofNat, UInt32.ofNat_toNat, Float32.ofBits_toBits]

namespace FieldType

variable {F : Type} [Scalar F]

structure Faithful (ty : FieldType) (x : ty.Value F) : Prop where
  length_encode : (ty.encode x).length = ty.width F
  decode_encode : ty.decode (ty.encode x) = x

variable [LawfulCells F]

theorem toDigits_ofDigits (ds : List Nat) : toDigits (ofDigits ds : List (Scalar.Cell F)) = ds := by
  simp [toDigits, ofDigits, Function.comp_def, LawfulCells.digitValue_digit]

theorem natural_faithful (k n : Nat) : Faithful (F := F) (natural (k + 1)) n where
  length_encode := by simp [encode, ofDigits, Digits.length_ofNat, width]
  decode_encode := by
    change Digits.toNat (toDigits (ofDigits _ : List (Scalar.Cell F))) = n
    rw [toDigits_ofDigits, Digits.toNat_ofNat]

theorem activity_faithful (a : ActivityMask) : Faithful (F := F) activity a where
  length_encode := by simp [encode, ofDigits, Digits.length_ofNat, width]
  decode_encode := by
    change (⟨Digits.toNat (toDigits (ofDigits _ : List (Scalar.Cell F)))⟩ : ActivityMask) = a
    rw [toDigits_ofDigits, Digits.toNat_ofNat]

theorem real_faithful (x : F) : Faithful real x where
  length_encode := LawfulCells.length_encode x
  decode_encode := LawfulCells.decode_encode x

omit [LawfulCells F] in
theorem length_flatMap_encode {ty : FieldType} {xs : List (ty.Value F)}
    (h : ∀ x ∈ xs, Faithful ty x) : (xs.flatMap ty.encode).length = ty.width F * xs.length := by
  induction xs with
  | nil => rfl
  | cons x xs ih =>
    have hx := (h x (by simp)).length_encode
    have ht := ih fun y hy => h y (by simp [hy])
    simp only [List.flatMap_cons, List.length_append, hx, ht, List.length_cons, Nat.mul_add]
    omega

omit [LawfulCells F] in
theorem decodeMany_flatMap_encode {ty : FieldType} {xs : List (ty.Value F)}
    (h : ∀ x ∈ xs, Faithful ty x) : ty.decodeMany xs.length (xs.flatMap ty.encode) = xs := by
  induction xs with
  | nil => rfl
  | cons x xs ih =>
    have hx := h x (by simp)
    simp only [List.length_cons, List.flatMap_cons, decodeMany, ← hx.length_encode,
      List.take_left, List.drop_left, hx.decode_encode]
    rw [ih fun y hy => h y (by simp [hy])]

end FieldType

namespace Writer

variable {F : Type} [Scalar F]

structure Holds (w : Writer F) (written : List (Scalar.Cell F)) (room : Nat) : Prop where
  position_eq : w.position = written.length
  take_eq : w.cells.take w.position = written
  length_eq : w.cells.length = w.position + room

theorem holds_new (segment : String) (size : Nat) : (new segment size : Writer F).Holds [] size where
  position_eq := rfl
  take_eq := rfl
  length_eq := by simp [new]

variable {w : Writer F} {written : List (Scalar.Cell F)} {room : Nat}

theorem Holds.put {cells : List (Scalar.Cell F)} (h : w.Holds written (cells.length + room)) :
    Yields (w.put cells) (·.Holds (written ++ cells) room) := by
  have hle : w.position + cells.length ≤ w.cells.length := by rw [h.length_eq]; omega
  refine ⟨_, by rw [Writer.put, if_pos hle], ?_⟩
  have hpos : (w.cells.take w.position).length = w.position := by
    rw [h.take_eq, h.position_eq]
  constructor
  · simp [h.position_eq]
  · simp only [List.append_assoc]
    rw [List.take_append, hpos, List.take_of_length_le (by omega), Nat.add_sub_cancel_left,
      List.take_left, h.take_eq]
  · simp only [List.length_append, hpos, List.length_drop, h.length_eq]
    omega

theorem Holds.finish (h : w.Holds written 0) : w.finish = .ok () := by
  simp [Writer.finish, h.length_eq]

theorem Holds.cells_eq (h : w.Holds written 0) : w.cells = written := by
  rw [← h.take_eq, List.take_of_length_le (by rw [h.length_eq]; omega)]

end Writer

namespace Reader

variable {F : Type} [Scalar F]

structure At (r : Reader F) (rest : List (Scalar.Cell F)) : Prop where
  position_le : r.position ≤ r.cells.length
  drop_eq : r.cells.drop r.position = rest

theorem at_new (segment : String) (cells : List (Scalar.Cell F)) : (new segment cells).At cells where
  position_le := by simp [new]
  drop_eq := rfl

variable {r : Reader F} {rest : List (Scalar.Cell F)}

theorem At.length_eq (h : r.At rest) : r.cells.length = r.position + rest.length := by
  rw [← h.drop_eq, List.length_drop]
  have := h.position_le
  omega

theorem At.take {cells : List (Scalar.Cell F)} (h : r.At (cells ++ rest)) :
    Yields (r.take cells.length) fun s => s.1 = cells ∧ s.2.At rest := by
  have hlen := h.length_eq
  rw [List.length_append] at hlen
  refine ⟨_, by rw [Reader.take, if_pos (by omega)], ?_, ?_, ?_⟩
  · rw [h.drop_eq, List.take_left]
  · simp only
    omega
  · simp only
    rw [← List.drop_drop, h.drop_eq, List.drop_left]

theorem At.read {ty : FieldType} {x : ty.Value F} (h : r.At (ty.encode x ++ rest))
    (hx : FieldType.Faithful ty x) : Yields (r.read ty) fun s => s.1 = x ∧ s.2.At rest := by
  rw [Reader.read, ← hx.length_encode]
  refine h.take.bind fun s hs => ?_
  exact .ok ⟨by rw [hs.1, hx.decode_encode], hs.2⟩

theorem At.readMany {ty : FieldType} {xs : List (ty.Value F)}
    (h : r.At (xs.flatMap ty.encode ++ rest)) (hx : ∀ x ∈ xs, FieldType.Faithful ty x) :
    Yields (r.readMany ty xs.length) fun s => s.1 = xs ∧ s.2.At rest := by
  rw [Reader.readMany, ← FieldType.length_flatMap_encode hx]
  refine h.take.bind fun s hs => ?_
  exact .ok ⟨by rw [hs.1, FieldType.decodeMany_flatMap_encode hx], hs.2⟩

theorem At.finish (h : r.At []) : r.finish = .ok () := by
  have hlen := h.length_eq
  simp only [List.length_nil, Nat.add_zero] at hlen
  rw [Reader.finish, if_pos hlen.symm]

end Reader

end Autodiff
