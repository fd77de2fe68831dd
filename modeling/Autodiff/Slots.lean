import Autodiff.Identifier
import Autodiff.Scalar
/-!
A vector of values indexed by identifier, which grows as it is written.

Slot 0 always exists. Reading past the end gives the value of slot 0, and a slot that a write
creates starts from zero. So `slot` sees a vector as a total map that is zero past the end; the lemmas
say what each operation does to this map and to the size.
-/

namespace Autodiff

structure Slots (F : Type) where
  first : F
  rest : List F
  deriving DecidableEq, Repr

namespace Slots

variable {F : Type}

def toList (v : Slots F) : List F := v.first :: v.rest

def size (v : Slots F) : Nat := v.rest.length + 1

def get (v : Slots F) : Identifier → F
  | 0 => v.first
  | n + 1 => v.rest.getD n v.first

def copyFrom (_ other : Slots F) : Slots F := other

def mapSlots (f : F → F) (v : Slots F) : Slots F := ⟨f v.first, v.rest.map f⟩

variable [Scalar F]

def new : Slots F := ⟨0, []⟩

def fit (xs : List F) (n : Nat) : List F := xs.take n ++ List.replicate (n - xs.length) 0

theorem length_fit (xs : List F) (n : Nat) : (fit xs n).length = n := by
  simp only [fit, List.length_append, List.length_take, List.length_replicate]
  omega

theorem getD_fit (xs : List F) (n i : Nat) :
    (fit xs n).getD i 0 = if i < n then xs.getD i 0 else 0 := by
  simp only [fit, List.getD_eq_getElem?_getD, List.getElem?_append, List.getElem?_take,
    List.getElem?_replicate, List.length_take]
  grind

def resize (v : Slots F) (n : Nat) : Slots F := { v with rest := fit v.rest (n - 1) }

def ofSize (n : Nat) : Slots F := new.resize n

def ensure (v : Slots F) (id : Identifier) : Slots F :=
  if id < v.size then v else v.resize (id + 1)

/-- The value in the slot of an identifier, which is zero before the slot is made. -/
def slot (v : Slots F) : Identifier → F
  | 0 => v.first
  | n + 1 => v.rest.getD n 0

def set (v : Slots F) (id : Identifier) (x : F) : Slots F :=
  let v := v.ensure id
  match id with
  | 0 => { v with first := x }
  | n + 1 => { v with rest := v.rest.set n x }

theorem get_eq (v : Slots F) (id : Identifier) :
    v.get id = if id < v.size then v.slot id else v.slot 0 := by
  cases id <;> grind [get, slot, size]

theorem slot_of_size_le (v : Slots F) (id : Identifier) (h : v.size ≤ id) : v.slot id = 0 := by
  cases id with
  | zero => simp [size] at h
  | succ i => grind [slot, size]

theorem size_resize (v : Slots F) (n : Nat) : (v.resize n).size = max n 1 := by
  simp only [size, resize, length_fit]
  omega

theorem slot_resize (v : Slots F) (n : Nat) (id : Identifier) :
    (v.resize n).slot id = if id < max n 1 then v.slot id else 0 := by
  cases id with
  | zero => grind [slot, resize]
  | succ i => grind [slot, resize, getD_fit]

theorem size_ensure (v : Slots F) (id : Identifier) :
    (v.ensure id).size = max v.size (id + 1) := by
  grind [ensure, size_resize]

theorem slot_ensure (v : Slots F) (k id : Identifier) : (v.ensure k).slot id = v.slot id := by
  grind [ensure, slot_resize, slot_of_size_le]

theorem size_set (v : Slots F) (id : Identifier) (x : F) :
    (v.set id x).size = max v.size (id + 1) := by
  rw [← size_ensure]
  cases id <;> simp [set, size]

theorem slot_set (v : Slots F) (i j : Identifier) (x : F) :
    (v.set i x).slot j = if i = j then x else v.slot j := by
  have h := size_ensure v i
  rw [← slot_ensure v i j]
  cases i <;> cases j <;> grind [set, slot, size]

def modify (v : Slots F) (id : Identifier) (f : F → F) : Slots F := v.set id (f (v.slot id))

def fill (v : Slots F) (x : F) : Slots F := v.mapSlots fun _ => x

def zeroAll (v : Slots F) : Slots F := v.fill 0

def memory (v : Slots F) : Nat := v.size * Scalar.width F

end Slots

end Autodiff
