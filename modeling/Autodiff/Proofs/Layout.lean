import Autodiff.Proofs.Codec
import Autodiff.Schema

namespace Autodiff

theorem Traits.hasPrimals_of_rollsBack {t : Traits} (h : t.rollsBack = true) :
    t.hasPrimals = true := by
  rw [rollsBack, Bool.and_eq_true] at h
  exact h.1

namespace Schema

variable {F : Type} [Scalar F]

def passiveCells : List Identifier → List F → List (Scalar.Cell F)
  | id :: ids, x :: xs => (if id = passive then Scalar.encode x else []) ++ passiveCells ids xs
  | _, _ => []

def valueCells (n : Nat) (a : Staged F) : Origin → List (Scalar.Cell F)
  | .absent => []
  | .written => (a.values.items.take n).flatMap FieldType.real.encode
  | .primalVector => passiveCells (a.identifiers.items.take n) (a.values.items.take n)

def inputCells (traits : Traits) (n : Nat) (use : InputRole) (a : Staged F) :
    List (Scalar.Cell F) :=
  (if use.active then (a.identifiers.items.take n).flatMap (FieldType.identifier.encode (F := F))
    else []) ++ valueCells n a (use.origin traits)

def outputCells (traits : Traits) (n : Nat) (a : Staged F) : List (Scalar.Cell F) :=
  (a.identifiers.items.take n).flatMap (FieldType.identifier.encode (F := F)) ++
    if traits.rollsBack then (a.oldValues.items.take n).flatMap FieldType.real.encode else []

def fixedCells : (s : Schema F) → s.Record → List (Scalar.Cell F)
  | done, _ => []
  | scalar ty next, r => ty.encode r.1 ++ (next r.1).fixedCells r.2
  | input _ _ next, r => next.fixedCells r.2
  | output _ next, r => next.fixedCells r.2

def dynamicCells (traits : Traits) : (s : Schema F) → s.Record → List (Scalar.Cell F)
  | done, _ => []
  | scalar _ next, r => (next r.1).dynamicCells traits r.2
  | input n use next, r => inputCells traits n use r.1 ++ next.dynamicCells traits r.2
  | output n next, r => outputCells traits n r.1 ++ next.dynamicCells traits r.2

def Fits : (s : Schema F) → s.Record → Prop
  | done, _ => True
  | scalar ty next, r => ty.Faithful r.1 ∧ (next r.1).Fits r.2
  | input n _ next, r =>
    r.1.identifiers.items.length = n ∧ r.1.values.items.length = n ∧ next.Fits r.2
  | output n next, r =>
    r.1.identifiers.items.length = n ∧ r.1.oldValues.items.length = n ∧ next.Fits r.2

section Size

theorem length_fixedCells (s : Schema F) (r : s.Record) (h : s.Fits r) :
    (s.fixedCells r).length = s.fixedSize r := by
  induction s with
  | done => rfl
  | scalar ty next ih =>
    simp only [fixedCells, fixedSize, List.length_append, h.1.length_encode, ih _ _ h.2]
  | input n use next ih => exact ih r.2 h.2.2
  | output n next ih => exact ih r.2 h.2.2

variable [LawfulCells F]

theorem length_identifiers (ids : List Identifier) :
    (ids.flatMap (FieldType.identifier.encode (F := F))).length =
      ids.length * FieldType.identifier.width F := by
  rw [FieldType.length_flatMap_encode fun _ _ => FieldType.natural_faithful 3 _, Nat.mul_comm]

theorem length_reals (xs : List F) :
    (xs.flatMap (FieldType.real.encode (F := F))).length = xs.length * Scalar.width F := by
  rw [FieldType.length_flatMap_encode fun _ _ => FieldType.real_faithful _, Nat.mul_comm]
  rfl

theorem length_passiveCells (ids : List Identifier) (xs : List F) (h : ids.length = xs.length) :
    (passiveCells ids xs).length = passiveCount ids * Scalar.width F := by
  induction ids generalizing xs with
  | nil => simp [passiveCells, passiveCount]
  | cons id ids ih =>
    cases xs with
    | nil => simp at h
    | cons x xs =>
      have ht := ih xs (by simpa using h)
      simp only [passiveCount] at ht
      by_cases hid : id = passive
      · simp only [passiveCells, passiveCount, hid, if_true, List.length_append,
          LawfulCells.length_encode, ht, List.filter_cons, beq_self_eq_true, List.length_cons,
          Nat.add_mul]
        omega
      · simp [passiveCells, passiveCount, hid, ht]

theorem length_inputCells (traits : Traits) (n : Nat) (use : InputRole) (a : Staged F)
    (hi : a.identifiers.items.length = n) (hv : a.values.items.length = n) :
    (inputCells traits n use a).length = inputSize traits n use a := by
  have hids : (a.identifiers.items.take n).length = n := by simp [hi]
  have hvals : (a.values.items.take n).length = n := by simp [hv]
  rw [inputCells, inputSize, List.length_append]
  congr 1
  · split
    · rw [length_identifiers, hids]
    · rfl
  · cases use.origin traits with
    | absent => rfl
    | written => exact (length_reals _).trans (by rw [hvals])
    | primalVector => exact length_passiveCells _ _ (hids.trans hvals.symm)

theorem length_outputCells (traits : Traits) (n : Nat) (a : Staged F)
    (hi : a.identifiers.items.length = n) (ho : a.oldValues.items.length = n) :
    (outputCells traits n a).length = outputSize (F := F) traits n := by
  have hids : (a.identifiers.items.take n).length = n := by simp [hi]
  have hold : (a.oldValues.items.take n).length = n := by simp [ho]
  rw [outputCells, outputSize, List.length_append, length_identifiers, hids]
  split
  · rw [length_reals, hold]
  · rfl

theorem length_dynamicCells (traits : Traits) (s : Schema F) (r : s.Record) (h : s.Fits r) :
    (s.dynamicCells traits r).length = s.dynamicSize traits r := by
  induction s with
  | done => rfl
  | scalar ty next ih => exact ih _ _ h.2
  | input n use next ih =>
    simp only [dynamicCells, dynamicSize, List.length_append,
      length_inputCells traits n use r.1 h.1 h.2.1, ih r.2 h.2.2]
  | output n next ih =>
    simp only [dynamicCells, dynamicSize, List.length_append,
      length_outputCells traits n r.1 h.1 h.2.1, ih r.2 h.2.2]

end Size

section Write

variable {w : Writer F} {written : List (Scalar.Cell F)} {room : Nat}

theorem writePassive_yields (ids : List Identifier) (xs : List F)
    (h : w.Holds written ((passiveCells ids xs).length + room)) :
    Yields (writePassive w ids xs) (·.Holds (written ++ passiveCells ids xs) room) := by
  induction ids generalizing w written xs with
  | nil => exact .ok (by simpa [passiveCells] using h)
  | cons id ids ih =>
    cases xs with
    | nil => exact .ok (by simpa [passiveCells] using h)
    | cons x xs =>
      rw [writePassive]
      simp only [passiveCells, List.length_append, ← List.append_assoc] at h ⊢
      by_cases hid : id = passive
      · rw [if_pos hid] at h ⊢
        rw [if_pos hid]
        refine Writer.Holds.put (by rwa [Nat.add_assoc] at h) |>.bind fun w' hw => ?_
        exact ih xs hw
      · rw [if_neg hid] at h ⊢
        rw [if_neg hid]
        exact ih xs (by simpa using h)

theorem writeValues_yields (n : Nat) (a : Staged F) (origin : Origin)
    (h : w.Holds written ((valueCells n a origin).length + room)) :
    Yields (match origin with
      | .absent => .ok w
      | .written => w.writeMany .real (a.values.items.take n)
      | .primalVector => writePassive w (a.identifiers.items.take n) (a.values.items.take n))
      (·.Holds (written ++ valueCells n a origin) room) := by
  cases origin with
  | absent => exact .ok (by simpa [valueCells] using h)
  | written => exact Writer.Holds.put h
  | primalVector => exact writePassive_yields _ _ h

theorem writeInput_yields (traits : Traits) (n : Nat) (use : InputRole) (a : Staged F)
    (h : w.Holds written ((inputCells traits n use a).length + room)) :
    Yields (writeInput traits n use a w) (·.Holds (written ++ inputCells traits n use a) room) := by
  rw [writeInput]
  simp only [inputCells, List.length_append, ← List.append_assoc, Nat.add_assoc] at h ⊢
  by_cases hu : use.active = true
  · rw [if_pos hu] at h ⊢
    rw [if_pos hu]
    exact (Writer.Holds.put h).bind fun w' hw => writeValues_yields n a _ hw
  · rw [if_neg hu] at h ⊢
    rw [if_neg hu]
    rw [List.length_nil, Nat.zero_add] at h
    rw [List.append_nil]
    exact writeValues_yields n a _ h

theorem writeOutput_yields (traits : Traits) (n : Nat) (a : Staged F)
    (h : w.Holds written ((outputCells traits n a).length + room)) :
    Yields (writeOutput traits n a w) (·.Holds (written ++ outputCells traits n a) room) := by
  rw [writeOutput]
  simp only [outputCells, List.length_append, ← List.append_assoc, Nat.add_assoc] at h ⊢
  refine (Writer.Holds.put h).bind fun w' hw => ?_
  by_cases ho : traits.rollsBack = true
  · rw [if_pos ho] at hw ⊢
    rw [if_pos ho]
    exact Writer.Holds.put hw
  · rw [if_neg ho] at hw ⊢
    rw [if_neg ho]
    exact .ok (by simpa using hw)

theorem write_yields (traits : Traits) (s : Schema F) (r : s.Record) {fixed dynamic : Writer F}
    {writtenFixed writtenDynamic : List (Scalar.Cell F)} {roomFixed roomDynamic : Nat}
    (hf : fixed.Holds writtenFixed ((s.fixedCells r).length + roomFixed))
    (hd : dynamic.Holds writtenDynamic ((s.dynamicCells traits r).length + roomDynamic)) :
    Yields (s.write traits r fixed dynamic) fun w =>
      w.1.Holds (writtenFixed ++ s.fixedCells r) roomFixed ∧
        w.2.Holds (writtenDynamic ++ s.dynamicCells traits r) roomDynamic := by
  induction s generalizing fixed dynamic writtenFixed writtenDynamic with
  | done => exact .ok ⟨by simpa [fixedCells] using hf, by simpa [dynamicCells] using hd⟩
  | scalar ty next ih =>
    simp only [fixedCells, List.length_append, ← List.append_assoc, Nat.add_assoc] at hf ⊢
    exact (Writer.Holds.put hf).bind fun w hw => ih _ _ hw hd
  | input n use next ih =>
    simp only [dynamicCells, List.length_append, ← List.append_assoc, Nat.add_assoc] at hd ⊢
    exact (writeInput_yields traits n use r.1 hd).bind fun w hw => ih _ hf hw
  | output n next ih =>
    simp only [dynamicCells, List.length_append, ← List.append_assoc, Nat.add_assoc] at hd ⊢
    exact (writeOutput_yields traits n r.1 hd).bind fun w hw => ih _ hf hw

end Write

end Schema

end Autodiff
