import Mathlib
import Autodiff.Matrix

namespace Autodiff

variable {α β : Type}

theorem sum_map_flatMap_range [AddCommMonoid β] (f : α → β) (g : Nat → List α) (n : Nat) :
    (((List.range n).flatMap g).map f).sum = ∑ l ∈ Finset.range n, ((g l).map f).sum := by
  induction n with
  | zero => rfl
  | succ n ih =>
    rw [Finset.sum_range_succ, ← ih, List.range_succ, List.flatMap_append]
    simp

theorem length_indexPairs (rows cols : Nat) : (indexPairs rows cols).length = rows * cols := by
  simp [indexPairs, List.length_flatMap]

theorem mem_indexPairs {rows cols : Nat} {ij : Nat × Nat} :
    ij ∈ indexPairs rows cols ↔ ij.1 < rows ∧ ij.2 < cols := by
  simp [indexPairs, Prod.ext_iff]

theorem getElem?_indexPairs {rows cols i j : Nat} (hi : i < rows) (hj : j < cols) :
    (indexPairs rows cols)[i * cols + j]? = some (i, j) := by
  induction rows generalizing i with
  | zero => omega
  | succ rows ih =>
    rw [indexPairs, List.range_succ, List.flatMap_append]
    have hlen : (indexPairs rows cols).length = rows * cols := length_indexPairs rows cols
    by_cases h : i < rows
    · have hlt : i * cols + j < rows * cols :=
        calc i * cols + j < i * cols + cols := by omega
          _ = (i + 1) * cols := by ring
          _ ≤ rows * cols := Nat.mul_le_mul_right _ h
      rw [List.getElem?_append_left (by rw [← hlen] at hlt; exact hlt)]
      exact ih h
    · obtain rfl : i = rows := by omega
      rw [List.getElem?_append_right (by rw [← hlen]; exact Nat.le_add_right ..)]
      change (List.flatMap _ [i])[i * cols + j - (indexPairs i cols).length]? = _
      rw [hlen]
      simp [hj]

namespace MatrixOrder

theorem offset_lt {rows cols i j : Nat} (s : MatrixOrder) (hi : i < rows) (hj : j < cols) :
    s.offset rows cols i j < rows * cols := by
  cases s with
  | byRow =>
    calc i * cols + j < i * cols + cols := by omega
      _ = (i + 1) * cols := by ring
      _ ≤ rows * cols := Nat.mul_le_mul_right _ hi
  | byColumn =>
    calc j * rows + i < j * rows + rows := by omega
      _ = (j + 1) * rows := by ring
      _ ≤ cols * rows := Nat.mul_le_mul_right _ hj
      _ = rows * cols := Nat.mul_comm ..

theorem exists_offset {rows cols k : Nat} (s : MatrixOrder) (h : k < rows * cols) :
    ∃ i < rows, ∃ j < cols, s.offset rows cols i j = k := by
  cases s with
  | byRow =>
    have hcols : 0 < cols := Nat.pos_of_mul_pos_left (Nat.zero_lt_of_lt h)
    exact ⟨k / cols, Nat.div_lt_of_lt_mul (by rwa [Nat.mul_comm]), k % cols,
      Nat.mod_lt _ hcols, Nat.div_add_mod' k cols⟩
  | byColumn =>
    have hrows : 0 < rows := Nat.pos_of_mul_pos_right (Nat.zero_lt_of_lt h)
    exact ⟨k % rows, Nat.mod_lt _ hrows, k / rows, Nat.div_lt_of_lt_mul h,
      Nat.div_add_mod' k rows⟩

theorem offset_inj {rows cols i j i' j' : Nat} (s : MatrixOrder) (hi : i < rows) (hj : j < cols)
    (hi' : i' < rows) (hj' : j' < cols)
    (h : s.offset rows cols i j = s.offset rows cols i' j') : i = i' ∧ j = j' := by
  cases s with
  | byRow =>
    have hpair := getElem?_indexPairs hi hj
    rw [show i * cols + j = i' * cols + j' from h, getElem?_indexPairs hi' hj'] at hpair
    simpa [eq_comm] using hpair
  | byColumn =>
    have hpair := getElem?_indexPairs hj hi
    rw [show j * rows + i = j' * rows + i' from h, getElem?_indexPairs hj' hi'] at hpair
    simpa [eq_comm, and_comm] using hpair

theorem nodup_offsets (s : MatrixOrder) (rows cols : Nat) :
    ((indexPairs rows cols).map fun ij => s.offset rows cols ij.1 ij.2).Nodup := by
  refine (List.nodup_map_iff_inj_on ?_).mpr ?_
  · rw [indexPairs, List.nodup_flatMap]
    refine ⟨fun i _ => List.nodup_range.map fun j j' hj => (Prod.mk.inj hj).2, ?_⟩
    refine List.nodup_range.imp fun hne ij hij hij' => hne ?_
    obtain ⟨j, -, rfl⟩ := List.mem_map.mp hij
    obtain ⟨j', -, h⟩ := List.mem_map.mp hij'
    exact (Prod.mk.inj h).1.symm
  · intro ij hij ij' hij' h
    obtain ⟨hi, hj⟩ := mem_indexPairs.mp hij
    obtain ⟨hi', hj'⟩ := mem_indexPairs.mp hij'
    exact Prod.ext_iff.mpr (offset_inj s hi hj hi' hj' h)

end MatrixOrder

namespace Matrix

theorem length_flatten (p : Matrix α) (s : MatrixOrder) (rows cols : Nat) :
    (p.flatten s rows cols).length = rows * cols := by
  cases s with
  | byRow => rw [flatten, List.length_map, length_indexPairs]
  | byColumn => rw [flatten, List.length_map, length_indexPairs, Nat.mul_comm]

theorem getElem?_flatten (p : Matrix α) (s : MatrixOrder) {rows cols i j : Nat} (hi : i < rows)
    (hj : j < cols) : (p.flatten s rows cols)[s.offset rows cols i j]? = some (p i j) := by
  cases s with
  | byRow => simp [flatten, MatrixOrder.offset, getElem?_indexPairs hi hj]
  | byColumn => simp [flatten, MatrixOrder.offset, getElem?_indexPairs hj hi]

theorem flatten_getD (xs : List α) (d : α) (s : MatrixOrder) (rows cols : Nat)
    (h : xs.length = rows * cols) :
    Matrix.flatten (fun i j => xs.getD (s.offset rows cols i j) d) s rows cols = xs := by
  refine List.ext_getElem? fun k => ?_
  by_cases hk : k < rows * cols
  · obtain ⟨i, hi, j, hj, rfl⟩ := s.exists_offset hk
    rw [getElem?_flatten _ s hi hj, List.getD_eq_getElem?_getD,
      List.getElem?_eq_getElem (h.symm ▸ hk), Option.getD_some]
  · rw [List.getElem?_eq_none, List.getElem?_eq_none]
    · omega
    · rw [length_flatten]
      omega

theorem map_flatten (f : α → β) (p : Matrix α) (s : MatrixOrder) (rows cols : Nat) :
    (p.flatten s rows cols).map f = Matrix.flatten (fun i j => f (p i j)) s rows cols := by
  cases s <;> simp [flatten]

theorem zip_flatten (p : Matrix α) (q : Matrix β) (s : MatrixOrder) (rows cols : Nat) :
    (p.flatten s rows cols).zip (q.flatten s rows cols) =
      Matrix.flatten (fun i j => (p i j, q i j)) s rows cols := by
  cases s <;> simp [flatten, List.zip_map']

theorem sum_map_indexPairs [AddCommMonoid β] (f : Nat × Nat → β) (rows cols : Nat) :
    ((indexPairs rows cols).map f).sum =
      ∑ i ∈ Finset.range rows, ∑ j ∈ Finset.range cols, f (i, j) := by
  rw [indexPairs, sum_map_flatMap_range]
  simp only [List.map_map]
  rfl

theorem sum_map_flatten [AddCommMonoid β] (p : Matrix α) (f : α → β) (s : MatrixOrder)
    (rows cols : Nat) :
    ((p.flatten s rows cols).map f).sum =
      ∑ i ∈ Finset.range rows, ∑ j ∈ Finset.range cols, f (p i j) := by
  cases s with
  | byRow => rw [flatten, List.map_map, sum_map_indexPairs]; rfl
  | byColumn => rw [flatten, List.map_map, sum_map_indexPairs, Finset.sum_comm]; rfl

end Matrix

end Autodiff
