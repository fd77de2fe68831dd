import Autodiff.Proofs.ProductBlock

namespace Autodiff

variable {α β γ F : Type}

theorem nodup_indexPairs (rows cols : Nat) : (indexPairs rows cols).Nodup :=
  .of_map _ (MatrixOrder.nodup_offsets .byRow rows cols)

theorem indexPairs_perm (rows cols : Nat) :
    (indexPairs rows cols).Perm ((indexPairs cols rows).map Prod.swap) := by
  have hswapped : ((indexPairs cols rows).map Prod.swap).Nodup :=
    (nodup_indexPairs cols rows).map Prod.swap_injective
  refine (List.perm_ext_iff_of_nodup (nodup_indexPairs rows cols) hswapped).mpr fun ij => ?_
  rw [List.mem_map_swap, mem_indexPairs, mem_indexPairs]
  exact And.comm

theorem DistinctActive.perm {us ws : List Identifier} (h : DistinctActive us) (hp : us.Perm ws) :
    DistinctActive ws := by
  refine hp.pairwise h ?_
  intro i j hij hj heq
  exact hij (heq ▸ hj) heq.symm

namespace MatrixOrder

theorem bijOn_offset (s : MatrixOrder) (rows cols : Nat) :
    Set.BijOn (fun ij : Nat × Nat => s.offset rows cols ij.1 ij.2)
      {ij | ij.1 < rows ∧ ij.2 < cols} (Set.Iio (rows * cols)) := by
  refine ⟨fun ij hij => s.offset_lt hij.1 hij.2, fun ij hij ij' hij' h => ?_, fun k hk => ?_⟩
  · exact Prod.ext_iff.mpr (offset_inj s hij.1 hij.2 hij'.1 hij'.2 h)
  · obtain ⟨i, hi, j, hj, hij⟩ := s.exists_offset hk
    exact ⟨(i, j), ⟨hi, hj⟩, hij⟩

end MatrixOrder

namespace Matrix

def set (p : Matrix α) (i j : Nat) (x : α) : Matrix α :=
  fun i' j' => if i' = i ∧ j' = j then x else p i' j'

variable {p q : Matrix α} {s s' : MatrixOrder} {rows cols i j : Nat}

theorem set_self (p : Matrix α) (i j : Nat) (x : α) : p.set i j x i j = x := if_pos ⟨rfl, rfl⟩

theorem set_of_ne (p : Matrix α) (x : α) {ij : Nat × Nat} (h : ij ≠ (i, j)) :
    p.set i j x ij.1 ij.2 = p ij.1 ij.2 := if_neg fun heq => h (Prod.ext heq.1 heq.2)

theorem flatten_perm (p : Matrix α) (s s' : MatrixOrder) (rows cols : Nat) :
    (p.flatten s rows cols).Perm (p.flatten s' rows cols) := by
  have hperm : (p.flatten .byRow rows cols).Perm (p.flatten .byColumn rows cols) := by
    have h := (indexPairs_perm rows cols).map fun ij => p ij.1 ij.2
    rwa [List.map_map] at h
  cases s <;> cases s'
  · exact .refl _
  · exact hperm
  · exact hperm.symm
  · exact .refl _

theorem flatten_congr (h : ∀ i < rows, ∀ j < cols, p i j = q i j) :
    p.flatten s rows cols = q.flatten s rows cols := by
  cases s with
  | byRow =>
    refine List.map_congr_left fun ij hij => ?_
    obtain ⟨hi, hj⟩ := mem_indexPairs.mp hij
    exact h _ hi _ hj
  | byColumn =>
    refine List.map_congr_left fun ji hji => ?_
    obtain ⟨hj, hi⟩ := mem_indexPairs.mp hji
    exact h _ hi _ hj

theorem zipWith_flatten (f : α → β → γ) (p : Matrix α) (q : Matrix β) (s : MatrixOrder)
    (rows cols : Nat) : List.zipWith f (p.flatten s rows cols) (q.flatten s rows cols) =
      Matrix.flatten (fun i j => f (p i j) (q i j)) s rows cols := by
  rw [← List.map_uncurry_zip_eq_zipWith, zip_flatten, map_flatten]
  rfl

theorem getD_flatten (d : α) (hi : i < rows) (hj : j < cols) :
    (p.flatten s rows cols).getD (s.offset rows cols i j) d = p i j := by
  rw [List.getD_eq_getElem?_getD, getElem?_flatten p s hi hj, Option.getD_some]

theorem set_flatten (x : α) (hi : i < rows) (hj : j < cols) :
    (p.flatten s rows cols).set (s.offset rows cols i j) x = (p.set i j x).flatten s rows cols := by
  have hlength : ((p.flatten s rows cols).set (s.offset rows cols i j) x).length = rows * cols := by
    rw [List.length_set, length_flatten]
  refine List.ext_getElem? fun k => ?_
  by_cases hk : k < rows * cols
  · obtain ⟨i', hi', j', hj', rfl⟩ := s.exists_offset hk
    rw [getElem?_flatten _ s hi' hj', Matrix.set]
    split
    case isTrue h =>
      rw [h.1, h.2, List.getElem?_set_self (by rw [length_flatten]; exact s.offset_lt hi hj)]
    case isFalse h =>
      rw [List.getElem?_set_ne fun heq => h ?_, getElem?_flatten p s hi' hj']
      exact (s.offset_inj hi hj hi' hj' heq).imp Eq.symm Eq.symm
  · rw [List.getElem?_eq_none (by omega), List.getElem?_eq_none (by rw [length_flatten]; omega)]

theorem mem_flatten {x : α} :
    x ∈ p.flatten s rows cols ↔ ∃ i < rows, ∃ j < cols, p i j = x := by
  constructor
  · intro hx
    obtain ⟨k, hk, rfl⟩ := List.mem_iff_getElem.mp hx
    obtain ⟨i, hi, j, hj, rfl⟩ := s.exists_offset (length_flatten p s rows cols ▸ hk)
    exact ⟨i, hi, j, hj, (List.getElem_eq_iff hk).mpr (getElem?_flatten p s hi hj) |>.symm⟩
  · rintro ⟨i, hi, j, hj, rfl⟩
    exact List.mem_of_getElem? (getElem?_flatten p s hi hj)

theorem flatten_const (x : α) (s : MatrixOrder) (rows cols : Nat) :
    Matrix.flatten (fun _ _ => x) s rows cols = List.replicate (rows * cols) x := by
  refine List.eq_replicate_iff.mpr ⟨length_flatten .., fun y hy => ?_⟩
  obtain ⟨i, -, j, -, rfl⟩ := mem_flatten.mp hy
  rfl

theorem any_flatten (f : α → Bool) (p : Matrix α) (s s' : MatrixOrder) (rows cols : Nat) :
    (p.flatten s rows cols).any f = (p.flatten s' rows cols).any f :=
  (flatten_perm p s s' rows cols).any_eq

theorem zip_flatten_perm {p : Matrix α} {q q' : Matrix β}
    (h : ∀ i < rows, ∀ j < cols, q i j = q' i j) :
    ((p.flatten s rows cols).zip (q.flatten s rows cols)).Perm
      ((p.flatten s' rows cols).zip (q'.flatten s' rows cols)) := by
  have hcongr : q.flatten s rows cols = q'.flatten s rows cols := flatten_congr h
  rw [hcongr, zip_flatten, zip_flatten]
  exact flatten_perm _ s s' rows cols

end Matrix

namespace Slots

theorem ext_slot [Scalar F] {v w : Slots F} (hsize : v.size = w.size) (h : v.slot = w.slot) :
    v = w := by
  obtain ⟨x, xs⟩ := v
  obtain ⟨y, ys⟩ := w
  have hlength : xs.length = ys.length := Nat.succ.inj hsize
  have hrest : xs = ys := by
    refine List.ext_getElem hlength fun k hk hk' => ?_
    have hslot : xs.getD k 0 = ys.getD k 0 := congrFun h (k + 1)
    rwa [List.getD_eq_getElem _ _ hk, List.getD_eq_getElem _ _ hk'] at hslot
  exact congrArg₂ Slots.mk (congrFun h 0) hrest

variable {us ws : List (Identifier × F)} {i j : Identifier}

theorem set_comm [Scalar F] (v : Slots F) (hij : i ≠ j) (x y : F) :
    (v.set i x).set j y = (v.set j y).set i x := by
  refine ext_slot ?_ (funext fun id => ?_)
  · simp only [size_set, max_assoc, max_comm (i + 1)]
  · simp only [slot_set]
    split
    case isTrue hj => rw [if_neg fun hi => hij (hi.trans hj.symm)]
    case isFalse => rfl

theorem modify_comm [ExactScalar F] (v : Slots F) (i j : Identifier) (x y : F) :
    (v.modify i (· + x)).modify j (· + y) = (v.modify j (· + y)).modify i (· + x) := by
  refine ext_slot ?_ (funext fun id => ?_)
  · simp only [modify, size_set, max_assoc, max_comm (i + 1)]
  · simp only [modify, slot_set]
    by_cases hij : i = j
    · rw [if_pos hij, if_pos hij.symm, hij, add_right_comm]
      split <;> rfl
    · rw [if_neg hij, if_neg (Ne.symm hij)]
      split
      case isTrue hj => rw [if_neg fun hi => hij (hi.trans hj.symm)]
      case isFalse => rfl

theorem scatter_perm [Scalar F] (v : Slots F) (hp : us.Perm ws)
    (hd : DistinctActive (us.map Prod.fst)) : v.scatter us = v.scatter ws := by
  have hsymm : Std.Symm fun u w : Identifier × F => u.1 ≠ passive → u.1 ≠ w.1 :=
    ⟨fun u w huw hw heq => huw (heq ▸ hw) heq.symm⟩
  apply hp.foldl_eq'
  intro u hu w hw v
  by_cases huw : u = w
  · rw [huw]
  · split <;> split
    case neg.isFalse.isFalse hw' hu' =>
      exact set_comm v ((List.pairwise_map.mp hd).forall hu hw huw hu') u.2 w.2
    all_goals rfl

theorem accumulate_perm [ExactScalar F] (v : Slots F) (hp : us.Perm ws) :
    v.accumulate us = v.accumulate ws := by
  apply hp.foldl_eq'
  intro u _ w _ v
  split <;> split
  case isFalse.isFalse => exact modify_comm v u.1 w.1 u.2 w.2
  all_goals rfl

end Slots

end Autodiff
