import Autodiff.Proofs.Block
import Autodiff.Proofs.ExactScalar
import Autodiff.Proofs.Flattening
import Autodiff.Proofs.ProductReplay

namespace Autodiff

variable {F : Type} [ExactScalar F]

theorem Slots.slot_accumulate (v : Slots F) (ws : List (Identifier × F)) {id : Identifier}
    (hid : id ≠ passive) :
    (v.accumulate ws).slot id =
      v.slot id + (ws.map fun w => if w.1 = id then w.2 else 0).sum := by
  induction ws generalizing v with
  | nil => simp [accumulate]
  | cons w ws ih =>
    rw [accumulate, List.foldl_cons]
    refine (ih _).trans ?_
    rw [List.map_cons, List.sum_cons, ← add_assoc]
    congr 1
    by_cases hw : w.1 = passive
    · rw [if_pos hw, if_neg (by rw [hw]; exact hid.symm), add_zero]
    · rw [if_neg hw, modify, slot_set]
      by_cases hi : w.1 = id
      · rw [if_pos hi, if_pos hi, hi]
      · rw [if_neg hi, if_neg hi, add_zero]

namespace Matrix

theorem addProducts_eq_sum (x y : Nat → F) (sum : F) (places : List Nat) :
    addProducts x y sum places = sum + (places.map fun l => x l * y l).sum := by
  induction places generalizing sum with
  | nil => simp [addProducts]
  | cons l places ih =>
    rw [addProducts, List.foldl_cons]
    refine (ih _).trans ?_
    rw [List.map_cons, List.sum_cons]
    ring

theorem mul_eq_sum (rows inner cols : Nat) (p q : Matrix F) (i j : Nat) :
    Matrix.mul rows inner cols p q i j = ∑ l ∈ Finset.range inner, p i l * q l j := by
  have hzero : dotFromZero (p i) (fun l => q l j) inner =
      ∑ l ∈ Finset.range inner, p i l * q l j := by
    rw [dotFromZero, addProducts_eq_sum, zero_add]
    rfl
  rw [Matrix.mul]
  split
  · exact hzero
  · cases inner with
    | zero => rfl
    | succ inner =>
      rw [dot, addProducts_eq_sum, Finset.sum_range_succ', List.map_map, add_comm]
      rfl

theorem ofList_map {α : Type} (f : α → F) (xs : List α) (d : α) (hd : f d = 0) (s : MatrixOrder)
    (rows cols i j : Nat) :
    Matrix.ofList s rows cols (xs.map f) i j = f (xs.getD (s.offset rows cols i j) d) := by
  rw [ofList, ← hd]
  exact List.getD_map xs d f

end Matrix

namespace Product.Call

variable (c : Call F)

def leftAt (i l : Nat) : Variable F :=
  c.left.getD (c.order.offset c.rows c.inner i l) (.constant 0)

def rightAt (l j : Nat) : Variable F :=
  c.right.getD (c.order.offset c.inner c.cols l j) (.constant 0)

def resultAt (i j : Nat) : Identifier :=
  c.results.getD (c.order.offset c.rows c.cols i j) passive

def arguments (i j : Nat) : List (Identifier × F) :=
  (List.range c.inner).flatMap fun l =>
    [((c.leftAt i l).identifier, (c.rightAt l j).value),
      ((c.rightAt l j).identifier, (c.leftAt i l).value)]

def block : Block F :=
  Matrix.flatten (fun i j => (c.resultAt i j, c.arguments i j)) c.order c.rows c.cols

theorem leftMatrix_eq (i l : Nat) : c.leftMatrix i l = (c.leftAt i l).value :=
  Matrix.ofList_map Variable.value _ (.constant 0) rfl ..

theorem rightMatrix_eq (l j : Nat) : c.rightMatrix l j = (c.rightAt l j).value :=
  Matrix.ofList_map Variable.value _ (.constant 0) rfl ..

theorem identifier_getD {xs : List (Variable F)} (h : xs.any Variable.isActive = false) (k : Nat) :
    (xs.getD k (.constant 0)).identifier = passive := by
  rw [List.getD_eq_getElem?_getD]
  cases hx : xs[k]? with
  | none => rfl
  | some x =>
    have hpassive := List.any_eq_false.mp h x (List.mem_of_getElem? hx)
    simpa [Variable.isActive] using hpassive

theorem weigh_arguments (x : Identifier → F) (i j : Nat) :
    weigh (c.arguments i j) x = ∑ l ∈ Finset.range c.inner,
      ((c.rightAt l j).value * x (c.leftAt i l).identifier +
        (c.leftAt i l).value * x (c.rightAt l j).identifier) := by
  rw [weigh, arguments, sum_map_flatMap_range]
  simp

theorem portion_arguments (y : F) (i j : Nat) (id : Identifier) :
    portion (c.arguments i j) y id = ∑ l ∈ Finset.range c.inner,
      ((if (c.leftAt i l).identifier = id then (c.rightAt l j).value * y else 0) +
        if (c.rightAt l j).identifier = id then (c.leftAt i l).value * y else 0) := by
  rw [portion, arguments, sum_map_flatMap_range]
  simp

theorem tangentMatrix_eq_weigh {v : Slots F} (hv : v.slot passive = 0) (i j : Nat) :
    c.tangentMatrix v i j = weigh (c.arguments i j) v.slot := by
  have hleft (l : Nat) : Matrix.ofList c.order c.rows c.inner
      (c.left.map fun x => v.get x.identifier) i l = v.slot (c.leftAt i l).identifier := by
    rw [Matrix.ofList_map (fun x : Variable F => v.get x.identifier) _ (.constant 0) hv]
    exact Slots.get_eq_slot hv _
  have hright (l : Nat) : Matrix.ofList c.order c.inner c.cols
      (c.right.map fun x => v.get x.identifier) l j = v.slot (c.rightAt l j).identifier := by
    rw [Matrix.ofList_map (fun x : Variable F => v.get x.identifier) _ (.constant 0) hv]
    exact Slots.get_eq_slot hv _
  have hl : c.leftActive = false → ∀ l, v.slot (c.leftAt i l).identifier = 0 := by
    intro h l
    rw [leftAt, identifier_getD h, hv]
  have hr : c.rightActive = false → ∀ l, v.slot (c.rightAt l j).identifier = 0 := by
    intro h l
    rw [rightAt, identifier_getD h, hv]
  rw [weigh_arguments, Finset.sum_add_distrib, tangentMatrix]
  cases hla : c.leftActive <;> cases hra : c.rightActive <;>
    simp [addTerm, Matrix.add, Matrix.zero, Matrix.mul_eq_sum, hleft, hright, leftMatrix_eq,
      rightMatrix_eq, mul_comm, hl, hr, hla, hra]

omit [ExactScalar F] in
theorem zip_results {α : Type} (hc : c.Fits) (p : Matrix α) :
    c.results.zip (p.flatten c.order c.rows c.cols) =
      Matrix.flatten (fun i j => (c.resultAt i j, p i j)) c.order c.rows c.cols := by
  conv_lhs => rw [← Matrix.flatten_getD c.results passive c.order c.rows c.cols hc.results]
  exact Matrix.zip_flatten ..

theorem map_fst_block (hc : c.Fits) : c.block.map Prod.fst = c.results := by
  rw [block, Matrix.map_flatten]
  exact Matrix.flatten_getD c.results passive c.order c.rows c.cols hc.results

theorem slot_tangent (hc : c.Fits) {v : Slots F} (hv : v.slot passive = 0) :
    (c.tangent v).slot = c.block.tangent v.slot := by
  have hweigh : c.tangentMatrix v = fun i j => weigh (c.arguments i j) v.slot :=
    funext₂ fun i j => c.tangentMatrix_eq_weigh hv i j
  rw [tangent, Slots.slot_scatter, hweigh, c.zip_results hc, Block.tangent, block,
    Matrix.map_flatten]

theorem share_block (y : Identifier → F) (id : Identifier) :
    c.block.share y id =
      ∑ i ∈ Finset.range c.rows, ∑ l ∈ Finset.range c.inner,
          (if (c.leftAt i l).identifier = id then
            ∑ j ∈ Finset.range c.cols, y (c.resultAt i j) * (c.rightAt l j).value else 0) +
        ∑ l ∈ Finset.range c.inner, ∑ j ∈ Finset.range c.cols,
          if (c.rightAt l j).identifier = id then
            ∑ i ∈ Finset.range c.rows, (c.leftAt i l).value * y (c.resultAt i j) else 0 := by
  have hportion (i j : Nat) : portion (c.arguments i j) (y (c.resultAt i j)) id =
      ∑ l ∈ Finset.range c.inner, (if (c.leftAt i l).identifier = id then
          y (c.resultAt i j) * (c.rightAt l j).value else 0) +
        ∑ l ∈ Finset.range c.inner, if (c.rightAt l j).identifier = id then
          (c.leftAt i l).value * y (c.resultAt i j) else 0 := by
    rw [portion_arguments, ← Finset.sum_add_distrib]
    refine Finset.sum_congr rfl fun l _ => ?_
    rw [mul_comm (c.rightAt l j).value]
  rw [Block.share, block, Matrix.sum_map_flatten]
  simp only [hportion, Finset.sum_add_distrib]
  congr 1
  · refine Finset.sum_congr rfl fun i _ => ?_
    rw [Finset.sum_comm]
    refine Finset.sum_congr rfl fun l _ => ?_
    split <;> simp
  · rw [Finset.sum_comm]
    rw [Finset.sum_comm (s := Finset.range c.inner)]
    refine Finset.sum_congr rfl fun j _ => ?_
    rw [Finset.sum_comm]
    refine Finset.sum_congr rfl fun l _ => ?_
    split <;> simp

theorem sum_zip_flatten (xs : List (Variable F)) (p : Matrix F) (rows cols : Nat)
    (h : xs.length = rows * cols) (id : Identifier) :
    (((xs.map Variable.identifier).zip (p.flatten c.order rows cols)).map fun w =>
        if w.1 = id then w.2 else 0).sum =
      ∑ i ∈ Finset.range rows, ∑ j ∈ Finset.range cols,
        if (xs.getD (c.order.offset rows cols i j) (.constant 0)).identifier = id then p i j
        else 0 := by
  have hids : xs.map Variable.identifier = Matrix.flatten (fun i j =>
      (xs.getD (c.order.offset rows cols i j) (.constant 0)).identifier) c.order rows cols := by
    conv_lhs => rw [← Matrix.flatten_getD xs (.constant 0) c.order rows cols h]
    exact Matrix.map_flatten ..
  rw [hids, Matrix.zip_flatten, Matrix.sum_map_flatten]

theorem slot_adjoint (hc : c.Fits) (hd : DistinctActive c.results) {v : Slots F}
    (hv : v.slot passive = 0) : (c.adjoint v).slot = c.block.adjoint v.slot := by
  have hadjoint (i j : Nat) : Matrix.ofList c.order c.rows c.cols (v.taken c.results) i j =
      v.slot (c.resultAt i j) := by
    rw [Slots.taken_eq_map v c.results hd]
    exact Matrix.ofList_map v.slot _ passive hv ..
  have hclear : (v.scatter (c.results.map fun id => (id, 0))).slot =
      overwrite v.slot (c.block.map fun r => (r.1, 0)) := by
    rw [Slots.slot_scatter, ← c.map_fst_block hc, List.map_map]
    rfl
  funext id
  by_cases hid : id = passive
  · subst hid
    rw [Block.adjoint, if_pos rfl, adjoint]
    have hkept : (v.scatter (c.results.map fun id => (id, 0))).slot passive = v.slot passive := by
      rw [hclear, overwrite_passive]
    split <;> split <;> simp only [Slots.slot_accumulate_passive, hkept]
  · have hleft : (((c.leftShare (.ofList c.order c.rows c.cols (v.taken c.results))).map fun w =>
        if w.1 = id then w.2 else 0).sum) =
        ∑ i ∈ Finset.range c.rows, ∑ l ∈ Finset.range c.inner,
          if (c.leftAt i l).identifier = id then
            ∑ j ∈ Finset.range c.cols, v.slot (c.resultAt i j) * (c.rightAt l j).value else 0 := by
      rw [leftShare, c.sum_zip_flatten c.left _ c.rows c.inner hc.left]
      simp only [Matrix.mul_eq_sum, hadjoint, Matrix.transpose, rightMatrix_eq]
      rfl
    have hright : (((c.rightShare (.ofList c.order c.rows c.cols (v.taken c.results))).map fun w =>
        if w.1 = id then w.2 else 0).sum) =
        ∑ l ∈ Finset.range c.inner, ∑ j ∈ Finset.range c.cols,
          if (c.rightAt l j).identifier = id then
            ∑ i ∈ Finset.range c.rows, (c.leftAt i l).value * v.slot (c.resultAt i j) else 0 := by
      rw [rightShare, c.sum_zip_flatten c.right _ c.inner c.cols hc.right]
      simp only [Matrix.mul_eq_sum, hadjoint, Matrix.transpose, leftMatrix_eq]
      rfl
    have hnoLeft : c.leftActive = false → ∀ i l, (c.leftAt i l).identifier ≠ id := by
      intro h i l
      rw [leftAt, identifier_getD h]
      exact Ne.symm hid
    have hnoRight : c.rightActive = false → ∀ l j, (c.rightAt l j).identifier ≠ id := by
      intro h l j
      rw [rightAt, identifier_getD h]
      exact Ne.symm hid
    rw [Block.adjoint, if_neg hid, share_block, adjoint]
    cases hl : c.leftActive <;> cases hr : c.rightActive <;>
      simp [Slots.slot_accumulate, hid, hleft, hright, hclear, hnoLeft, hnoRight, hl, hr, add_assoc]

end Product.Call

end Autodiff
