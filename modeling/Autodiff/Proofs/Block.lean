import Autodiff.Proofs.Scatter
/-!
Simultaneous linear assignments to slots. The transpose of a block of them takes what its outputs
hold and hands it to their arguments.
-/

namespace Autodiff

variable {F : Type} [CommRing F]

/-- Each row gives an output and the weights of its arguments. -/
abbrev Block (F : Type) := List (Identifier × List (Identifier × F))

def weigh (args : List (Identifier × F)) (x : Identifier → F) : F :=
  (args.map fun a => a.2 * x a.1).sum

def portion (args : List (Identifier × F)) (y : F) (id : Identifier) : F :=
  (args.map fun a => if a.1 = id then a.2 * y else 0).sum

namespace Block

def tangent (b : Block F) (x : Identifier → F) : Identifier → F :=
  overwrite x (b.map fun r => (r.1, weigh r.2 x))

def share (b : Block F) (y : Identifier → F) (id : Identifier) : F :=
  (b.map fun r => portion r.2 (y r.1) id).sum

def adjoint (b : Block F) (y : Identifier → F) (id : Identifier) : F :=
  if id = passive then y id else overwrite y (b.map fun r => (r.1, 0)) id + b.share y id

def Below (b : Block F) (bound : Nat) : Prop := ∀ r ∈ b, r.1 < bound ∧ ∀ a ∈ r.2, a.1 < bound

end Block

section Linear

theorem weigh_add (args : List (Identifier × F)) (x y : Identifier → F) :
    weigh args (x + y) = weigh args x + weigh args y := by
  rw [weigh, weigh, weigh, ← List.sum_map_add]
  exact congrArg List.sum (List.map_congr_left fun a _ => mul_add ..)

theorem weigh_smul (args : List (Identifier × F)) (k : F) (x : Identifier → F) :
    weigh args (k • x) = k * weigh args x := by
  rw [weigh, weigh, ← List.sum_map_mul_left]
  exact congrArg List.sum (List.map_congr_left fun a _ => mul_left_comm ..)

theorem overwrite_add (p q : Identifier → F) (b : Block F)
    (f g : Identifier × List (Identifier × F) → F) :
    overwrite (p + q) (b.map fun r => (r.1, f r + g r)) =
      overwrite p (b.map fun r => (r.1, f r)) + overwrite q (b.map fun r => (r.1, g r)) := by
  induction b generalizing p q with
  | nil => rfl
  | cons r b ih =>
    simp only [List.map_cons, overwrite, List.foldl_cons]
    by_cases hr : r.1 = passive
    · simp only [if_pos hr]
      exact ih p q
    · simp only [if_neg hr]
      refine Eq.trans ?_ (ih _ _)
      congr 1
      funext id
      by_cases hi : id = r.1 <;> simp [hi]

theorem overwrite_smul (k : F) (p : Identifier → F) (b : Block F)
    (f : Identifier × List (Identifier × F) → F) :
    overwrite (k • p) (b.map fun r => (r.1, k * f r)) =
      k • overwrite p (b.map fun r => (r.1, f r)) := by
  induction b generalizing p with
  | nil => rfl
  | cons r b ih =>
    simp only [List.map_cons, overwrite, List.foldl_cons]
    by_cases hr : r.1 = passive
    · simp only [if_pos hr]
      exact ih p
    · simp only [if_neg hr]
      refine Eq.trans ?_ (ih _)
      congr 1
      funext id
      by_cases hi : id = r.1 <;> simp [hi]

namespace Block

variable (b : Block F)

theorem tangent_add (x y : Identifier → F) : b.tangent (x + y) = b.tangent x + b.tangent y := by
  simp only [tangent, weigh_add]
  exact overwrite_add x y b _ _

theorem tangent_smul (k : F) (x : Identifier → F) : b.tangent (k • x) = k • b.tangent x := by
  simp only [tangent, weigh_smul]
  exact overwrite_smul k x b _

theorem share_add (x y : Identifier → F) (id : Identifier) :
    b.share (x + y) id = b.share x id + b.share y id := by
  rw [share, share, share, ← List.sum_map_add]
  refine congrArg List.sum (List.map_congr_left fun r _ => ?_)
  rw [portion, portion, portion, ← List.sum_map_add]
  refine congrArg List.sum (List.map_congr_left fun a _ => ?_)
  split
  · exact mul_add ..
  · exact (add_zero 0).symm

theorem share_smul (k : F) (y : Identifier → F) (id : Identifier) :
    b.share (k • y) id = k * b.share y id := by
  rw [share, share, ← List.sum_map_mul_left]
  refine congrArg List.sum (List.map_congr_left fun r _ => ?_)
  rw [portion, portion, ← List.sum_map_mul_left]
  refine congrArg List.sum (List.map_congr_left fun a _ => ?_)
  split
  · exact mul_left_comm ..
  · exact (mul_zero k).symm

theorem adjoint_add (x y : Identifier → F) : b.adjoint (x + y) = b.adjoint x + b.adjoint y := by
  funext id
  have ho := congrFun (overwrite_add x y b (fun _ => 0) fun _ => 0) id
  rw [add_zero, Pi.add_apply] at ho
  rw [Pi.add_apply, adjoint, adjoint, adjoint, share_add, ho]
  split
  · rfl
  · ring

theorem adjoint_smul (k : F) (y : Identifier → F) : b.adjoint (k • y) = k • b.adjoint y := by
  funext id
  have ho := congrFun (overwrite_smul k y b fun _ => 0) id
  rw [mul_zero, Pi.smul_apply, smul_eq_mul] at ho
  rw [Pi.smul_apply, smul_eq_mul, adjoint, adjoint, share_smul, ho]
  split
  · rfl
  · ring

end Block

end Linear

section Transpose

variable {N : Nat}

theorem sum_update_mul (x y : Identifier → F) {id : Identifier} (c : F) (h : id < N) :
    ∑ i ∈ Finset.range N, Function.update x id c i * y i =
      ∑ i ∈ Finset.range N, x i * Function.update y id 0 i + c * y id := by
  have hmem := Finset.mem_range.mpr h
  rw [← Finset.add_sum_erase _ _ hmem, ← Finset.add_sum_erase _ _ hmem, Function.update_self,
    Function.update_self, mul_zero, zero_add, add_comm]
  congr 1
  refine Finset.sum_congr rfl fun i hi => ?_
  have hne := Finset.ne_of_mem_erase hi
  rw [Function.update_of_ne hne, Function.update_of_ne hne]

theorem sum_overwrite_mul (x y : Identifier → F) (ws : List (Identifier × F))
    (hd : DistinctActive (ws.map Prod.fst)) (hN : ∀ w ∈ ws, w.1 < N) (hy : y passive = 0) :
    ∑ i ∈ Finset.range N, overwrite x ws i * y i =
      ∑ i ∈ Finset.range N, x i * overwrite y (ws.map fun w => (w.1, 0)) i +
        (ws.map fun w => w.2 * y w.1).sum := by
  induction ws generalizing x y with
  | nil => simp [overwrite]
  | cons w ws ih =>
    obtain ⟨hw, hd⟩ := List.pairwise_cons.mp hd
    have hN' : ∀ u ∈ ws, u.1 < N := fun u hu => hN u (List.mem_cons_of_mem _ hu)
    rw [List.map_cons, List.map_cons, List.sum_cons, overwrite, List.foldl_cons, overwrite,
      List.foldl_cons]
    change ∑ i ∈ Finset.range N, overwrite _ ws i * y i =
      ∑ i ∈ Finset.range N, x i * overwrite _ (ws.map fun w => (w.1, 0)) i + _
    by_cases hp : w.1 = passive
    · rw [if_pos hp, if_pos hp, ih x y hd hN' hy, hp, hy, mul_zero, zero_add]
    · have hnot : w.1 ∉ (ws.map fun w => (w.1, (0 : F))).map Prod.fst := by
        simpa [List.map_map] using fun u hu => hw w.1 (List.mem_map.mpr ⟨(w.1, u), hu, rfl⟩) hp
      have hclear : overwrite (Function.update y w.1 0) (ws.map fun w => (w.1, 0)) =
          Function.update (overwrite y (ws.map fun w => (w.1, 0))) w.1 0 := by
        funext i
        by_cases hi : i = w.1
        · rw [hi, Function.update_self, overwrite_of_notMem _ hnot, Function.update_self]
        · rw [Function.update_of_ne hi]
          exact overwrite_congr (Function.update_of_ne hi ..)
      rw [if_neg hp, if_neg hp, ih _ y hd hN' hy, hclear, sum_update_mul x _ _ (hN w (by simp)),
        overwrite_of_notMem _ hnot, add_assoc]

theorem sum_mul_portion (x : Identifier → F) (args : List (Identifier × F)) (y : F)
    (hN : ∀ a ∈ args, a.1 < N) :
    ∑ i ∈ Finset.range N, x i * portion args y i = weigh args x * y := by
  induction args with
  | nil => simp [portion, weigh]
  | cons a args ih =>
    have ha : ∑ i ∈ Finset.range N, x i * (if a.1 = i then a.2 * y else 0) = x a.1 * (a.2 * y) := by
      simp [hN a (by simp)]
    have hrest := ih fun a' h => hN a' (List.mem_cons_of_mem _ h)
    simp only [portion, weigh, List.map_cons, List.sum_cons, mul_add, Finset.sum_add_distrib] at *
    rw [ha, hrest]
    ring

namespace Block

variable {b : Block F}

theorem sum_mul_share (x y : Identifier → F) (hN : b.Below N) :
    ∑ i ∈ Finset.range N, x i * b.share y i = (b.map fun r => weigh r.2 x * y r.1).sum := by
  induction b with
  | nil => simp [share]
  | cons r b ih =>
    have hr := sum_mul_portion x r.2 (y r.1) (hN r (by simp)).2
    have hrest := ih fun r' h => hN r' (List.mem_cons_of_mem _ h)
    simp only [share, List.map_cons, List.sum_cons, mul_add, Finset.sum_add_distrib] at *
    rw [hr, hrest]

theorem sum_tangent_mul (x y : Identifier → F) (hd : DistinctActive (b.map Prod.fst))
    (hN : b.Below N) (hx : x passive = 0) (hy : y passive = 0) :
    ∑ i ∈ Finset.range N, b.tangent x i * y i = ∑ i ∈ Finset.range N, x i * b.adjoint y i := by
  have hadjoint : ∀ i ∈ Finset.range N, x i * b.adjoint y i =
      x i * overwrite y (b.map fun r => (r.1, 0)) i + x i * b.share y i := by
    intro i _
    by_cases hi : i = passive
    · rw [hi, hx, zero_mul, zero_mul, zero_mul, add_zero]
    · rw [adjoint, if_neg hi, mul_add]
  have hdistinct : DistinctActive ((b.map fun r => (r.1, weigh r.2 x)).map Prod.fst) := by
    rw [List.map_map]
    exact hd
  have hbound : ∀ w ∈ b.map fun r => (r.1, weigh r.2 x), w.1 < N := by
    intro w hw
    obtain ⟨r, hr, rfl⟩ := List.mem_map.mp hw
    exact (hN r hr).1
  rw [tangent, sum_overwrite_mul x y _ hdistinct hbound hy, Finset.sum_congr rfl hadjoint,
    Finset.sum_add_distrib, sum_mul_share x y hN, List.map_map, List.map_map]
  rfl

end Block

end Transpose

end Autodiff
