import Autodiff.Proofs.ProductBlock
import Autodiff.Proofs.SweepRuns

namespace Autodiff

variable {F : Type} [ExactScalar F]

namespace Block

variable (b : Block F)

def tangentLinear : (Identifier → F) →ₗ[F] (Identifier → F) where
  toFun := b.tangent
  map_add' := b.tangent_add
  map_smul' := b.tangent_smul

def adjointLinear : (Identifier → F) →ₗ[F] (Identifier → F) where
  toFun := b.adjoint
  map_add' := b.adjoint_add
  map_smul' := b.adjoint_smul

theorem tangent_passive (x : Identifier → F) : b.tangent x passive = x passive :=
  overwrite_passive ..

theorem adjoint_passive (y : Identifier → F) : b.adjoint y passive = y passive := if_pos rfl

omit [ExactScalar F] in
theorem Below.mono {b : Block F} {M N : Nat} (h : b.Below M) (hMN : M ≤ N) : b.Below N :=
  fun r hr => ⟨(h r hr).1.trans_le hMN, fun a ha => ((h r hr).2 a ha).trans_le hMN⟩

omit [ExactScalar F] in
theorem exists_below : ∃ N, b.Below N := by
  induction b with
  | nil => exact ⟨0, nofun⟩
  | cons r b ih =>
    obtain ⟨N, hN⟩ := ih
    have hargs : ∀ a ∈ r.2, a.1 ≤ (r.2.map Prod.fst).sum := fun a ha =>
      List.single_le_sum (by simp) _ (List.mem_map_of_mem ha)
    refine ⟨max N (max (r.1 + 1) ((r.2.map Prod.fst).sum + 1)), fun r' hr' => ?_⟩
    rcases List.mem_cons.mp hr' with rfl | hr'
    · refine ⟨(Nat.lt_succ_self _).trans_le (le_max_of_le_right (le_max_left ..)), fun a ha => ?_⟩
      exact (Nat.lt_succ_of_le (hargs a ha)).trans_le (le_max_of_le_right (le_max_right ..))
    · exact (hN.mono (le_max_left ..)) r' hr'

end Block

namespace Event

def Regular : Event F → Prop
  | elementary id args _ => id ≠ passive ∧ ∀ a ∈ args, a.1 ≠ passive
  | input _ _ => True
  | product c => c.Fits ∧ DistinctActive c.results

def block : Event F → Block F
  | elementary id args _ => [(id, args)]
  | input _ _ => []
  | product c => c.block

theorem sum_tangents (args : List (Identifier × F)) {v : Slots F} (hv : v.slot passive = 0)
    (sum : F) :
    args.foldl (fun sum arg => sum + arg.2 * v.get arg.1) sum = sum + weigh args v.slot := by
  induction args generalizing sum with
  | nil => simp [weigh]
  | cons a args ih =>
    rw [List.foldl_cons, ih, weigh, weigh, List.map_cons, List.sum_cons, Slots.get_eq_slot hv,
      add_assoc]

theorem slot_tangent {e : Event F} (he : e.Regular) {v : Slots F} (hv : v.slot passive = 0) :
    (e.tangent v).slot = e.block.tangent v.slot := by
  cases e with
  | elementary id args x =>
    rw [tangent, slot_set_eq _ _ he.1, sum_tangents args hv, zero_add]
    rfl
  | input id x => rfl
  | product c => exact c.slot_tangent he.1 hv

theorem slot_distribute (args : List (Identifier × F)) (v : Slots F) (y : F) (id : Identifier) :
    (args.foldl (fun v arg => v.modify arg.1 (· + arg.2 * y)) v).slot id =
      v.slot id + portion args y id := by
  induction args generalizing v with
  | nil => simp [portion]
  | cons a args ih =>
    rw [List.foldl_cons, ih, portion, portion, List.map_cons, List.sum_cons, ← add_assoc]
    congr 1
    rw [Slots.modify, Slots.slot_set]
    by_cases hi : a.1 = id
    · rw [if_pos hi, if_pos hi, hi]
    · rw [if_neg hi, if_neg hi, add_zero]

theorem slot_adjoint {e : Event F} (he : e.Regular) {v : Slots F} (hv : v.slot passive = 0) :
    (e.adjoint v).slot = e.block.adjoint v.slot := by
  cases e with
  | elementary id args x =>
    obtain ⟨hid, hargs⟩ := he
    funext i
    have hclear : overwrite v.slot [(id, 0)] = (v.set id 0).slot := (slot_set_eq v 0 hid).symm
    have hshare : Block.share [(id, args)] v.slot i = portion args (v.slot id) i := by
      simp [Block.share]
    have hblock : Block.adjoint [(id, args)] v.slot i =
        if i = passive then v.slot i else (v.set id 0).slot i + portion args (v.slot id) i := by
      rw [Block.adjoint, hshare, List.map_singleton, hclear]
    have hpassive : portion args (v.slot id) passive = 0 := by
      rw [portion]
      refine List.sum_eq_zero fun x hx => ?_
      obtain ⟨a, ha, rfl⟩ := List.mem_map.mp hx
      rw [if_neg (hargs a ha)]
    rw [block, hblock, adjoint, Statement.propagate]
    simp only [Slots.get_eq_slot hv]
    by_cases hz : v.slot id = 0
    · -- The sweep skips a zero adjoint, which has nothing to hand on.
      rw [if_pos ((isZero_iff _).mpr hz), hz]
      have hportion : portion args (0 : F) i = 0 := by simp [portion]
      rw [hportion, add_zero, Slots.slot_set]
      split
      · rfl
      · split
        · rename_i h
          rw [← h, hz]
        · rfl
    · rw [if_neg fun h => hz ((isZero_iff _).mp h), Statement.distribute,
        slot_distribute]
      split
      · rename_i h
        rw [h, hpassive, add_zero, Slots.slot_set, if_neg hid]
      · rfl
  | input id x =>
    funext i
    simp [block, adjoint, Block.adjoint, Block.share, overwrite]
  | product c => exact c.slot_adjoint he.1 he.2 hv

theorem distinct_outputs {e : Event F} (he : e.Regular) :
    DistinctActive (e.block.map Prod.fst) := by
  cases e with
  | elementary id args x => exact List.pairwise_singleton ..
  | input id x => exact List.Pairwise.nil
  | product c =>
    rw [block, c.map_fst_block he.1]
    exact he.2

end Event

namespace History

def tangentMap : History F → (Identifier → F) →ₗ[F] (Identifier → F)
  | [] => LinearMap.id
  | e :: es => tangentMap es ∘ₗ e.block.tangentLinear

def adjointMap : History F → (Identifier → F) →ₗ[F] (Identifier → F)
  | [] => LinearMap.id
  | e :: es => e.block.adjointLinear ∘ₗ adjointMap es

def Below (es : History F) (N : Nat) : Prop := ∀ e ∈ es, e.block.Below N

theorem exists_below (es : History F) : ∃ N, Below es N := by
  induction es with
  | nil => exact ⟨0, nofun⟩
  | cons e es ih =>
    obtain ⟨M, hM⟩ := ih
    obtain ⟨N, hN⟩ := e.block.exists_below
    refine ⟨max M N, fun e' he' => ?_⟩
    rcases List.mem_cons.mp he' with rfl | he'
    · exact hN.mono (le_max_right ..)
    · exact (hM e' he').mono (le_max_left ..)

variable {es : History F}

theorem tangentMap_passive (es : History F) (x : Identifier → F) :
    tangentMap es x passive = x passive := by
  induction es generalizing x with
  | nil => rfl
  | cons e es ih => exact (ih _).trans (e.block.tangent_passive x)

theorem adjointMap_passive (es : History F) (y : Identifier → F) :
    adjointMap es y passive = y passive := by
  induction es with
  | nil => rfl
  | cons e es ih => exact (e.block.adjoint_passive _).trans ih

theorem slot_tangent (h : ∀ e ∈ es, e.Regular) {v : Slots F} (hv : v.slot passive = 0) :
    (tangent es v).slot = tangentMap es v.slot := by
  induction es generalizing v with
  | nil => rfl
  | cons e es ih =>
    have he := Event.slot_tangent (h e (by simp)) hv
    have hv' : (e.tangent v).slot passive = 0 := by rw [he, Block.tangent_passive, hv]
    refine (ih (fun e' he' => h e' (List.mem_cons_of_mem _ he')) hv').trans ?_
    rw [he]
    rfl

theorem slot_adjoint (h : ∀ e ∈ es, e.Regular) {v : Slots F} (hv : v.slot passive = 0) :
    (adjoint es v).slot = adjointMap es v.slot := by
  induction es with
  | nil => rfl
  | cons e es ih =>
    have hrest := ih fun e' he' => h e' (List.mem_cons_of_mem _ he')
    have hv' : (adjoint es v).slot passive = 0 := by rw [hrest, adjointMap_passive, hv]
    refine (Event.slot_adjoint (h e (by simp)) hv').trans ?_
    rw [hrest]
    rfl

theorem sum_tangentMap_mul {N : Nat} (h : ∀ e ∈ es, e.Regular) (hN : Below es N)
    (x y : Identifier → F) (hx : x passive = 0) (hy : y passive = 0) :
    ∑ i ∈ Finset.range N, tangentMap es x i * y i =
      ∑ i ∈ Finset.range N, x i * adjointMap es y i := by
  induction es generalizing x with
  | nil => rfl
  | cons e es ih =>
    refine (ih (fun e' he' => h e' (List.mem_cons_of_mem _ he'))
      (fun e' he' => hN e' (List.mem_cons_of_mem _ he')) _
      ((e.block.tangent_passive x).trans hx)).trans ?_
    exact e.block.sum_tangent_mul x _ (Event.distinct_outputs (h e (by simp))) (hN e (by simp)) hx
      ((adjointMap_passive es y).trans hy)

end History

end Autodiff
