import Mathlib
import Autodiff.Vectors

namespace Autodiff

variable {F : Type}

def DistinctActive (ids : List Identifier) : Prop := ids.Pairwise fun i j => i ≠ passive → i ≠ j

/-- The map after writes in order. What is written for passive variables is dropped. -/
def overwrite (p : Identifier → F) (ws : List (Identifier × F)) : Identifier → F :=
  ws.foldl (fun p w => if w.1 = passive then p else Function.update p w.1 w.2) p

theorem overwrite_of_notMem {ws : List (Identifier × F)} {id : Identifier} (p : Identifier → F)
    (h : id ∉ ws.map Prod.fst) : overwrite p ws id = p id := by
  induction ws generalizing p with
  | nil => rfl
  | cons w ws ih =>
    simp only [List.map_cons, List.mem_cons, not_or] at h
    rw [overwrite, List.foldl_cons]
    refine (ih _ h.2).trans ?_
    by_cases hw : w.1 = passive
    · rw [if_pos hw]
    · rw [if_neg hw, Function.update_of_ne h.1]

theorem overwrite_passive (p : Identifier → F) (ws : List (Identifier × F)) :
    overwrite p ws passive = p passive := by
  induction ws generalizing p with
  | nil => rfl
  | cons w ws ih =>
    rw [overwrite, List.foldl_cons]
    refine (ih _).trans ?_
    by_cases hw : w.1 = passive
    · rw [if_pos hw]
    · rw [if_neg hw, Function.update_of_ne (Ne.symm hw)]

theorem overwrite_of_mem {ws : List (Identifier × F)} {id : Identifier} {x : F}
    (p : Identifier → F) (hd : DistinctActive (ws.map Prod.fst)) (h : (id, x) ∈ ws)
    (hid : id ≠ passive) : overwrite p ws id = x := by
  induction ws generalizing p with
  | nil => simp at h
  | cons w ws ih =>
    obtain ⟨hw, hd⟩ := List.pairwise_cons.mp hd
    rcases List.mem_cons.mp h with rfl | h
    · have hnot : id ∉ ws.map Prod.fst := fun hm => hw id hm hid rfl
      rw [overwrite, List.foldl_cons, if_neg hid]
      exact (overwrite_of_notMem _ hnot).trans (Function.update_self ..)
    · exact ih _ hd h

theorem overwrite_congr {ws : List (Identifier × F)} {p q : Identifier → F} {id : Identifier}
    (h : p id = q id) : overwrite p ws id = overwrite q ws id := by
  induction ws generalizing p q with
  | nil => exact h
  | cons w ws ih =>
    refine ih ?_
    by_cases hw : w.1 = passive
    · simpa [hw] using h
    · by_cases hi : id = w.1
      · simp [hw, hi]
      · simp [hw, hi, h]

theorem overwrite_append (p : Identifier → F) (us ws : List (Identifier × F)) :
    overwrite p (us ++ ws) = overwrite (overwrite p us) ws := List.foldl_append

theorem overwrite_eq_self {ws : List (Identifier × F)} {q : Identifier → F}
    (h : ∀ w ∈ ws, w.1 ≠ passive → q w.1 = w.2) : overwrite q ws = q := by
  induction ws with
  | nil => rfl
  | cons w ws ih =>
    rw [overwrite, List.foldl_cons]
    by_cases hw : w.1 = passive
    · rw [if_pos hw]
      exact ih fun u hu => h u (List.mem_cons_of_mem _ hu)
    · rw [if_neg hw, ← h w (by simp) hw, Function.update_eq_self]
      exact ih fun u hu => h u (List.mem_cons_of_mem _ hu)

theorem overwrite_congr_of_mem {ws : List (Identifier × F)} (p q : Identifier → F)
    {id : Identifier} (hid : id ≠ passive) (h : id ∈ ws.map Prod.fst) :
    overwrite p ws id = overwrite q ws id := by
  induction ws generalizing p q with
  | nil => simp at h
  | cons w ws ih =>
    by_cases hmem : id ∈ ws.map Prod.fst
    · exact ih _ _ hmem
    · obtain rfl : id = w.1 := by simpa [hmem] using h
      rw [overwrite, List.foldl_cons, overwrite, List.foldl_cons, if_neg hid, if_neg hid]
      refine overwrite_congr ?_
      rw [Function.update_self, Function.update_self]

theorem overwrite_eq_of_mem_iff {us ws : List (Identifier × F)} (p : Identifier → F)
    (hu : DistinctActive (us.map Prod.fst)) (hw : DistinctActive (ws.map Prod.fst))
    (h : ∀ w, w ∈ us ↔ w ∈ ws) : overwrite p us = overwrite p ws := by
  funext id
  by_cases hid : id = passive
  · rw [hid, overwrite_passive, overwrite_passive]
  · by_cases hmem : id ∈ us.map Prod.fst
    · obtain ⟨⟨id, x⟩, hx, rfl⟩ := List.mem_map.mp hmem
      rw [overwrite_of_mem p hu hx hid, overwrite_of_mem p hw ((h _).mp hx) hid]
    · have hnot : id ∉ ws.map Prod.fst := by
        intro hmem'
        obtain ⟨w, hw, rfl⟩ := List.mem_map.mp hmem'
        exact hmem (List.mem_map_of_mem ((h w).mpr hw))
      rw [overwrite_of_notMem p hmem, overwrite_of_notMem p hnot]

theorem overwrite_map_of_mem (p q : Identifier → F) {ws : List (Identifier × F)} {id : Identifier}
    (hid : id ≠ passive) (h : id ∈ ws.map Prod.fst) :
    overwrite q (ws.map fun w => (w.1, p w.1)) id = p id := by
  have hmem : id ∈ (ws.map fun w => (w.1, p w.1)).map Prod.fst := by simpa using h
  rw [overwrite_congr_of_mem q p hid hmem, overwrite_eq_self]
  intro w hw _
  obtain ⟨u, -, rfl⟩ := List.mem_map.mp hw
  rfl

theorem overwrite_overwrite (p : Identifier → F) (ws : List (Identifier × F)) :
    overwrite (overwrite p ws) (ws.map fun w => (w.1, p w.1)) = p := by
  funext id
  by_cases hid : id = passive
  · rw [hid, overwrite_passive, overwrite_passive]
  · by_cases hmem : id ∈ ws.map Prod.fst
    · exact overwrite_map_of_mem p _ hid hmem
    · rw [overwrite_of_notMem _ (by simpa using hmem), overwrite_of_notMem p hmem]

namespace Slots

variable [Scalar F]

def scatter (v : Slots F) (ws : List (Identifier × F)) : Slots F :=
  ws.foldl (fun v w => if w.1 = passive then v else v.set w.1 w.2) v

def taken (v : Slots F) : List Identifier → List F
  | [] => []
  | id :: ids => v.slot id :: (v.scatter [(id, 0)]).taken ids

def accumulate (v : Slots F) (ws : List (Identifier × F)) : Slots F :=
  ws.foldl (fun v w => if w.1 = passive then v else v.modify w.1 (· + w.2)) v

theorem slot_scatter (v : Slots F) (ws : List (Identifier × F)) :
    (v.scatter ws).slot = overwrite v.slot ws := by
  induction ws generalizing v with
  | nil => rfl
  | cons w ws ih =>
    rw [scatter, List.foldl_cons, overwrite, List.foldl_cons]
    refine (ih _).trans (congrArg (overwrite · ws) ?_)
    by_cases hw : w.1 = passive
    · rw [if_pos hw, if_pos hw]
    · rw [if_neg hw, if_neg hw]
      funext id
      rw [slot_set, Function.update_apply]
      exact if_congr eq_comm rfl rfl

theorem slot_accumulate_passive (v : Slots F) (ws : List (Identifier × F)) :
    (v.accumulate ws).slot passive = v.slot passive := by
  induction ws generalizing v with
  | nil => rfl
  | cons w ws ih =>
    rw [accumulate, List.foldl_cons]
    refine (ih _).trans ?_
    by_cases hw : w.1 = passive
    · rw [if_pos hw]
    · rw [if_neg hw, modify, slot_set, if_neg hw]

theorem get_eq_slot {v : Slots F} (h : v.slot passive = 0) (id : Identifier) :
    v.get id = v.slot id := by
  rw [get_eq]
  split
  · rfl
  · rename_i hs
    rw [slot_of_size_le v id (not_lt.mp hs)]
    exact h

theorem taken_eq_map (v : Slots F) (ids : List Identifier) (h : DistinctActive ids) :
    v.taken ids = ids.map v.slot := by
  induction ids generalizing v with
  | nil => rfl
  | cons id ids ih =>
    obtain ⟨hid, h⟩ := List.pairwise_cons.mp h
    rw [taken, ih _ h, List.map_cons, slot_scatter]
    congr 1
    refine List.map_congr_left fun j hj => ?_
    by_cases hp : id = passive
    · simp [overwrite, hp]
    · exact overwrite_of_notMem _ (by simpa using (hid j hj hp).symm)

end Slots

namespace Vectors

variable [Scalar F]

omit [Scalar F] in
theorem hasPrimals_map (v : Slots F) (p : Option (Slots F)) (f : Slots F → Slots F) :
    (Vectors.mk v (p.map f)).hasPrimals = p.isSome := by
  cases p <;> rfl

theorem hasPrimals_setPrimal (v : Vectors F) (id : Identifier) (x : F) :
    (v.setPrimal id x).hasPrimals = v.hasPrimals := by
  rw [setPrimal]
  split
  · rfl
  · exact hasPrimals_map ..

def writePrimals (v : Vectors F) (ws : List (Identifier × F)) : Vectors F :=
  { v with primals := v.primals.map (·.scatter ws) }

theorem writePrimals_nil (v : Vectors F) : v.writePrimals [] = v := by
  cases v with
  | mk adjoints primals => cases primals <;> rfl

theorem slot_writePrimals {v : Vectors F} {q : Identifier → F} (ws : List (Identifier × F))
    (hq : ∀ p ∈ v.primals, p.slot = q) :
    ∀ p ∈ (v.writePrimals ws).primals, p.slot = overwrite q ws := by
  intro p hp
  obtain ⟨p₀, hp₀, rfl⟩ := Option.mem_map.mp hp
  rw [Slots.slot_scatter, hq p₀ hp₀]

theorem hasPrimals_writePrimals (v : Vectors F) (ws : List (Identifier × F)) :
    (v.writePrimals ws).hasPrimals = v.hasPrimals := hasPrimals_map ..

theorem writePrimals_of_hasPrimals_eq_false {v : Vectors F} (ws : List (Identifier × F))
    (h : v.hasPrimals = false) : v.writePrimals ws = v := by
  cases v with
  | mk adjoints primals =>
    cases primals with
    | none => rfl
    | some p => simp [hasPrimals] at h

theorem setPrimal_writePrimals (v : Vectors F) (w : Identifier × F) (ws : List (Identifier × F)) :
    (v.setPrimal w.1 w.2).writePrimals ws = v.writePrimals (w :: ws) := by
  cases v with
  | mk adjoints primals =>
    by_cases hw : w.1 = passive <;> cases primals <;>
      simp [setPrimal, writePrimals, hw, Slots.scatter]

theorem setGradient_eq (v : Vectors F) (id : Identifier) (x : F) :
    v.setGradient id x = { v with adjoints := v.adjoints.scatter [(id, x)] } := by
  by_cases h : id = passive <;> simp [setGradient, Slots.scatter, h]

theorem addGradient_eq (v : Vectors F) (id : Identifier) (x : F) :
    v.addGradient id x = { v with adjoints := v.adjoints.accumulate [(id, x)] } := by
  by_cases h : id = passive <;> simp [addGradient, Slots.accumulate, h]

theorem takeGradient_eq (v : Vectors F) (id : Identifier) :
    v.takeGradient id =
      (v.adjoints.slot id, { v with adjoints := v.adjoints.scatter [(id, 0)] }) := by
  by_cases h : id = passive
  · simp [takeGradient, Slots.scatter, h]
    rfl
  · simp [takeGradient, Slots.scatter, h]

end Vectors

end Autodiff
