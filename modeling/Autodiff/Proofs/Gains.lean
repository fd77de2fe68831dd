import Autodiff.Proofs.Agreement
import Autodiff.Proofs.Contents
/-!
What an adjoint sweep adds to each slot, in order and in any arithmetic. If what an event sets is not
mentioned by the events before it, the sweep leaves zero there; and what it adds elsewhere depends on
the adjoints of the outputs alone.
-/

namespace Autodiff

variable {F : Type}

def termsAt (ws : List (Identifier × F)) (id : Identifier) : List F :=
  (ws.filter (·.1 == id)).map Prod.snd

theorem termsAt_append (us ws : List (Identifier × F)) (id : Identifier) :
    termsAt (us ++ ws) id = termsAt us id ++ termsAt ws id := by
  rw [termsAt, List.filter_append, List.map_append]
  rfl

theorem termsAt_eq_nil {ws : List (Identifier × F)} {id : Identifier}
    (h : id ∉ ws.map Prod.fst) : termsAt ws id = [] := by
  rw [termsAt, List.map_eq_nil_iff, List.filter_eq_nil_iff]
  intro w hw heq
  exact h (List.mem_map.mpr ⟨w, hw, by simpa using heq⟩)

variable [Scalar F]

namespace Slots

theorem slot_accumulate_eq_foldl (v : Slots F) (ws : List (Identifier × F)) {id : Identifier}
    (hid : id ≠ passive) :
    (v.accumulate ws).slot id = (termsAt ws id).foldl (· + ·) (v.slot id) := by
  induction ws generalizing v with
  | nil => rfl
  | cons w ws ih =>
    rw [accumulate, List.foldl_cons]
    refine (ih _).trans ?_
    rw [← List.singleton_append (l := ws), termsAt_append, List.foldl_append]
    congr 1
    by_cases hw : w.1 = id
    · have hne : w.1 ≠ passive := hw ▸ hid
      rw [if_neg hne, modify, slot_set, if_pos hw]
      simp [termsAt, hw]
    · have hterms : termsAt [w] id = [] := termsAt_eq_nil (by simpa using Ne.symm hw)
      rw [hterms]
      split
      · rfl
      · rw [modify, slot_set, if_neg hw]
        rfl

theorem size_le_accumulate (v : Slots F) (ws : List (Identifier × F)) :
    v.size ≤ (v.accumulate ws).size := by
  induction ws generalizing v with
  | nil => exact Nat.le_refl _
  | cons w ws ih =>
    rw [accumulate, List.foldl_cons]
    refine Nat.le_trans ?_ (ih _)
    split
    · exact Nat.le_refl _
    · rw [modify, size_set]
      exact Nat.le_max_left _ _

theorem size_le_scatter (v : Slots F) (ws : List (Identifier × F)) :
    v.size ≤ (v.scatter ws).size := by
  induction ws generalizing v with
  | nil => exact Nat.le_refl _
  | cons w ws ih =>
    rw [scatter, List.foldl_cons]
    refine Nat.le_trans ?_ (ih _)
    split
    · exact Nat.le_refl _
    · rw [size_set]
      exact Nat.le_max_left _ _

theorem accumulate_append (v : Slots F) (us ws : List (Identifier × F)) :
    v.accumulate (us ++ ws) = (v.accumulate us).accumulate ws := List.foldl_append

structure AgreeOn (n : Identifier) (ids : List Identifier) (v w : Slots F) : Prop where
  left : n < v.size
  right : n < w.size
  slot_eq : ∀ id ∈ ids, v.slot id = w.slot id

theorem AgreeOn.get_eq {v w : Slots F} {id n : Identifier} {ids : List Identifier}
    (h : AgreeOn n ids v w) (hid : id ∈ ids) (hle : id ≤ n) : v.get id = w.get id := by
  rw [Slots.get_eq, Slots.get_eq, if_pos (hle.trans_lt h.left), if_pos (hle.trans_lt h.right),
    h.slot_eq id hid]

end Slots

namespace Event

variable {e : Event F} {v w : Slots F} {id n : Identifier} {ids : List Identifier}

def sources : Event F → List Identifier
  | elementary _ args _ => args.map Prod.fst
  | input _ _ => []
  | product c => (if c.leftActive then c.left.map Variable.identifier else []) ++
      if c.rightActive then c.right.map Variable.identifier else []

def cleared (v : Slots F) : Event F → Slots F
  | elementary id _ _ => if Scalar.isZero (v.get id) then v else v.set id 0
  | input _ _ => v
  | product c => v.scatter (c.results.map fun id => (id, 0))

def gain (v : Slots F) : Event F → List (Identifier × F)
  | elementary id args _ =>
    if Scalar.isZero (v.get id) then [] else args.map fun a => (a.1, a.2 * v.get id)
  | input _ _ => []
  | product c =>
    let adjoint := Matrix.ofList c.order c.rows c.cols (v.taken c.results)
    (if c.leftActive then c.leftShare adjoint else []) ++
      if c.rightActive then c.rightShare adjoint else []

theorem adjoint_eq (he : e.Regular) (v : Slots F) :
    e.adjoint v = (e.cleared v).accumulate (e.gain v) := by
  cases e with
  | input => rfl
  | elementary id args value =>
    have hdistribute (x : F) (u : Slots F) :
        args.foldl (fun v a => v.modify a.1 (· + a.2 * x)) u =
          u.accumulate (args.map fun a => (a.1, a.2 * x)) := by
      rw [Slots.accumulate, List.foldl_map]
      refine List.foldl_ext _ _ _ fun u a ha => ?_
      rw [if_neg (he.2 a ha)]
    rw [adjoint, Statement.propagate, cleared, gain]
    dsimp only
    split
    · rfl
    · exact hdistribute _ _
  | product c =>
    rw [adjoint, Product.Call.adjoint, cleared, gain, Slots.accumulate_append]
    cases c.leftActive <;> cases c.rightActive <;> rfl

theorem map_fst_gain_subset (e : Event F) (v : Slots F) : (e.gain v).map Prod.fst ⊆ e.sources := by
  cases e with
  | input => exact List.Subset.refl _
  | elementary id args value =>
    rw [gain]
    split
    · exact List.nil_subset _
    · rw [List.map_map]
      exact List.Subset.refl _
  | product c =>
    have hshare {active : Bool} {xs : List (Variable F)} {ws : List F} :
        (if active then (xs.map Variable.identifier).zip ws else []).map Prod.fst ⊆
          if active then xs.map Variable.identifier else [] := by
      cases active with
      | false => exact List.Subset.refl _
      | true =>
        intro id hid
        obtain ⟨w, hw, rfl⟩ := List.mem_map.mp hid
        exact (List.of_mem_zip hw).1
    intro id hid
    rw [gain, List.map_append] at hid
    exact List.mem_append.mpr ((List.mem_append.mp hid).imp (fun h => hshare h) fun h => hshare h)

theorem slot_adjoint_eq_foldl (he : e.Regular) (hid : id ≠ passive) (v : Slots F) :
    (e.adjoint v).slot id = (termsAt (e.gain v) id).foldl (· + ·) ((e.cleared v).slot id) := by
  rw [adjoint_eq he, Slots.slot_accumulate_eq_foldl _ _ hid]

theorem slot_cleared_of_notMem (hid : id ∉ e.outputs) (v : Slots F) :
    (e.cleared v).slot id = v.slot id := by
  cases e with
  | input => rfl
  | elementary i args value =>
    have hne : i ≠ id := by simpa [outputs, eq_comm] using hid
    rw [cleared]
    split
    · rfl
    · rw [Slots.slot_set, if_neg hne]
  | product c =>
    rw [cleared, Slots.slot_scatter]
    apply overwrite_of_notMem
    rw [List.map_map]
    exact (List.map_id c.results).symm ▸ hid

theorem slot_cleared_passive (he : e.Regular) (v : Slots F) :
    (e.cleared v).slot passive = v.slot passive := by
  cases e with
  | input => rfl
  | elementary i args value =>
    rw [cleared]
    split
    · rfl
    · rw [Slots.slot_set, if_neg he.1]
  | product c => rw [cleared, Slots.slot_scatter, overwrite_passive]

theorem size_le_adjoint (he : e.Regular) (v : Slots F) : v.size ≤ (e.adjoint v).size := by
  rw [adjoint_eq he]
  refine Nat.le_trans ?_ (Slots.size_le_accumulate _ _)
  cases e with
  | input => exact Nat.le_refl _
  | elementary i args value =>
    rw [cleared]
    split
    · exact Nat.le_refl _
    · rw [Slots.size_set]
      exact Nat.le_max_left _ _
  | product c => exact Slots.size_le_scatter _ _

theorem slot_adjoint_passive (he : e.Regular) (v : Slots F) :
    (e.adjoint v).slot passive = v.slot passive := by
  rw [adjoint_eq he, Slots.slot_accumulate_passive, slot_cleared_passive he]

theorem isZero_cleared (hzero : Scalar.isZero (0 : F) = true) (he : e.Regular)
    (hid : id ∈ e.outputs) (hne : id ≠ passive) (hlt : id < v.size) :
    Scalar.isZero ((e.cleared v).slot id) = true := by
  cases e with
  | input => cases hid
  | elementary i args value =>
    obtain rfl := List.mem_singleton.mp hid
    have hget : v.get id = v.slot id := by rw [Slots.get_eq, if_pos hlt]
    rw [cleared, hget]
    split
    case isTrue h => exact h
    case isFalse =>
      rw [Slots.slot_set, if_pos rfl]
      exact hzero
  | product c =>
    have hdistinct : DistinctActive ((c.results.map fun id => (id, (0 : F))).map Prod.fst) := by
      rw [List.map_map]
      exact (List.map_id c.results).symm ▸ he.2
    rw [cleared, Slots.slot_scatter, overwrite_of_mem _ hdistinct (List.mem_map_of_mem hid) hne]
    exact hzero

section Agree

variable (h : Slots.AgreeOn n ids v w) (he : e.Regular) (hids : ∀ id ∈ e.outputs, id ∈ ids)
  (hle : ∀ id ∈ e.outputs, id ≤ n)
include h he hids hle

theorem gain_congr : e.gain v = e.gain w := by
  cases e with
  | input => rfl
  | elementary i args value =>
    have hget : v.get i = w.get i :=
      h.get_eq (hids i (List.mem_singleton_self i)) (hle i (List.mem_singleton_self i))
    rw [gain, gain, hget]
  | product c =>
    have htaken : v.taken c.results = w.taken c.results := by
      rw [Slots.taken_eq_map _ _ he.2, Slots.taken_eq_map _ _ he.2]
      exact List.map_congr_left fun id hid => h.slot_eq id (hids id hid)
    rw [gain, gain, htaken]

theorem slot_cleared_congr (hid : id ∈ ids) : (e.cleared v).slot id = (e.cleared w).slot id := by
  have hsame := h.slot_eq id hid
  cases e with
  | input => exact hsame
  | elementary i args value =>
    have hget : v.get i = w.get i :=
      h.get_eq (hids i (List.mem_singleton_self i)) (hle i (List.mem_singleton_self i))
    rw [cleared, cleared, hget]
    split
    · exact hsame
    · rw [Slots.slot_set, Slots.slot_set, hsame]
  | product c =>
    rw [cleared, cleared, Slots.slot_scatter, Slots.slot_scatter]
    exact overwrite_congr hsame

theorem adjoint_agreeOn : (e.adjoint v).AgreeOn n ids (e.adjoint w) := by
  refine ⟨h.left.trans_le (size_le_adjoint he v), h.right.trans_le (size_le_adjoint he w),
    fun id hid => ?_⟩
  by_cases hne : id = passive
  · rw [hne, slot_adjoint_passive he, slot_adjoint_passive he]
    exact h.slot_eq passive (hne ▸ hid)
  · rw [slot_adjoint_eq_foldl he hne, slot_adjoint_eq_foldl he hne, gain_congr h he hids hle,
      slot_cleared_congr h he hids hle hid]

end Agree

end Event

namespace History

variable {es : History F} {v w : Slots F} {id n : Identifier} {ids : List Identifier}

def gain (es : History F) (v : Slots F) : List (Identifier × F) :=
  match es with
  | [] => []
  | e :: es => gain es v ++ e.gain (adjoint es v)

structure Rising (es : History F) : Prop where
  own : ∀ e ∈ es, ∀ id ∈ e.outputs, id ≠ passive → id ∉ e.sources
  earlier : es.Pairwise fun e e' => ∀ id ∈ e'.outputs, id ≠ passive → id ∉ e.outputs ++ e.sources

variable (hes : ∀ e ∈ es, e.Regular)
include hes

theorem size_le_adjoint (v : Slots F) : v.size ≤ (adjoint es v).size := by
  induction es with
  | nil => exact Nat.le_refl _
  | cons e es ih =>
    obtain ⟨he, hes⟩ := List.forall_mem_cons.mp hes
    exact (ih hes).trans (Event.size_le_adjoint he _)

theorem isZero_adjoint (hzero : Scalar.isZero (0 : F) = true) (hrising : Rising es)
    (hle : ∀ id ∈ es.flatMap Event.outputs, id < v.size) (hid : id ∈ es.flatMap Event.outputs)
    (hne : id ≠ passive) : Scalar.isZero ((adjoint es v).slot id) = true := by
  induction es with
  | nil => cases hid
  | cons e es ih =>
    obtain ⟨he, hes⟩ := List.forall_mem_cons.mp hes
    obtain ⟨hearlier, hpairwise⟩ := List.pairwise_cons.mp hrising.earlier
    rw [List.flatMap_cons] at hle hid
    change Scalar.isZero ((e.adjoint (adjoint es v)).slot id) = true
    rw [Event.slot_adjoint_eq_foldl he hne]
    have hclear {u : Slots F} (hid : id ∉ e.sources) : termsAt (e.gain u) id = [] :=
      termsAt_eq_nil fun hmem => hid (e.map_fst_gain_subset u hmem)
    by_cases hlater : id ∈ es.flatMap Event.outputs
    · obtain ⟨e', he', hid'⟩ := List.mem_flatMap.mp hlater
      have hnot := hearlier e' he' id hid' hne
      rw [List.mem_append, not_or] at hnot
      rw [hclear hnot.2, Event.slot_cleared_of_notMem hnot.1]
      exact ih hes ⟨fun e' he' => hrising.own e' (List.mem_cons_of_mem _ he'), hpairwise⟩
        (fun i hi => hle i (List.mem_append_right _ hi)) hlater
    · have hown : id ∈ e.outputs := (List.mem_append.mp hid).resolve_right hlater
      rw [hclear (hrising.own e List.mem_cons_self id hown hne)]
      refine Event.isZero_cleared hzero he hown hne ?_
      exact (hle id (List.mem_append_left _ hown)).trans_le (size_le_adjoint hes v)

theorem slot_adjoint_of_notMem (hne : id ≠ passive) (hid : id ∉ es.flatMap Event.outputs)
    (v : Slots F) :
    (adjoint es v).slot id = (termsAt (gain es v) id).foldl (· + ·) (v.slot id) := by
  induction es with
  | nil => rfl
  | cons e es ih =>
    obtain ⟨he, hes⟩ := List.forall_mem_cons.mp hes
    rw [List.flatMap_cons, List.mem_append, not_or] at hid
    change (e.adjoint (adjoint es v)).slot id = _
    rw [Event.slot_adjoint_eq_foldl he hne, Event.slot_cleared_of_notMem hid.1, ih hes hid.2, gain,
      termsAt_append, List.foldl_append]

variable (h : Slots.AgreeOn n ids v w) (hids : ∀ id ∈ es.flatMap Event.outputs, id ∈ ids)
  (hle : ∀ id ∈ es.flatMap Event.outputs, id ≤ n)
include h hids hle

theorem adjoint_agreeOn : (adjoint es v).AgreeOn n ids (adjoint es w) := by
  induction es with
  | nil => exact h
  | cons e es ih =>
    obtain ⟨he, hes⟩ := List.forall_mem_cons.mp hes
    simp only [List.flatMap_cons, List.mem_append, or_imp, forall_and] at hids hle
    exact Event.adjoint_agreeOn (ih hes hids.2 hle.2) he hids.1 hle.1

theorem gain_congr : gain es v = gain es w := by
  induction es with
  | nil => rfl
  | cons e es ih =>
    obtain ⟨he, hes⟩ := List.forall_mem_cons.mp hes
    simp only [List.flatMap_cons, List.mem_append, or_imp, forall_and] at hids hle
    have hafter := adjoint_agreeOn hes h hids.2 hle.2
    rw [gain, gain, ih hes hids.2 hle.2, Event.gain_congr hafter he hids.1 hle.1]

end History

end Autodiff
