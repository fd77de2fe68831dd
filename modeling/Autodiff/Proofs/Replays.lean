import Autodiff.Proofs.Agreement
import Autodiff.Proofs.Contents
/-!
Sweeps over any range, from any derivatives and any primals. A replayed product sees whatever the
primal vector holds under the identifiers of its factors, which need not be what it was called with.
-/

namespace Autodiff

variable {F : Type}

def Variable.seen (q : Identifier → F) (x : Variable F) : Variable F :=
  if x.isActive then ⟨q x.identifier, x.identifier⟩ else x

namespace Variable

variable (q : Identifier → F) (x : Variable F)

@[simp] theorem identifier_seen : (x.seen q).identifier = x.identifier := by
  unfold seen
  split <;> rfl

@[simp] theorem isActive_seen : (x.seen q).isActive = x.isActive := by simp [isActive]

theorem seen_of_isActive {x : Variable F} (h : x.isActive = true) :
    (x.seen q).value = q x.identifier := by
  simp [seen, h]

theorem seen_of_isActive_eq_false {x : Variable F} (h : x.isActive = false) : x.seen q = x := by
  simp [seen, h]

theorem map_identifier_seen (xs : List (Variable F)) :
    (xs.map (·.seen q)).map identifier = xs.map identifier := by simp

theorem any_isActive_seen (xs : List (Variable F)) :
    (xs.map (·.seen q)).any isActive = xs.any isActive := by
  simp [List.any_map, Function.comp_def]

end Variable

namespace Product.Call

def seen (c : Call F) (traits : Traits) (q : Identifier → F) : Call F :=
  if traits.hasPrimals then { c with left := c.left.map (·.seen q), right := c.right.map (·.seen q) }
  else c

variable {c : Call F} {traits : Traits} {p q : Identifier → F}

theorem seen_agrees (h : traits.hasPrimals = true) : (c.seen traits q).Agrees q := by
  intro x hx hactive
  rw [seen, if_pos h, ← List.map_append] at hx
  obtain ⟨y, -, rfl⟩ := List.mem_map.mp hx
  rw [Variable.isActive_seen] at hactive
  rw [Variable.seen_of_isActive q hactive, Variable.identifier_seen]

theorem seen_congr (h : traits.hasPrimals = true →
    ∀ x ∈ c.left ++ c.right, x.isActive = true → p x.identifier = q x.identifier) :
    c.seen traits p = c.seen traits q := by
  rw [seen, seen]
  split
  · rename_i hprimals
    have hseen : ∀ x ∈ c.left ++ c.right, x.seen p = x.seen q := by
      intro x hx
      cases hactive : x.isActive with
      | false => simp [Variable.seen, hactive]
      | true => simp [Variable.seen, hactive, h hprimals x hx hactive]
    congr 1
    · exact List.map_congr_left fun x hx => hseen x (List.mem_append_left _ hx)
    · exact List.map_congr_left fun x hx => hseen x (List.mem_append_right _ hx)
  · rfl

@[simp] theorem results_seen : (c.seen traits q).results = c.results := by
  unfold seen
  split <;> rfl

theorem Fits.seen (h : c.Fits) : (c.seen traits q).Fits := by
  unfold Call.seen
  split
  · exact ⟨by simpa using h.left, by simpa using h.right, h.results⟩
  · exact h

end Product.Call

namespace Event

variable {traits : Traits} {p q : Identifier → F} {e : Event F}

def seen (traits : Traits) (q : Identifier → F) : Event F → Event F
  | product c => .product (c.seen traits q)
  | e => e

def Sees (traits : Traits) (e : Event F) (id : Identifier) : Prop :=
  traits.hasPrimals = true ∧ e.Reads id

theorem seen_congr (h : ∀ id, e.Sees traits id → p id = q id) :
    e.seen traits p = e.seen traits q := by
  cases e with
  | elementary => rfl
  | input => rfl
  | product c =>
    refine congrArg Event.product (Product.Call.seen_congr ?_)
    intro hprimals x hx hactive
    exact h x.identifier ⟨hprimals, x, hx, hactive, rfl⟩

theorem Regular.seen (h : e.Regular) : (e.seen traits q).Regular := by
  cases e with
  | elementary => exact h
  | input => exact h
  | product c => exact ⟨h.1.seen, by simpa using h.2⟩

theorem seen_ready [Scalar F] (traits : Traits) (h : traits.hasPrimals = true) :
    (e.seen traits q).Ready q := by
  cases e with
  | elementary => trivial
  | input => trivial
  | product c => exact Product.Call.seen_agrees h

end Event

variable [Scalar F]

section Bytes

open Product

theorem Schema.passiveCells_seen (q : Identifier → F) (xs : List (Variable F)) (n : Nat) :
    passiveCells ((xs.map Variable.identifier).take n)
        (((xs.map (·.seen q)).map Variable.value).take n) =
      passiveCells ((xs.map Variable.identifier).take n) ((xs.map Variable.value).take n) := by
  induction xs generalizing n with
  | nil => rfl
  | cons x xs ih =>
    cases n with
    | zero => rfl
    | succ n =>
      simp only [List.map_cons, List.take_succ_cons, passiveCells, ih]
      congr 1
      by_cases hx : x.identifier = passive
      · rw [Variable.seen_of_isActive_eq_false q (by simpa [Variable.isActive] using hx)]
      · simp [hx]

theorem Schema.valueCells_seen (traits : Traits) (use : InputRole) (n : Nat)
    {xs : List (Variable F)} (q : Identifier → F) {a : Staged F}
    (hactive : use.active = xs.any Variable.isActive) (hprimals : traits.hasPrimals = true)
    (hi : a.identifiers.items = xs.map Variable.identifier)
    (hv : a.values.items = xs.map Variable.value) :
    valueCells n (a.withValues ((xs.map (·.seen q)).map Variable.value)) (use.origin traits) =
      valueCells n a (use.origin traits) := by
  cases hu : use.active with
  | true =>
    have horigin : use.origin traits = .primalVector := by
      simp [InputRole.origin, InputRole.keepsValues, hprimals, hu]
    rw [horigin, valueCells, valueCells, hv, hi]
    exact hi ▸ passiveCells_seen q xs n
  | false =>
    have hsame : xs.map (·.seen q) = xs := by
      refine (List.map_congr_left fun x hx => ?_).trans (List.map_id xs)
      rw [hu] at hactive
      apply Variable.seen_of_isActive_eq_false
      simpa using List.any_eq_false.mp hactive.symm x hx
    rw [hsame, ← hv]
    cases use.origin traits <;> rfl

/-- The bytes of a record do not tell with which active factors the product was called. -/
theorem Record.Stores.seen {traits : Traits} {token : Token} {record : Record F} {c : Call F}
    {olds : List F} (h : record.Stores traits token c olds) (q : Identifier → F) :
    record.Stores traits token (c.seen traits q) olds := by
  cases hp : traits.hasPrimals with
  | false => rwa [Call.seen, hp]
  | true =>
    obtain ⟨activity, a, b, y, hstaged, hf, hd⟩ := h.staged
    refine ⟨h.token_eq, h.fits.seen, by simpa using h.length_olds, activity,
      a.withValues ((c.left.map (·.seen q)).map Variable.value),
      b.withValues ((c.right.map (·.seen q)).map Variable.value), y, ?_, ?_, ?_⟩
    · rw [Call.seen, if_pos hp]
      refine ⟨?_, ?_, ?_, rfl, ?_, rfl, hstaged.results, hstaged.olds⟩
      · rw [hstaged.left_active, Call.leftActive, Call.leftActive, Variable.any_isActive_seen]
      · rw [hstaged.right_active, Call.rightActive, Call.rightActive, Variable.any_isActive_seen]
      · exact hstaged.left_identifiers.trans (Variable.map_identifier_seen q c.left).symm
      · exact hstaged.right_identifiers.trans (Variable.map_identifier_seen q c.right).symm
    · rw [hf, Call.seen, if_pos hp]
      rfl
    · rw [hd, Call.seen, if_pos hp]
      simp only [Call.toRecord, Schema.dynamicCells, Schema.inputCells]
      rw [Schema.valueCells_seen traits _ _ q hstaged.left_active hp hstaged.left_identifiers
          hstaged.left_values,
        Schema.valueCells_seen traits _ _ q hstaged.right_active hp hstaged.right_identifiers
          hstaged.right_values]
      rfl

end Bytes

theorem Statement.Records.seen {traits : Traits} {token : Token} {records : List (Record F)}
    {p : Identifier → F} {st : Statement F} {e : Event F} (h : st.Records traits token records p e)
    (q : Identifier → F) : st.Records traits token records p (e.seen traits q) := by
  cases h with
  | elementary hid ho => exact .elementary hid ho
  | input hid hb ho => exact .input hid hb ho
  | product hr hc ho => exact .product hr (hc.seen q) (by simpa using ho)

end Autodiff
