import Autodiff.Proofs.SweepSteps

namespace Autodiff

variable {F : Type}

namespace Schema

def inputIds : (s : Schema F) → s.Record → List Identifier
  | done, _ => []
  | scalar _ next, r => (next r.1).inputIds r.2
  | input _ _ next, r => r.1.identifiers.items ++ next.inputIds r.2
  | output _ next, r => next.inputIds r.2

def outputIds : (s : Schema F) → s.Record → List Identifier
  | done, _ => []
  | scalar _ next, r => (next r.1).outputIds r.2
  | input _ _ next, r => next.outputIds r.2
  | output _ next, r => r.1.identifiers.items ++ next.outputIds r.2

end Schema

variable [Scalar F]

namespace Record

def reading (record : Record F) (traits : Traits) : Replay F where
  traits := traits
  fixed := .new "fixed" record.fixed
  dynamic := .new "dynamic" record.dynamic
  pool := .new
  vectors := .none
  notes := []

def restored (record : Record F) (traits : Traits) (s : Schema F) : Option s.Record :=
  match (s.restore traits).run (record.reading traits) with
  | .ok (r, _) => some r
  | .error _ => none

def factors (record : Record F) (traits : Traits) : List Identifier :=
  ((record.restored traits Product.schema).map (Product.schema.inputIds ·)).getD []

def results (record : Record F) (traits : Traits) : List Identifier :=
  ((record.restored traits Product.schema).map (Product.schema.outputIds ·)).getD []

theorem restored_of_fits [LawfulCells F] (record : Record F) (traits : Traits) {s : Schema F}
    {a : s.Record} (hfit : s.Fits a) (hf : record.fixed = s.fixedCells a)
    (hd : record.dynamic = s.dynamicCells traits a) :
    ∃ a', record.restored traits s = some a' ∧ s.Revived traits (fun _ => 0) a a' := by
  have hstands : (record.reading traits).Stands (record.reading traits) (s.fixedCells a ++ [])
      (s.dynamicCells traits a ++ []) 0 := by
    refine ⟨rfl, rfl, rfl, ?_, ?_, rfl⟩
    · rw [List.append_nil, ← hf]
      exact Reader.at_new _ _
    · rw [List.append_nil, ← hd]
      exact Reader.at_new _ _
  obtain ⟨⟨a', r⟩, hrun, hrevived, -⟩ := Schema.restore_ensures traits s a hfit hstands
  refine ⟨a', ?_, hrevived⟩
  rw [restored, hrun]

namespace Stores

variable [LawfulCells F] {traits : Traits} {token : Token} {record : Record F}
  {c : Product.Call F} {olds : List F}

theorem restored (h : record.Stores traits token c olds) :
    ∃ activity a b y, record.restored traits Product.schema = some (c.toRecord activity a b y) ∧
      a.identifiers.items = (if c.leftActive then c.left.map Variable.identifier else []) ∧
      b.identifiers.items = (if c.rightActive then c.right.map Variable.identifier else []) ∧
      y.identifiers.items = c.results := by
  obtain ⟨activity, a, b, y, hstaged, hf, hd⟩ := h.staged
  obtain ⟨rec, hsome, hrevived⟩ :=
    record.restored_of_fits traits (hstaged.fits h.fits h.length_olds) hf hd
  obtain ⟨_, rfl, _, rfl, _, rfl, _, rfl, ⟨a', b', y', _⟩, rfl, ha, -, hb, -, hy, -, -⟩ := hrevived
  refine ⟨activity, a', b', y', hsome, ?_, ?_, hy.trans hstaged.results⟩
  · rw [← hstaged.left_active, ← hstaged.left_identifiers]
    exact ha
  · rw [← hstaged.right_active, ← hstaged.right_identifiers]
    exact hb

theorem results_eq (h : record.Stores traits token c olds) : record.results traits = c.results := by
  obtain ⟨activity, a, b, y, hsome, -, -, hy⟩ := h.restored
  simp [results, hsome, Product.Call.toRecord, Schema.outputIds, hy]

theorem factors_eq (h : record.Stores traits token c olds) : record.factors traits =
    (if c.leftActive then c.left.map Variable.identifier else []) ++
      if c.rightActive then c.right.map Variable.identifier else [] := by
  obtain ⟨activity, a, b, y, hsome, ha, hb, -⟩ := h.restored
  simp [factors, hsome, Product.Call.toRecord, Schema.inputIds, ha, hb]

theorem mem_factors (h : record.Stores traits token c olds) {x : Variable F}
    (hx : x ∈ c.left ++ c.right) (hactive : x.isActive = true) :
    x.identifier ∈ record.factors traits := by
  rw [h.factors_eq, List.mem_append]
  rcases List.mem_append.mp hx with hx | hx
  · have hleft : c.leftActive = true := List.any_eq_true.mpr ⟨x, hx, hactive⟩
    rw [if_pos hleft]
    exact .inl (List.mem_map_of_mem hx)
  · have hright : c.rightActive = true := List.any_eq_true.mpr ⟨x, hx, hactive⟩
    rw [if_pos hright]
    exact .inr (List.mem_map_of_mem hx)

theorem exists_of_mem_factors (h : record.Stores traits token c olds) {id : Identifier}
    (hid : id ∈ record.factors traits) : ∃ x ∈ c.left ++ c.right, x.identifier = id := by
  rw [h.factors_eq, List.mem_append] at hid
  have hmem {active : Bool} {xs : List (Variable F)}
      (hid : id ∈ if active then xs.map Variable.identifier else []) :
      ∃ x ∈ xs, x.identifier = id := by
    cases active with
    | true => exact List.mem_map.mp hid
    | false => cases hid
  rcases hid with hid | hid
  · obtain ⟨x, hx, hid⟩ := hmem hid
    exact ⟨x, List.mem_append_left _ hx, hid⟩
  · obtain ⟨x, hx, hid⟩ := hmem hid
    exact ⟨x, List.mem_append_right _ hx, hid⟩

end Stores

end Record

namespace Event

def outputs : Event F → List Identifier
  | elementary id _ _ => [id]
  | input _ _ => []
  | product c => c.results

def Reads : Event F → Identifier → Prop
  | product c, id => ∃ x ∈ c.left ++ c.right, x.isActive = true ∧ x.identifier = id
  | _, _ => False

omit [Scalar F] in
theorem Reads.ne_passive {e : Event F} {id : Identifier} (h : e.Reads id) : id ≠ passive := by
  cases e with
  | elementary => exact h.elim
  | input => exact h.elim
  | product c =>
    obtain ⟨x, -, hactive, rfl⟩ := h
    simpa [Variable.isActive] using hactive

end Event

namespace Tape

def outputs (t : Tape F) (st : Statement F) : List Identifier :=
  match st.kind with
  | .elementary => [st.output]
  | .input => []
  | .external k => (t.records[k]?.map (·.results t.traits)).getD []

def overwritten (t : Tape F) (st : Statement F) : List Identifier :=
  match st.kind with
  | .input => [st.output]
  | _ => t.outputs st

def factors (t : Tape F) (st : Statement F) : List Identifier :=
  match st.kind with
  | .external k => (t.records[k]?.map (·.factors t.traits)).getD []
  | _ => []

def LeavesFactors (t : Tape F) (earlier later : List (Statement F)) : Prop :=
  t.traits.rollsBack = true → ∀ st ∈ earlier, ∀ st' ∈ later,
    ∀ id ∈ t.overwritten st', id ∈ t.factors st → id = passive

instance (t : Tape F) (earlier later : List (Statement F)) :
    Decidable (t.LeavesFactors earlier later) :=
  inferInstanceAs (Decidable (_ → _))

section Records

variable [LawfulCells F] {t : Tape F} {token : Token} {p : Identifier → F} {st : Statement F}
  {e : Event F}

theorem outputs_eq (h : st.Records t.traits token t.records p e) : t.outputs st = e.outputs := by
  cases h with
  | elementary => rfl
  | input => rfl
  | product hr hc => simp [outputs, hr, hc.results_eq, Event.outputs]

theorem overwritten_eq (h : st.Records t.traits token t.records p e) :
    t.overwritten st = e.writes.map Prod.fst := by
  cases h with
  | elementary => rfl
  | input => rfl
  | product hr hc =>
    rw [Event.writes, hc.fits.map_fst_zip]
    simp [overwritten, outputs, hr, hc.results_eq]

theorem mem_factors (h : st.Records t.traits token t.records p e) {id : Identifier}
    (hid : e.Reads id) : id ∈ t.factors st := by
  cases h with
  | elementary => exact hid.elim
  | input => exact hid.elim
  | product hr hc =>
    obtain ⟨x, hx, hactive, rfl⟩ := hid
    simpa [factors, hr] using hc.mem_factors hx hactive

theorem reads_of_mem_factors (h : st.Records t.traits token t.records p e) {id : Identifier}
    (hid : id ∈ t.factors st) (hne : id ≠ passive) : e.Reads id := by
  cases h with
  | elementary => cases hid
  | input => cases hid
  | product hr hc =>
    simp only [factors, hr, Option.map_some, Option.getD_some] at hid
    obtain ⟨x, hx, rfl⟩ := hc.exists_of_mem_factors hid
    exact ⟨x, hx, by simpa [Variable.isActive] using hne, rfl⟩

end Records

end Tape

end Autodiff
