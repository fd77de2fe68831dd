import Autodiff.Proofs.Layout
import Autodiff.Proofs.Scatter

namespace Autodiff

variable {F : Type} [Scalar F]

namespace Pool

theorem returnIdentifiers_yields {pool : Pool F} (b : Buffer Identifier) {lent : Nat}
    (h : pool.lent = lent + 1) : Yields (pool.returnIdentifiers b) (·.lent = lent) :=
  ⟨_, by rw [returnIdentifiers, if_neg (by omega)], by simp [trackPeak, h]⟩

theorem returnValues_yields {pool : Pool F} (b : Buffer F) {lent : Nat}
    (h : pool.lent = lent + 1) : Yields (pool.returnValues b) (·.lent = lent) :=
  ⟨_, by rw [returnValues, if_neg (by omega)], by simp [trackPeak, h]⟩

end Pool

/-- A replay that differs from `base` in its readers and its pool only, and where these stand. -/
structure Replay.Stands (r base : Replay F) (fixed dynamic : List (Scalar.Cell F)) (lent : Nat) :
    Prop where
  traits_eq : r.traits = base.traits
  vectors_eq : r.vectors = base.vectors
  notes_eq : r.notes = base.notes
  fixed_at : r.fixed.At fixed
  dynamic_at : r.dynamic.At dynamic
  lent_eq : r.pool.lent = lent

namespace Program

variable {r base : Replay F} {fixed dynamic : List (Scalar.Cell F)} {lent : Nat}

theorem read_fixed_ensures {ty : FieldType} {x : ty.Value F}
    (h : r.Stands base (ty.encode x ++ fixed) dynamic lent) (hx : ty.Faithful x) :
    (act (.read .fixed ty)).Ensures r fun y r' => y = x ∧ r'.Stands base fixed dynamic lent :=
  ensures_act <| (h.fixed_at.read hx).bind fun _ hs => .ok
    ⟨hs.1, h.traits_eq, h.vectors_eq, h.notes_eq, hs.2, h.dynamic_at, h.lent_eq⟩

theorem read_dynamic_ensures {ty : FieldType} {x : ty.Value F}
    (h : r.Stands base fixed (ty.encode x ++ dynamic) lent) (hx : ty.Faithful x) :
    (act (.read .dynamic ty)).Ensures r fun y r' => y = x ∧ r'.Stands base fixed dynamic lent :=
  ensures_act <| (h.dynamic_at.read hx).bind fun _ hs => .ok
    ⟨hs.1, h.traits_eq, h.vectors_eq, h.notes_eq, h.fixed_at, hs.2, h.lent_eq⟩

theorem readMany_dynamic_ensures {ty : FieldType} {xs : List (ty.Value F)}
    (h : r.Stands base fixed (xs.flatMap ty.encode ++ dynamic) lent)
    (hx : ∀ x ∈ xs, ty.Faithful x) :
    (act (.readMany .dynamic ty xs.length)).Ensures r fun ys r' =>
      ys = xs ∧ r'.Stands base fixed dynamic lent :=
  ensures_act <| (h.dynamic_at.readMany hx).bind fun _ hs => .ok
    ⟨hs.1, h.traits_eq, h.vectors_eq, h.notes_eq, h.fixed_at, hs.2, h.lent_eq⟩

theorem lendIdentifiers_ensures (n : Nat) (h : r.Stands base fixed dynamic lent) :
    (act (.lendIdentifiers n)).Ensures r fun b r' =>
      b.items = List.replicate n passive ∧ r'.Stands base fixed dynamic (lent + 1) :=
  ensures_act <| .ok ⟨rfl, h.traits_eq, h.vectors_eq, h.notes_eq, h.fixed_at, h.dynamic_at,
    congrArg (· + 1) h.lent_eq⟩

theorem lendValues_ensures (n : Nat) (h : r.Stands base fixed dynamic lent) :
    (act (.lendValues n)).Ensures r fun b r' =>
      b.items = List.replicate n 0 ∧ r'.Stands base fixed dynamic (lent + 1) :=
  ensures_act <| .ok ⟨rfl, h.traits_eq, h.vectors_eq, h.notes_eq, h.fixed_at, h.dynamic_at,
    congrArg (· + 1) h.lent_eq⟩

theorem lendStaged_ensures (i v g o : Nat) (h : r.Stands base fixed dynamic lent) :
    (lendStaged i v g o).Ensures r fun a r' =>
      a.values.items = List.replicate v 0 ∧ r'.Stands base fixed dynamic (lent + 4) := by
  refine (lendIdentifiers_ensures i h).bind fun ids r₁ h₁ => ?_
  refine (lendValues_ensures v h₁.2).bind fun vs r₂ h₂ => ?_
  refine (lendValues_ensures g h₂.2).bind fun gs r₃ h₃ => ?_
  refine (lendValues_ensures o h₃.2).bind fun os r₄ h₄ => ?_
  exact ensures_pure ⟨h₂.1, h₄.2⟩

theorem returnIdentifiers_ensures (b : Buffer Identifier)
    (h : r.Stands base fixed dynamic (lent + 1)) :
    (act (.returnIdentifiers b)).Ensures r fun _ r' => r'.Stands base fixed dynamic lent := by
  have hreturn := Pool.returnIdentifiers_yields b h.lent_eq
  exact ensures_act (hreturn.bind fun pool hp => .ok
    ⟨h.traits_eq, h.vectors_eq, h.notes_eq, h.fixed_at, h.dynamic_at, hp⟩)

theorem returnValues_ensures (b : Buffer F) (h : r.Stands base fixed dynamic (lent + 1)) :
    (act (.returnValues b)).Ensures r fun _ r' => r'.Stands base fixed dynamic lent := by
  have hreturn := Pool.returnValues_yields b h.lent_eq
  exact ensures_act (hreturn.bind fun pool hp => .ok
    ⟨h.traits_eq, h.vectors_eq, h.notes_eq, h.fixed_at, h.dynamic_at, hp⟩)

theorem reclaim_ensures (a : Staged F) (h : r.Stands base fixed dynamic (lent + 4)) :
    (reclaim a).Ensures r fun _ r' => r'.Stands base fixed dynamic lent := by
  refine (returnIdentifiers_ensures a.identifiers h).bind fun _ r₁ h₁ => ?_
  refine (returnValues_ensures a.values h₁).bind fun _ r₂ h₂ => ?_
  refine (returnValues_ensures a.gradients h₂).bind fun _ r₃ h₃ => ?_
  exact returnValues_ensures a.oldValues h₃

theorem reclaimAll_ensures (as : List (Staged F))
    (h : r.Stands base fixed dynamic (4 * as.length + lent)) :
    (reclaimAll as).Ensures r fun _ r' => r'.Stands base fixed dynamic lent := by
  induction as generalizing r with
  | nil => exact ensures_pure (by simpa using h)
  | cons a as ih =>
    rw [List.length_cons, show 4 * (as.length + 1) + lent = 4 * as.length + lent + 4 by omega] at h
    exact (reclaim_ensures a h).bind fun _ r' h' => ih h'

theorem finish_fixed_ensures (h : r.Stands base [] dynamic lent) :
    (act (.finish .fixed)).Ensures r fun _ r' => r'.Stands base [] dynamic lent := by
  refine ensures_act ⟨((), r), ?_, h⟩
  change ((r.fixed.finish) >>= fun _ => Except.ok ((), r)) = _
  rw [h.fixed_at.finish]
  rfl

theorem finish_dynamic_ensures (h : r.Stands base fixed [] lent) :
    (act (.finish .dynamic)).Ensures r fun _ r' => r'.Stands base fixed [] lent := by
  refine ensures_act ⟨((), r), ?_, h⟩
  change ((r.dynamic.finish) >>= fun _ => Except.ok ((), r)) = _
  rw [h.dynamic_at.finish]
  rfl

theorem finishBoth_ensures (h : r.Stands base [] [] lent) :
    finishBoth.Ensures r fun _ r' => r'.Stands base [] [] lent :=
  (finish_fixed_ensures h).bind fun _ _ h' => finish_dynamic_ensures h'

end Program

namespace Schema

open Program (act ensures_act ensures_pure)

section Restore

variable {r base : Replay F} {fixed dynamic : List (Scalar.Cell F)} {lent : Nat}

def revivedValues (fill : Identifier → F) (a : Staged F) : Origin → List F
  | .absent => []
  | .written => a.values.items
  | .primalVector =>
    a.identifiers.items.zipWith (fun id x => if id = passive then x else fill id) a.values.items

def Revived (traits : Traits) (fill : Identifier → F) : (s : Schema F) → s.Record → s.Record → Prop
  | done, _, _ => True
  | scalar _ next, r, r' => ∃ rest, r' = ⟨r.1, rest⟩ ∧ (next r.1).Revived traits fill r.2 rest
  | input _ use next, r, r' =>
    r'.1.identifiers.items = (if use.active then r.1.identifiers.items else []) ∧
      r'.1.values.items = revivedValues fill r.1 (use.origin traits) ∧
      next.Revived traits fill r.2 r'.2
  | output _ next, r, r' =>
    r'.1.identifiers.items = r.1.identifiers.items ∧
      r'.1.oldValues.items = (if traits.rollsBack then r.1.oldValues.items else []) ∧
      next.Revived traits fill r.2 r'.2

omit [Scalar F] in
theorem Revived.length_arrays {traits : Traits} {fill : Identifier → F} {s : Schema F}
    {a a' : s.Record} (h : s.Revived traits fill a a') :
    (s.arrays a').length = (s.arrays a).length := by
  induction s with
  | done => rfl
  | scalar ty next ih =>
    obtain ⟨rest, rfl, hrest⟩ := h
    exact ih _ hrest
  | input n use next ih => exact congrArg (· + 1) (ih h.2.2)
  | output n next ih => exact congrArg (· + 1) (ih h.2.2)

variable [LawfulCells F]

theorem restorePassive_ensures (ids : List Identifier) (xs : List F) (hl : ids.length = xs.length)
    (h : r.Stands base fixed (passiveCells ids xs ++ dynamic) lent) :
    (restorePassive ids).Ensures r fun ys r' =>
      ys = ids.zipWith (fun id x => if id = passive then x else 0) xs ∧
        r'.Stands base fixed dynamic lent := by
  induction ids generalizing r xs with
  | nil => exact ensures_pure ⟨rfl, by simpa [passiveCells] using h⟩
  | cons id ids ih =>
    cases xs with
    | nil => simp at hl
    | cons x xs =>
      have hl' : ids.length = xs.length := by simpa using hl
      rw [passiveCells, List.append_assoc] at h
      rw [restorePassive]
      by_cases hid : id = passive
      · rw [if_pos hid] at h ⊢
        refine (Program.read_dynamic_ensures h (FieldType.real_faithful x)).bind fun y r₁ h₁ => ?_
        refine (ih xs hl' h₁.2).bind fun ys r₂ h₂ => ensures_pure ⟨?_, h₂.2⟩
        rw [h₁.1, h₂.1, List.zipWith_cons_cons, if_pos hid]
      · rw [if_neg hid] at h ⊢
        refine (ih xs hl' h).bind fun ys r₁ h₁ => ensures_pure ⟨?_, h₁.2⟩
        rw [h₁.1, List.zipWith_cons_cons, if_neg hid]

theorem restoreValues_ensures (n : Nat) (a b : Staged F) (origin : Origin)
    (hi : a.identifiers.items.length = n) (hv : a.values.items.length = n)
    (hb : origin = .primalVector → b.identifiers.items = a.identifiers.items)
    (hb' : origin = .absent → b.values.items = [])
    (h : r.Stands base fixed (valueCells n a origin ++ dynamic) lent) :
    Program.Ensures (match origin with
      | .absent => return b
      | .written => do
        let xs ← act (.readMany .dynamic .real n)
        return b.withValues xs
      | .primalVector => do
        let xs ← restorePassive b.identifiers.items
        return b.withValues xs) r fun a' r' =>
      a'.identifiers = b.identifiers ∧ a'.values.items = revivedValues (fun _ => 0) a origin ∧
        r'.Stands base fixed dynamic lent := by
  cases origin with
  | absent => exact ensures_pure ⟨rfl, hb' rfl, h⟩
  | written =>
    simp only [valueCells, List.take_of_length_le hv.le] at h
    have hread := Program.readMany_dynamic_ensures h fun x _ => FieldType.real_faithful x
    rw [hv] at hread
    exact hread.bind fun xs r' h' => ensures_pure ⟨rfl, h'.1, h'.2⟩
  | primalVector =>
    simp only [valueCells, List.take_of_length_le hv.le, List.take_of_length_le hi.le] at h
    rw [hb rfl]
    refine (restorePassive_ensures _ _ (hi.trans hv.symm) h).bind fun xs r' h' => ?_
    exact ensures_pure ⟨rfl, h'.1, h'.2⟩

theorem restoreInput_ensures (traits : Traits) (n : Nat) (use : InputRole) (a : Staged F)
    (hi : a.identifiers.items.length = n) (hv : a.values.items.length = n)
    (h : r.Stands base fixed (inputCells traits n use a ++ dynamic) lent) :
    (restoreInput traits n use).Ensures r fun a' r' =>
      a'.identifiers.items = (if use.active then a.identifiers.items else []) ∧
        a'.values.items = revivedValues (fun _ => 0) a (use.origin traits) ∧
        r'.Stands base fixed dynamic (lent + 4) := by
  rw [inputCells, List.append_assoc, List.take_of_length_le hi.le] at h
  rw [restoreInput]
  refine (Program.lendStaged_ensures _ _ _ _ h).bind fun b r₁ h₁ => ?_
  have habsent : use.origin traits = .absent → b.values.items = [] := by
    intro ho
    have hk : use.keepsValues traits = false := by
      by_contra hk
      simp only [InputRole.origin, Bool.not_eq_false] at ho hk
      grind
    simp [h₁.1, hk]
  cases hu : use.active with
  | true =>
    simp only [hu, if_true] at h₁ ⊢
    have hread := Program.readMany_dynamic_ensures h₁.2 fun x _ => FieldType.natural_faithful 3 x
    rw [hi] at hread
    refine hread.bind fun ids r₂ h₂ => ?_
    refine (restoreValues_ensures n a { b with identifiers := b.identifiers.fill ids } _ hi hv
      (fun _ => h₂.1) habsent h₂.2).mono ?_
    exact fun a' r' h' => ⟨(congrArg Buffer.items h'.1).trans h₂.1, h'.2⟩
  | false =>
    simp only [hu, Bool.false_eq_true, if_false, List.nil_append] at h₁ ⊢
    have hp : use.origin traits ≠ .primalVector := by
      simp only [InputRole.origin]
      grind
    refine (restoreValues_ensures n a { b with identifiers := b.identifiers.fill [] } _ hi hv
      (fun ho => absurd ho hp) habsent h₁.2).mono ?_
    exact fun a' r' h' => ⟨congrArg Buffer.items h'.1, h'.2⟩

theorem restoreOutput_ensures (traits : Traits) (n : Nat) (a : Staged F)
    (hi : a.identifiers.items.length = n) (ho : a.oldValues.items.length = n)
    (h : r.Stands base fixed (outputCells traits n a ++ dynamic) lent) :
    (restoreOutput traits n).Ensures r fun a' r' =>
      a'.identifiers.items = a.identifiers.items ∧
        a'.oldValues.items = (if traits.rollsBack then a.oldValues.items else []) ∧
        r'.Stands base fixed dynamic (lent + 4) := by
  rw [outputCells, List.append_assoc, List.take_of_length_le hi.le,
    List.take_of_length_le ho.le] at h
  rw [restoreOutput]
  refine (Program.lendStaged_ensures _ _ _ _ h).bind fun b r₁ h₁ => ?_
  have hids := Program.readMany_dynamic_ensures h₁.2 fun x _ => FieldType.natural_faithful 3 x
  rw [hi] at hids
  refine hids.bind fun ids r₂ h₂ => ?_
  have holds : r₂.Stands base fixed ((if traits.rollsBack then a.oldValues.items else []).flatMap
      FieldType.real.encode ++ dynamic) (lent + 4) := by
    cases hb : traits.rollsBack <;> simpa [hb] using h₂.2
  have hold := Program.readMany_dynamic_ensures holds fun x _ => FieldType.real_faithful x
  have hlen : (if traits.rollsBack then a.oldValues.items else []).length =
      if traits.rollsBack then n else 0 := by
    split <;> simp [ho]
  rw [hlen] at hold
  exact hold.bind fun os r₃ h₃ => ensures_pure ⟨h₂.1, h₃⟩

theorem restore_ensures (traits : Traits) (s : Schema F) (a : s.Record) (hfit : s.Fits a)
    (h : r.Stands base (s.fixedCells a ++ fixed) (s.dynamicCells traits a ++ dynamic) lent) :
    (s.restore traits).Ensures r fun a' r' =>
      s.Revived traits (fun _ => 0) a a' ∧
        r'.Stands base fixed dynamic (4 * (s.arrays a).length + lent) := by
  induction s generalizing r lent with
  | done => exact ensures_pure ⟨trivial, by simpa [arrays, fixedCells, dynamicCells] using h⟩
  | scalar ty next ih =>
    rw [fixedCells, List.append_assoc] at h
    refine (Program.read_fixed_ensures h hfit.1).bind fun x r₁ h₁ => ?_
    obtain ⟨rfl, h₁⟩ := h₁
    exact (ih _ a.2 hfit.2 h₁).bind fun rest r₂ h₂ => ensures_pure ⟨⟨rest, rfl, h₂.1⟩, h₂.2⟩
  | input n use next ih =>
    rw [dynamicCells, List.append_assoc] at h
    refine (restoreInput_ensures traits n use a.1 hfit.1 hfit.2.1 h).bind fun b r₁ h₁ => ?_
    refine (ih a.2 hfit.2.2 h₁.2.2).bind fun rest r₂ h₂ => ?_
    refine ensures_pure ⟨⟨h₁.1, h₁.2.1, h₂.1⟩, ?_⟩
    simpa only [arrays, List.length_cons, Nat.mul_add, Nat.add_assoc, Nat.add_comm lent] using h₂.2
  | output n next ih =>
    rw [dynamicCells, List.append_assoc] at h
    refine (restoreOutput_ensures traits n a.1 hfit.1 hfit.2.1 h).bind fun b r₁ h₁ => ?_
    refine (ih a.2 hfit.2.2 h₁.2.2).bind fun rest r₂ h₂ => ?_
    refine ensures_pure ⟨⟨h₁.1, h₁.2.1, h₂.1⟩, ?_⟩
    simpa only [arrays, List.length_cons, Nat.mul_add, Nat.add_assoc, Nat.add_comm lent] using h₂.2

end Restore

section Upkeep

variable {r base : Replay F} {fixed dynamic : List (Scalar.Cell F)} {lent : Nat}

theorem fetch_ensures (ids : List Identifier) (xs : List F) (hl : ids.length = xs.length)
    (h : r.Stands base fixed dynamic lent) :
    (fetch ids xs).Ensures r fun ys r' =>
      ys = ids.zipWith (fun id x => if id = passive then x else base.vectors.primal id) xs ∧
        r'.Stands base fixed dynamic lent := by
  induction ids generalizing xs with
  | nil =>
    obtain rfl := List.length_eq_zero_iff.mp hl.symm
    exact ensures_pure ⟨rfl, h⟩
  | cons id ids ih =>
    cases xs with
    | nil => simp at hl
    | cons x xs =>
      have hl' : ids.length = xs.length := by simpa using hl
      rw [fetch]
      have hact : (act (.primal id)).Ensures r fun y r' =>
          y = base.vectors.primal id ∧ r' = r :=
        ensures_act (.ok ⟨congrArg (·.primal id) h.vectors_eq, rfl⟩)
      by_cases hid : id = passive
      · rw [if_pos hid]
        refine (ih xs hl').bind fun ys r₁ h₁ => ensures_pure ⟨?_, h₁.2⟩
        rw [h₁.1, List.zipWith_cons_cons, if_pos hid]
      · rw [if_neg hid]
        refine hact.bind fun y r' hy => ?_
        obtain ⟨rfl, rfl⟩ := hy
        refine (ih xs hl').bind fun ys r₁ h₁ => ensures_pure ⟨?_, h₁.2⟩
        rw [h₁.1, List.zipWith_cons_cons, if_neg hid]

omit [Scalar F] in
theorem zipWith_passive (ids : List Identifier) (xs : List F) (f g : Identifier → F) :
    ids.zipWith (fun id x => if id = passive then x else g id)
        (ids.zipWith (fun id x => if id = passive then x else f id) xs) =
      ids.zipWith (fun id x => if id = passive then x else g id) xs := by
  induction ids generalizing xs with
  | nil => rfl
  | cons id ids ih =>
    cases xs with
    | nil => rfl
    | cons x xs =>
      simp only [List.zipWith_cons_cons, ih]
      by_cases hid : id = passive <;> simp [hid]

theorem fetchInput_ensures (traits : Traits) (n : Nat) (use : InputRole) (a a' : Staged F)
    (hi : a.identifiers.items.length = n) (hv : a.values.items.length = n)
    (hids : a'.identifiers.items = if use.active then a.identifiers.items else [])
    (hvals : a'.values.items = revivedValues (fun _ => 0) a (use.origin traits))
    (h : r.Stands base fixed dynamic lent) :
    (fetchInput traits use a').Ensures r fun b r' =>
      b.identifiers.items = (if use.active then a.identifiers.items else []) ∧
        b.values.items = revivedValues base.vectors.primal a (use.origin traits) ∧
        r'.Stands base fixed dynamic lent := by
  rw [fetchInput]
  cases ho : use.origin traits with
  | absent => exact ensures_pure ⟨hids, by rw [hvals, ho]; rfl, h⟩
  | written => exact ensures_pure ⟨hids, by rw [hvals, ho]; rfl, h⟩
  | primalVector =>
    have hu : use.active = true := by
      simp only [InputRole.origin] at ho
      grind
    rw [hu, if_pos rfl] at hids
    rw [ho] at hvals
    have hl : a'.identifiers.items.length = a'.values.items.length := by
      rw [hids, hvals, revivedValues, List.length_zipWith, hi, hv, Nat.min_self]
    refine (fetch_ensures _ _ hl h).bind fun xs r' h' => ensures_pure ⟨?_, ?_, h'.2⟩
    · rw [hu, if_pos rfl]
      exact hids
    · change xs = _
      rw [h'.1, hvals, hids, revivedValues, zipWith_passive]
      rfl

theorem fetchPrimals_ensures (traits : Traits) (s : Schema F) (a a' : s.Record) (hfit : s.Fits a)
    (ha : s.Revived traits (fun _ => 0) a a') (h : r.Stands base fixed dynamic lent) :
    (s.fetchPrimals traits a').Ensures r fun b r' =>
      s.Revived traits base.vectors.primal a b ∧ r'.Stands base fixed dynamic lent := by
  induction s generalizing r with
  | done => exact ensures_pure ⟨trivial, h⟩
  | scalar ty next ih =>
    obtain ⟨rest, rfl, hrest⟩ := ha
    refine (ih _ a.2 rest hfit.2 hrest h).bind fun b r' h' => ensures_pure ?_
    exact ⟨⟨b, rfl, h'.1⟩, h'.2⟩
  | input n use next ih =>
    refine (fetchInput_ensures traits n use a.1 a'.1 hfit.1 hfit.2.1 ha.1 ha.2.1 h).bind ?_
    intro b r₁ h₁
    refine (ih a.2 a'.2 hfit.2.2 ha.2.2 h₁.2.2).bind fun c r₂ h₂ => ensures_pure ?_
    exact ⟨⟨h₁.1, h₁.2.1, h₂.1⟩, h₂.2⟩
  | output n next ih =>
    refine (ih a.2 a'.2 hfit.2.2 ha.2.2 h).bind fun c r₂ h₂ => ensures_pure ?_
    exact ⟨⟨ha.1, ha.2.1, h₂.1⟩, h₂.2⟩

theorem setPrimals_ensures (ids : List Identifier) (xs : List F)
    (h : r.Stands base fixed dynamic lent) :
    (setPrimals ids xs).Ensures r fun _ r' =>
      r'.Stands (base.withVectors (base.vectors.writePrimals (ids.zip xs))) fixed dynamic lent := by
  induction ids generalizing r base xs with
  | nil => exact ensures_pure (by rwa [List.zip_nil_left, Vectors.writePrimals_nil])
  | cons id ids ih =>
    cases xs with
    | nil => exact ensures_pure (by rwa [List.zip_nil_right, Vectors.writePrimals_nil])
    | cons x xs =>
      rw [List.zip_cons_cons, ← Vectors.setPrimal_writePrimals]
      refine Program.Ensures.bind (Q := fun _ r' =>
        r'.Stands (base.withVectors (base.vectors.setPrimal id x)) fixed dynamic lent)
        (ensures_act (.ok ?_)) fun _ r' h' => ih xs h'
      exact ⟨h.traits_eq, congrArg (·.setPrimal id x) h.vectors_eq, h.notes_eq, h.fixed_at,
        h.dynamic_at, h.lent_eq⟩

def undone : (s : Schema F) → s.Record → Vectors F → Vectors F
  | done, _, v => v
  | scalar _ next, r, v => (next r.1).undone r.2 v
  | input _ _ next, r, v => next.undone r.2 v
  | output _ next, r, v =>
    next.undone r.2 (v.writePrimals (r.1.identifiers.items.zip r.1.oldValues.items))

theorem rollBack_ensures (traits : Traits) (fill : Identifier → F) (s : Schema F)
    (a a' : s.Record) (hb : traits.rollsBack = true) (ha : s.Revived traits fill a a')
    (h : r.Stands base fixed dynamic lent) :
    (s.rollBack a').Ensures r fun _ r' =>
      r'.Stands (base.withVectors (s.undone a base.vectors)) fixed dynamic lent := by
  induction s generalizing r base with
  | done => exact ensures_pure h
  | scalar ty next ih =>
    obtain ⟨rest, rfl, hrest⟩ := ha
    exact ih _ a.2 rest hrest h
  | input n use next ih => exact ih a.2 a'.2 ha.2.2 h
  | output n next ih =>
    have hids := ha.1
    have hold := ha.2.1
    rw [hb, if_pos rfl] at hold
    rw [rollBack, hids, hold]
    exact (setPrimals_ensures _ _ h).bind fun _ r' h' => ih a.2 a'.2 ha.2.2 h'

theorem release_ensures (s : Schema F) (a : s.Record)
    (h : r.Stands base fixed dynamic (4 * (s.arrays a).length)) :
    (s.release a).Ensures r fun _ r' => r'.Stands base fixed dynamic 0 := by
  rw [release]
  have h₀ : r.Stands base fixed dynamic (4 * (s.arrays a).length + 0) := h
  refine (Program.reclaimAll_ensures (s.arrays a) h₀).bind fun _ r₁ h₁ => ?_
  refine Program.Ensures.bind (Q := fun idle r' => idle = true ∧ r' = r₁)
    (ensures_act (.ok ⟨?_, rfl⟩)) fun idle r' hr => ?_
  · simp [Pool.isIdle, h₁.lent_eq]
  · obtain ⟨rfl, rfl⟩ := hr
    exact ensures_pure h₁

end Upkeep

/-- The first part of a reverse replay: it reads the record back, and puts back the primal values
that the outputs overwrote. -/
def rewind (s : Schema F) : Program F (Traits × s.Record) := do
  let traits ← act .traits
  let r ← s.restore traits
  Program.finishBoth
  if traits.rollsBack then s.rollBack r
  return (traits, r)

section Callback

variable [LawfulCells F] {s : Schema F} {a : s.Record} {r : Replay F}
  {body : s.Record → Program F s.Record} {v : Vectors F}

theorem forward_ensures (hfit : s.Fits a) (hidle : r.pool.lent = 0)
    (hf : r.fixed.At (s.fixedCells a)) (hd : r.dynamic.At (s.dynamicCells r.traits a))
    (hbody : ∀ a' r', s.Revived r.traits r.vectors.primal a a' →
      r'.Stands r [] [] (4 * (s.arrays a).length) →
      (body a').Ensures r' fun b r'' =>
        r''.Stands (r.withVectors v) [] [] (4 * (s.arrays b).length)) :
    (s.forward body).Ensures r fun _ r' => r'.Stands (r.withVectors v) [] [] 0 := by
  have h : r.Stands r (s.fixedCells a ++ []) (s.dynamicCells r.traits a ++ []) 0 :=
    ⟨rfl, rfl, rfl, by simpa using hf, by simpa using hd, hidle⟩
  rw [forward]
  refine Program.Ensures.bind (Q := fun traits r' => traits = r.traits ∧ r' = r)
    (ensures_act (.ok ⟨rfl, rfl⟩)) fun traits r₀ hr => ?_
  obtain ⟨rfl, rfl⟩ := hr
  refine (restore_ensures _ s a hfit h).bind fun a₁ r₁ h₁ => ?_
  refine (Program.finishBoth_ensures h₁.2).bind fun _ r₂ h₂ => ?_
  refine (fetchPrimals_ensures _ s a a₁ hfit h₁.1 h₂).bind fun a₂ r₃ h₃ => ?_
  refine (hbody a₂ r₃ h₃.1 h₃.2).bind fun b r₄ h₄ => ?_
  exact release_ensures s b h₄

omit [LawfulCells F] in
theorem reverse_eq (s : Schema F) (body : s.Record → Program F s.Record) :
    s.reverse body = s.rewind >>= fun x =>
      s.fetchPrimals x.1 x.2 >>= fun r => body r >>= s.release := by
  have assoc {α β γ : Type} (p : Program F α) (f : α → Program F β) (g : β → Program F γ) :
      p >>= f >>= g = p >>= fun x => f x >>= g := Program.bind_assoc p f g
  rw [reverse, rewind, assoc]
  congr 1
  funext traits
  rw [assoc]
  congr 1
  funext a
  rw [assoc]
  congr 1
  funext _
  cases traits.rollsBack with
  | true => exact (assoc (s.rollBack a) (fun _ => pure (traits, a)) fun x =>
      s.fetchPrimals x.1 x.2 >>= fun r => body r >>= s.release).symm
  | false => rfl

theorem rewind_ensures (hfit : s.Fits a) (hidle : r.pool.lent = 0)
    (hf : r.fixed.At (s.fixedCells a)) (hd : r.dynamic.At (s.dynamicCells r.traits a)) :
    s.rewind.Ensures r fun x r' => x.1 = r.traits ∧ s.Revived r.traits (fun _ => 0) a x.2 ∧
      r'.Stands (r.withVectors (if r.traits.rollsBack then s.undone a r.vectors else r.vectors))
        [] [] (4 * (s.arrays a).length) := by
  have h : r.Stands r (s.fixedCells a ++ []) (s.dynamicCells r.traits a ++ []) 0 :=
    ⟨rfl, rfl, rfl, by simpa using hf, by simpa using hd, hidle⟩
  rw [rewind]
  refine Program.Ensures.bind (Q := fun traits r' => traits = r.traits ∧ r' = r)
    (ensures_act (.ok ⟨rfl, rfl⟩)) fun traits r₀ hr => ?_
  obtain ⟨rfl, rfl⟩ := hr
  refine (restore_ensures _ s a hfit h).bind fun a₁ r₁ h₁ => ?_
  refine (Program.finishBoth_ensures h₁.2).bind fun _ r₂ h₂ => ?_
  by_cases hb : r₀.traits.rollsBack = true
  · rw [if_pos hb, if_pos hb]
    refine (rollBack_ensures _ _ s a a₁ hb h₁.1 h₂).bind fun _ r₃ h₃ => ?_
    exact ensures_pure ⟨rfl, h₁.1, h₃⟩
  · rw [if_neg hb, if_neg hb]
    exact ensures_pure ⟨rfl, h₁.1, h₂⟩

theorem reverse_ensures_of {Q : Replay F → Prop} (hfit : s.Fits a) (hidle : r.pool.lent = 0)
    (hf : r.fixed.At (s.fixedCells a)) (hd : r.dynamic.At (s.dynamicCells r.traits a))
    (hbody : ∀ a' r' base, base = r.withVectors
        (if r.traits.rollsBack then s.undone a r.vectors else r.vectors) →
      s.Revived r.traits base.vectors.primal a a' →
      r'.Stands base [] [] (4 * (s.arrays a).length) →
      (body a').Ensures r' fun b r'' =>
        ∃ base', Q base' ∧ r''.Stands base' [] [] (4 * (s.arrays b).length)) :
    (s.reverse body).Ensures r fun _ r' => ∃ base', Q base' ∧ r'.Stands base' [] [] 0 := by
  rw [reverse_eq]
  refine (rewind_ensures hfit hidle hf hd).bind ?_
  rintro ⟨traits, a₁⟩ r₁ ⟨rfl, hrevived, h₁⟩
  refine (fetchPrimals_ensures _ s a a₁ hfit hrevived h₁).bind fun a₂ r₂ h₂ => ?_
  refine (hbody a₂ r₂ _ rfl h₂.1 h₂.2).bind fun b r₃ h₃ => ?_
  obtain ⟨base', hQ, h₃⟩ := h₃
  exact (release_ensures s b h₃).mono fun _ r' h' => ⟨base', hQ, h'⟩

theorem reverse_ensures (hfit : s.Fits a) (hidle : r.pool.lent = 0)
    (hf : r.fixed.At (s.fixedCells a)) (hd : r.dynamic.At (s.dynamicCells r.traits a))
    (hbody : ∀ a' r' base, base = r.withVectors
        (if r.traits.rollsBack then s.undone a r.vectors else r.vectors) →
      s.Revived r.traits base.vectors.primal a a' →
      r'.Stands base [] [] (4 * (s.arrays a).length) →
      (body a').Ensures r' fun b r'' =>
        r''.Stands (r.withVectors v) [] [] (4 * (s.arrays b).length)) :
    (s.reverse body).Ensures r fun _ r' => r'.Stands (r.withVectors v) [] [] 0 := by
  refine (reverse_ensures_of (Q := (· = r.withVectors v)) hfit hidle hf hd ?_).mono ?_
  · intro a' r' base hbase hrevived h
    exact (hbody a' r' base hbase hrevived h).mono fun b r'' h' => ⟨_, rfl, h'⟩
  · rintro _ r' ⟨base', rfl, h'⟩
    exact h'

end Callback

end Schema

end Autodiff
