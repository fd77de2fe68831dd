import Autodiff.Kernel.Scaling
import Autodiff.Proofs.ExactScalar
import Autodiff.Proofs.ProductRecording

namespace Autodiff

namespace FieldType

variable {F : Type} [Scalar F]

def InRange : (ty : FieldType) → ty.Value F → Prop
  | natural bytes, n => n < 256 ^ bytes
  | integer bytes, i => -((256 ^ bytes : Nat) : Int) ≤ 2 * i ∧ 2 * i < (256 ^ bytes : Nat)
  | activity, a => a.mask < 256 ^ 4
  | single, _ => True
  | double, _ => True
  | flag, _ => True
  | real, _ => True

variable [LawfulCells F]

theorem decode_ofDigits (bytes n : Nat) (h : n < 256 ^ bytes) :
    Digits.toNat (toDigits (ofDigits (Digits.ofNat bytes n) : List (Scalar.Cell F))) = n := by
  rw [toDigits_ofDigits]
  cases bytes with
  | zero =>
    rw [Nat.lt_one_iff.mp h]
    rfl
  | succ k => exact Digits.toNat_ofNat k n

omit [LawfulCells F] in
theorem length_ofDigits (bytes n : Nat) :
    (ofDigits (Digits.ofNat bytes n) : List (Scalar.Cell F)).length = bytes := by
  rw [ofDigits, List.length_map, Digits.length_ofNat]

theorem bmod_emod_toNat {bytes : Nat} {i : Int} (hlo : -((256 ^ bytes : Nat) : Int) ≤ 2 * i)
    (hhi : 2 * i < (256 ^ bytes : Nat)) :
    Int.bmod (i % ((256 ^ bytes : Nat) : Int)).toNat (256 ^ bytes) = i := by
  have hpos : (0 : Int) < (256 ^ bytes : Nat) := by exact_mod_cast Nat.pow_pos (by decide)
  rw [Int.toNat_of_nonneg (Int.emod_nonneg i hpos.ne'), Int.emod_bmod]
  exact Int.bmod_eq_of_le (by omega) (by omega)

theorem faithful_of_inRange {ty : FieldType} {x : ty.Value F} (h : ty.InRange x) :
    ty.Faithful x := by
  cases ty with
  | natural bytes => exact ⟨length_ofDigits bytes x, decode_ofDigits bytes x h⟩
  | integer bytes =>
    refine ⟨length_ofDigits bytes _, ?_⟩
    have hpos : (0 : Int) < (256 ^ bytes : Nat) := by exact_mod_cast Nat.pow_pos (by decide)
    have hlt : (x % ((256 ^ bytes : Nat) : Int)).toNat < 256 ^ bytes := by
      have := Int.emod_lt_of_pos x hpos
      omega
    change Int.bmod (Digits.toNat (toDigits (ofDigits (Digits.ofNat bytes
      (x % ((256 ^ bytes : Nat) : Int)).toNat) : List (Scalar.Cell F)))) (256 ^ bytes) = x
    rw [decode_ofDigits bytes _ hlt]
    exact bmod_emod_toNat h.1 h.2
  | single =>
    refine ⟨length_ofDigits 4 _, ?_⟩
    change Float32.ofBits (UInt32.ofNat (Digits.toNat (toDigits (ofDigits _)))) = x
    rw [decode_ofDigits 4 _ x.toBits.toNat_lt, UInt32.ofNat_toNat, Float32.ofBits_toBits]
  | double =>
    refine ⟨length_ofDigits 8 _, ?_⟩
    change Float.ofBits (UInt64.ofNat (Digits.toNat (toDigits (ofDigits _)))) = x
    rw [decode_ofDigits 8 _ x.toBits.toNat_lt, UInt64.ofNat_toNat, Float.ofBits_toBits]
  | flag =>
    refine ⟨rfl, ?_⟩
    change (Digits.toNat (toDigits (ofDigits [x.toNat] : List (Scalar.Cell F))) != 0) = x
    rw [toDigits_ofDigits]
    cases x <;> rfl
  | activity => exact activity_faithful x
  | real => exact real_faithful x

end FieldType

namespace Schema

variable {F : Type} [Scalar F]

def Declared : (s : Schema F) → s.Record → Prop
  | done, _ => True
  | scalar ty next, a => ty.InRange a.1 ∧ (next a.1).Declared a.2
  | input n _ next, a =>
    a.1.identifiers.items.length = n ∧ a.1.values.items.length = n ∧ next.Declared a.2
  | output n next, a =>
    a.1.identifiers.items.length = n ∧ a.1.oldValues.items.length = n ∧ next.Declared a.2

theorem Declared.fits [LawfulCells F] {s : Schema F} {a : s.Record} (h : s.Declared a) :
    s.Fits a := by
  induction s with
  | done => trivial
  | scalar ty next ih => exact ⟨FieldType.faithful_of_inRange h.1, ih _ h.2⟩
  | input n use next ih => exact ⟨h.1, h.2.1, ih h.2.2⟩
  | output n next ih => exact ⟨h.1, h.2.1, ih h.2.2⟩

omit [Scalar F] in
def heldValues (traits : Traits) (use : InputRole) (fill : Identifier → F) (a : Staged F) : List F :=
  a.identifiers.items.zipWith
    (fun id x => if traits.hasPrimals ∧ use.active ∧ id ≠ passive then fill id else x)
    a.values.items

/-- What the second record has of the first one: all scalars, the identifiers of all outputs and
active inputs, the old values of outputs that roll back, and the values that are needed. -/
def Rebuilt (traits : Traits) (fill : Identifier → F) : (s : Schema F) → s.Record → s.Record → Prop
  | done, _, _ => True
  | scalar _ next, a, b => ∃ rest, b = ⟨a.1, rest⟩ ∧ (next a.1).Rebuilt traits fill a.2 rest
  | input _ use next, a, b =>
    b.1.identifiers.items = (if use.active then a.1.identifiers.items else []) ∧
      b.1.values.items =
        (if use.valuesNeeded ∨ traits.hasPrimals then heldValues traits use fill a.1 else []) ∧
      next.Rebuilt traits fill a.2 b.2
  | output _ next, a, b =>
    b.1.identifiers.items = a.1.identifiers.items ∧
      b.1.oldValues.items =
        (if traits.hasPrimals ∧ ¬traits.linear then a.1.oldValues.items else []) ∧
      next.Rebuilt traits fill a.2 b.2

omit [Scalar F] in
theorem heldValues_of_stored {traits : Traits} {use : InputRole} (fill : Identifier → F)
    {a : Staged F} (hl : a.identifiers.items.length = a.values.items.length)
    (h : ¬(traits.hasPrimals ∧ use.active)) :
    heldValues traits use fill a = a.values.items := by
  have hstored (id : Identifier) (x : F) :
      (if traits.hasPrimals ∧ use.active ∧ id ≠ passive then fill id else x) = x :=
    if_neg fun hid => h ⟨hid.1, hid.2.1⟩
  simp only [heldValues, hstored]
  rw [← List.map_uncurry_zip_eq_zipWith]
  exact List.map_snd_zip hl.ge

omit [Scalar F] in
theorem revivedValues_origin (traits : Traits) (use : InputRole) (fill : Identifier → F)
    {a : Staged F} (hl : a.identifiers.items.length = a.values.items.length) :
    revivedValues fill a (use.origin traits) =
      if use.valuesNeeded ∨ traits.hasPrimals then heldValues traits use fill a else [] := by
  by_cases hneeded : use.valuesNeeded = true ∨ traits.hasPrimals = true
  · have hkeeps : use.keepsValues traits = true := by simpa [InputRole.keepsValues] using hneeded
    rw [if_pos hneeded, InputRole.origin]
    by_cases hprimal : traits.hasPrimals = true ∧ use.active = true
    · simp only [hkeeps, hprimal, revivedValues, heldValues]
      simp
    · simp only [hkeeps, Bool.not_true, Bool.and_eq_true, hprimal, if_false]
      rw [heldValues_of_stored fill hl hprimal]
      rfl
  · have hkeeps : use.keepsValues traits = false := by
      simpa [InputRole.keepsValues] using hneeded
    simp [InputRole.origin, hkeeps, hneeded, revivedValues]

omit [Scalar F] in
theorem Revived.rebuilt {traits : Traits} {fill : Identifier → F} {s : Schema F} {a b : s.Record}
    (ha : s.Declared a) (h : s.Revived traits fill a b) : s.Rebuilt traits fill a b := by
  induction s with
  | done => exact h
  | scalar ty next ih =>
    obtain ⟨rest, rfl, hrest⟩ := h
    exact ⟨rest, rfl, ih _ ha.2 hrest⟩
  | input n use next ih =>
    refine ⟨h.1, ?_, ih ha.2.2 h.2.2⟩
    rw [h.2.1, revivedValues_origin traits use fill (ha.1.trans ha.2.1.symm)]
  | output n next ih =>
    refine ⟨h.1, ?_, ih ha.2.2 h.2.2⟩
    rw [h.2.1]
    simp [Traits.rollsBack]

theorem round_trip [LawfulCells F] (traits : Traits) (s : Schema F) (a : s.Record)
    (ha : s.Declared a) :
    ∃ fixed dynamic : List (Scalar.Cell F),
      fixed.length = s.fixedSize a ∧ dynamic.length = s.dynamicSize traits a ∧
      (∀ (t : Tape F) (kernels : Kernels F) (token : Token), t.traits = traits →
        kernels token ≠ none →
        t.writeRecord kernels token s a = .ok (t.withRecord ⟨token, fixed, dynamic⟩)) ∧
      ∀ r : Replay F, r.fixed = .new "fixed" fixed → r.dynamic = .new "dynamic" dynamic →
        ∃ (restored fetched : s.Record) (r' r'' : Replay F),
          (s.restore traits).run r = .ok (restored, r') ∧
          r'.fixed.finish = .ok () ∧ r'.dynamic.finish = .ok () ∧
          s.Rebuilt traits (fun _ => 0) a restored ∧
          (s.fetchPrimals traits restored).run r' = .ok (fetched, r'') ∧
          s.Rebuilt traits r.vectors.primal a fetched := by
  have hfit := ha.fits
  refine ⟨s.fixedCells a, s.dynamicCells traits a, length_fixedCells s a hfit,
    length_dynamicCells traits s a hfit, ?_, ?_⟩
  · rintro t kernels token rfl hk
    obtain ⟨kernel, hkernel⟩ := Option.ne_none_iff_exists'.mp hk
    exact Tape.writeRecord_eq t hkernel s a hfit
  · intro r hf hd
    have hstands : r.Stands r (s.fixedCells a ++ []) (s.dynamicCells traits a ++ [])
        r.pool.lent := by
      refine ⟨rfl, rfl, rfl, ?_, ?_, rfl⟩
      · rw [hf, List.append_nil]
        exact Reader.at_new ..
      · rw [hd, List.append_nil]
        exact Reader.at_new ..
    obtain ⟨⟨restored, r'⟩, hrestore, hrevived, h'⟩ := restore_ensures traits s a hfit hstands
    obtain ⟨⟨fetched, r''⟩, hfetch, hfetched, -⟩ :=
      fetchPrimals_ensures traits s a restored hfit hrevived h'
    exact ⟨restored, fetched, r', r'', hrestore, h'.fixed_at.finish, h'.dynamic_at.finish,
      hrevived.rebuilt ha, hfetch, hfetched.rebuilt ha⟩

def scaled : (Scaling.schema (F := Int)).Record :=
  ⟨⟨1⟩, 2, 3, ⟨⟨[1, 0], 2⟩, ⟨[5, 7], 2⟩, ⟨[], 0⟩, ⟨[], 0⟩⟩,
    ⟨⟨[2, 3], 2⟩, ⟨[15, 21], 2⟩, ⟨[], 0⟩, ⟨[8, 9], 2⟩⟩, ()⟩

theorem round_trip_scaled :
    ∃ fixed dynamic : List (Scalar.Cell Int), fixed.length = 9 ∧ dynamic.length = 19 ∧
      (∀ (t : Tape Int) (kernels : Kernels Int) (token : Token), t.traits = ⟨true, false⟩ →
        kernels token ≠ none →
        t.writeRecord kernels token Scaling.schema scaled =
          .ok (t.withRecord ⟨token, fixed, dynamic⟩)) ∧
      ∀ r : Replay Int, r.fixed = .new "fixed" fixed → r.dynamic = .new "dynamic" dynamic →
        ∃ (restored fetched : (Scaling.schema (F := Int)).Record) (r' r'' : Replay Int),
          (Scaling.schema.restore ⟨true, false⟩).run r = .ok (restored, r') ∧
          r'.fixed.finish = .ok () ∧ r'.dynamic.finish = .ok () ∧
          (Scaling.schema.fetchPrimals ⟨true, false⟩ restored).run r' = .ok (fetched, r'') ∧
          ∃ x y : Staged Int, fetched = ⟨⟨1⟩, 2, 3, x, y, ()⟩ ∧ x.identifiers.items = [1, 0] ∧
            x.values.items = [r.vectors.primal 1, 7] ∧ y.identifiers.items = [2, 3] ∧
            y.oldValues.items = [8, 9] := by
  obtain ⟨fixed, dynamic, hfixed, hdynamic, hwrite, hread⟩ := round_trip ⟨true, false⟩
    Scaling.schema scaled
    ⟨show 1 < 256 ^ 4 by decide, show 2 < 256 ^ 4 by decide, trivial, rfl, rfl, rfl, rfl, trivial⟩
  refine ⟨fixed, dynamic, hfixed, hdynamic, hwrite, fun r hf hd => ?_⟩
  obtain ⟨restored, fetched, r', r'', hrestore, hf', hd', -, hfetch, hfetched⟩ := hread r hf hd
  obtain ⟨_, rfl, _, rfl, _, rfl, hids, hvalues, houts, holds, -⟩ := hfetched
  exact ⟨restored, _, r', r'', hrestore, hf', hd', hfetch, _, _, rfl, hids, hvalues, houts, holds⟩

end Schema

end Autodiff
