import Autodiff.Proofs.RoundTrip

namespace Autodiff

variable {F : Type} [Scalar F]

variable (F) in
abbrev Datum := (ty : FieldType) × ty.Value F

namespace Datum

def cells (data : List (Datum F)) : List (Scalar.Cell F) := data.flatMap fun d => d.1.encode d.2

/-- The number that has the bits of a value. Only the layout of a real is not fixed. -/
def raw : Datum F → Datum F
  | ⟨.natural bytes, n⟩ => ⟨.natural bytes, n⟩
  | ⟨.integer bytes, i⟩ => ⟨.natural bytes, (i % Int.ofNat (Nat.pow 256 bytes)).toNat⟩
  | ⟨.single, x⟩ => ⟨.natural 4, x.toBits.toNat⟩
  | ⟨.double, x⟩ => ⟨.natural 8, x.toBits.toNat⟩
  | ⟨.flag, b⟩ => ⟨.natural 1, b.toNat⟩
  | ⟨.activity, a⟩ => ⟨.natural 4, a.mask⟩
  | ⟨.real, x⟩ => ⟨.real, x⟩

theorem encode_raw (d : Datum F) : d.raw.1.encode d.raw.2 = d.1.encode d.2 := by
  obtain ⟨ty, x⟩ := d
  cases ty <;> rfl

theorem cells_map_raw (data : List (Datum F)) : cells (data.map raw) = cells data := by
  rw [cells, List.flatMap_map]
  simp only [encode_raw]
  rfl

omit [Scalar F] in
theorem inRange_raw {d : Datum F} (h : d.1.InRange d.2) : d.raw.1.InRange d.raw.2 := by
  obtain ⟨ty, x⟩ := d
  cases ty with
  | natural => exact h
  | integer bytes =>
    have hpos : (0 : Int) < (256 ^ bytes : Nat) := by exact_mod_cast Nat.pow_pos (by decide)
    have hlt := Int.emod_lt_of_pos x hpos
    change (x % ((256 ^ bytes : Nat) : Int)).toNat < 256 ^ bytes
    omega
  | single => exact x.toBits.toNat_lt.trans_eq (by norm_num)
  | double => exact x.toBits.toNat_lt.trans_eq (by norm_num)
  | flag => exact x.toNat_lt.trans (by norm_num)
  | activity => exact h
  | real => trivial

end Datum

theorem FieldType.length_encode [LawfulCells F] (ty : FieldType) (x : ty.Value F) :
    (ty.encode x).length = ty.width F := by
  cases ty with
  | natural => exact length_ofDigits ..
  | integer => exact length_ofDigits ..
  | single => exact length_ofDigits ..
  | double => exact length_ofDigits ..
  | flag => rfl
  | activity => exact length_ofDigits ..
  | real => exact LawfulCells.length_encode x

inductive WriteCall (F : Type) where
  | value (ty : FieldType) (x : ty.Value F)
  | slice (ty : FieldType) (xs : List (ty.Value F))

namespace WriteCall

def size : WriteCall F → ℕ
  | value ty _ => ty.width F
  | slice ty xs => ty.width F * xs.length

def total (calls : List (WriteCall F)) : ℕ := (calls.map size).sum

structure Longest (room : ℕ) (done rest : List (WriteCall F)) : Prop where
  fits : total done ≤ room
  exceeds : ∀ c ∈ rest.head?, room < total (done ++ [c])

theorem total_cons (c : WriteCall F) (calls : List (WriteCall F)) :
    total (c :: calls) = c.size + total calls := List.sum_cons

theorem total_concat (calls : List (WriteCall F)) (c : WriteCall F) :
    total (calls ++ [c]) = total calls + c.size := by
  rw [total, List.map_append, List.sum_append]
  rfl

theorem exists_longest (room : ℕ) (calls : List (WriteCall F)) :
    ∃ done rest, calls = done ++ rest ∧ Longest room done rest := by
  induction calls generalizing room with
  | nil => exact ⟨[], [], rfl, Nat.zero_le _, fun c hc => (Option.not_mem_none c hc).elim⟩
  | cons c calls ih =>
    by_cases hc : c.size ≤ room
    · obtain ⟨done, rest, rfl, hfits, hexceeds⟩ := ih (room - c.size)
      refine ⟨c :: done, rest, rfl, ?_, fun d hd => ?_⟩
      · rw [total_cons]
        omega
      · have hd := hexceeds d hd
        rw [List.cons_append, total_cons]
        omega
    · refine ⟨[], c :: calls, rfl, Nat.zero_le _, ?_⟩
      rintro _ ⟨⟩
      exact not_le.mp hc

def data : WriteCall F → List (Datum F)
  | value ty x => [⟨ty, x⟩]
  | slice ty xs => xs.map (Sigma.mk ty)

def apply (w : Writer F) : WriteCall F → Except Fault (Writer F)
  | value ty x => w.write ty x
  | slice ty xs => w.writeMany ty xs

theorem apply_eq (w : Writer F) (c : WriteCall F) : c.apply w = w.put (Datum.cells c.data) := by
  cases c with
  | value ty x =>
    rw [Datum.cells, data, List.flatMap_singleton]
    rfl
  | slice ty xs =>
    rw [Datum.cells, data, List.flatMap_map]
    rfl

variable [LawfulCells F]

theorem length_cells_data (c : WriteCall F) : (Datum.cells c.data).length = c.size := by
  cases c with
  | value ty x =>
    rw [Datum.cells, data, List.flatMap_singleton]
    exact ty.length_encode x
  | slice ty xs =>
    induction xs with
    | nil => rfl
    | cons x xs ih =>
      rw [Datum.cells, data, size] at ih ⊢
      rw [List.map_cons, List.flatMap_cons, List.length_append, ih, ty.length_encode,
        List.length_cons, Nat.mul_succ, Nat.add_comm]

theorem length_cells (calls : List (WriteCall F)) :
    (Datum.cells (calls.flatMap data)).length = total calls := by
  induction calls with
  | nil => rfl
  | cons c calls ih =>
    rw [Datum.cells] at ih ⊢
    rw [List.flatMap_cons, List.flatMap_append, List.length_append, ih, ← Datum.cells,
      length_cells_data]
    rfl

end WriteCall

namespace Writer

def writeAll (w : Writer F) : List (WriteCall F) → Writer F × Option Fault
  | [] => (w, none)
  | c :: calls =>
    match c.apply w with
    | .ok w' => w'.writeAll calls
    | .error fault => (w, some fault)

def after (segment : String) (buffer written : List (Scalar.Cell F)) : Writer F :=
  ⟨segment, written ++ buffer.drop written.length, written.length⟩

variable {segment : String} {buffer written : List (Scalar.Cell F)}

theorem length_after (segment : String) (h : written.length ≤ buffer.length) :
    (after segment buffer written).cells.length = buffer.length := by
  rw [after, List.length_append, List.length_drop, Nat.add_sub_cancel' h]

theorem put_after (h : written.length ≤ buffer.length) (cells : List (Scalar.Cell F)) :
    (after segment buffer written).put cells =
      if (written ++ cells).length ≤ buffer.length then
        .ok (after segment buffer (written ++ cells))
      else .error (.fatal (.layoutMismatch segment buffer.length (written ++ cells).length)) := by
  rw [put, mismatch, length_after segment h, List.length_append]
  simp only [after, List.take_left, List.length_append, ← List.drop_drop, List.drop_left]

theorem finish_after (segment : String) (h : written.length ≤ buffer.length) :
    (after segment buffer written).finish =
      if written.length = buffer.length then .ok ()
      else .error (.fatal (.layoutMismatch segment buffer.length written.length)) := by
  rw [finish, mismatch, length_after segment h]
  rfl

variable [LawfulCells F] {c : WriteCall F} {done : List (WriteCall F)}

theorem writeAll_of_fits (segment : String)
    (h : written.length + WriteCall.total done ≤ buffer.length)
    (rest : List (WriteCall F)) : (after segment buffer written).writeAll (done ++ rest) =
      (after segment buffer (written ++ Datum.cells (done.flatMap WriteCall.data))).writeAll rest := by
  induction done generalizing written with
  | nil =>
    rw [List.nil_append, List.flatMap_nil, Datum.cells, List.flatMap_nil, List.append_nil]
  | cons c done ih =>
    rw [WriteCall.total_cons, ← Nat.add_assoc] at h
    have hput := c.apply_eq (after segment buffer written)
    have hlength : (written ++ Datum.cells c.data).length = written.length + c.size := by
      rw [List.length_append, c.length_cells_data]
    rw [put_after (by omega), hlength, if_pos (by omega)] at hput
    rw [List.cons_append, writeAll, hput]
    dsimp only
    rw [ih (hlength ▸ h), List.append_assoc, Datum.cells, Datum.cells, ← List.flatMap_append]
    rfl

theorem writeAll_of_exceeds (h : written.length ≤ buffer.length)
    (hc : buffer.length < written.length + c.size) (rest : List (WriteCall F)) :
    (after segment buffer written).writeAll (c :: rest) = (after segment buffer written,
      some (.fatal (.layoutMismatch segment buffer.length (written.length + c.size)))) := by
  have hput := c.apply_eq (after segment buffer written)
  rw [put_after h, List.length_append, c.length_cells_data, if_neg (not_le.mpr hc)] at hput
  rw [writeAll, hput]

end Writer

inductive ReadCall where
  | value (ty : FieldType)
  | slice (ty : FieldType) (count : ℕ)

namespace ReadCall

def types : ReadCall → List FieldType
  | value ty => [ty]
  | slice ty count => List.replicate count ty

def apply (r : Reader F) : ReadCall → Except Fault (List (Datum F) × Reader F)
  | value ty => do
    let (x, r) ← r.read ty
    return ([⟨ty, x⟩], r)
  | slice ty count => do
    let (xs, r) ← r.readMany ty count
    return (xs.map (Sigma.mk ty), r)

end ReadCall

namespace Reader

variable {r : Reader F} {segment : String} {buffer rest : List (Scalar.Cell F)}

def readAll (r : Reader F) : List ReadCall → Except Fault (List (Datum F) × Reader F)
  | [] => .ok ([], r)
  | c :: calls => do
    let (data, r) ← c.apply r
    let (more, r) ← r.readAll calls
    return (data ++ more, r)

structure Over (segment : String) (buffer rest : List (Scalar.Cell F)) (r : Reader F) : Prop where
  segment_eq : r.segment = segment
  cells_eq : r.cells = buffer
  at_rest : r.At rest

theorem over_new (segment : String) (buffer : List (Scalar.Cell F)) :
    (new segment buffer).Over segment buffer buffer := ⟨rfl, rfl, at_new segment buffer⟩

theorem keeps_of_take {s : List (Scalar.Cell F) × Reader F} {count : ℕ}
    (h : r.take count = .ok s) : s.2.segment = r.segment ∧ s.2.cells = r.cells := by
  rw [take] at h
  split at h
  · cases h
    exact ⟨rfl, rfl⟩
  · cases h

theorem keeps_of_apply {c : ReadCall} {s : List (Datum F) × Reader F} (h : c.apply r = .ok s) :
    s.2.segment = r.segment ∧ s.2.cells = r.cells := by
  cases c with
  | value ty =>
    obtain ⟨y, hread, h⟩ := exists_of_bind_eq_ok h
    obtain ⟨x, htake, hread⟩ := exists_of_bind_eq_ok hread
    cases hread
    cases h
    exact keeps_of_take htake
  | slice ty count =>
    obtain ⟨y, hread, h⟩ := exists_of_bind_eq_ok h
    obtain ⟨x, htake, hread⟩ := exists_of_bind_eq_ok hread
    cases hread
    cases h
    exact keeps_of_take htake

end Reader

omit [Scalar F] in
theorem Datum.exists_slice {ty : FieldType} {count : ℕ} {data : List (Datum F)}
    (h : List.replicate count ty = data.map Sigma.fst) :
    ∃ xs : List (ty.Value F), xs.length = count ∧ data = xs.map (Sigma.mk ty) := by
  induction count generalizing data with
  | zero => exact ⟨[], rfl, List.map_eq_nil_iff.mp h.symm⟩
  | succ count ih =>
    obtain ⟨d, data, rfl, hd, hdata⟩ := List.map_eq_cons_iff.mp h.symm
    obtain ⟨ty', x⟩ := d
    obtain rfl : ty' = ty := hd
    obtain ⟨xs, rfl, rfl⟩ := ih hdata.symm
    exact ⟨x :: xs, rfl, rfl⟩

namespace ReadCall

variable {r : Reader F} {data : List (Datum F)} {rest : List (Scalar.Cell F)} {c : ReadCall}

theorem apply_at (h : r.At (Datum.cells data ++ rest)) (htypes : c.types = data.map Sigma.fst)
    (hdata : ∀ d ∈ data, d.1.Faithful d.2) :
    Yields (c.apply r) fun s => s.1 = data ∧ s.2.At rest := by
  cases c with
  | value ty =>
    obtain ⟨xs, hlength, rfl⟩ := Datum.exists_slice (show List.replicate 1 ty = _ from htypes)
    obtain ⟨x, rfl⟩ := List.length_eq_one_iff.mp hlength
    rw [Datum.cells, List.map_singleton, List.flatMap_singleton] at h
    apply (h.read (hdata _ List.mem_cons_self)).bind
    rintro s ⟨hs, hrest⟩
    exact .ok ⟨by rw [hs]; rfl, hrest⟩
  | slice ty count =>
    obtain ⟨xs, rfl, rfl⟩ := Datum.exists_slice htypes
    rw [Datum.cells, List.flatMap_map] at h
    apply (h.readMany fun x hx => hdata _ (List.mem_map_of_mem hx)).bind
    rintro s ⟨hs, hrest⟩
    exact .ok ⟨by rw [hs], hrest⟩

theorem apply_over {segment : String} {buffer : List (Scalar.Cell F)}
    (h : r.Over segment buffer (Datum.cells data ++ rest))
    (htypes : c.types = data.map Sigma.fst) (hdata : ∀ d ∈ data, d.1.Faithful d.2) :
    Yields (c.apply r) fun s => s.1 = data ∧ s.2.Over segment buffer rest := by
  obtain ⟨s, hs, hresult, hat⟩ := apply_at h.at_rest htypes hdata
  have hkeeps := Reader.keeps_of_apply hs
  exact ⟨s, hs, hresult, hkeeps.1.trans h.segment_eq, hkeeps.2.trans h.cells_eq, hat⟩

end ReadCall

namespace Reader

variable {r : Reader F} {segment : String} {buffer rest : List (Scalar.Cell F)}
  {data : List (Datum F)}

theorem readAll_over {calls : List ReadCall} (h : r.Over segment buffer (Datum.cells data ++ rest))
    (htypes : calls.flatMap ReadCall.types = data.map Sigma.fst)
    (hdata : ∀ d ∈ data, d.1.Faithful d.2) :
    Yields (r.readAll calls) fun s => s.1 = data ∧ s.2.Over segment buffer rest := by
  induction calls generalizing r data with
  | nil =>
    obtain rfl := List.map_eq_nil_iff.mp htypes.symm
    exact .ok ⟨rfl, h⟩
  | cons c calls ih =>
    rw [List.flatMap_cons] at htypes
    obtain ⟨first, later, rfl, hfirst, hlater⟩ := List.map_eq_append_iff.mp htypes.symm
    rw [Datum.cells, List.flatMap_append, List.append_assoc] at h
    apply (ReadCall.apply_over h hfirst.symm fun d hd => hdata d (List.mem_append_left _ hd)).bind
    rintro ⟨_, r'⟩ ⟨rfl, h'⟩
    apply (ih h' hlater.symm fun d hd => hdata d (List.mem_append_right _ hd)).bind
    rintro ⟨_, r''⟩ ⟨rfl, h''⟩
    exact .ok ⟨rfl, h''⟩

theorem Over.finish_eq (h : r.Over segment buffer rest) {stop : ℕ}
    (hstop : stop + rest.length = buffer.length) :
    r.finish = if stop = buffer.length then .ok ()
      else .error (.fatal (.layoutMismatch segment buffer.length stop)) := by
  have hlength := h.at_rest.length_eq
  rw [h.cells_eq, ← hstop] at hlength
  have hposition : r.position = stop := (Nat.add_right_cancel hlength).symm
  rw [finish, mismatch, h.segment_eq, h.cells_eq, hposition]

def Returns (r : Reader F) (data : List (Datum F)) (ending : Except Fault Unit) : Prop :=
  ∀ calls : List ReadCall, calls.flatMap ReadCall.types = data.map Sigma.fst →
    Yields (r.readAll calls) fun s => s.1 = data ∧ s.2.finish = ending

theorem returns_of_inRange [LawfulCells F] (segment : String) (rest : List (Scalar.Cell F))
    (hdata : ∀ d ∈ data, d.1.InRange d.2) :
    (new segment (Datum.cells data ++ rest)).Returns data
      (if (Datum.cells data).length = (Datum.cells data ++ rest).length then .ok ()
        else .error (.fatal (.layoutMismatch segment (Datum.cells data ++ rest).length
          (Datum.cells data).length))) := by
  intro calls hcalls
  apply (readAll_over (over_new segment _) hcalls fun d hd =>
    FieldType.faithful_of_inRange (hdata d hd)).mono
  rintro s ⟨hresult, hover⟩
  exact ⟨hresult, hover.finish_eq List.length_append.symm⟩

end Reader

namespace Writer

variable [LawfulCells F] {segment : String} {buffer : List (Scalar.Cell F)}
  {done rest : List (WriteCall F)} {w : Writer F}

/-- The calls in front are accepted and change no cell behind them, and the next one is refused
without an effect. A reader then gives back what was written, as values or as bits. -/
structure Accepts (segment : String) (buffer : List (Scalar.Cell F)) (done rest : List (WriteCall F))
    (w : Writer F) : Prop where
  accepted : (Writer.mk segment buffer 0).writeAll done = (w, none)
  refused : (Writer.mk segment buffer 0).writeAll (done ++ rest) =
    (w, rest.head?.map fun c => .fatal (.layoutMismatch segment buffer.length
      (WriteCall.total (done ++ [c]))))
  length_eq : w.cells.length = buffer.length
  drop_eq : w.cells.drop (WriteCall.total done) = buffer.drop (WriteCall.total done)
  finish_eq : w.finish = if WriteCall.total done = buffer.length then .ok ()
    else .error (.fatal (.layoutMismatch segment buffer.length (WriteCall.total done)))
  returns : (∀ d ∈ done.flatMap WriteCall.data, d.1.InRange d.2) →
    (Reader.new segment w.cells).Returns (done.flatMap WriteCall.data) w.finish ∧
    (Reader.new segment w.cells).Returns ((done.flatMap WriteCall.data).map Datum.raw) w.finish

theorem accepts_longest (segment : String) (buffer : List (Scalar.Cell F))
    (calls : List (WriteCall F)) :
    (∃ done rest, calls = done ++ rest ∧ WriteCall.Longest buffer.length done rest) ∧
      ∀ done rest, calls = done ++ rest → WriteCall.Longest buffer.length done rest →
        ∃ w, Accepts segment buffer done rest w := by
  refine ⟨WriteCall.exists_longest buffer.length calls, ?_⟩
  rintro done rest rfl ⟨hfits, hexceeds⟩
  have hlength := WriteCall.length_cells done
  have hle : (Datum.cells (done.flatMap WriteCall.data)).length ≤ buffer.length := hlength ▸ hfits
  have hrun (rest : List (WriteCall F)) :=
    writeAll_of_fits segment (show ([] : List (Scalar.Cell F)).length + _ ≤ _ from
      (Nat.zero_add _).trans_le hfits) rest
  have hfinish := finish_after segment hle
  rw [hlength] at hfinish
  refine ⟨after segment buffer (Datum.cells (done.flatMap WriteCall.data)), ?_, ?_,
    length_after segment hle, ?_, hfinish, ?_⟩
  · have hdone := hrun []
    rw [List.append_nil] at hdone
    exact hdone
  · cases rest with
    | nil => exact hrun []
    | cons c rest =>
      have hc := hexceeds c rfl
      rw [WriteCall.total_concat, ← hlength] at hc
      refine (hrun (c :: rest)).trans ((writeAll_of_exceeds hle hc rest).trans ?_)
      rw [hlength, ← WriteCall.total_concat]
      rfl
  · rw [← hlength]
    exact List.drop_left
  · intro hdata
    have hraw : ∀ d ∈ (done.flatMap WriteCall.data).map Datum.raw, d.1.InRange d.2 := by
      intro e he
      obtain ⟨d, hd, rfl⟩ := List.mem_map.mp he
      exact Datum.inRange_raw (hdata d hd)
    have hcells := Datum.cells_map_raw (done.flatMap WriteCall.data)
    rw [hfinish, ← length_after segment hle, ← hlength]
    refine ⟨Reader.returns_of_inRange segment _ hdata, ?_⟩
    have hreturns := Reader.returns_of_inRange segment
      (buffer.drop (Datum.cells (done.flatMap WriteCall.data)).length) hraw
    rw [hcells] at hreturns
    exact hreturns

theorem accepts_longest_nine : ∃ w : Writer Float,
    (Writer.mk "fixed" (List.replicate 10 (Scalar.digit 7)) 0).writeAll [.value .flag true,
      .slice (.natural 2) [1, 513], .value (.integer 4) (-3), .value (.natural 4) 5] =
        (w, some (.fatal (.layoutMismatch "fixed" 10 13))) ∧
    w.cells = FieldType.ofDigits [1, 1, 0, 1, 2, 253, 255, 255, 255, 7] ∧
    w.finish = .error (.fatal (.layoutMismatch "fixed" 10 9)) ∧
    Yields ((Reader.new "fixed" w.cells).readAll [.value .flag, .value (.natural 2),
      .slice (.natural 2) 1, .slice (.integer 4) 1]) fun s =>
        s.1 = [⟨.flag, true⟩, ⟨.natural 2, (1 : ℕ)⟩, ⟨.natural 2, (513 : ℕ)⟩,
          ⟨.integer 4, (-3 : ℤ)⟩] ∧
        s.2.finish = w.finish := by
  obtain ⟨-, haccepts⟩ := accepts_longest (F := Float) "fixed" (List.replicate 10 (Scalar.digit 7))
    [.value .flag true, .slice (.natural 2) [1, 513], .value (.integer 4) (-3),
      .value (.natural 4) 5]
  obtain ⟨w, h⟩ := haccepts
    [.value .flag true, .slice (.natural 2) [1, 513], .value (.integer 4) (-3)]
    [.value (.natural 4) 5] rfl ⟨by decide, by rintro _ ⟨⟩; decide⟩
  refine ⟨w, h.refused, ?_, h.finish_eq, (h.returns ?_).1 _ rfl⟩
  · cases h.accepted
    rfl
  · simp only [WriteCall.data, List.flatMap_cons, List.map_cons, List.map_nil, List.flatMap_nil,
      List.cons_append, List.nil_append, List.forall_mem_cons, FieldType.InRange]
    norm_num

end Writer

end Autodiff
