import Autodiff.Proofs.Arrays

namespace Autodiff

theorem Tiles.getLast?_stop {ss : List Span} {start stop : Nat} (h : Tiles ss start stop) :
    (ss.getLast?.map Span.stop).getD start = stop := by
  induction ss generalizing start with
  | nil => exact h
  | cons s ss ih =>
    rw [List.getLast?_cons, Option.map_some, Option.getD_some, ← ih h.2.2]
    cases ss.getLast? <;> rfl

theorem Tiles.endOf_eq {ss : List Span} {stop : Nat} (h : Tiles ss 0 stop) :
    Arrays.endOf ss = stop := h.getLast?_stop

theorem Span.read?_append {α : Type} (xs ys zs : List α) :
    Span.read? ⟨xs.length, xs.length + ys.length⟩ (xs ++ ys ++ zs) = some ys := by
  have hstop : xs.length + ys.length ≤ (xs ++ ys ++ zs).length := by simp
  rw [read?, if_pos ⟨Nat.le_add_right .., hstop⟩, ← List.length_append, List.take_left,
    List.drop_left]

namespace Contents

section Log

variable {F : Type}

def argumentCount (log : List (Statement F)) : Nat := (log.flatMap Statement.arguments).length

def entriesFrom (start : Nat) : List (Statement F) → List LogEntry
  | [] => []
  | st :: log =>
    ⟨st.output, start + st.arguments.length, st.kind⟩ ::
      entriesFrom (start + st.arguments.length) log

theorem length_entriesFrom (start : Nat) (log : List (Statement F)) :
    (entriesFrom start log).length = log.length := by
  induction log generalizing start with
  | nil => rfl
  | cons st log ih => simp [entriesFrom, ih]

theorem entriesFrom_append (start : Nat) (log log' : List (Statement F)) :
    entriesFrom start (log ++ log') =
      entriesFrom start log ++ entriesFrom (start + argumentCount log) log' := by
  induction log generalizing start with
  | nil => rfl
  | cons st log ih => simp [entriesFrom, ih, argumentCount, Nat.add_assoc]

theorem take_entriesFrom (start n : Nat) (log : List (Statement F)) :
    (entriesFrom start log).take n = entriesFrom start (log.take n) := by
  induction log generalizing start n with
  | nil => simp [entriesFrom]
  | cons st log ih =>
    cases n with
    | zero => rfl
    | succ n => simp [entriesFrom, ih]

theorem getElem?_entriesFrom (start n : Nat) (log : List (Statement F)) :
    (entriesFrom start log)[n]? =
      log[n]?.map fun st => ⟨st.output, start + argumentCount (log.take (n + 1)), st.kind⟩ := by
  induction log generalizing start n with
  | nil => rfl
  | cons st log ih =>
    cases n with
    | zero => simp [entriesFrom, argumentCount]
    | succ n =>
      rw [entriesFrom, List.getElem?_cons_succ, ih]
      simp [argumentCount, Nat.add_assoc]

theorem filterMap_entriesFrom (start : Nat) (log : List (Statement F)) :
    (entriesFrom start log).filterMap (·.kind.record?) = log.filterMap (·.kind.record?) := by
  induction log generalizing start with
  | nil => rfl
  | cons st log ih => simp only [entriesFrom, List.filterMap_cons, ih]

theorem isChain_stops (start : Nat) (log : List (Statement F)) :
    (start :: (entriesFrom start log).map LogEntry.stop).IsChain (· ≤ ·) := by
  induction log generalizing start with
  | nil => exact List.isChain_singleton start
  | cons st log ih => exact .cons_cons (Nat.le_add_right ..) (ih _)

theorem stop_le_of_mem_entriesFrom {start : Nat} {log : List (Statement F)} {e : LogEntry}
    (he : e ∈ entriesFrom start log) : e.stop ≤ start + argumentCount log := by
  induction log generalizing start with
  | nil => cases he
  | cons st log ih =>
    have hcount : argumentCount (st :: log) = st.arguments.length + argumentCount log := by
      simp [argumentCount]
    rcases List.mem_cons.mp he with rfl | he
    · simp only
      omega
    · have := ih he
      omega

end Log

variable {F : Type} [Scalar F]

def extentsFrom (fixed dynamic : Nat) : List (Record F) → List Extent
  | [] => []
  | r :: rs =>
    ⟨r.token, ⟨fixed, fixed + r.fixed.length⟩, ⟨dynamic, dynamic + r.dynamic.length⟩⟩ ::
      extentsFrom (fixed + r.fixed.length) (dynamic + r.dynamic.length) rs

theorem length_extentsFrom (fixed dynamic : Nat) (rs : List (Record F)) :
    (extentsFrom fixed dynamic rs).length = rs.length := by
  induction rs generalizing fixed dynamic with
  | nil => rfl
  | cons r rs ih => simp [extentsFrom, ih]

theorem extentsFrom_append (fixed dynamic : Nat) (rs rs' : List (Record F)) :
    extentsFrom fixed dynamic (rs ++ rs') = extentsFrom fixed dynamic rs ++
      extentsFrom (fixed + (rs.flatMap Record.fixed).length)
        (dynamic + (rs.flatMap Record.dynamic).length) rs' := by
  induction rs generalizing fixed dynamic with
  | nil => simp [extentsFrom]
  | cons r rs ih => simp [extentsFrom, ih, Nat.add_assoc]

theorem take_extentsFrom (fixed dynamic n : Nat) (rs : List (Record F)) :
    (extentsFrom fixed dynamic rs).take n = extentsFrom fixed dynamic (rs.take n) := by
  induction rs generalizing fixed dynamic n with
  | nil => simp [extentsFrom]
  | cons r rs ih =>
    cases n with
    | zero => rfl
    | succ n => simp [extentsFrom, ih]

theorem tiles_extentsFrom (fixed dynamic : Nat) (rs : List (Record F)) :
    Tiles ((extentsFrom fixed dynamic rs).map Extent.fixed) fixed
        (fixed + (rs.flatMap Record.fixed).length) ∧
      Tiles ((extentsFrom fixed dynamic rs).map Extent.dynamic) dynamic
        (dynamic + (rs.flatMap Record.dynamic).length) := by
  induction rs generalizing fixed dynamic with
  | nil => exact ⟨rfl, rfl⟩
  | cons r rs ih =>
    obtain ⟨hfixed, hdynamic⟩ := ih (fixed + r.fixed.length) (dynamic + r.dynamic.length)
    simp only [List.flatMap_cons, List.length_append, ← Nat.add_assoc]
    exact ⟨⟨rfl, Nat.le_add_right .., hfixed⟩, rfl, Nat.le_add_right .., hdynamic⟩

theorem tiles_extents (rs : List (Record F)) :
    Tiles ((extentsFrom 0 0 rs).map Extent.fixed) 0 (rs.flatMap Record.fixed).length ∧
      Tiles ((extentsFrom 0 0 rs).map Extent.dynamic) 0 (rs.flatMap Record.dynamic).length := by
  have h := tiles_extentsFrom 0 0 rs
  rwa [Nat.zero_add, Nat.zero_add] at h

def allArguments (c : Contents F) : List (Identifier × F) :=
  c.log.flatMap Statement.arguments ++ c.pending

def packed (hasPrimals : Bool) (c : Contents F) : Arrays F where
  entries := .sentinel :: entriesFrom 0 c.log
  weights := c.allArguments.map Prod.snd
  arguments := c.allArguments.map Prod.fst
  overwrites :=
    if hasPrimals then ⟨0, 0⟩ :: c.log.map fun st => st.overwrite.getD ⟨0, 0⟩ else []
  externals := extentsFrom 0 0 c.records
  fixedData := c.records.flatMap Record.fixed
  dynamicData := c.records.flatMap Record.dynamic

section Read

variable {hasPrimals : Bool} {c : Contents F}

theorem record?_packed (hasPrimals : Bool) (c : Contents F) (k : Nat) :
    (c.packed hasPrimals).record? k = c.records[k]? := by
  by_cases hk : k < c.records.length
  · obtain ⟨before, r, after, hrecords, rfl⟩ : ∃ before r after,
        c.records = before ++ [r] ++ after ∧ before.length = k :=
      ⟨c.records.take k, c.records[k], c.records.drop (k + 1), by simp, by simp [hk.le]⟩
    have hextent : (c.packed hasPrimals).externals[before.length]? = some ⟨r.token,
        ⟨(before.flatMap Record.fixed).length,
          (before.flatMap Record.fixed).length + r.fixed.length⟩,
        ⟨(before.flatMap Record.dynamic).length,
          (before.flatMap Record.dynamic).length + r.dynamic.length⟩⟩ := by
      simp [packed, hrecords, extentsFrom_append, extentsFrom, length_extentsFrom]
    have hfixed : (c.packed hasPrimals).fixedData = before.flatMap Record.fixed ++ r.fixed ++
        after.flatMap Record.fixed := by simp [packed, hrecords]
    have hdynamic : (c.packed hasPrimals).dynamicData = before.flatMap Record.dynamic ++
        r.dynamic ++ after.flatMap Record.dynamic := by simp [packed, hrecords]
    simp only [Arrays.record?, hextent, hfixed, hdynamic, Option.bind_eq_bind, Option.bind_some,
      Span.read?_append, hrecords]
    simp
  · have hextent : (c.packed hasPrimals).externals[k]? = none := by
      rw [List.getElem?_eq_none_iff, packed, length_extentsFrom]
      exact not_lt.mp hk
    rw [Arrays.record?, hextent, List.getElem?_eq_none (not_lt.mp hk)]
    rfl

theorem getElem?_packed_entries (hasPrimals : Bool) {n : Nat} {st : Statement F}
    (h : c.log[n]? = some st) : (c.packed hasPrimals).entries[n + 1]? =
      some ⟨st.output, argumentCount (c.log.take (n + 1)), st.kind⟩ := by
  rw [packed, List.getElem?_cons_succ, getElem?_entriesFrom, h, Option.map_some, Nat.zero_add]

theorem exists_stop (hasPrimals : Bool) {n : Nat} (hn : n ≤ c.log.length) :
    ∃ e, (c.packed hasPrimals).entries[n]? = some e ∧
      e.stop = argumentCount (c.log.take n) := by
  cases n with
  | zero => exact ⟨.sentinel, rfl, rfl⟩
  | succ n => exact ⟨_, getElem?_packed_entries hasPrimals (List.getElem?_eq_getElem hn), rfl⟩

theorem Regular.getElem?_overwrites (h : c.Regular hasPrimals) {n : Nat} {st : Statement F}
    (hst : c.log[n]? = some st) : (c.packed hasPrimals).overwrites[n + 1]? = st.overwrite := by
  have hsome := h.isSome_overwrite st (List.mem_of_getElem? hst)
  cases ho : st.overwrite with
  | none =>
    rw [ho] at hsome
    simp [packed, ← hsome]
  | some o =>
    rw [ho] at hsome
    simp [packed, ← hsome, hst, ho]

theorem read?_allArguments {α : Type} (f : Identifier × F → α) {n : Nat} {st : Statement F}
    (hst : c.log[n]? = some st) :
    Span.read? ⟨argumentCount (c.log.take n), argumentCount (c.log.take (n + 1))⟩
      (c.allArguments.map f) = some (st.arguments.map f) := by
  have htake : c.log.take (n + 1) = c.log.take n ++ [st] := by
    rw [List.take_add_one, hst]
    rfl
  have hall : c.allArguments = (c.log.take n).flatMap Statement.arguments ++ st.arguments ++
      ((c.log.drop (n + 1)).flatMap Statement.arguments ++ c.pending) := by
    rw [allArguments]
    conv_lhs => rw [← List.take_append_drop (n + 1) c.log, htake]
    simp
  have hcount : argumentCount (c.log.take (n + 1)) =
      argumentCount (c.log.take n) + st.arguments.length := by simp [htake, argumentCount]
  have happend := Span.read?_append (((c.log.take n).flatMap Statement.arguments).map f)
    (st.arguments.map f) (((c.log.drop (n + 1)).flatMap Statement.arguments ++ c.pending).map f)
  rwa [List.length_map, List.length_map, ← List.map_append, ← List.map_append, ← hall,
    ← argumentCount, ← hcount] at happend

theorem Regular.statement?_packed (h : c.Regular hasPrimals) (n : Nat) :
    (c.packed hasPrimals).statement? n = c.log[n]? := by
  by_cases hn : n < c.log.length
  · obtain ⟨st, hst⟩ : ∃ st, c.log[n]? = some st := ⟨_, List.getElem?_eq_getElem hn⟩
    obtain ⟨e, he, hstop⟩ := c.exists_stop hasPrimals hn.le
    have harguments : Span.read? ⟨argumentCount (c.log.take n), argumentCount (c.log.take (n + 1))⟩
      (c.packed hasPrimals).arguments = _ := read?_allArguments Prod.fst hst
    have hweights : Span.read? ⟨argumentCount (c.log.take n), argumentCount (c.log.take (n + 1))⟩
      (c.packed hasPrimals).weights = _ := read?_allArguments Prod.snd hst
    simp only [Arrays.statement?, he, getElem?_packed_entries hasPrimals hst, hstop, harguments,
      hweights, h.getElem?_overwrites hst, Option.bind_eq_bind, Option.bind_some, hst,
      ← List.zip_of_prod rfl rfl]
    rfl
  · have hentry : (c.packed hasPrimals).entries[n + 1]? = none := by
      rw [List.getElem?_eq_none_iff, packed, List.length_cons, length_entriesFrom]
      omega
    rw [Arrays.statement?, hentry, List.getElem?_eq_none (not_lt.mp hn)]
    cases (c.packed hasPrimals).entries[n]? <;> rfl

end Read

section Change

variable {hasPrimals : Bool} {c : Contents F}

theorem packed_empty (hasPrimals : Bool) : (empty : Contents F).packed hasPrimals =
    .new hasPrimals := by
  cases hasPrimals <;> rfl

theorem packed_argument (hasPrimals : Bool) (c : Contents F) (id : Identifier) (weight : F) :
    (c.packed hasPrimals).addArgument id weight =
      (c.change (.argument id weight)).packed hasPrimals := by
  rw [Arrays.addArgument, change]
  split
  · rfl
  · simp [packed, allArguments]

theorem packed_append (c : Contents F) (output : Identifier) (kind : StatementKind)
    {overwrite : Option (Overwrite F)} (ho : overwrite.isSome = hasPrimals) :
    (c.packed hasPrimals).append output kind overwrite =
      (c.append output kind overwrite).packed hasPrimals := by
  have hall : (c.append output kind overwrite).allArguments = c.allArguments := by
    simp [Contents.append, allArguments]
  have hentries : entriesFrom 0 (c.append output kind overwrite).log =
      entriesFrom 0 c.log ++ [⟨output, c.allArguments.length, kind⟩] := by
    simp [Contents.append, entriesFrom_append, entriesFrom, allArguments, argumentCount]
  simp only [packed, Arrays.append, hall, hentries, List.length_map]
  cases overwrite with
  | none => simp [← ho, Contents.append]
  | some o => simp [← ho, Contents.append]

theorem packed_record (c : Contents F) (r : Record F) {overwrite : Option (Overwrite F)}
    (ho : overwrite.isSome = hasPrimals) :
    (c.packed hasPrimals).addRecord r overwrite =
      (c.change (.record r overwrite)).packed hasPrimals := by
  rw [change, ← packed_append _ _ _ ho]
  simp [Arrays.addRecord, packed, extentsFrom_append, extentsFrom, length_extentsFrom, allArguments]

theorem take_allArguments (c : Contents F) (n : Nat) :
    c.allArguments.take (argumentCount (c.log.take n)) =
      (c.log.take n).flatMap Statement.arguments := by
  have hsplit : c.log.flatMap Statement.arguments = (c.log.take n).flatMap Statement.arguments ++
      (c.log.drop n).flatMap Statement.arguments := by
    rw [← List.flatMap_append, List.take_append_drop]
  rw [allArguments, hsplit, List.append_assoc, argumentCount, List.take_left]

theorem take_bytes {α : Type} (bytes : Record F → List α) (rs : List (Record F)) (k : Nat) :
    (rs.flatMap bytes).take ((rs.take k).flatMap bytes).length = (rs.take k).flatMap bytes := by
  have hsplit : rs.flatMap bytes = (rs.take k).flatMap bytes ++ (rs.drop k).flatMap bytes := by
    rw [← List.flatMap_append, List.take_append_drop]
  rw [hsplit, List.take_left]

theorem packed_cut (hasPrimals : Bool) {p : Position} (hlog : p.statements ≤ c.log.length)
    (hrecords : p.externals ≤ c.records.length) :
    (c.packed hasPrimals).cut? p = some ((c.change (.cut p)).packed hasPrimals) := by
  obtain ⟨e, he, hstop⟩ := c.exists_stop hasPrimals hlog
  have hexternals : p.externals ≤ (c.packed hasPrimals).externals.length := by
    rwa [packed, length_extentsFrom]
  have hfixed := (tiles_extents (c.records.take p.externals)).1.endOf_eq
  have hdynamic := (tiles_extents (c.records.take p.externals)).2.endOf_eq
  rw [Arrays.cut?, he]
  simp only [Option.bind_eq_bind, Option.bind_some, if_pos hexternals, hstop]
  simp only [packed, change, take_extentsFrom, hfixed, hdynamic, take_bytes, ← List.map_take,
    take_allArguments, List.take_succ_cons, take_entriesFrom]
  cases hasPrimals <;> simp [allArguments]

theorem change?_packed {change : Change F} (hc : c.Permits hasPrimals change) :
    (c.packed hasPrimals).change? change = some ((c.change change).packed hasPrimals) := by
  cases change with
  | argument id weight => exact congrArg some (packed_argument ..)
  | statement output kind overwrite => exact congrArg some (packed_append c output kind hc.1)
  | record r overwrite => exact congrArg some (packed_record c r hc)
  | cut p => exact packed_cut hasPrimals hc.1 hc.2

theorem changes?_packed {cs : List (Change F)} (hcs : c.PermitsAll hasPrimals cs) :
    (c.packed hasPrimals).changes? cs = some ((c.changes cs).packed hasPrimals) := by
  induction cs generalizing c with
  | nil => rfl
  | cons change cs ih =>
    rw [Arrays.changes?, List.foldlM_cons, change?_packed hcs.1]
    exact ih hcs.2

end Change

section WellFormed

variable {hasPrimals : Bool} {c : Contents F}

/-- The external statements name the records of the table one after the other. -/
def Ordered (c : Contents F) : Prop :=
  c.log.filterMap (·.kind.record?) = List.range c.records.length

theorem Ordered.record_lt (h : c.Ordered) {st : Statement F} (hst : st ∈ c.log) {k : Nat}
    (hk : st.kind = .external k) : k < c.records.length := by
  rw [← List.mem_range, ← h]
  exact List.mem_filterMap.mpr ⟨st, hst, by rw [hk]; rfl⟩

theorem Regular.wellFormed_packed (h : c.Regular hasPrimals) (ho : c.Ordered) :
    (c.packed hasPrimals).WellFormed hasPrimals where
  sentinel := rfl
  stops_le := List.isChain_iff_pairwise.mp (isChain_stops 0 c.log)
  stop_le_length e he := by
    rcases List.mem_cons.mp he with rfl | he
    · exact Nat.zero_le _
    · have hstop := stop_le_of_mem_entriesFrom he
      have hlength : argumentCount c.log ≤ c.allArguments.length := by
        simp [allArguments, argumentCount]
      simp only [packed, List.length_map]
      omega
  length_arguments := by simp [packed]
  arguments_ne id hid := by
    obtain ⟨a, ha, rfl⟩ := List.mem_map.mp hid
    rcases List.mem_append.mp ha with ha | ha
    · obtain ⟨st, hst, ha⟩ := List.mem_flatMap.mp ha
      exact h.arguments_ne st hst a ha
    · exact h.pending_ne a ha
  length_overwrites := by cases hasPrimals <;> simp [packed, length_entriesFrom]
  externals_eq := by
    rw [packed, length_extentsFrom, ← ho, ← filterMap_entriesFrom 0]
    rfl
  fixed_tiles := (tiles_extents c.records).1
  dynamic_tiles := (tiles_extents c.records).2

theorem ordered_empty : (empty : Contents F).Ordered := rfl

theorem Ordered.append (h : c.Ordered) (output : Identifier) {kind : StatementKind}
    (overwrite : Option (Overwrite F)) (hkind : ∀ k, kind ≠ .external k) :
    (c.append output kind overwrite).Ordered := by
  have hnone : kind.record? = none := by
    cases kind with
    | elementary => rfl
    | input => rfl
    | external k => exact absurd rfl (hkind k)
  simpa [Ordered, Contents.append, hnone] using h

theorem Ordered.record (h : c.Ordered) (r : Record F) (overwrite : Option (Overwrite F)) :
    (c.change (.record r overwrite)).Ordered := by
  have hrecord : (StatementKind.external c.records.length).record? = some c.records.length := rfl
  simp [Ordered, change, Contents.append, hrecord, List.range_succ, show _ = _ from h]

theorem Ordered.changes (h : c.Ordered) {cs : List (Change F)} (hcs : c.PermitsAll hasPrimals cs)
    (hcut : ∀ p, .cut p ∉ cs) : (c.changes cs).Ordered := by
  induction cs generalizing c with
  | nil => exact h
  | cons change cs ih =>
    apply ih _ hcs.2 fun p hp => hcut p (List.mem_cons_of_mem _ hp)
    cases change with
    | argument id weight =>
      rw [Contents.change]
      split <;> exact h
    | statement output kind overwrite => exact h.append output overwrite hcs.1.2
    | record r overwrite => exact h.record r overwrite
    | cut p => exact absurd List.mem_cons_self (hcut p)

theorem Ordered.length_le {u : Contents F} (h : c.Ordered) (hu : u.Ordered)
    (hlog : u.log <+: c.log) : u.records.length ≤ c.records.length := by
  have hprefix := hlog.filterMap (·.kind.record?)
  rw [hu, h] at hprefix
  simpa using hprefix.length_le

theorem Ordered.cut {u : Contents F} (h : c.Ordered) (hu : u.Ordered) (hlog : u.log <+: c.log)
    {p : Position} (hstatements : p.statements = u.log.length)
    (hexternals : p.externals = u.records.length) : (c.change (.cut p)).Ordered := by
  have htake : c.log.take p.statements = u.log := by
    rw [hstatements]
    exact (List.prefix_iff_eq_take.mp hlog).symm
  rw [Ordered, change, htake, hu, List.length_take, hexternals,
    Nat.min_eq_left (h.length_le hu hlog)]

end WellFormed

end Contents

end Autodiff
