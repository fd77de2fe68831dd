import Autodiff.Proofs.Shelves
/-!
Books on the records of all tapes. A record gets a number when it is pushed, stands in the table of its
tape from then on, and leaves it when it is deleted.
-/

namespace Autodiff

variable {F : Type} [Scalar F]

def Posting.Replays (i : Nat) (rs : List (Record F)) (p : Posting F) : Prop :=
  ∃ d k r, p = .replayed i d k (some r) ∧ rs[k]? = some r

structure Books (F : Type) [Scalar F] where
  /-- All records so far. The number of a record is its place here. -/
  pushed : List (Record F)
  tables : List (List Nat)
  deleted : List Nat

namespace Books

/-- Replays get what was pushed, and deletions take the newest record of a table. -/
inductive Posts : Books F → Posting F → Books F → Prop
  | opened (b) : Posts b .opened { b with tables := b.tables ++ [[]] }
  | pushed {b i table} (r) (hi : b.tables[i]? = some table) :
      Posts b (.pushed i r) { b with
        pushed := b.pushed ++ [r]
        tables := b.tables.set i (table ++ [b.pushed.length]) }
  | replayed {b : Books F} {i d k table n r} (hi : b.tables[i]? = some table)
      (hk : table[k]? = some n) (hr : b.pushed[n]? = some r) : Posts b (.replayed i d k (some r)) b
  | deleted {b i table n r} (hi : b.tables[i]? = some (table ++ [n]))
      (hr : b.pushed[n]? = some r) :
      Posts b (.deleted i r) { b with
        tables := b.tables.set i table
        deleted := b.deleted ++ [n] }
  | swapped {b i j x y} (hi : b.tables[i]? = some x) (hj : b.tables[j]? = some y) :
      Posts b (.swapped i j) { b with tables := (b.tables.set i y).set j x }

inductive Follows : Books F → List (Posting F) → Prop
  | empty : Follows ⟨[], [], []⟩ []
  | post {b b' : Books F} {ps p} (h : Follows b ps) (hp : b.Posts p b') : Follows b' (ps ++ [p])

section Balance

variable {b b' : Books F} {ps : List (Posting F)}

def Balanced (b : Books F) : Prop :=
  (b.deleted ++ b.tables.flatten).Perm (List.range b.pushed.length)

theorem count_flatten_set {tables : List (List Nat)} {i : Nat} {x : List Nat}
    (h : tables[i]? = some x) (y : List Nat) (n : Nat) :
    (tables.set i y).flatten.count n + x.count n = tables.flatten.count n + y.count n := by
  induction tables generalizing i with
  | nil => cases h
  | cons table tables ih =>
    cases i with
    | zero =>
      cases h
      simp only [List.set_cons_zero, List.flatten_cons, List.count_append]
      omega
    | succ i =>
      simp only [List.set_cons_succ, List.flatten_cons, List.count_append]
      have := ih h
      omega

theorem balanced_iff : b.Balanced ↔
    ∀ n, b.deleted.count n + b.tables.flatten.count n = (List.range b.pushed.length).count n := by
  simp only [Balanced, List.perm_iff_count, List.count_append]

theorem Balanced.post {p : Posting F} (h : b.Balanced) (hp : b.Posts p b') : b'.Balanced := by
  rw [balanced_iff] at h ⊢
  intro n
  have hn := h n
  cases hp with
  | opened => simpa using hn
  | @pushed i table r hi =>
    have hset := count_flatten_set hi (table ++ [b.pushed.length]) n
    simp only [List.count_append] at hset
    simp only [List.length_append, List.length_singleton, List.range_succ, List.count_append]
    omega
  | replayed => exact hn
  | @deleted i table m r hi hr =>
    have hset := count_flatten_set hi table n
    simp only [List.count_append] at hset
    simp only [List.count_append]
    omega
  | @swapped i j x y hi hj =>
    have hj' : (b.tables.set i y)[j]? = some y := by
      rw [List.getElem?_set]
      split
      case isTrue hij =>
        subst hij
        rw [if_pos (List.getElem?_eq_some_iff.mp hi).1]
      case isFalse => exact hj
    have hset := count_flatten_set hi y n
    have hset' := count_flatten_set hj' x n
    simp only
    omega

theorem Follows.balanced (h : b.Follows ps) : b.Balanced := by
  induction h with
  | empty => exact .nil
  | post _ hp ih => exact ih.post hp

end Balance

section Tables

def Describes (b : Books F) (tables : List (List (Record F))) : Prop :=
  b.tables.map (·.map (b.pushed[·]?)) = tables.map (·.map some)

variable {b b' : Books F} {ps : List (Posting F)} {tables : List (List (Record F))} {i : Nat}
  {rs : List (Record F)}

theorem Describes.exists_table (h : b.Describes tables) (hi : tables[i]? = some rs) :
    ∃ table, b.tables[i]? = some table ∧ table.map (b.pushed[·]?) = rs.map some := by
  have hget := congrArg (·[i]?) h
  simp only [List.getElem?_map, hi, Option.map_some] at hget
  exact Option.map_eq_some_iff.mp hget

theorem Describes.exists_mem (h : b.Describes tables) {table : List Nat} (htable : table ∈ b.tables) :
    ∃ rs ∈ tables, table.map (b.pushed[·]?) = rs.map some := by
  have hmem : table.map (b.pushed[·]?) ∈ tables.map (·.map some) := by
    rw [← show _ = _ from h]
    exact List.mem_map_of_mem htable
  obtain ⟨rs, hrs, hnamed⟩ := List.mem_map.mp hmem
  exact ⟨rs, hrs, hnamed.symm⟩

theorem Describes.set (h : b.Describes tables) {table : List Nat}
    (htable : table.map (b.pushed[·]?) = rs.map some) (deleted : List Nat) :
    Describes ⟨b.pushed, b.tables.set i table, deleted⟩ (tables.set i rs) := by
  simp only [Describes, List.map_set, htable, show _ = _ from h]

theorem Describes.push (h : b.Describes tables) (r : Record F) :
    Describes { b with pushed := b.pushed ++ [r] } tables := by
  rw [Describes, ← show _ = _ from h]
  apply List.map_congr_left
  intro table htable
  apply List.map_congr_left
  intro n hn
  obtain ⟨rs, -, hrs⟩ := h.exists_mem htable
  have hsome : b.pushed[n]? ∈ rs.map some := hrs ▸ List.mem_map_of_mem hn
  obtain ⟨r', -, hr'⟩ := List.mem_map.mp hsome
  exact List.getElem?_append_left (List.getElem?_eq_some_iff.mp hr'.symm).1

theorem Follows.push (h : b.Follows ps) (hb : b.Describes tables) (hi : tables[i]? = some rs)
    (r : Record F) : ∃ b', Follows b' (ps ++ [.pushed i r]) ∧
      b'.Describes (tables.set i (rs ++ [r])) := by
  obtain ⟨table, htable, hrs⟩ := hb.exists_table hi
  refine ⟨_, h.post (.pushed r htable), (hb.push r).set ?_ _⟩
  obtain ⟨table', htable', hrs'⟩ := (hb.push r).exists_table hi
  obtain rfl : table = table' := Option.some.inj (htable.symm.trans htable')
  rw [List.map_append, hrs', List.map_append, List.map_singleton, List.getElem?_concat_length,
    List.map_singleton]

theorem Follows.delete {r : Record F} (h : b.Follows ps) (hb : b.Describes tables)
    (hi : tables[i]? = some (rs ++ [r])) : ∃ b', Follows b' (ps ++ [.deleted i r]) ∧
      b'.Describes (tables.set i rs) := by
  obtain ⟨table, htable, hrs⟩ := hb.exists_table hi
  rw [List.map_append] at hrs
  obtain ⟨kept, last, rfl, hkept, hlast⟩ := List.map_eq_append_iff.mp hrs
  obtain ⟨n, rfl, hn⟩ := List.map_eq_singleton_iff.mp hlast
  exact ⟨_, h.post (.deleted htable hn), hb.set hkept _⟩

theorem Follows.swap {x y : List (Record F)} {j : Nat} (h : b.Follows ps)
    (hb : b.Describes tables) (hi : tables[i]? = some x) (hj : tables[j]? = some y) :
    ∃ b', Follows b' (ps ++ [.swapped i j]) ∧ b'.Describes ((tables.set i y).set j x) := by
  obtain ⟨table, htable, hx⟩ := hb.exists_table hi
  obtain ⟨table', htable', hy⟩ := hb.exists_table hj
  exact ⟨_, h.post (.swapped htable htable'), (hb.set hy b.deleted).set hx _⟩

end Tables

end Books

namespace Reel

theorem postings_deleteDeeds (reel : Reel F) (i k : Nat) :
    reel.postings i [] (reel.tape.deleteDeeds k) =
      (reel.tape.records.drop k).reverse.map (.deleted i) := by
  have hdeletes (rs : List (Record F)) :
      (rs.map Deed.delete).filterMap (Deed.posting? i reel.tape) = rs.map (.deleted i) := by
    rw [List.filterMap_map]
    exact congrFun List.filterMap_eq_map rs
  rw [postings, List.filterMap_nil, List.nil_append, Tape.deleteDeeds, List.filterMap_append,
    hdeletes]
  exact List.append_nil _

theorem postings_cases {reel : Reel F} {accept : Position → Prop} {cs : List (Change F)}
    {ds : List (Deed F)} {t' : Tape F} (h : reel.tape.Acts accept cs ds t') (i : Nat) :
    (t'.records = reel.tape.records ∧
        ∀ p ∈ reel.postings i cs ds, p.Replays i reel.tape.records) ∨
      (∃ r, t'.records = reel.tape.records ++ [r] ∧ reel.postings i cs ds = [.pushed i r]) ∨
      ∃ k, t'.records = reel.tape.records.take k ∧
        reel.postings i cs ds = (reel.tape.records.drop k).reverse.map (.deleted i) := by
  have hrecords : t'.records = (reel.tape.contents.changes cs).records :=
    congrArg Contents.records h.changes.contents_eq
  obtain ⟨hplain, hfinds⟩ | ⟨r, overwrite, rfl, rfl⟩ | ⟨p, rfl, rfl, -⟩ := h.trichotomy
  · left
    constructor
    · exact hrecords.trans (Contents.records_changes hplain)
    intro p hp
    rcases List.mem_append.mp hp with hp | hp
    · obtain ⟨c, hc, hcp⟩ := List.mem_filterMap.mp hp
      have hnone : c.posting? i = none := by
        have := hplain c hc
        cases c with
        | record => exact this.elim
        | _ => rfl
      cases hnone.symm.trans hcp
    · obtain ⟨d, hd, hdp⟩ := List.mem_filterMap.mp hp
      have hfind := hfinds d hd
      cases d with
      | update => cases hdp
      | replay d k =>
        obtain ⟨r, hr⟩ := hfind
        rw [Deed.posting?, hr] at hdp
        exact ⟨d, k, r, (Option.some.inj hdp).symm, hr⟩
      | delete => exact hfind.elim
  · exact .inr (.inl ⟨r, hrecords, rfl⟩)
  · exact .inr (.inr ⟨p.externals, hrecords, postings_deleteDeeds reel i p.externals⟩)

end Reel

namespace Shelf

def tables (s : Shelf F) : List (List (Record F)) :=
  s.reels.map fun reel? => reel?.elim [] (·.tape.records)

end Shelf

namespace Books

end Books

namespace Shelf

end Shelf

end Autodiff
