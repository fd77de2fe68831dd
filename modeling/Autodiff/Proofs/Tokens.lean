import Mathlib
import Autodiff.KernelTable

namespace Autodiff.KernelTable

variable {I : Type}

structure Extends (r r' : KernelTable I) : Prop where
  entries : r.entries <+: r'.entries
  tokens : r.tokens <+: r'.tokens

namespace Extends

variable {r r' r'' : KernelTable I}

theorem refl (r : KernelTable I) : r.Extends r := ⟨List.prefix_rfl, List.prefix_rfl⟩

theorem trans (h : r.Extends r') (h' : r'.Extends r'') : r.Extends r'' :=
  ⟨h.entries.trans h'.entries, h.tokens.trans h'.tokens⟩

theorem getElem?_eq (h : r.Extends r') {i : Nat} {e : Entry} (he : r.entries[i]? = some e) :
    r'.entries[i]? = some e := by
  obtain ⟨added, hadded⟩ := h.entries
  have hlt := (List.getElem?_eq_some_iff.mp he).1
  rw [← hadded, List.getElem?_append_left hlt, he]

theorem lookup_eq (h : r.Extends r') {p : Precision} {token : Token} {k : Kernel p.Carrier}
    (hk : r.lookup p token = some k) : r'.lookup p token = some k := by
  rw [lookup] at hk
  split at hk
  case h_1 => cases hk
  case h_2 e he =>
    rw [lookup, h.getElem?_eq he]
    exact hk

theorem tokenOf?_eq [DecidableEq I] (h : r.Extends r') {identity : I} {token : Token}
    (ht : r.tokenOf? identity = some token) : r'.tokenOf? identity = some token := by
  obtain ⟨added, hadded⟩ := h.tokens
  obtain ⟨entry, hfind, rfl⟩ := Option.map_eq_some_iff.mp ht
  rw [tokenOf?, ← hadded, List.find?_append, hfind]
  rfl

end Extends

theorem lookup_of_getElem? {r : KernelTable I} {token : Token} {e : Entry}
    (h : r.entries[token.index]? = some e) : r.lookup e.precision token = some e.kernel := by
  rw [lookup, h]
  exact dif_pos rfl

theorem find_of_ne {r : KernelTable I} {token : Token} {e : Entry} {q : Precision}
    (h : r.entries[token.index]? = some e) (hq : e.precision ≠ q) :
    (r.kernels q).find token = .error (.fatal (.unknownToken token.index)) := by
  have hlookup : r.lookup q token = none := by
    rw [lookup, h]
    exact dif_neg hq
  rw [Kernels.find, kernels, hlookup]

theorem find_of_count_le {r : KernelTable I} {token : Token} (h : r.count ≤ token.index)
    (q : Precision) : (r.kernels q).find token = .error (.fatal (.unknownToken token.index)) := by
  have hlookup : r.lookup q token = none := by
    rw [lookup, List.getElem?_eq_none h]
  rw [Kernels.find, kernels, hlookup]

variable [DecidableEq I]

structure Sound (r : KernelTable I) : Prop where
  index_eq : ∀ (i : Nat) (e : I × Token), r.tokens[i]? = some e → e.2 = ⟨i⟩
  length_eq : r.tokens.length = r.count
  nodup : (r.tokens.map Prod.fst).Nodup
  count_le : r.count ≤ Token.invalid.index

omit [DecidableEq I] in
theorem sound_empty : (empty : KernelTable I).Sound where
  index_eq _ _ h := by simp [empty] at h
  length_eq := rfl
  nodup := List.nodup_nil
  count_le := Nat.zero_le _

theorem tokenOf?_eq_none_iff {r : KernelTable I} {identity : I} :
    r.tokenOf? identity = none ↔ ∀ e ∈ r.tokens, e.1 ≠ identity := by
  simp [tokenOf?]

theorem exists_getElem?_of_tokenOf? {r : KernelTable I} {identity : I} {token : Token}
    (h : r.tokenOf? identity = some token) : ∃ i : Nat, r.tokens[i]? = some (identity, token) := by
  obtain ⟨⟨found, t⟩, hfind, rfl⟩ := Option.map_eq_some_iff.mp h
  have hfound : found = identity := by simpa using List.find?_some hfind
  obtain ⟨i, hi⟩ := List.mem_iff_getElem?.mp (List.mem_of_find?_eq_some hfind)
  exact ⟨i, hfound ▸ hi⟩

theorem register_of_known {r : KernelTable I} {identity : I} {token : Token}
    (h : r.tokenOf? identity = some token) (e : Entry) : r.register identity e = (token, r) := by
  rw [register, h]

theorem register_of_new {r : KernelTable I} {identity : I} (h : r.tokenOf? identity = none)
    (e : Entry) : r.register identity e =
      (⟨r.count⟩, ⟨r.entries ++ [e], r.tokens ++ [(identity, ⟨r.count⟩)]⟩) := by
  rw [register, h]
  rfl

theorem enroll_cases (r : KernelTable I) (identity : I) (e : Entry) :
    (∃ token, r.tokenOf? identity = some token ∧ r.enroll identity e = .ok (token, r)) ∨
    (r.tokenOf? identity = none ∧ r.count < Token.invalid.index ∧
      r.enroll identity e =
        .ok (⟨r.count⟩, ⟨r.entries ++ [e], r.tokens ++ [(identity, ⟨r.count⟩)]⟩)) ∨
    (r.tokenOf? identity = none ∧ Token.invalid.index ≤ r.count ∧
      r.enroll identity e = .error .tooManyFunctions) := by
  cases h : r.tokenOf? identity with
  | some token =>
    left
    refine ⟨token, rfl, ?_⟩
    rw [enroll, register_of_known h, h]
    rfl
  | none =>
    right
    by_cases hfull : Token.invalid.index ≤ r.count
    · right
      refine ⟨rfl, hfull, ?_⟩
      simp [enroll, h, isFull, hfull]
    · left
      refine ⟨rfl, Nat.lt_of_not_le hfull, ?_⟩
      rw [enroll, register_of_new h]
      simp [isFull, hfull]

section Enroll

variable {r r' : KernelTable I} {identity : I} {e : Entry} {token : Token} {fault : Fault}

theorem enroll_extends (h : r.enroll identity e = .ok (token, r')) : r.Extends r' := by
  obtain ⟨t, -, hok⟩ | ⟨-, -, hok⟩ | ⟨-, -, hfail⟩ := r.enroll_cases identity e
  · cases hok.symm.trans h
    exact .refl r
  · cases hok.symm.trans h
    exact ⟨List.prefix_append .., List.prefix_append ..⟩
  · cases hfail.symm.trans h

theorem tokenOf?_of_enroll (h : r.enroll identity e = .ok (token, r')) :
    r'.tokenOf? identity = some token := by
  obtain ⟨t, ht, hok⟩ | ⟨hnew, -, hok⟩ | ⟨-, -, hfail⟩ := r.enroll_cases identity e
  · cases hok.symm.trans h
    exact ht
  · cases hok.symm.trans h
    have hnone := Option.map_eq_none_iff.mp hnew
    rw [tokenOf?, List.find?_append, hnone]
    simp
  · cases hfail.symm.trans h

theorem Sound.enroll (hr : r.Sound) (h : r.enroll identity e = .ok (token, r')) : r'.Sound := by
  obtain ⟨t, -, hok⟩ | ⟨hnew, hlt, hok⟩ | ⟨-, -, hfail⟩ := r.enroll_cases identity e
  · cases hok.symm.trans h
    exact hr
  · cases hok.symm.trans h
    constructor
    · intro i x hx
      rw [List.getElem?_append] at hx
      split at hx
      · exact hr.index_eq i x hx
      · rename_i hi
        have hlast : i - r.tokens.length = 0 := by
          by_contra hne
          rw [List.getElem?_singleton, if_neg hne] at hx
          cases hx
        rw [hlast] at hx
        cases hx
        rw [hr.length_eq] at hi hlast
        have hi' : r.count = i := by omega
        rw [hi']
    · simp [count, hr.length_eq]
    · rw [List.map_append, List.map_singleton]
      apply hr.nodup.append (List.nodup_singleton _)
      intro x hx hx'
      obtain rfl := List.mem_singleton.mp hx'
      obtain ⟨y, hy, hyx⟩ := List.mem_map.mp hx
      exact tokenOf?_eq_none_iff.mp hnew y hy hyx
    · simpa [count] using hlt
  · cases hfail.symm.trans h

end Enroll

namespace Sound

variable {r : KernelTable I} {x y : I} {token : Token}

theorem index_lt (h : r.Sound) (hx : r.tokenOf? x = some token) : token.index < r.count := by
  obtain ⟨i, hi⟩ := exists_getElem?_of_tokenOf? hx
  have hlt := (List.getElem?_eq_some_iff.mp hi).1
  have htoken : token = ⟨i⟩ := h.index_eq i _ hi
  rw [htoken]
  exact h.length_eq ▸ hlt

theorem injective (h : r.Sound) (hx : r.tokenOf? x = some token) (hy : r.tokenOf? y = some token) :
    x = y := by
  obtain ⟨i, hi⟩ := exists_getElem?_of_tokenOf? hx
  obtain ⟨j, hj⟩ := exists_getElem?_of_tokenOf? hy
  have hiToken : token = ⟨i⟩ := h.index_eq i _ hi
  have hjToken : token = ⟨j⟩ := h.index_eq j _ hj
  obtain rfl := Token.mk.inj (hiToken.symm.trans hjToken)
  cases hi.symm.trans hj
  rfl

theorem isValid (h : r.Sound) (hx : r.tokenOf? x = some token) : token.isValid = true := by
  have hlt := (h.index_lt hx).trans_le h.count_le
  rw [Token.isValid, bne_iff_ne]
  rintro rfl
  exact Nat.lt_irrefl _ hlt

end Sound

def after (r : KernelTable I) (a : I × Entry) : KernelTable I :=
  match r.enroll a.1 a.2 with
  | .ok (_, r') => r'
  | .error _ => r

def afterAll (r : KernelTable I) (rs : List (I × Entry)) : KernelTable I := rs.foldl after r

def answer (rs : List (I × Entry)) (a : I × Entry) : Except Fault Token :=
  Prod.fst <$> (empty.afterAll rs).enroll a.1 a.2

section After

variable {r : KernelTable I} {rs rs' : List (I × Entry)} {a b : I × Entry} {token : Token}
  {fault : Fault}

theorem after_of_ok {r' : KernelTable I} (h : r.enroll a.1 a.2 = .ok (token, r')) :
    r.after a = r' := by
  rw [after, h]

theorem after_of_error (h : r.enroll a.1 a.2 = .error fault) : r.after a = r := by
  rw [after, h]

theorem afterAll_append (r : KernelTable I) (rs rs' : List (I × Entry)) :
    r.afterAll (rs ++ rs') = (r.afterAll rs).afterAll rs' := List.foldl_append

theorem afterAll_concat (r : KernelTable I) (rs : List (I × Entry)) (a : I × Entry) :
    r.afterAll (rs ++ [a]) = (r.afterAll rs).after a := by
  rw [afterAll_append]
  rfl

theorem after_extends (r : KernelTable I) (a : I × Entry) : r.Extends (r.after a) := by
  cases h : r.enroll a.1 a.2 with
  | ok x => exact after_of_ok h ▸ enroll_extends h
  | error fault =>
    rw [after_of_error h]
    exact .refl r

theorem afterAll_extends (r : KernelTable I) (rs : List (I × Entry)) :
    r.Extends (r.afterAll rs) := by
  induction rs generalizing r with
  | nil => exact .refl r
  | cons a rs ih => exact (r.after_extends a).trans (ih (r.after a))

theorem extends_of_isPrefix (h : rs <+: rs') :
    (empty.afterAll rs).Extends (empty.afterAll rs') := by
  obtain ⟨more, rfl⟩ := h
  rw [afterAll_append]
  exact afterAll_extends _ more

theorem Sound.after (h : r.Sound) (a : I × Entry) : (r.after a).Sound := by
  cases hr : r.enroll a.1 a.2 with
  | ok x => exact after_of_ok hr ▸ h.enroll hr
  | error fault =>
    rw [after_of_error hr]
    exact h

theorem sound_afterAll (rs : List (I × Entry)) : (empty.afterAll rs).Sound := by
  induction rs using List.reverseRecOn with
  | nil => exact sound_empty
  | append_singleton rs a ih =>
    rw [afterAll_concat]
    exact ih.after a

theorem afterAll_of_full (h : Token.invalid.index ≤ r.count) (rs : List (I × Entry)) :
    r.afterAll rs = r := by
  induction rs with
  | nil => rfl
  | cons a rs ih =>
    have hafter : r.after a = r := by
      obtain ⟨t, -, hok⟩ | ⟨-, hlt, -⟩ | ⟨-, -, hfail⟩ := r.enroll_cases a.1 a.2
      · exact after_of_ok hok
      · omega
      · exact after_of_error hfail
    change (r.after a).afterAll rs = r
    rw [hafter, ih]

theorem exists_of_answer (h : answer rs a = .ok token) :
    ∃ r', (empty.afterAll rs).enroll a.1 a.2 = .ok (token, r') := by
  rw [answer] at h
  cases hr : (empty.afterAll rs).enroll a.1 a.2 with
  | ok x =>
    rw [hr] at h
    cases h
    exact ⟨x.2, rfl⟩
  | error fault =>
    rw [hr] at h
    cases h

theorem tokenOf?_of_answer (h : answer rs a = .ok token) (later : List (I × Entry)) :
    (empty.afterAll (rs ++ a :: later)).tokenOf? a.1 = some token := by
  obtain ⟨r', hr⟩ := exists_of_answer h
  rw [afterAll_append]
  change (((empty.afterAll rs).after a).afterAll later).tokenOf? a.1 = some token
  rw [after_of_ok hr]
  exact (afterAll_extends r' later).tokenOf?_eq (tokenOf?_of_enroll hr)

theorem answer_of_known (h : (empty.afterAll rs).tokenOf? a.1 = some token) :
    answer rs a = .ok token := by
  obtain ⟨t, ht, hok⟩ | ⟨hnone, -⟩ | ⟨hnone, -⟩ := (empty.afterAll rs).enroll_cases a.1 a.2
  · cases ht.symm.trans h
    rw [answer, hok]
    rfl
  · cases hnone.symm.trans h
  · cases hnone.symm.trans h

theorem full_of_answer (h : answer rs a = .error fault) :
    (empty.afterAll rs).tokenOf? a.1 = none ∧ Token.invalid.index ≤ (empty.afterAll rs).count ∧
      fault = .tooManyFunctions := by
  rw [answer] at h
  obtain ⟨t, -, hok⟩ | ⟨-, -, hok⟩ | ⟨hnone, hfull, hfail⟩ :=
    (empty.afterAll rs).enroll_cases a.1 a.2
  · rw [hok] at h
    cases h
  · rw [hok] at h
    cases h
  · rw [hfail] at h
    cases h
    exact ⟨hnone, hfull, rfl⟩

theorem answer_again (hab : a.1 = b.1) (between : List (I × Entry)) :
    answer (rs ++ a :: between) b = answer rs a := by
  cases hanswer : answer rs a with
  | ok token =>
    have hknown := tokenOf?_of_answer hanswer between
    rw [hab] at hknown
    exact answer_of_known hknown
  | error fault =>
    -- The table stays full, so the identity is refused again.
    obtain ⟨hnone, hfull, rfl⟩ := full_of_answer hanswer
    have hsame : empty.afterAll (rs ++ a :: between) = empty.afterAll rs := by
      rw [afterAll_append]
      exact afterAll_of_full hfull _
    have hagain : (empty.afterAll rs).enroll b.1 b.2 = .error .tooManyFunctions := by
      rw [← hab, enroll, hnone]
      simp [isFull, hfull]
    rw [answer, hsame, hagain]
    rfl

theorem answer_ne {token' : Token} (hab : a.1 ≠ b.1) {between : List (I × Entry)}
    (ha : answer rs a = .ok token) (hb : answer (rs ++ a :: between) b = .ok token') :
    token ≠ token' := by
  rintro rfl
  have hknown := tokenOf?_of_answer ha (between ++ [b])
  have hknown' := tokenOf?_of_answer hb []
  rw [List.append_assoc, List.cons_append] at hknown'
  exact hab ((sound_afterAll _).injective hknown hknown')

theorem isValid_of_answer (h : answer rs a = .ok token) : token.isValid = true :=
  (sound_afterAll _).isValid (tokenOf?_of_answer h [])

theorem identities_afterAll (rs : List (I × Entry)) :
    ∀ e ∈ (empty.afterAll rs).tokens, e.1 ∈ rs.map Prod.fst := by
  induction rs using List.reverseRecOn with
  | nil =>
    intro e he
    cases he
  | append_singleton rs a ih =>
    intro e he
    rw [afterAll_concat] at he
    rw [List.map_append, List.mem_append]
    obtain ⟨t, -, hok⟩ | ⟨-, -, hok⟩ | ⟨-, -, hfail⟩ := (empty.afterAll rs).enroll_cases a.1 a.2
    · rw [after_of_ok hok] at he
      exact .inl (ih e he)
    · rw [after_of_ok hok] at he
      rcases List.mem_append.mp he with he | he
      · exact .inl (ih e he)
      · right
        rw [List.mem_singleton.mp he]
        exact List.mem_singleton.mpr rfl
    · rw [after_of_error hfail] at he
      exact .inl (ih e he)

theorem count_afterAll_le (rs : List (I × Entry)) :
    (empty.afterAll rs).count ≤ (rs.map Prod.fst).toFinset.card := by
  have h := sound_afterAll rs
  rw [← h.length_eq, ← List.length_map Prod.fst, ← List.toFinset_card_of_nodup h.nodup]
  apply Finset.card_le_card
  intro x hx
  obtain ⟨e, he, rfl⟩ := List.mem_map.mp (List.mem_toFinset.mp hx)
  exact List.mem_toFinset.mpr (identities_afterAll rs e he)

theorem answer_refused (h : answer rs a = .error fault) :
    fault = .tooManyFunctions ∧ Token.invalid.index ≤ (rs.map Prod.fst).toFinset.card := by
  obtain ⟨-, hfull, hfault⟩ := full_of_answer h
  exact ⟨hfault, hfull.trans (count_afterAll_le rs)⟩

theorem getElem?_of_answer (hnew : ∀ b ∈ rs, b.1 ≠ a.1) (h : answer rs a = .ok token)
    (later : List (I × Entry)) :
    (empty.afterAll (rs ++ a :: later)).entries[token.index]? = some a.2 := by
  have hnone : (empty.afterAll rs).tokenOf? a.1 = none := by
    apply tokenOf?_eq_none_iff.mpr
    intro e he
    obtain ⟨b, hb, hbe⟩ := List.mem_map.mp (identities_afterAll rs e he)
    rw [← hbe]
    exact hnew b hb
  obtain ⟨r', hr⟩ := exists_of_answer h
  have hextends := afterAll_extends r' later
  rw [afterAll_append]
  change (((empty.afterAll rs).after a).afterAll later).entries[token.index]? = some a.2
  rw [after_of_ok hr]
  apply hextends.getElem?_eq
  obtain ⟨t, ht, -⟩ | ⟨-, -, hok⟩ | ⟨-, -, hfail⟩ := (empty.afterAll rs).enroll_cases a.1 a.2
  · cases ht.symm.trans hnone
  · cases hok.symm.trans hr
    exact List.getElem?_concat_length
  · cases hfail.symm.trans hr

theorem exists_answer {i : Nat} (h : i < (empty.afterAll rs).count) :
    ∃ before a, before ++ [a] <+: rs ∧ answer before a = .ok ⟨i⟩ := by
  induction rs using List.reverseRecOn with
  | nil => exact absurd h (Nat.not_lt_zero i)
  | append_singleton rs a ih =>
    by_cases hi : i < (empty.afterAll rs).count
    · obtain ⟨before, b, hinit, hb⟩ := ih hi
      exact ⟨before, b, hinit.trans (List.prefix_append ..), hb⟩
    · refine ⟨rs, a, List.prefix_rfl, ?_⟩
      rw [afterAll_concat] at h
      obtain ⟨t, -, hok⟩ | ⟨-, -, hok⟩ | ⟨-, -, hfail⟩ := (empty.afterAll rs).enroll_cases a.1 a.2
      · rw [after_of_ok hok] at h
        exact absurd h hi
      · rw [after_of_ok hok, count, List.length_append, List.length_singleton] at h
        have hi' : (empty.afterAll rs).count = i := by
          rw [count] at hi ⊢
          omega
        rw [answer, hok, ← hi']
        rfl
      · rw [after_of_error hfail] at h
        exact absurd h hi

end After

end Autodiff.KernelTable
