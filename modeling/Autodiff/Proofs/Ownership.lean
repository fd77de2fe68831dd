import Autodiff.Proofs.Ensures
import Autodiff.Tape.Recording
import Mathlib

namespace Autodiff.Issuer

variable {m m' : Issuer} {id : Identifier}

theorem policy_issue (m : Issuer) : m.issue.2.policy = m.policy := by
  unfold issue
  split <;> rfl

theorem policy_retire (h : m.retire id = .ok m') : m'.policy = m.policy := by
  unfold retire at h
  split at h
  · cases h
    rfl
  · split at h
    · cases h
      rfl
    · split at h
      · cases h
        rfl
      · cases h

theorem policy_exchange {x : Identifier × Issuer} (h : m.exchange id = .ok x) :
    x.2.policy = m.policy := by
  obtain ⟨m₁, h₁, h⟩ := exists_of_bind_eq_ok h
  cases h
  exact (policy_issue m₁).trans (policy_retire h₁)

theorem policy_settle (m : Issuer) (id : Identifier) : (m.settle id).2.policy = m.policy := by
  unfold settle
  split
  · exact policy_issue m
  · split
    · exact policy_issue m
    · rfl

theorem ne_of_issue (h : passive ∉ m.unused) :
    m.issue.1 ≠ passive ∧ passive ∉ m.issue.2.unused := by
  unfold issue
  cases hu : m.unused with
  | nil => exact ⟨Nat.succ_ne_zero _, List.not_mem_nil⟩
  | cons id rest =>
    rw [hu, List.mem_cons, not_or] at h
    exact ⟨Ne.symm h.1, h.2⟩

theorem ne_of_retire (h : passive ∉ m.unused) (hr : m.retire id = .ok m') :
    passive ∉ m'.unused := by
  unfold retire at hr
  split at hr
  · cases hr
    exact h
  · split at hr
    · cases hr
      exact h
    · rename_i hid
      split at hr
      · cases hr
        simpa using ⟨Ne.symm hid, h⟩
      · cases hr

theorem ne_of_exchange {x : Identifier × Issuer} (h : passive ∉ m.unused)
    (hx : m.exchange id = .ok x) : x.1 ≠ passive ∧ passive ∉ x.2.unused := by
  obtain ⟨m₁, h₁, hx⟩ := exists_of_bind_eq_ok hx
  cases hx
  exact ne_of_issue (ne_of_retire h h₁)

theorem ne_of_settle (h : passive ∉ m.unused) (id : Identifier) :
    (m.settle id).1 ≠ passive ∧ passive ∉ (m.settle id).2.unused := by
  unfold settle
  split
  · exact ne_of_issue h
  · split
    · exact ne_of_issue h
    · rename_i hid
      exact ⟨hid, h⟩

theorem exists_rewind {largest : Identifier} (h : largest ≤ m.largest) :
    ∃ m', m.rewind largest = .ok m' := by
  unfold rewind
  cases m.policy with
  | linear => exact ⟨_, if_pos h⟩
  | reuse => exact ⟨m, rfl⟩

theorem policy_rewind {largest : Identifier} (hr : m.rewind largest = .ok m') :
    m'.policy = m.policy ∧ m'.unused = m.unused := by
  unfold rewind at hr
  split at hr
  · split at hr
    · cases hr
      exact ⟨rfl, rfl⟩
    · cases hr
  · cases hr
    exact ⟨rfl, rfl⟩

variable {ι : Type} [DecidableEq ι] {ids : ι → Identifier}

structure Guards (m : Issuer) (ids : ι → Identifier) : Prop where
  distinct : ∀ v w, v ≠ w → ids v ≠ passive → ids v ≠ ids w
  held_le : ∀ v, ids v ≤ m.largest
  held_unused : ∀ v, ids v ∉ m.unused
  unused_ne : passive ∉ m.unused
  unused_le : ∀ id ∈ m.unused, id ≤ m.largest
  unused_nodup : m.unused.Nodup
  unused_linear : m.policy = .linear → m.unused = []

structure Grants (m : Issuer) (ids : ι → Identifier) (v : ι) (x : Identifier × Issuer) : Prop where
  ne_passive : x.1 ≠ passive
  guards : x.2.Guards (Function.update ids v x.1)
  policy_eq : x.2.policy = m.policy
  largest_le : m.largest ≤ x.2.largest
  fresh : m.policy = .linear → m.largest < x.1

omit [DecidableEq ι] in
theorem guards_new (policy : Policy) : (new policy).Guards fun _ : ι => passive where
  distinct _ _ _ h := absurd rfl h
  held_le _ := Nat.le_refl _
  held_unused _ := List.not_mem_nil
  unused_ne := List.not_mem_nil
  unused_le _ h := absurd h List.not_mem_nil
  unused_nodup := List.nodup_nil
  unused_linear _ := rfl

theorem Guards.update_passive (h : m.Guards ids) (v : ι) :
    m.Guards (Function.update ids v passive) := by
  refine ⟨fun u w huw hu => ?_, fun u => ?_, fun u => ?_, h.unused_ne, h.unused_le,
    h.unused_nodup, h.unused_linear⟩
  · by_cases hv : u = v
    · rw [hv, Function.update_self] at hu
      exact absurd rfl hu
    · rw [Function.update_of_ne hv] at hu ⊢
      by_cases hw : w = v
      · rwa [hw, Function.update_self]
      · rw [Function.update_of_ne hw]
        exact h.distinct u w huw hu
  · by_cases hv : u = v
    · rw [hv, Function.update_self]
      exact Nat.zero_le _
    · rw [Function.update_of_ne hv]
      exact h.held_le u
  · by_cases hv : u = v
    · rw [hv, Function.update_self]
      exact h.unused_ne
    · rw [Function.update_of_ne hv]
      exact h.held_unused u

theorem Guards.hold (h : m.Guards ids) (v : ι) (hheld : ∀ u, ids u ≠ id)
    (hunused : id ∉ m'.unused) (hle : id ≤ m'.largest) (hlargest : m.largest ≤ m'.largest)
    (hsub : m'.unused.Sublist m.unused) (hpolicy : m'.policy = m.policy) :
    m'.Guards (Function.update ids v id) := by
  refine ⟨fun u w huw hu => ?_, fun u => ?_, fun u => ?_, mt (hsub.mem ·) h.unused_ne,
    fun i hi => (h.unused_le i (hsub.mem hi)).trans hlargest, hsub.nodup h.unused_nodup,
    fun hl => ?_⟩
  · by_cases hv : u = v
    · rw [hv, Function.update_self, Function.update_of_ne (Ne.symm (hv ▸ huw))]
      exact (hheld w).symm
    · rw [Function.update_of_ne hv] at hu ⊢
      by_cases hw : w = v
      · rw [hw, Function.update_self]
        exact hheld u
      · rw [Function.update_of_ne hw]
        exact h.distinct u w huw hu
  · by_cases hv : u = v
    · rw [hv, Function.update_self]
      exact hle
    · rw [Function.update_of_ne hv]
      exact (h.held_le u).trans hlargest
  · by_cases hv : u = v
    · rw [hv, Function.update_self]
      exact hunused
    · rw [Function.update_of_ne hv]
      exact mt (hsub.mem ·) (h.held_unused u)
  · have hnil := h.unused_linear (hpolicy.symm.trans hl)
    exact List.sublist_nil.mp (hnil ▸ hsub)

theorem Guards.issue (h : m.Guards ids) (v : ι) : m.Grants ids v m.issue := by
  unfold Issuer.issue
  cases hu : m.unused with
  | nil =>
    have hheld (u : ι) : ids u ≠ m.largest + 1 := (Nat.lt_succ_of_le (h.held_le u)).ne
    have hguards : Guards { m with largest := m.largest + 1, unused := [] }
        (Function.update ids v (m.largest + 1)) :=
      h.hold v hheld List.not_mem_nil (Nat.le_refl _) (Nat.le_succ _)
        (List.nil_sublist _) rfl
    exact ⟨Nat.succ_ne_zero _, hguards, rfl, Nat.le_succ _, fun _ => Nat.lt_succ_self _⟩
  | cons id rest =>
    have hmem : id ∈ m.unused := by simp [hu]
    have hid : id ≠ passive := fun hp => h.unused_ne (hp ▸ hmem)
    have hheld (u : ι) : ids u ≠ id := fun hi => h.held_unused u (hi ▸ hmem)
    have hnodup := h.unused_nodup
    rw [hu, List.nodup_cons] at hnodup
    have hguards : Guards { m with unused := rest } (Function.update ids v id) :=
      h.hold v hheld hnodup.1 (h.unused_le id hmem) (Nat.le_refl _)
        (hu ▸ List.sublist_cons_self id rest) rfl
    refine ⟨hid, hguards, rfl, Nat.le_refl _, fun hl => ?_⟩
    have hnil := h.unused_linear hl
    rw [hu] at hnil
    cases hnil

theorem Guards.retire (h : m.Guards ids) (v : ι) :
    Yields (m.retire (ids v)) fun m' => m'.Guards (Function.update ids v passive) ∧
      m'.policy = m.policy ∧ m'.largest = m.largest := by
  unfold Issuer.retire
  split
  · exact .ok ⟨h.update_passive v, rfl, rfl⟩
  · rename_i hpolicy
    by_cases hid : ids v = passive
    · rw [if_pos hid]
      exact .ok ⟨h.update_passive v, rfl, rfl⟩
    · rw [if_neg hid, if_pos (h.held_le v)]
      have hv := h.update_passive v
      refine .ok ⟨⟨hv.distinct, hv.held_le, ?_, ?_, ?_, ?_, ?_⟩, rfl, rfl⟩
      · intro u
        by_cases hu : u = v
        · rw [hu, Function.update_self]
          simpa using ⟨Ne.symm hid, h.unused_ne⟩
        · rw [Function.update_of_ne hu]
          have hne := h.distinct v u (Ne.symm hu) hid
          simpa using ⟨hne.symm, h.held_unused u⟩
      · simpa using ⟨Ne.symm hid, h.unused_ne⟩
      · simpa using ⟨h.held_le v, h.unused_le⟩
      · simpa using ⟨h.held_unused v, h.unused_nodup⟩
      · intro hl
        rw [hpolicy] at hl
        cases hl

theorem Guards.exchange (h : m.Guards ids) (v : ι) :
    Yields (m.exchange (ids v)) (m.Grants ids v) := by
  refine (h.retire v).bind fun m₁ h₁ => .ok ?_
  have hissue := h₁.1.issue v
  refine ⟨hissue.ne_passive, ?_, hissue.policy_eq.trans h₁.2.1, h₁.2.2 ▸ hissue.largest_le, ?_⟩
  · have hg := hissue.guards
    rwa [Function.update_idem] at hg
  · intro hl
    exact h₁.2.2 ▸ hissue.fresh (h₁.2.1.trans hl)

theorem Guards.settle (h : m.Guards ids) (v : ι) : m.Grants ids v (m.settle (ids v)) := by
  unfold Issuer.settle
  split
  · exact h.issue v
  · rename_i hpolicy
    by_cases hid : ids v = passive
    · rw [if_pos hid]
      exact h.issue v
    · rw [if_neg hid]
      refine ⟨hid, ?_, rfl, Nat.le_refl _, fun hl => ?_⟩
      · simpa only [Function.update_eq_self] using h
      · rw [hpolicy] at hl
        cases hl

theorem Guards.replace (h : m.Guards ids) (v : ι) :
    Yields (m.issue.2.retire (ids v)) fun m' => m.Grants ids v (m.issue.1, m') := by
  -- While the variable has both identifiers, the new one belongs to an owner of its own.
  have hwide : m.Guards fun o : Option ι => o.elim passive ids := by
    refine ⟨?_, ?_, ?_, h.unused_ne, h.unused_le, h.unused_nodup, h.unused_linear⟩
    · rintro (_ | u) (_ | w) huw hu
      · exact absurd rfl huw
      · exact absurd rfl hu
      · exact hu
      · exact h.distinct u w (fun h => huw (congrArg some h)) hu
    · rintro (_ | u)
      · exact Nat.zero_le _
      · exact h.held_le u
    · rintro (_ | u)
      · exact h.unused_ne
      · exact h.held_unused u
  have hissue := hwide.issue none
  refine (hissue.guards.retire (some v)).mono fun m' h' => ?_
  refine ⟨hissue.ne_passive, ?_, h'.2.1.trans hissue.policy_eq, h'.2.2 ▸ hissue.largest_le,
    hissue.fresh⟩
  have hnarrow (u : ι) : Function.update ids v m.issue.1 u =
      Function.update (Function.update (fun o : Option ι => o.elim passive ids) none m.issue.1)
        (some v) passive (if u = v then none else some u) := by
    by_cases hu : u = v
    · simp [hu]
    · simp [hu]
  have hg := h'.1
  refine ⟨fun u w huw hu => ?_, fun u => ?_, fun u => ?_, hg.unused_ne, hg.unused_le,
    hg.unused_nodup, hg.unused_linear⟩
  · rw [hnarrow] at hu ⊢
    rw [hnarrow w]
    refine hg.distinct _ _ (fun h => huw ?_) hu
    by_cases hu : u = v <;> by_cases hw : w = v <;> simp_all
  · rw [hnarrow]
    exact hg.held_le _
  · rw [hnarrow]
    exact hg.held_unused _

end Autodiff.Issuer
