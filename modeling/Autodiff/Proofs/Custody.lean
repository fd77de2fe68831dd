import Autodiff.Proofs.Ownership
/-!
Identifiers that several variables may share. An identifier may be given back by its last holder
only: then none that a variable holds waits for reuse, and every new one is held by nobody.
-/

namespace Autodiff.Issuer

variable {n : ℕ} {m m' m'' : Issuer} {ids ids' ids'' : Fin n → Identifier} {v : Fin n}
  {id : Identifier}

def Sole (ids : Fin n → Identifier) (v : Fin n) : Prop :=
  ids v ≠ passive → ∀ w, w ≠ v → ids w ≠ ids v

theorem sole_of_passive (h : ids v = passive) : Sole ids v := fun hv => absurd h hv

theorem sole_update (h : ∀ w, w ≠ v → ids w ≠ id) : Sole (Function.update ids v id) v := by
  intro _ w hw
  rw [Function.update_self, Function.update_of_ne hw]
  exact h w hw

/-- The identifiers themselves as owners: each one that some variable holds owns itself. -/
def owners (ids : Fin n → Identifier) (id : Identifier) : Identifier :=
  if ∃ v, ids v = id then id else passive

theorem owners_held (ids : Fin n → Identifier) (v : Fin n) : owners ids (ids v) = ids v :=
  if_pos ⟨v, rfl⟩

theorem owners_passive (ids : Fin n → Identifier) : owners ids passive = passive := by
  rw [owners, ite_self]

theorem owners_of_forall_ne (h : ∀ v, ids v ≠ id) : owners ids id = passive := by
  refine if_neg ?_
  rintro ⟨v, hv⟩
  exact h v hv

theorem owners_update (hv : Sole ids v) (id : Identifier) :
    owners (Function.update ids v id) =
      Function.update (Function.update (owners ids) (ids v) passive) id id := by
  funext o
  by_cases ho : o = id
  · subst ho
    rw [Function.update_self]
    exact if_pos ⟨v, Function.update_self ..⟩
  · rw [Function.update_of_ne ho]
    by_cases hov : o = ids v
    · rw [hov, Function.update_self]
      by_cases hp : ids v = passive
      · rw [hp, owners_passive]
      · apply owners_of_forall_ne
        intro w
        by_cases hw : w = v
        · rw [hw, Function.update_self, ← hov]
          exact Ne.symm ho
        · rw [Function.update_of_ne hw]
          exact hv hp w hw
    · rw [Function.update_of_ne hov, owners, owners]
      congr 1
      apply propext
      constructor
      · rintro ⟨w, hw⟩
        by_cases hwv : w = v
        · rw [hwv, Function.update_self] at hw
          exact absurd hw.symm ho
        · exact ⟨w, by rwa [Function.update_of_ne hwv] at hw⟩
      · rintro ⟨w, hw⟩
        refine ⟨w, ?_⟩
        rw [Function.update_of_ne, hw]
        rintro rfl
        exact hov hw.symm

def Lends (m : Issuer) (ids : Fin n → Identifier) : Prop := m.Guards (owners ids)

/-- Of what a reusing issuer has issued, all that nobody holds waits for reuse. -/
def Covers (m : Issuer) (held : Set Identifier) : Prop :=
  m.policy = .reuse → ∀ id, id ≠ passive → id ≤ m.largest → id ∈ m.unused ∨ id ∈ held

theorem Guards.restrict {ι : Type} {own own' : ι → Identifier} (h : m.Guards own)
    (hown : ∀ o, own' o = own o ∨ own' o = passive) : m.Guards own' := by
  refine ⟨fun o q hoq ho => ?_, fun o => ?_, fun o => ?_, h.unused_ne, h.unused_le,
    h.unused_nodup, h.unused_linear⟩
  · rcases hown o with h₁ | h₁
    · rw [h₁] at ho ⊢
      rcases hown q with h₂ | h₂
      · rw [h₂]
        exact h.distinct o q hoq ho
      · rw [h₂]
        exact ho
    · exact absurd h₁ ho
  · rcases hown o with ho | ho
    · rw [ho]
      exact h.held_le o
    · rw [ho]
      exact Nat.zero_le _
  · rcases hown o with ho | ho
    · rw [ho]
      exact h.held_unused o
    · rw [ho]
      exact h.unused_ne

theorem Guards.issue_ne {ι : Type} {own : ι → Identifier} (h : m.Guards own) (o : ι) :
    own o ≠ m.issue.1 := by
  unfold Issuer.issue
  cases hu : m.unused with
  | nil => exact (Nat.lt_succ_of_le (h.held_le o)).ne
  | cons id rest =>
    rintro rfl
    exact h.held_unused o (by simp [hu])

namespace Lends

theorem held_le (h : m.Lends ids) (v : Fin n) : ids v ≤ m.largest := by
  have hle := Guards.held_le h (ids v)
  rwa [owners_held] at hle

theorem held_unused (h : m.Lends ids) (v : Fin n) : ids v ∉ m.unused := by
  have hnot := Guards.held_unused h (ids v)
  rwa [owners_held] at hnot

theorem issue_ne (h : m.Lends ids) (v : Fin n) : ids v ≠ m.issue.1 := by
  have hne := Guards.issue_ne h (ids v)
  rwa [owners_held] at hne

theorem mono (h : m.Lends ids) (hids : ∀ v, ids' v = passive ∨ ∃ w, ids w = ids' v) :
    m.Lends ids' := by
  apply Guards.restrict h
  intro o
  by_cases ho : ∃ v, ids' v = o
  · obtain ⟨v, rfl⟩ := ho
    rw [owners_held]
    rcases hids v with hv | ⟨w, hw⟩
    · exact .inr hv
    · exact .inl (if_pos ⟨w, hw⟩).symm
  · exact .inr (if_neg ho)

theorem forget (h : m.Lends ids) (v : Fin n) : m.Lends (Function.update ids v passive) := by
  apply h.mono
  intro w
  by_cases hw : w = v
  · left
    rw [hw, Function.update_self]
  · right
    exact ⟨w, (Function.update_of_ne hw ..).symm⟩

theorem copy (h : m.Lends ids) (u v : Fin n) : m.Lends (Function.update ids v (ids u)) := by
  apply h.mono
  intro w
  by_cases hw : w = v
  · exact .inr ⟨u, by rw [hw, Function.update_self]⟩
  · exact .inr ⟨w, (Function.update_of_ne hw ..).symm⟩

end Lends

theorem lends_new (policy : Policy) : (new policy).Lends fun _ : Fin n => passive := by
  apply (guards_new policy).restrict
  intro o
  right
  rw [owners]
  split
  case isTrue h =>
    obtain ⟨_, rfl⟩ := h
    rfl
  case isFalse => rfl

namespace Covers

variable {held held' : Set Identifier}

theorem mono (h : m.Covers held) (hsub : ∀ id ∈ held, id ≠ passive → id ∈ held') :
    m.Covers held' :=
  fun hp id hid hle => (h hp id hid hle).imp_right fun hheld => hsub id hheld hid

theorem issue (h : m.Covers held) : m.issue.2.Covers (insert m.issue.1 held) := by
  intro hp id hid hle
  rw [policy_issue] at hp
  have hold := h hp id hid
  unfold Issuer.issue at hle ⊢
  cases hu : m.unused with
  | nil =>
    simp only [hu, Set.mem_insert_iff] at hle hold ⊢
    rcases Nat.of_le_succ hle with hle | rfl
    · exact (hold hle).imp_right .inr
    · exact .inr (.inl rfl)
  | cons first rest =>
    simp only [hu, List.mem_cons, Set.mem_insert_iff] at hle hold ⊢
    rcases hold hle with (hfirst | hrest) | hheld
    · exact .inr (.inl hfirst)
    · exact .inl hrest
    · exact .inr (.inr hheld)

theorem retire (h : m.Covers held) (hm : m.retire id = .ok m') : m'.Covers (held \ {id}) := by
  intro hp o ho hle
  rw [policy_retire hm] at hp
  have hback : m'.largest = m.largest ∧ (o ∈ m.unused ∨ o = id → o ∈ m'.unused) := by
    rw [Issuer.retire, hp] at hm
    dsimp only at hm
    split at hm
    case isTrue hid =>
      cases hm
      exact ⟨rfl, fun h => h.resolve_right fun hi => ho (hi.trans hid)⟩
    case isFalse =>
      split at hm
      case isTrue =>
        cases hm
        exact ⟨rfl, fun h => List.mem_cons.mpr h.symm⟩
      case isFalse => cases hm
  obtain ⟨hlargest, hunused⟩ := hback
  rcases h hp o ho (hlargest ▸ hle) with hu | hheld
  · exact .inl (hunused (.inl hu))
  · by_cases hi : o = id
    · exact .inl (hunused (.inr hi))
    · exact .inr ⟨hheld, hi⟩

end Covers

theorem mem_range_update {o : Identifier} (h : o ∈ Set.range ids) (hv : o ≠ ids v) :
    o ∈ Set.range (Function.update ids v id) := by
  obtain ⟨w, rfl⟩ := h
  refine ⟨w, Function.update_of_ne ?_ ..⟩
  rintro rfl
  exact hv rfl

theorem mem_range_update_self (ids : Fin n → Identifier) (v : Fin n) (id : Identifier) :
    id ∈ Set.range (Function.update ids v id) := ⟨v, Function.update_self ..⟩

def within (m : Issuer) (largest : Identifier) (ids : Fin n → Identifier) (v : Fin n) :
    Identifier :=
  if m.policy = .linear ∧ largest < ids v then passive else ids v

theorem within_cases (m : Issuer) (largest : Identifier) (ids : Fin n → Identifier) (v : Fin n) :
    m.within largest ids v = passive ∨ m.within largest ids v = ids v := ite_eq_or_eq ..

theorem within_le (hp : m.policy = .linear) (largest : Identifier) (ids : Fin n → Identifier)
    (v : Fin n) : m.within largest ids v ≤ largest := by
  rw [within]
  split
  case isTrue => exact Nat.zero_le _
  case isFalse h => exact not_lt.mp fun hlt => h ⟨hp, hlt⟩

theorem within_reuse (hp : m.policy = .reuse) (largest : Identifier) (ids : Fin n → Identifier) :
    m.within largest ids = ids := by
  funext v
  rw [within, hp]
  exact if_neg fun h => nomatch h.1

theorem Sole.within (h : Sole ids v) (m : Issuer) (largest : Identifier) :
    Sole (m.within largest ids) v := by
  intro hne w hw
  rcases within_cases m largest ids v with hv | hv
  · exact absurd hv hne
  · rw [hv] at hne ⊢
    rcases within_cases m largest ids w with hw' | hw'
    · rw [hw']
      exact Ne.symm hne
    · rw [hw']
      exact h hne w hw

theorem Lends.rewind {largest : Identifier} (h : m.Lends ids) (hm : m.rewind largest = .ok m') :
    m'.Lends (m.within largest ids) := by
  have hwithin : m.Guards (owners (m.within largest ids)) := by
    apply h.mono
    intro v
    exact (within_cases m largest ids v).imp_right fun hv => ⟨v, hv.symm⟩
  cases hp : m.policy with
  | linear =>
    have hunused := hwithin.unused_linear hp
    rw [Issuer.rewind, hp] at hm
    dsimp only at hm
    split at hm
    case isFalse => cases hm
    case isTrue =>
      cases hm
      refine ⟨hwithin.distinct, fun o => ?_, hwithin.held_unused, hwithin.unused_ne,
        fun id hid => ?_, hwithin.unused_nodup, fun _ => hunused⟩
      · rw [owners]
        split
        case isTrue ho =>
          obtain ⟨v, rfl⟩ := ho
          exact within_le hp largest ids v
        case isFalse => exact Nat.zero_le _
      · rw [hunused] at hid
        cases hid
  | reuse =>
    rw [Issuer.rewind, hp] at hm
    cases hm
    exact hwithin

theorem Covers.rewind {largest : Identifier} (h : m.Covers (Set.range ids))
    (hm : m.rewind largest = .ok m') : m'.Covers (Set.range (m.within largest ids)) := by
  intro hp
  rw [(policy_rewind hm).1] at hp
  rw [within_reuse hp]
  rw [Issuer.rewind, hp] at hm
  cases hm
  exact h hp

structure Handover (m : Issuer) (ids : Fin n → Identifier) (m' : Issuer)
    (ids' : Fin n → Identifier) : Prop where
  lends : m'.Lends ids'
  policy_eq : m'.policy = m.policy
  largest_le : m.largest ≤ m'.largest
  changed : ∀ v, ids' v = ids v ∨ Sole ids' v
  covers : m.Covers (Set.range ids) → m'.Covers (Set.range ids')

namespace Handover

theorem refl (h : m.Lends ids) : m.Handover ids m ids :=
  ⟨h, rfl, Nat.le_refl _, fun _ => .inl rfl, id⟩

theorem sole (h : m.Handover ids m' ids') (hv : Sole ids v) : Sole ids' v := by
  rcases h.changed v with hkept | hsole
  · intro hne w hw
    rcases h.changed w with hw' | hw'
    · rw [hw', hkept]
      exact hv (hkept ▸ hne) w hw
    · by_cases hp : ids' w = passive
      · rw [hp]
        exact Ne.symm hne
      · exact (hw' hp v (Ne.symm hw)).symm
  · exact hsole

theorem trans (h : m.Handover ids m' ids') (h' : m'.Handover ids' m'' ids'') :
    m.Handover ids m'' ids'' where
  lends := h'.lends
  policy_eq := h'.policy_eq.trans h.policy_eq
  largest_le := h.largest_le.trans h'.largest_le
  changed v := by
    rcases h'.changed v with hv' | hv'
    · rcases h.changed v with hv | hv
      · exact .inl (hv'.trans hv)
      · exact .inr (h'.sole hv)
    · exact .inr hv'
  covers := h'.covers ∘ h.covers

theorem of_update {v : Fin n} (hlends : m'.Lends (Function.update ids v id))
    (hpolicy : m'.policy = m.policy) (hlargest : m.largest ≤ m'.largest)
    (hsole : Sole (Function.update ids v id) v)
    (hcovers : m.Covers (Set.range ids) → m'.Covers (Set.range (Function.update ids v id))) :
    m.Handover ids m' (Function.update ids v id) := by
  refine ⟨hlends, hpolicy, hlargest, fun w => ?_, hcovers⟩
  by_cases hw : w = v
  · right
    rwa [hw]
  · left
    rw [Function.update_of_ne hw]

theorem take (h : m.Lends ids) (hv : ids v = passive) :
    m.Handover ids m.issue.2 (Function.update ids v m.issue.1) := by
  have hx := Guards.issue h m.issue.1
  have hnone : Function.update (owners ids) passive passive = owners ids :=
    Function.update_eq_self_iff.mpr (owners_passive ids).symm
  have howners : owners (Function.update ids v m.issue.1) =
      Function.update (owners ids) m.issue.1 m.issue.1 := by
    rw [owners_update (sole_of_passive hv), hv, hnone]
  refine .of_update ?_ hx.policy_eq hx.largest_le (sole_update fun w _ => h.issue_ne w)
    fun hc => hc.issue.mono fun id hid hne => ?_
  · rw [Lends, howners]
    exact hx.guards
  · rcases Set.mem_insert_iff.mp hid with rfl | hid
    · exact mem_range_update_self ..
    · exact mem_range_update hid (hv ▸ hne)

theorem give (h : m.Lends ids) (hsole : m.policy = .reuse → Sole ids v) :
    Yields (m.retire (ids v)) fun m' => m.Handover ids m' (Function.update ids v passive) := by
  have hpassive : Sole (Function.update ids v passive) v :=
    sole_of_passive (Function.update_self ..)
  have hcovers {m'} (hm : m.retire (ids v) = .ok m') (hc : m.Covers (Set.range ids)) :
      m'.Covers (Set.range (Function.update ids v passive)) :=
    (hc.retire hm).mono fun id hid _ => mem_range_update hid.1 hid.2
  cases hp : m.policy with
  | linear =>
    have hretire : m.retire (ids v) = .ok m := by rw [Issuer.retire, hp]
    exact ⟨m, hretire, .of_update (h.forget v) rfl (Nat.le_refl _) hpassive (hcovers hretire)⟩
  | reuse =>
    obtain ⟨m', hm, hguards, hpolicy, hlargest⟩ := Guards.retire h (ids v)
    rw [owners_held] at hm
    have howners : owners (Function.update ids v passive) =
        Function.update (owners ids) (ids v) passive := by
      rw [owners_update (hsole hp), Function.update_eq_self_iff]
      by_cases hv : passive = ids v
      · rw [hv, Function.update_self]
      · rw [Function.update_of_ne hv, owners_passive]
    refine ⟨m', hm, .of_update ?_ hpolicy hlargest.ge hpassive (hcovers hm)⟩
    rw [Lends, howners]
    exact hguards

theorem exchange (h : m.Lends ids) (hsole : m.policy = .reuse → Sole ids v) :
    Yields (m.exchange (ids v)) fun x => m.Handover ids x.2 (Function.update ids v x.1) := by
  refine (give h hsole).bind fun m₁ h₁ => .ok ?_
  have h₂ := take h₁.lends (Function.update_self v passive ids)
  rw [Function.update_idem] at h₂
  exact h₁.trans h₂

theorem settle (h : m.Lends ids) (v : Fin n) :
    m.Handover ids (m.settle (ids v)).2 (Function.update ids v (m.settle (ids v)).1) := by
  cases hp : m.policy with
  | linear =>
    -- A linear issuer takes nothing back, so settling is an exchange there.
    have hexchange : m.exchange (ids v) = .ok (m.settle (ids v)) := by
      rw [Issuer.exchange, Issuer.retire, Issuer.settle, hp]
      rfl
    obtain ⟨x, hx, hover⟩ := exchange (v := v) h fun hr => by rw [hp] at hr; cases hr
    obtain rfl := Except.ok.inj (hexchange.symm.trans hx)
    exact hover
  | reuse =>
    rw [Issuer.settle, hp]
    dsimp only
    split
    case isTrue hv => exact take h hv
    case isFalse =>
      rw [Function.update_eq_self]
      exact refl h

theorem replace (h : m.Lends ids) (hsole : m.policy = .reuse → Sole ids v) :
    Yields (m.issue.2.retire (ids v)) fun m' =>
      m.Handover ids m' (Function.update ids v m.issue.1) := by
  cases hp : m.policy with
  | linear =>
    have hsettle : m.settle (ids v) = m.issue := by rw [Issuer.settle, hp]
    have hretire : m.issue.2.retire (ids v) = .ok m.issue.2 := by
      rw [Issuer.retire, policy_issue, hp]
    exact ⟨m.issue.2, hretire, hsettle ▸ settle h v⟩
  | reuse =>
    have hnew := h.issue_ne v
    have hx := Guards.issue h m.issue.1
    obtain ⟨m', hm, hguards, hpolicy, hlargest⟩ := hx.guards.retire (ids v)
    rw [Function.update_of_ne hnew, owners_held] at hm
    refine ⟨m', hm, .of_update ?_ (hpolicy.trans hx.policy_eq) (hx.largest_le.trans hlargest.ge)
      (sole_update fun w _ => h.issue_ne w) fun hc => (hc.issue.retire hm).mono fun id hid _ => ?_⟩
    · rw [Lends, owners_update (hsole hp), Function.update_comm hnew]
      exact hguards
    · rcases Set.mem_insert_iff.mp hid.1 with rfl | hheld
      · exact mem_range_update_self ..
      · exact mem_range_update hheld hid.2

end Handover

end Autodiff.Issuer
