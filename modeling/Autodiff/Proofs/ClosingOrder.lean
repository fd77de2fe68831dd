import Autodiff.Proofs.Scopes

namespace Autodiff

variable {K : Type}

def Scope.type : Scope K → K
  | guard type _ => type
  | loan type _ => type

inductive Opened (K : Type)
  | guard (g : Guard K) (tape : Nat)
  | loan (type : K) (tape : Nat)

namespace Opened

def scope : Opened K → Scope K
  | guard g i => .guard g.type i
  | loan type i => .loan type i

def previous : Opened K → Option Occupant
  | guard g _ => g.previous
  | loan _ i => some (.tape i)

variable [DecidableEq K]

def close (m : ActiveTapes K) : Opened K → ActiveTapes K
  | guard g _ => m.restore g
  | loan type i => m.giveBack type i

theorem close_eq (m : ActiveTapes K) (s : Opened K) : s.close m = m.set s.scope.type s.previous := by
  cases s <;> rfl

end Opened

structure Thread (K : Type) where
  active : ActiveTapes K
  opened : List (Opened K)

namespace Thread

def idle : Thread K := ⟨.none, []⟩

def scopes (t : Thread K) : List (Scope K) := t.opened.map Opened.scope

variable [DecidableEq K]

def call (t : Thread K) (type : K) : Except Fault Nat := (t.active.borrow type).1

inductive Steps (admits : List (Opened K) → Opened K → Prop) : Thread K → Thread K → Prop
  | activate (t : Thread K) (type : K) (i : Nat) : Steps admits t
      ⟨(t.active.activate type i).2, .guard (t.active.activate type i).1 i :: t.opened⟩
  | borrow {t : Thread K} {type : K} {i : Nat} {active : ActiveTapes K}
      (h : t.active.borrow type = (.ok i, active)) :
      Steps admits t ⟨active, .loan type i :: t.opened⟩
  | close {m : ActiveTapes K} (inner : List (Opened K)) {outer : List (Opened K)} {s : Opened K}
      (h : admits inner s) : Steps admits ⟨m, inner ++ s :: outer⟩ ⟨s.close m, inner ++ outer⟩

def Reaches (admits : List (Opened K) → Opened K → Prop) : Thread K → Thread K → Prop :=
  Relation.ReflTransGen (Steps admits)

def LastOfType (inner : List (Opened K)) (s : Opened K) : Prop :=
  ∀ s' ∈ inner, s'.scope.type ≠ s.scope.type

inductive Stacked : List (Opened K) → Option Occupant → Prop
  | nil : Stacked [] none
  | guard {os : List (Opened K)} {g : Guard K} (h : Stacked os g.previous) (i : Nat) :
      Stacked (.guard g i :: os) (some (.tape i))
  | loan {os : List (Opened K)} {i : Nat} (h : Stacked os (some (.tape i))) (type : K) :
      Stacked (.loan type i :: os) (some .lent)

def ofType (os : List (Opened K)) (type : K) : List (Opened K) :=
  os.filter fun s => s.scope.type = type

def Ordered (t : Thread K) : Prop := ∀ type, Stacked (ofType t.opened type) (t.active type)

variable {t t' : Thread K} {type : K} {o : Option Occupant}

omit [DecidableEq K] in
theorem Stacked.tail {s : Opened K} {os : List (Opened K)} (h : Stacked (s :: os) o) :
    Stacked os s.previous := by
  cases h with
  | guard h _ => exact h
  | loan h _ => exact h

theorem ofType_cons_self {s : Opened K} (os : List (Opened K)) (hs : s.scope.type = type) :
    ofType (s :: os) type = s :: ofType os type :=
  List.filter_cons_of_pos (by simpa using hs)

theorem ofType_cons_other {s : Opened K} (os : List (Opened K)) (hs : s.scope.type ≠ type) :
    ofType (s :: os) type = ofType os type :=
  List.filter_cons_of_neg (by simpa using hs)

theorem ofType_append (os os' : List (Opened K)) :
    ofType (os ++ os') type = ofType os type ++ ofType os' type :=
  List.filter_append os os'

theorem Stacked.standing {os : List (Opened K)} (h : Stacked (ofType os type) o) :
    Standing (os.map Opened.scope) type o := by
  induction os generalizing o with
  | nil =>
    cases h
    exact .absent fun _ => List.not_mem_nil
  | cons s os ih =>
    by_cases hs : s.scope.type = type
    · rw [ofType_cons_self _ hs] at h
      cases h with
      | guard h i =>
        cases hs
        exact .guard _ _ i
      | loan h type' =>
        cases hs
        exact (ih h).loan
    · rw [ofType_cons_other _ hs] at h
      refine (ih h).cons (fun j hj => hs ?_) fun j hj => hs ?_
      all_goals
        rw [hj]
        rfl

theorem LastOfType.ofType_eq {inner : List (Opened K)} {s : Opened K} (h : LastOfType inner s) :
    ofType inner s.scope.type = [] := by
  apply List.filter_eq_nil_iff.mpr
  intro s' hs'
  simpa using h s' hs'

theorem Ordered.cons {s : Opened K} (h : t.Ordered)
    (hs : Stacked (s :: ofType t.opened s.scope.type) o) :
    Ordered ⟨t.active.set s.scope.type o, s :: t.opened⟩ := by
  intro type
  change Stacked (ofType (s :: t.opened) type) (t.active.set s.scope.type o type)
  by_cases heq : type = s.scope.type
  · subst heq
    rwa [ofType_cons_self _ rfl, ActiveTapes.set_same]
  · rw [ofType_cons_other _ (Ne.symm heq), ActiveTapes.set_other heq]
    exact h type

theorem Ordered.close {m : ActiveTapes K} {inner outer : List (Opened K)} {s : Opened K}
    (h : Ordered ⟨m, inner ++ s :: outer⟩) (hs : LastOfType inner s) :
    Ordered ⟨s.close m, inner ++ outer⟩ := by
  intro type
  have htype : Stacked (ofType (inner ++ s :: outer) type) (m type) := h type
  change Stacked (ofType (inner ++ outer) type) (s.close m type)
  rw [ofType_append] at htype ⊢
  rw [Opened.close_eq]
  by_cases heq : type = s.scope.type
  · subst heq
    rw [hs.ofType_eq, List.nil_append, ofType_cons_self _ rfl] at htype
    rw [hs.ofType_eq, List.nil_append, ActiveTapes.set_same]
    exact htype.tail
  · rw [ofType_cons_other _ (Ne.symm heq)] at htype
    rwa [ActiveTapes.set_other heq]

theorem Ordered.step (h : t.Ordered) (hstep : Steps LastOfType t t') : t'.Ordered := by
  cases hstep with
  | activate _ type i => exact h.cons (s := .guard _ i) (.guard (h type) i)
  | @borrow _ type i active hborrow =>
    obtain ⟨hi, rfl⟩ := ActiveTapes.of_borrow_eq_ok hborrow
    exact h.cons (s := .loan type i) (.loan (hi ▸ h type) type)
  | close _ hlast => exact h.close hlast

theorem Reaches.ordered (h : Reaches LastOfType t t') (ht : t.Ordered) : t'.Ordered := by
  induction h with
  | refl => exact ht
  | tail _ hstep ih => exact ih.step hstep

theorem ordered_calls_follow_scopes (h : Reaches LastOfType idle t) (type : K) :
    (∀ i, t.call type = .ok i ↔
      ∃ inner, Innermost t.scopes inner type i ∧ ∀ j, .loan type j ∉ inner) ∧
    (t.call type = .error .noActiveTape ↔ ∀ i, .guard type i ∉ t.scopes) ∧
    (t.call type = .error .tapeAlreadyBorrowed ↔
      ∃ i inner, Innermost t.scopes inner type i ∧ .loan type i ∈ inner) := by
  have hordered : t.Ordered := h.ordered fun _ => .nil
  have hentry {o : Option Occupant} : t.active type = o ↔ Standing t.scopes type o :=
    ⟨fun ho => ho ▸ (hordered type).standing, fun ho => ho.unique (hordered type).standing⟩
  refine ⟨fun i => ?_, ?_, ?_⟩
  · exact ActiveTapes.borrow_eq_ok_iff.trans (hentry.trans standing_tape_iff)
  · exact ActiveTapes.borrow_eq_none_iff.trans (hentry.trans standing_none_iff)
  · exact ActiveTapes.borrow_eq_lent_iff.trans (hentry.trans standing_lent_iff)

/-- Two guards end in the order in which they were made. Then a call fails while the second one is
alive, and once it is gone too a call gets the tape of the first. -/
theorem unordered_calls_stray :
    (∃ t : Thread Unit, Reaches (fun _ _ => True) idle t ∧ t.scopes = [.guard () 1] ∧
      t.call () = .error .noActiveTape) ∧
    ∃ t : Thread Unit, Reaches (fun _ _ => True) idle t ∧ t.scopes = [] ∧ t.call () = .ok 0 := by
  have hboth : Reaches (fun _ _ => True) (idle : Thread Unit) _ :=
    .head (.activate _ () 0) (.head (.activate _ () 1) .refl)
  have hfirst := hboth.tail (.close [_] trivial)
  have hsecond := hfirst.tail (.close [] trivial)
  exact ⟨⟨_, hfirst, rfl, rfl⟩, _, hsecond, rfl, rfl⟩

end Thread

end Autodiff
