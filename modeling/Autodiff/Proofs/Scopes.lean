import Autodiff.Scenario
import Mathlib.Logic.Relation

namespace Autodiff

variable {K U T : Type}

inductive Scope (K : Type)
  | guard (type : K) (tape : Nat)
  | loan (type : K) (tape : Nat)

structure Innermost (scopes inner : List (Scope K)) (type : K) (i : Nat) : Prop where
  split : ∃ outer, scopes = inner ++ .guard type i :: outer
  no_guard : ∀ j, .guard type j ∉ inner

theorem Innermost.cons {scopes inner : List (Scope K)} {type : K} {i : Nat} {s : Scope K}
    (h : Innermost scopes inner type i) (hs : ∀ j, s ≠ .guard type j) :
    Innermost (s :: scopes) (s :: inner) type i := by
  obtain ⟨outer, rfl⟩ := h.split
  refine ⟨⟨outer, rfl⟩, fun j hj => ?_⟩
  rcases List.mem_cons.mp hj with hj | hj
  · exact hs j hj.symm
  · exact h.no_guard j hj

theorem Innermost.unique {scopes inner inner' : List (Scope K)} {type : K} {i i' : Nat}
    (h : Innermost scopes inner type i) (h' : Innermost scopes inner' type i') :
    inner = inner' ∧ i = i' := by
  obtain ⟨outer, rfl⟩ := h.split
  obtain ⟨outer', hsplit⟩ := h'.split
  have hno := h.no_guard
  have hno' := h'.no_guard
  clear h h'
  induction inner generalizing inner' with
  | nil =>
    cases inner' with
    | nil =>
      cases hsplit
      exact ⟨rfl, rfl⟩
    | cons s inner' =>
      cases hsplit
      exact absurd List.mem_cons_self (hno' i)
  | cons s inner ih =>
    cases inner' with
    | nil =>
      cases hsplit
      exact absurd List.mem_cons_self (hno i')
    | cons s' inner' =>
      rw [List.cons_append, List.cons_append, List.cons.injEq] at hsplit
      obtain ⟨rfl, hsplit⟩ := hsplit
      obtain ⟨rfl, rfl⟩ := ih hsplit (fun j hj => hno j (List.mem_cons_of_mem _ hj))
        fun j hj => hno' j (List.mem_cons_of_mem _ hj)
      exact ⟨rfl, rfl⟩

inductive Standing (scopes : List (Scope K)) (type : K) : Option Occupant → Prop
  | absent (h : ∀ i, .guard type i ∉ scopes) : Standing scopes type none
  | free {i : Nat} {inner : List (Scope K)} (h : Innermost scopes inner type i)
      (hloan : ∀ j, .loan type j ∉ inner) : Standing scopes type (some (.tape i))
  | lent {i : Nat} {inner : List (Scope K)} (h : Innermost scopes inner type i)
      (hloan : .loan type i ∈ inner) : Standing scopes type (some .lent)

theorem Standing.cons {scopes : List (Scope K)} {type : K} {o : Option Occupant} {s : Scope K}
    (h : Standing scopes type o) (hguard : ∀ j, s ≠ .guard type j) (hloan : ∀ j, s ≠ .loan type j) :
    Standing (s :: scopes) type o := by
  cases h with
  | absent h =>
    refine .absent fun i hi => ?_
    rcases List.mem_cons.mp hi with hi | hi
    · exact hguard i hi.symm
    · exact h i hi
  | free h hno =>
    refine .free (h.cons hguard) fun j hj => ?_
    rcases List.mem_cons.mp hj with hj | hj
    · exact hloan j hj.symm
    · exact hno j hj
  | lent h hmem => exact .lent (h.cons hguard) (List.mem_cons_of_mem _ hmem)

theorem Standing.guard (scopes : List (Scope K)) (type : K) (i : Nat) :
    Standing (.guard type i :: scopes) type (some (.tape i)) :=
  .free ⟨⟨scopes, rfl⟩, fun _ => List.not_mem_nil⟩ fun _ => List.not_mem_nil

theorem Standing.loan {scopes : List (Scope K)} {type : K} {i : Nat}
    (h : Standing scopes type (some (.tape i))) :
    Standing (.loan type i :: scopes) type (some .lent) := by
  cases h with
  | free h _ => exact .lent (h.cons fun _ hj => by cases hj) List.mem_cons_self

theorem Innermost.guard_mem {scopes inner : List (Scope K)} {type : K} {i : Nat}
    (h : Innermost scopes inner type i) : .guard type i ∈ scopes := by
  obtain ⟨outer, rfl⟩ := h.split
  exact List.mem_append_right _ List.mem_cons_self

theorem Standing.unique {scopes : List (Scope K)} {type : K} {o o' : Option Occupant}
    (h : Standing scopes type o) (h' : Standing scopes type o') : o' = o := by
  cases h with
  | absent h =>
    cases h' with
    | absent _ => rfl
    | free h' _ => exact absurd h'.guard_mem (h _)
    | lent h' _ => exact absurd h'.guard_mem (h _)
  | free h hno =>
    cases h' with
    | absent h' => exact absurd h.guard_mem (h' _)
    | free h' _ =>
      obtain ⟨-, rfl⟩ := h.unique h'
      rfl
    | lent h' hloan =>
      obtain ⟨rfl, -⟩ := h.unique h'
      exact absurd hloan (hno _)
  | lent h hloan =>
    cases h' with
    | absent h' => exact absurd h.guard_mem (h' _)
    | free h' hno =>
      obtain ⟨rfl, -⟩ := h.unique h'
      exact absurd hloan (hno _)
    | lent _ _ => rfl

theorem standing_none_iff {scopes : List (Scope K)} {type : K} :
    Standing scopes type none ↔ ∀ i, .guard type i ∉ scopes := by
  constructor
  · rintro (h | _ | _)
    exact h
  · exact .absent

theorem standing_tape_iff {scopes : List (Scope K)} {type : K} {i : Nat} :
    Standing scopes type (some (.tape i)) ↔
      ∃ inner, Innermost scopes inner type i ∧ ∀ j, .loan type j ∉ inner := by
  constructor
  · rintro (_ | ⟨h, hno⟩ | _)
    exact ⟨_, h, hno⟩
  · rintro ⟨inner, h, hno⟩
    exact .free h hno

theorem standing_lent_iff {scopes : List (Scope K)} {type : K} :
    Standing scopes type (some .lent) ↔
      ∃ i inner, Innermost scopes inner type i ∧ .loan type i ∈ inner := by
  constructor
  · rintro (_ | _ | ⟨h, hloan⟩)
    exact ⟨_, _, h, hloan⟩
  · rintro ⟨i, inner, h, hloan⟩
    exact .lent h hloan

variable [DecidableEq K] {type : K} {i : Nat}

namespace ActiveTapes

variable {m : ActiveTapes K}

theorem set_set (m : ActiveTapes K) (type : K) (o o' : Option Occupant) :
    (m.set type o).set type o' = m.set type o' := by
  funext type'
  unfold set
  split <;> rfl

theorem set_of_eq {o : Option Occupant} (h : m type = o) : m.set type o = m := by
  funext type'
  rw [set]
  split
  case isTrue heq => rw [heq, h]
  case isFalse => rfl

theorem set_same (m : ActiveTapes K) (type : K) (o : Option Occupant) : m.set type o type = o :=
  if_pos rfl

theorem set_other {type' : K} (hne : type' ≠ type) (o : Option Occupant) :
    m.set type o type' = m type' := if_neg hne

theorem borrow_of_tape (h : m type = some (.tape i)) :
    m.borrow type = (.ok i, m.set type (some .lent)) := by
  rw [borrow, replace, h]

theorem borrow_of_lent (h : m type = some .lent) :
    m.borrow type = (.error .tapeAlreadyBorrowed, m) := by
  rw [borrow, replace, h]
  exact Prod.ext rfl (set_of_eq h)

theorem borrow_of_none (h : m type = .none) : m.borrow type = (.error .noActiveTape, m) := by
  rw [borrow, replace, h]
  exact Prod.ext rfl ((set_set ..).trans (set_of_eq h))

theorem borrow_cases (m : ActiveTapes K) (type : K) :
    (∃ i, m type = some (.tape i) ∧ m.borrow type = (.ok i, m.set type (some .lent))) ∨
      (m type = some .lent ∧ m.borrow type = (.error .tapeAlreadyBorrowed, m)) ∨
      m type = .none ∧ m.borrow type = (.error .noActiveTape, m) := by
  rcases h : m type with _ | (i | _)
  · exact .inr (.inr ⟨rfl, borrow_of_none h⟩)
  · exact .inl ⟨i, rfl, borrow_of_tape h⟩
  · exact .inr (.inl ⟨rfl, borrow_of_lent h⟩)

theorem of_borrow_eq_ok {m' : ActiveTapes K} (h : m.borrow type = (.ok i, m')) :
    m type = some (.tape i) ∧ m' = m.set type (some .lent) := by
  rcases m.borrow_cases type with ⟨j, hj, hborrow⟩ | ⟨-, hborrow⟩ | ⟨-, hborrow⟩
  · cases hborrow.symm.trans h
    exact ⟨hj, rfl⟩
  all_goals cases hborrow.symm.trans h

theorem borrow_eq_ok_iff : (m.borrow type).1 = .ok i ↔ m type = some (.tape i) := by
  rcases m.borrow_cases type with ⟨j, h, hborrow⟩ | ⟨h, hborrow⟩ | ⟨h, hborrow⟩ <;>
    simp [h, hborrow]

theorem borrow_eq_lent_iff :
    (m.borrow type).1 = .error .tapeAlreadyBorrowed ↔ m type = some .lent := by
  rcases m.borrow_cases type with ⟨j, h, hborrow⟩ | ⟨h, hborrow⟩ | ⟨h, hborrow⟩ <;>
    simp [h, hborrow]

theorem borrow_eq_none_iff : (m.borrow type).1 = .error .noActiveTape ↔ m type = .none := by
  rcases m.borrow_cases type with ⟨j, h, hborrow⟩ | ⟨h, hborrow⟩ | ⟨h, hborrow⟩ <;>
    simp [h, hborrow]

inductive Describes : List (Scope K) → ActiveTapes K → Prop
  | nil : Describes [] .none
  | guard {scopes : List (Scope K)} {m : ActiveTapes K} (h : Describes scopes m) (type : K)
      (i : Nat) : Describes (.guard type i :: scopes) (m.set type (some (.tape i)))
  | loan {scopes : List (Scope K)} {m : ActiveTapes K} {type : K} {i : Nat}
      (h : Describes scopes m) (hm : m type = some (.tape i)) :
      Describes (.loan type i :: scopes) (m.set type (some .lent))

theorem Describes.standing_self {scopes : List (Scope K)} (h : Describes scopes m) (type : K) :
    Standing scopes type (m type) := by
  induction h with
  | nil => exact .absent fun _ => List.not_mem_nil
  | guard h type' i ih =>
    by_cases heq : type = type'
    · subst heq
      rw [set_same]
      exact .guard _ _ i
    · rw [set_other heq]
      refine ih.cons (fun j hj => heq ?_) fun _ hj => by cases hj
      cases hj
      rfl
  | @loan _ _ type' i h hm ih =>
    by_cases heq : type = type'
    · subst heq
      rw [hm] at ih
      rw [set_same]
      exact ih.loan
    · rw [set_other heq]
      refine ih.cons (fun _ hj => by cases hj) fun j hj => heq ?_
      cases hj
      rfl

theorem Describes.eq_iff {scopes : List (Scope K)} (h : Describes scopes m)
    {o : Option Occupant} : m type = o ↔ Standing scopes type o := by
  constructor
  · rintro rfl
    exact h.standing_self type
  · exact fun ho => (ho.unique (h.standing_self type))

end ActiveTapes

namespace Nested

variable (perform : U → T → Except Fault Nat × T)

mutual

theorem run_active (borrowed : Option Nat) (w : World K T) :
    ∀ piece : Nested K U, (run perform borrowed w piece).2.active = w.active
  | holding i body => by
    rw [run]
    cases hi : w.tapes[i]? with
    | none => rfl
    | some entry =>
      have hbody := runAll_active none (w.withActive (w.active.activate entry.1 i).2) body
      have hrestored : (runAll perform none (w.withActive (w.active.activate entry.1 i).2)
          body).2.2.active.restore (w.active.activate entry.1 i).1 = w.active := by
        rw [hbody]
        exact (ActiveTapes.set_set ..).trans (ActiveTapes.set_of_eq rfl)
      dsimp only
      split <;> exact hrestored
  | borrowing type catching body => by
    rw [run]
    rcases w.active.borrow_cases type with ⟨i, hi, hborrow⟩ | ⟨-, hborrow⟩ | ⟨-, hborrow⟩
    · have hbody := runAll_active (some i) (w.withActive (w.active.set type (some .lent))) body
      have hback : (runAll perform (some i) (w.withActive (w.active.set type (some .lent)))
          body).2.2.active.giveBack type i = w.active := by
        rw [hbody]
        exact (ActiveTapes.set_set ..).trans (ActiveTapes.set_of_eq hi)
      rw [hborrow]
      dsimp only
      split <;> exact hback
    all_goals
      rw [hborrow]
      rfl
  | attempt piece => by
    have hpiece := run_active borrowed w piece
    rw [run]
    split
    case h_1 hrun => rwa [hrun] at hpiece
    case h_2 hrun => rwa [hrun] at hpiece
  | use u => by
    cases borrowed with
    | none => rfl
    | some i =>
      rw [run]
      split <;> rfl
  | fault text => rfl

theorem runAll_active (borrowed : Option Nat) (w : World K T) :
    ∀ pieces : List (Nested K U), (runAll perform borrowed w pieces).2.2.active = w.active
  | [] => by rw [runAll]
  | piece :: rest => by
    have hpiece := run_active borrowed w piece
    rw [runAll]
    split
    case h_1 hrun => rwa [hrun] at hpiece
    case h_2 w' hrun =>
      rw [hrun] at hpiece
      exact (runAll_active borrowed w' rest).trans hpiece

end

structure Moment (K U T : Type) where
  scopes : List (Scope K)
  borrowed : Option Nat
  world : World K T
  pieces : List (Nested K U)

namespace Moment

def start (tapes : List (K × T)) (pieces : List (Nested K U)) : Moment K U T :=
  ⟨[], none, ⟨.none, tapes⟩, pieces⟩

def call (p : Moment K U T) (type : K) : Except Fault Nat := (p.world.active.borrow type).1

/-- The run goes from one moment to another: on in the same scope once a piece has ended without a
fault, or into a piece. -/
inductive Steps : Moment K U T → Moment K U T → Prop
  | next {scopes : List (Scope K)} {borrowed : Option Nat} {w w' : World K T}
      {piece : Nested K U} {rest : List (Nested K U)} {answer : Answer}
      (h : run perform borrowed w piece = (.ok answer, w')) :
      Steps ⟨scopes, borrowed, w, piece :: rest⟩ ⟨scopes, borrowed, w', rest⟩
  | hold {scopes : List (Scope K)} {borrowed : Option Nat} {w : World K T} {i : Nat}
      {body rest : List (Nested K U)} {entry : K × T} (h : w.tapes[i]? = some entry) :
      Steps ⟨scopes, borrowed, w, .holding i body :: rest⟩
        ⟨.guard entry.1 i :: scopes, none, w.withActive (w.active.activate entry.1 i).2, body⟩
  | lend {scopes : List (Scope K)} {borrowed : Option Nat} {w : World K T} {type : K}
      {catching : Bool} {i : Nat} {body rest : List (Nested K U)} {active : ActiveTapes K}
      (h : w.active.borrow type = (.ok i, active)) :
      Steps ⟨scopes, borrowed, w, .borrowing type catching body :: rest⟩
        ⟨.loan type i :: scopes, some i, w.withActive active, body⟩
  | attempt {scopes : List (Scope K)} {borrowed : Option Nat} {w : World K T}
      {piece : Nested K U} {rest : List (Nested K U)} :
      Steps ⟨scopes, borrowed, w, .attempt piece :: rest⟩ ⟨scopes, borrowed, w, [piece]⟩

def Reaches : Moment K U T → Moment K U T → Prop := Relation.ReflTransGen (Steps perform)

variable {perform} {p q : Moment K U T}

theorem Steps.describes (h : Steps perform p q) (hp : p.world.active.Describes p.scopes) :
    q.world.active.Describes q.scopes := by
  cases h with
  | @next scopes borrowed w w' piece rest answer h =>
    have hactive := run_active perform borrowed w piece
    rw [h] at hactive
    exact hactive.symm ▸ hp
  | hold h => exact hp.guard _ _
  | @lend scopes borrowed w type catching i body rest active h =>
    obtain ⟨hi, rfl⟩ := ActiveTapes.of_borrow_eq_ok h
    exact hp.loan hi
  | attempt => exact hp

theorem Reaches.describes (h : Reaches perform p q) (hp : p.world.active.Describes p.scopes) :
    q.world.active.Describes q.scopes := by
  induction h with
  | refl => exact hp
  | tail _ hstep ih => exact hstep.describes ih

theorem run_borrowing_of_error {f : Fault} (hf : p.call type = .error f)
    (body : List (Nested K U)) :
    run perform p.borrowed p.world (.borrowing type false body) = (.error f, p.world) := by
  rw [call] at hf
  rw [run]
  rcases p.world.active.borrow_cases type with ⟨j, -, h⟩ | ⟨-, h⟩ | ⟨-, h⟩
  · rw [h] at hf
    cases hf
  all_goals
    rw [h] at hf ⊢
    cases hf
    rfl

end Moment

/-- In every moment of a run, a call gets the tape of the innermost guard of its type. It fails
exactly if there is no such guard or if that guard has lent its tape out. Whatever runs next leaves
all active tapes as they are, also if it ends with a fault. -/
theorem calls_follow_scopes (tapes : List (K × T)) (pieces : List (Nested K U))
    (p : Moment K U T) (h : Moment.Reaches perform (.start tapes pieces) p) :
    (∀ type i, p.call type = .ok i ↔
      ∃ inner, Innermost p.scopes inner type i ∧ ∀ j, .loan type j ∉ inner) ∧
    (∀ type, p.call type = .error .noActiveTape ↔ ∀ i, .guard type i ∉ p.scopes) ∧
    (∀ type, p.call type = .error .tapeAlreadyBorrowed ↔
      ∃ i inner, Innermost p.scopes inner type i ∧ .loan type i ∈ inner) ∧
    (∀ type f body, p.call type = .error f →
      run perform p.borrowed p.world (.borrowing type false body) = (.error f, p.world)) ∧
    (∀ piece, (run perform p.borrowed p.world piece).2.active = p.world.active) ∧
    (runAll perform p.borrowed p.world p.pieces).2.2.active = p.world.active := by
  have hp := h.describes .nil
  refine ⟨fun type i => ?_, fun type => ?_, fun type => ?_, fun type f body hf => ?_,
    run_active perform p.borrowed p.world, runAll_active perform p.borrowed p.world p.pieces⟩
  · exact ActiveTapes.borrow_eq_ok_iff.trans (hp.eq_iff.trans standing_tape_iff)
  · exact ActiveTapes.borrow_eq_none_iff.trans (hp.eq_iff.trans standing_none_iff)
  · exact ActiveTapes.borrow_eq_lent_iff.trans (hp.eq_iff.trans standing_lent_iff)
  · exact Moment.run_borrowing_of_error hf body

def unwound : Moment TapeType TapeUse TypedTape :=
  let linear : TapeType := ⟨.double, .linear⟩
  .start (([linear, linear, ⟨.single, .reuse⟩] : List TapeType).map fun type => (type, .new type))
    [.holding 0 [Scenario.guarding 1 [.borrowing linear false [.fault "inside"]],
      .borrowing linear false [.holding 2 []]]]

theorem calls_follow_scopes_unwound :
    ∃ p, Moment.Reaches TapeUse.perform unwound p ∧ p.call ⟨.single, .reuse⟩ = .ok 2 ∧
      p.call ⟨.double, .linear⟩ = .error .tapeAlreadyBorrowed ∧
      p.call ⟨.double, .reuse⟩ = .error .noActiveTape := by
  have hreaches : ∃ p, Moment.Reaches TapeUse.perform unwound p ∧
      p.scopes = [.guard ⟨.single, .reuse⟩ 2, .loan ⟨.double, .linear⟩ 0,
        .guard ⟨.double, .linear⟩ 0] :=
    ⟨_, .head (.hold rfl) (.head (.next rfl) (.head (.lend rfl) (.single (.hold rfl)))), rfl⟩
  obtain ⟨p, hp, hscopes⟩ := hreaches
  obtain ⟨htape, hnone, hlent, -⟩ := calls_follow_scopes TapeUse.perform _ _ p hp
  refine ⟨p, hp, ?_, ?_, ?_⟩
  · exact (htape _ _).mpr ⟨[], ⟨⟨_, hscopes⟩, nofun⟩, nofun⟩
  · exact (hlent _).mpr ⟨0, [_, _], ⟨⟨[], hscopes⟩, by simp⟩, by simp⟩
  · exact (hnone _).mpr (by simp [hscopes])

end Nested

end Autodiff
