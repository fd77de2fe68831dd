import Autodiff.Tape.Records
import Autodiff.Proofs.Ensures

namespace Autodiff

variable {F : Type} [Scalar F]

/-- The computation ends in no bad fault, and its result, if it comes to one, has the property. -/
def Avoids {α : Type} (bad : Fault → Prop) (e : Except Fault α) (Q : α → Prop) : Prop :=
  match e with
  | .ok x => Q x
  | .error fault => ¬ bad fault

namespace Avoids

variable {α β : Type} {bad : Fault → Prop} {e : Except Fault α} {Q R : α → Prop}

theorem of_yields (h : Yields e Q) : Avoids bad e Q := by
  obtain ⟨x, rfl, hx⟩ := h
  exact hx

theorem mono (h : Avoids bad e Q) (hQ : ∀ x, Q x → R x) : Avoids bad e R := by
  cases e with
  | ok x => exact hQ x h
  | error => exact h

theorem bind {f : α → Except Fault β} {S : β → Prop} (h : Avoids bad e Q)
    (hf : ∀ x, Q x → Avoids bad (f x) S) : Avoids bad (e >>= f) S := by
  cases e with
  | ok x => exact hf x h
  | error => exact h

theorem ite {c : Prop} [Decidable c] {x : α} {fault : Fault} (hx : Q x) (hf : ¬ bad fault) :
    Avoids bad (if c then .ok x else .error fault) Q := by
  split
  case isTrue => exact hx
  case isFalse => exact hf

end Avoids

def Accounts {α : Type} (e : Except Fault α) (Q : α → Prop) : Prop :=
  match e with
  | .ok x => Q x
  | .error fault => ∀ id, fault ≠ .neverIssued id

namespace Accounts

variable {α β : Type} {e : Except Fault α} {Q R : α → Prop}

theorem of_yields (h : Yields e Q) : Accounts e Q := by
  obtain ⟨x, rfl, hx⟩ := h
  exact hx

theorem of_eq_ok {x : α} (h : Accounts e Q) (he : e = .ok x) : Q x := by
  subst he
  exact h

theorem ne (h : Accounts e Q) (id : Identifier) : e ≠ .error (.neverIssued id) := by
  rintro rfl
  exact h id rfl

theorem mono (h : Accounts e Q) (hQ : ∀ x, Q x → R x) : Accounts e R := by
  cases e with
  | ok x => exact hQ x h
  | error => exact h

theorem bind {f : α → Except Fault β} {S : β → Prop} (h : Accounts e Q)
    (hf : ∀ x, Q x → Accounts (f x) S) : Accounts (e >>= f) S := by
  cases e with
  | ok x => exact hf x h
  | error => exact h

theorem of_avoids (h : Avoids (fun fault => ∃ id, fault = .neverIssued id) e Q) :
    Accounts e Q := by
  cases e with
  | ok x => exact h
  | error fault => exact fun id hid => h ⟨id, hid⟩

end Accounts

section Writing

variable {bad : Fault → Prop} (hbad : ∀ cause, ¬ bad (.fatal cause))
include hbad

omit [Scalar F] in
theorem Kernels.find_avoids (kernels : Kernels F) (token : Token) :
    Avoids bad (kernels.find token) fun _ => True := by
  rw [find]
  split
  case h_1 => trivial
  case h_2 => exact hbad _

namespace Writer

theorem put_avoids (w : Writer F) (cells : List (Scalar.Cell F)) :
    Avoids bad (w.put cells) fun _ => True := .ite trivial (hbad _)

theorem finish_avoids (w : Writer F) : Avoids bad w.finish fun _ => True := .ite trivial (hbad _)

end Writer

namespace Schema

theorem writePassive_avoids (w : Writer F) (ids : List Identifier) (xs : List F) :
    Avoids bad (writePassive w ids xs) fun _ => True := by
  induction ids generalizing w xs with
  | nil => trivial
  | cons id ids ih =>
    cases xs with
    | nil => trivial
    | cons x xs =>
      rw [writePassive]
      split
      case isTrue => exact (w.put_avoids hbad _).bind fun w _ => ih w xs
      case isFalse => exact ih w xs

theorem writeInput_avoids (traits : Traits) (k : Nat) (use : InputRole) (a : Staged F)
    (w : Writer F) : Avoids bad (writeInput traits k use a w) fun _ => True := by
  rw [writeInput]
  cases use.origin traits with
  | absent =>
    split
    case isTrue => exact (w.put_avoids hbad _).bind fun _ _ => trivial
    case isFalse => trivial
  | written =>
    split
    case isTrue => exact (w.put_avoids hbad _).bind fun w _ => w.put_avoids hbad _
    case isFalse => exact w.put_avoids hbad _
  | primalVector =>
    split
    case isTrue => exact (w.put_avoids hbad _).bind fun w _ => writePassive_avoids hbad w _ _
    case isFalse => exact writePassive_avoids hbad w _ _

theorem writeOutput_avoids (traits : Traits) (k : Nat) (a : Staged F) (w : Writer F) :
    Avoids bad (writeOutput traits k a w) fun _ => True := by
  refine (w.put_avoids hbad _).bind fun w _ => ?_
  split
  case isTrue => exact w.put_avoids hbad _
  case isFalse => trivial

theorem write_avoids (traits : Traits) (s : Schema F) (r : s.Record) (fixed dynamic : Writer F) :
    Avoids bad (s.write traits r fixed dynamic) fun _ => True := by
  induction s generalizing fixed dynamic with
  | done => trivial
  | scalar ty next ih => exact (fixed.put_avoids hbad _).bind fun fixed _ => ih r.1 r.2 fixed dynamic
  | input k use next ih =>
    exact (writeInput_avoids hbad traits k use r.1 dynamic).bind fun dynamic _ =>
      ih r.2 fixed dynamic
  | output k next ih =>
    exact (writeOutput_avoids hbad traits k r.1 dynamic).bind fun dynamic _ => ih r.2 fixed dynamic

end Schema

theorem Schema.fill_avoids (traits : Traits) (s : Schema F) (r : s.Record)
    (fixed dynamic : Writer F) : Avoids bad (do
      let x ← s.write traits r fixed dynamic
      x.1.finish
      x.2.finish
      return ((), x.1, x.2)) fun _ => True := by
  refine (write_avoids hbad traits s r fixed dynamic).bind fun x _ => ?_
  refine (x.1.finish_avoids hbad).bind fun _ _ => ?_
  exact (x.2.finish_avoids hbad).bind fun _ _ => trivial

theorem Tape.writeRecord_avoids (t : Tape F) (kernels : Kernels F) (token : Token) (s : Schema F)
    (r : s.Record) :
    Avoids bad (t.writeRecord kernels token s r) fun t' => t'.issuer = t.issuer := by
  refine Avoids.bind (Q := fun x : Unit × Tape F => x.2.issuer = t.issuer) ?_ ?_
  case refine_2 => exact fun x hx => hx
  refine (kernels.find_avoids hbad token).bind fun _ _ => ?_
  exact (Schema.fill_avoids hbad t.traits s r _ _).bind fun x _ => rfl

end Writing

namespace Pool

theorem returnValues_accounts (pool : Pool F) (b : Buffer F) :
    Accounts (pool.returnValues b) fun _ => True := by
  rw [returnValues]
  split
  case isTrue => exact nofun
  case isFalse => trivial

theorem returnIdentifiers_accounts (pool : Pool F) (b : Buffer Identifier) :
    Accounts (pool.returnIdentifiers b) fun _ => True := by
  rw [returnIdentifiers]
  split
  case isTrue => exact nofun
  case isFalse => trivial

theorem reclaimAll_accounts (pool : Pool F) (as : List (Staged F)) :
    Accounts (pool.reclaimAll as) fun _ => True := by
  induction as generalizing pool with
  | nil => trivial
  | cons a as ih =>
    have ha : Accounts (pool.reclaim a) fun _ => True := by
      refine (pool.returnIdentifiers_accounts _).bind fun pool _ => ?_
      refine (pool.returnValues_accounts _).bind fun pool _ => ?_
      exact (pool.returnValues_accounts _).bind fun pool _ => pool.returnValues_accounts _
    exact ha.bind fun pool _ => ih pool

end Pool

namespace Tape

theorem writeRecord_accounts (t : Tape F) (kernels : Kernels F) (token : Token) (s : Schema F)
    (r : s.Record) :
    Accounts (t.writeRecord kernels token s r) fun t' => t'.issuer = t.issuer :=
  .of_avoids (t.writeRecord_avoids (by rintro _ ⟨_, ⟨⟩⟩) kernels token s r)

theorem reclaim_accounts (t : Tape F) (s : Schema F) (r : s.Record) :
    Accounts (t.reclaim s r) fun t' => t'.issuer = t.issuer :=
  (t.pool.reclaimAll_accounts _).bind fun _ _ => rfl

end Tape

end Autodiff
