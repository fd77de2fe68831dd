import Autodiff.ActiveTapes
/-!
Nested scopes of guards and borrowed tapes, with faults that unwind out of them.

However a scope is left, the active tapes are put back as they were when it was entered.
-/

namespace Autodiff

/-- A piece of a program over tapes of types `K`, in which a borrower does `U` with its tape. -/
inductive Nested (K U : Type)
  | holding (tape : Nat) (body : List (Nested K U))
  | borrowing (type : K) (catching : Bool) (body : List (Nested K U))
  | attempt (piece : Nested K U)
  | use (use : U)
  | fault (text : String)

namespace Nested

inductive Answer
  | number (n : Nat)
  | fault (f : Fault)
  | guarding (answers : List Answer)
  | borrowing (answers : List Answer)

structure World (K T : Type) where
  active : ActiveTapes K
  tapes : List (K × T)

variable {K U T : Type}

namespace World

def withActive (w : World K T) (active : ActiveTapes K) : World K T := { w with active := active }

def setTape (w : World K T) (i : Nat) (t : T) : World K T :=
  { w with tapes := w.tapes.modify i fun entry => (entry.1, t) }

end World

variable [DecidableEq K] (perform : U → T → Except Fault Nat × T)

mutual

def run (borrowed : Option Nat) (w : World K T) : Nested K U → Except Fault Answer × World K T
  | holding i body =>
    match w.tapes[i]? with
    | none => (.ok (.guarding []), w)
    | some (type, _) =>
      let (guard, active) := w.active.activate type i
      let (answers, unwinding, w) := runAll none (w.withActive active) body
      let w := w.withActive (w.active.restore guard)
      match unwinding with
      | none => (.ok (.guarding answers), w)
      | some f => (.error f, w)
  | borrowing type catching body =>
    match w.active.borrow type with
    | (.error f, active) =>
      (if catching then .ok (.borrowing [.fault f]) else .error f, w.withActive active)
    | (.ok i, active) =>
      let (answers, unwinding, w) := runAll (some i) (w.withActive active) body
      let w := w.withActive (w.active.giveBack type i)
      match unwinding with
      | none => (.ok (.borrowing answers), w)
      | some f =>
        (if catching then .ok (.borrowing (answers ++ [.fault f])) else .error f, w)
  | attempt piece =>
    match run borrowed w piece with
    | (.error f, w) => (.ok (.fault f), w)
    | (.ok answer, w) => (.ok answer, w)
  | use u =>
    match borrowed with
    | none => (.error .noActiveTape, w)
    | some i =>
      match w.tapes[i]? with
      | none => (.ok (.number 0), w)
      | some (_, t) =>
        let (n, t) := perform u t
        (n.map .number, w.setTape i t)
  | fault text => (.error (.raised text), w)

def runAll (borrowed : Option Nat) (w : World K T) :
    List (Nested K U) → List Answer × Option Fault × World K T
  | [] => ([], none, w)
  | piece :: rest =>
    match run borrowed w piece with
    | (.error f, w) => ([], some f, w)
    | (.ok answer, w) =>
      let (answers, f, w) := runAll borrowed w rest
      (answer :: answers, f, w)

end

end Nested

end Autodiff
