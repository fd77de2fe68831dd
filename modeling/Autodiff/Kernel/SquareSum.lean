import Autodiff.Kernel.Argument
import Autodiff.Tape.Records

namespace Autodiff.SquareSum

variable {F : Type}

structure Header (F : Type) where
  length : Nat
  weight : F
  needed : Bool

@[reducible] def headers : Nat → (List (Header F) → Schema F) → Schema F
  | 0, next => next []
  | n + 1, next =>
    .scalar (.natural 4) fun length =>
    .scalar .real fun weight =>
    .scalar .flag fun needed =>
    headers n fun hs => next (⟨length, weight, needed⟩ :: hs)

@[reducible] def inputs (activity : ActivityMask) : Nat → List (Header F) → Schema F → Schema F
  | _, [], s => s
  | i, h :: hs, s => .input h.length ⟨activity.get i, h.needed⟩ (inputs activity (i + 1) hs s)

@[reducible] def schema : Schema F :=
  .scalar .activity fun activity =>
  .scalar (.natural 4) fun m =>
  .scalar (.natural 4) fun count =>
  headers count fun hs => inputs activity 0 hs <|
  .output m .done

def splitHeaders : (n : Nat) → (next : List (Header F) → Schema F) → (headers n next).Record →
    (hs : List (Header F)) × (next hs).Record
  | 0, _, r => ⟨[], r⟩
  | n + 1, _, ⟨length, weight, needed, r⟩ =>
    let ⟨hs, r⟩ := splitHeaders n _ r
    ⟨⟨length, weight, needed⟩ :: hs, r⟩

def splitInputs (activity : ActivityMask) : (i : Nat) → (hs : List (Header F)) → (s : Schema F) →
    (inputs activity i hs s).Record → List (Header F × Staged F) × s.Record
  | _, [], _, r => ([], r)
  | i, h :: hs, s, (a, r) =>
    let (args, r) := splitInputs activity (i + 1) hs s r
    ((h, a) :: args, r)

def joinHeaders : (hs : List (Header F)) → (next : List (Header F) → Schema F) →
    (next hs).Record → (headers hs.length next).Record
  | [], _, r => r
  | h :: hs, _, r => ⟨h.length, h.weight, h.needed, joinHeaders hs _ r⟩

def joinInputs (activity : ActivityMask) : (i : Nat) → (args : List (Header F × Staged F)) →
    (s : Schema F) → s.Record → (inputs activity i (args.map Prod.fst) s).Record
  | _, [], _, r => r
  | i, (_, a) :: args, s, r => (a, joinInputs activity (i + 1) args s r)

structure Call (F : Type) where
  activity : ActivityMask
  args : List (Header F × Staged F)
  outputs : Nat
  result : Staged F

namespace Call

def ofRecord : (schema (F := F)).Record → Call F
  | ⟨activity, m, count, r⟩ =>
    let ⟨hs, r⟩ := splitHeaders count _ r
    let (args, y, _) := splitInputs activity 0 hs (.output m .done) r
    ⟨activity, args, m, y⟩

def toRecord (c : Call F) : (schema (F := F)).Record :=
  ⟨c.activity, c.outputs, (c.args.map Prod.fst).length,
    joinHeaders (c.args.map Prod.fst) (fun hs => inputs c.activity 0 hs (.output c.outputs .done))
      (joinInputs c.activity 0 c.args (.output c.outputs .done) (c.result, ()))⟩

def note (callback : String) (c : Call F) : Note F :=
  .list [.text "sumsq", .text callback, .list (c.args.map fun arg => .staged arg.2),
    .staged c.result]

end Call

variable [Scalar F]

/-- Adds each term to the entry its place falls on, going round `m` entries. -/
def addRound (m : Nat) : Nat → List F → List F → List F
  | _, [], sums => sums
  | e, x :: xs, sums => addRound m (e + 1) xs (sums.modify (e % m) (· + x))

def sums (m : Nat) (args : List (F × List F)) : List F :=
  args.foldl (fun ys arg => addRound m 0 (arg.2.map fun x => arg.1 * (x * x)) ys)
    (List.replicate m 0)

/-- Twice the product of a value and a derivative, weighted. Values that the record left out are
zero. -/
def slope (weight : F) (values : List F) (e : Nat) (derivative : F) : F :=
  weight * ((1 + 1) * (values.getD e 0 * derivative))

def addTangents (activity : ActivityMask) (m : Nat) :
    Nat → List (Header F × Staged F) → List F → Program F (List F)
  | _, [], ys => return ys
  | i, (h, a) :: args, ys =>
    if activity.get i then do
      let a ← a.gather
      let terms := a.gradients.items.mapIdx (slope h.weight a.values.items)
      addTangents activity m (i + 1) args (addRound m 0 terms ys)
    else addTangents activity m (i + 1) args ys

def forward (r : (schema (F := F)).Record) : Program F (schema (F := F)).Record := do
  let c := Call.ofRecord r
  Program.act (.report (c.note "forward"))
  let tangents ← addTangents c.activity c.outputs 0 c.args c.result.gradients.items
  let y := c.result.withGradients tangents
  let primals ← Program.act .hasPrimals
  let y := if primals then
    y.withValues (sums c.outputs (c.args.map fun arg => (arg.1.weight, arg.2.values.items))) else y
  if primals then y.writePrimals
  y.scatter
  return r

def spread (activity : ActivityMask) (adjoints : List F) :
    Nat → List (Header F × Staged F) → Program F Unit
  | _, [] => return ()
  | i, (h, a) :: args => do
    if activity.get i then
      let gs := a.gradients.items.mapIdx fun e _ =>
        slope h.weight a.values.items e (adjoints.getD (e % adjoints.length) 0)
      (a.withGradients gs).accumulate
    spread activity adjoints (i + 1) args

def reverse (r : (schema (F := F)).Record) : Program F (schema (F := F)).Record := do
  let c := Call.ofRecord r
  Program.act (.report (c.note "reverse"))
  let y ← c.result.take
  if 0 < c.outputs then spread c.activity y.gradients.items 0 c.args
  return r

def delete (r : (schema (F := F)).Record) : Program F (schema (F := F)).Record := do
  Program.act (.report ((Call.ofRecord r).note "delete"))
  return r

def kernel : Kernel F where
  name := "sumsq"
  forward := schema.forward forward
  reverse := schema.reverse reverse
  delete := schema.delete delete

/-- One array of a sum. Its activity and the need for its values follow from its elements unless
they are given. -/
structure Term (F : Type) where
  elements : List (Variable F)
  weight : F
  active? : Option Bool
  needed? : Option Bool

namespace Term

def isActive (a : Term F) : Bool := a.active?.getD (a.elements.any Variable.isActive)

def header (a : Term F) : Header F := ⟨a.elements.length, a.weight, a.needed?.getD a.isActive⟩

end Term

def sumSquares (t : Tape F) (kernels : Kernels F) (token : Token) (terms : List (Term F))
    (y : List (Variable F)) : Except Fault (List (Variable F) × Tape F) := do
  let activity ← ActivityMask.none.setFrom 0 (terms.map Term.isActive)
  let (xs, t) := t.stageAll (terms.map Term.elements)
  let (sy, t) := t.stageOutputs y.length
  let values := sums y.length (terms.map fun a => (a.weight, a.elements.map Variable.value))
  let y := y.zipWith (fun y x => { y with value := x }) values
  let args := (terms.map Term.header).zip xs
  if activity.any then
    let (y, sy, t) ← t.placeOutputs y sy ((List.range y.length).map fun i => (i, true))
    let record := Call.toRecord ⟨activity, args, y.length, sy⟩
    let t ← t.writeRecord kernels token schema record
    let t ← t.reclaim schema record
    return (y, t)
  else
    let (y, t) ← t.releaseAll y
    let t ← t.reclaim schema (Call.toRecord ⟨activity, args, y.length, sy⟩)
    return (y, t)

end Autodiff.SquareSum
