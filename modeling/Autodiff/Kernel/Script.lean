import Autodiff.Kernel

namespace Autodiff

inductive Reference
  | identifier (id : Identifier)
  | result (step : Nat)
  deriving DecidableEq, Repr

inductive ScriptStep (F : Type)
  | read (side : Side) (ty : FieldType)
  | readMany (side : Side) (ty : FieldType) (count : Nat)
  | remaining (side : Side)
  | finish (side : Side)
  | traits
  | gradient (of : Reference)
  | setGradient (of : Reference) (x : F)
  | addGradient (of : Reference) (x : F)
  | takeGradient (of : Reference)
  | hasPrimals
  | primal (of : Reference)
  | setPrimal (of : Reference) (x : F)

structure Script (F : Type) where
  forward : List (ScriptStep F)
  reverse : List (ScriptStep F)
  delete : List (ScriptStep F)

variable {F : Type}

namespace Reference

def resolve (results : List (Note F)) : Reference → Identifier
  | identifier id => id
  | result step => (results[step]?.bind Note.number?).getD passive

end Reference

namespace ScriptStep

open Program (act)

def run (results : List (Note F)) : ScriptStep F → Program F (Note F)
  | read side ty => do return .field ty (← act (.read side ty))
  | readMany side ty count => do
    let xs ← act (.readMany side ty count)
    return .list (xs.map (.field ty))
  | remaining side => do return .count (← act (.remaining side))
  | finish side => do
    act (.finish side)
    return .text "ok"
  | traits => do
    let t ← act .traits
    return .list [.flag t.hasPrimals, .flag t.linear, .flag t.rollsBack]
  | gradient ref => do return .real (← act (.gradient (ref.resolve results)))
  | setGradient ref x => do
    act (.setGradient (ref.resolve results) x)
    return .nothing
  | addGradient ref x => do
    act (.addGradient (ref.resolve results) x)
    return .nothing
  | takeGradient ref => do return .real (← act (.takeGradient (ref.resolve results)))
  | hasPrimals => do return .flag (← act .hasPrimals)
  | primal ref => do return .real (← act (.primal (ref.resolve results)))
  | setPrimal ref x => do
    act (.setPrimal (ref.resolve results) x)
    return .nothing

def runAll (results : List (Note F)) : List (ScriptStep F) → Program F (List (Note F))
  | [] => return results
  | step :: steps => do
    let note ← step.run results
    runAll (results ++ [note]) steps

end ScriptStep

namespace Script

def empty : Script F := ⟨[], [], []⟩

def callback (name : String) (steps : List (ScriptStep F)) : Program F Unit := do
  let results ← ScriptStep.runAll [] steps
  Program.act (.report (.list [.text "raw", .text name, .list results]))

def kernel (s : Script F) : Kernel F where
  name := "raw"
  forward := callback "forward" s.forward
  reverse := callback "reverse" s.reverse
  delete := callback "delete" s.delete

end Script

end Autodiff
