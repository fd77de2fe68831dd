import Autodiff.Schema

namespace Autodiff

namespace Program

variable {F : Type}

def gradients : List Identifier → Program F (List F)
  | [] => return []
  | id :: ids => do
    let g ← act (.gradient id)
    let gs ← gradients ids
    return g :: gs

def takeGradients : List Identifier → Program F (List F)
  | [] => return []
  | id :: ids => do
    let g ← act (.takeGradient id)
    let gs ← takeGradients ids
    return g :: gs

def setGradients : List Identifier → List F → Program F Unit
  | id :: ids, g :: gs => do
    act (.setGradient id g)
    setGradients ids gs
  | _, _ => return ()

def addGradients : List Identifier → List F → Program F Unit
  | id :: ids, g :: gs => do
    act (.addGradient id g)
    addGradients ids gs
  | _, _ => return ()

end Program

namespace Staged

variable {F : Type}

def gather (a : Staged F) : Program F (Staged F) := do
  let gs ← Program.gradients a.identifiers.items
  return a.withGradients gs

def take (a : Staged F) : Program F (Staged F) := do
  let gs ← Program.takeGradients a.identifiers.items
  return a.withGradients gs

def scatter (a : Staged F) : Program F Unit :=
  Program.setGradients a.identifiers.items a.gradients.items

def accumulate (a : Staged F) : Program F Unit :=
  Program.addGradients a.identifiers.items a.gradients.items

def writePrimals (a : Staged F) : Program F Unit :=
  Schema.setPrimals a.identifiers.items a.values.items

end Staged

end Autodiff
