import Autodiff.Slots
/-!
The derivative vector and, on primal tapes, the primal vector, as a sweep and its kernels see them.

Kernels cannot write the slot of passive variables.
-/

namespace Autodiff

structure Vectors (F : Type) where
  adjoints : Slots F
  primals : Option (Slots F)
  deriving DecidableEq, Repr

namespace Vectors

variable {F : Type} [Scalar F]

def none : Vectors F := ⟨.new, .none⟩

def ensure (v : Vectors F) (largest : Identifier) : Vectors F :=
  ⟨v.adjoints.ensure largest, v.primals.map (·.ensure largest)⟩

def gradient (v : Vectors F) (id : Identifier) : F := v.adjoints.get id

def setGradient (v : Vectors F) (id : Identifier) (x : F) : Vectors F :=
  if id = passive then v else { v with adjoints := v.adjoints.set id x }

def addGradient (v : Vectors F) (id : Identifier) (x : F) : Vectors F :=
  if id = passive then v else { v with adjoints := v.adjoints.modify id (· + x) }

def takeGradient (v : Vectors F) (id : Identifier) : F × Vectors F :=
  if id = passive then (v.adjoints.get passive, v)
  else (v.adjoints.slot id, { v with adjoints := v.adjoints.set id 0 })

def hasPrimals (v : Vectors F) : Bool := v.primals.isSome

def primal (v : Vectors F) (id : Identifier) : F :=
  match v.primals with
  | some p => p.get id
  | .none => 0

def setPrimal (v : Vectors F) (id : Identifier) (x : F) : Vectors F :=
  if id = passive then v else { v with primals := v.primals.map (·.set id x) }

end Vectors

end Autodiff
