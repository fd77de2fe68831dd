import Autodiff.Schema

namespace Autodiff

structure Token where
  index : Nat
  deriving DecidableEq, Repr

namespace Token

def invalid : Token := ⟨4294967295⟩

def isValid (t : Token) : Bool := t != invalid

def display (t : Token) : String := "#" ++ t.index.repr

end Token

structure Kernel (F : Type) where
  name : String
  forward : Program F Unit
  reverse : Program F Unit
  delete : Program F Unit

namespace Kernel

def describe {F : Type} (k : Kernel F) : String :=
  "ExternalFunctionEntry \x7b name: " ++ k.name.quote ++ ", .. \x7d"

end Kernel

abbrev Kernels (F : Type) := Token → Option (Kernel F)

namespace Kernels

variable {F : Type}

def find (kernels : Kernels F) (token : Token) : Except Fault (Kernel F) :=
  match kernels token with
  | some k => .ok k
  | none => .error (.fatal (.unknownToken token.index))

end Kernels

end Autodiff
