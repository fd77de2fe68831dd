import Autodiff.Segment
import Autodiff.Staged

namespace Autodiff

inductive Note (F : Type)
  | nothing
  | text (s : String)
  | flag (b : Bool)
  | count (n : Nat)
  | real (x : F)
  | field (ty : FieldType) (x : ty.Value F)
  | staged (a : Staged F)
  | list (notes : List (Note F))

namespace Note

variable {F : Type}

def number? : Note F → Option Nat
  | count n => some n
  | field (.natural _) n => some n
  | field (.integer _) i => some i.toNat
  | _ => none

end Note

end Autodiff
