import Autodiff.Decimal
import Autodiff.Identifier
import Autodiff.Scalar

namespace Autodiff

namespace Precision

def format : Precision → Decimal.Format
  | double => Decimal.binary64
  | single => Decimal.binary32

end Precision

structure Variable (F : Type) where
  value : F
  identifier : Identifier
  deriving DecidableEq, BEq, Repr

namespace Variable

variable {F : Type}

def constant (value : F) : Variable F := ⟨value, passive⟩

def isActive (x : Variable F) : Bool := x.identifier != passive

def release (x : Variable F) : Variable F := { x with identifier := passive }

def display (p : Precision) (x : Variable p.Carrier) : String :=
  Decimal.shortest p.format (p.bits x.value)

end Variable

end Autodiff
