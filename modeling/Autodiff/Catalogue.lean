import Autodiff.Kernel.Product
import Autodiff.Kernel.Scaling
import Autodiff.Kernel.Script
import Autodiff.Kernel.SquareSum
import Autodiff.KernelTable

namespace Autodiff

inductive Builtin
  | scaling
  | squareSum
  | script
  | product
  deriving DecidableEq, Repr

namespace Builtin

def all : List Builtin := [scaling, squareSum, script, product]

def kernel {F : Type} [Scalar F] (script : Script F) : Builtin → Kernel F
  | scaling => Scaling.kernel
  | squareSum => SquareSum.kernel
  | .script => script.kernel
  | product => Product.kernel

end Builtin

structure Catalogue (F : Type) where
  kernels : Kernels F
  token : Builtin → Token

abbrev BuiltinIdentity := Builtin × Precision

namespace KernelTable

def builtinEntries (scripts : (p : Precision) → Script p.Carrier) :
    List (BuiltinIdentity × Entry) :=
  Builtin.all.flatMap fun b =>
    [Precision.double, Precision.single].map fun p => ((b, p), ⟨p, b.kernel (scripts p)⟩)

def builtin (scripts : (p : Precision) → Script p.Carrier) : KernelTable BuiltinIdentity :=
  empty.registerAll (builtinEntries scripts)

def noScripts (p : Precision) : Script p.Carrier := .empty

def builtinToken (b : Builtin) (p : Precision) : Token :=
  ((builtin noScripts).tokenOf? (b, p)).getD .invalid

end KernelTable

namespace Catalogue

def builtin (p : Precision) (script : Script p.Carrier) : Catalogue p.Carrier where
  kernels :=
    (KernelTable.builtin fun q => if h : q = p then h ▸ script else Script.empty).kernels p
  token b := KernelTable.builtinToken b p

end Catalogue

end Autodiff
