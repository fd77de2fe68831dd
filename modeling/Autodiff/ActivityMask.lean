import Autodiff.Fault

namespace Autodiff

structure ActivityMask where
  mask : Nat
  deriving DecidableEq, Repr

namespace ActivityMask

def maxArguments : Nat := 32

def none : ActivityMask := ⟨0⟩

def get (a : ActivityMask) (arg : Nat) : Bool := arg < maxArguments && a.mask.testBit arg

def set (a : ActivityMask) (arg : Nat) (active : Bool) : Except Fault ActivityMask :=
  if arg < maxArguments then
    if active then .ok ⟨a.mask ||| 1 <<< arg⟩ else .ok ⟨a.mask ^^^ (a.mask &&& 1 <<< arg)⟩
  else .error .tooManyArguments

def any (a : ActivityMask) : Bool := a.mask != 0

def arguments (a : ActivityMask) : List Nat := (List.range maxArguments).filter a.get

def setFrom (a : ActivityMask) : Nat → List Bool → Except Fault ActivityMask
  | _, [] => .ok a
  | arg, b :: bs => do
    let a ← a.set arg b
    a.setFrom (arg + 1) bs

def setAll (a : ActivityMask) : List Nat → Except Fault ActivityMask
  | [] => .ok a
  | arg :: args => do
    let a ← a.set arg true
    a.setAll args

end ActivityMask

end Autodiff
