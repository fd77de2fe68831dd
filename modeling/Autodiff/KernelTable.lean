import Autodiff.Kernel

namespace Autodiff

structure Entry where
  precision : Precision
  kernel : Kernel precision.Carrier

structure KernelTable (I : Type) where
  entries : List Entry
  tokens : List (I × Token)

namespace KernelTable

variable {I : Type}

def empty : KernelTable I := ⟨[], []⟩

def count (r : KernelTable I) : Nat := r.entries.length

def lookup (r : KernelTable I) (p : Precision) (token : Token) : Option (Kernel p.Carrier) :=
  match r.entries[token.index]? with
  | none => none
  | some e => if h : e.precision = p then some (h ▸ e.kernel) else none

def kernels (r : KernelTable I) (p : Precision) : Kernels p.Carrier := r.lookup p

def isFull (r : KernelTable I) : Bool := decide (Token.invalid.index ≤ r.count)

variable [DecidableEq I]

def tokenOf? (r : KernelTable I) (identity : I) : Option Token :=
  (r.tokens.find? fun entry => entry.1 == identity).map Prod.snd

/-- The token of an identity. The entry counts only when the identity is new. -/
def register (r : KernelTable I) (identity : I) (entry : Entry) : Token × KernelTable I :=
  match r.tokenOf? identity with
  | some token => (token, r)
  | none =>
    let token : Token := ⟨r.entries.length⟩
    (token, ⟨r.entries ++ [entry], r.tokens ++ [(identity, token)]⟩)

def enroll (r : KernelTable I) (identity : I) (entry : Entry) :
    Except Fault (Token × KernelTable I) :=
  if (r.tokenOf? identity).isNone && r.isFull then .error .tooManyFunctions
  else .ok (r.register identity entry)

def registerAll (r : KernelTable I) : List (I × Entry) → KernelTable I
  | [] => r
  | (identity, entry) :: rest => (r.register identity entry).2.registerAll rest

end KernelTable

end Autodiff
