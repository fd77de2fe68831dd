namespace Autodiff

abbrev Identifier := Nat

/-- The identifier of every variable that carries no derivative. -/
def passive : Identifier := 0

/-- A linear policy issues every identifier once; a reusing one recycles freed identifiers. -/
inductive Policy
  | linear
  | reuse
  deriving DecidableEq, Repr

namespace Policy

def name : Policy → String
  | linear => "linear"
  | reuse => "reuse"

def isLinear : Policy → Bool
  | linear => true
  | reuse => false

end Policy

end Autodiff
