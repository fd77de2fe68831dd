import Autodiff.Fault
/-!
The issuer of identifiers of one tape.

Freed identifiers wait on a stack and are issued again, last freed first. Under the linear policy
the stack stays empty, so an identifier is issued once until the issuer is rewound.
-/

namespace Autodiff

structure Issuer where
  policy : Policy
  largest : Identifier
  unused : List Identifier
  deriving DecidableEq, Repr

namespace Issuer

def new (policy : Policy) : Issuer := ⟨policy, passive, []⟩

def issue (m : Issuer) : Identifier × Issuer :=
  match m.unused with
  | id :: rest => (id, { m with unused := rest })
  | [] => (m.largest + 1, { m with largest := m.largest + 1 })

def retire (m : Issuer) (id : Identifier) : Except Fault Issuer :=
  match m.policy with
  | .linear => .ok m
  | .reuse =>
    if id = passive then .ok m
    else if id ≤ m.largest then .ok { m with unused := id :: m.unused }
    else .error (.neverIssued id)

/-- The identifier of the result of a statement: a reusing issuer leaves a live one in place. -/
def settle (m : Issuer) (id : Identifier) : Identifier × Issuer :=
  match m.policy with
  | .linear => m.issue
  | .reuse => if id = passive then m.issue else (id, m)

def exchange (m : Issuer) (id : Identifier) : Except Fault (Identifier × Issuer) := do
  let m ← m.retire id
  return m.issue

/-- Back to an earlier largest identifier. Variables may still hold what a reusing issuer has
issued, so only a linear one goes back. -/
def rewind (m : Issuer) (largest : Identifier) : Except Fault Issuer :=
  match m.policy with
  | .linear =>
    if largest ≤ m.largest then .ok { m with largest := largest } else .error .rewindPastLargest
  | .reuse => .ok m

def restart (m : Issuer) : Except Fault Issuer := m.rewind passive

end Issuer

end Autodiff
