import Autodiff.Report
import Autodiff.Tape.Basic

namespace Autodiff

def Issuer.report (m : Issuer) (r : Report) : Except Fault Report :=
  let r := r.addSection "Index manager"
  match m.policy with
  | .linear => .ok (r.addUnsigned "Policy: linear, max. live indices" m.largest)
  | .reuse =>
    let stored := m.unused.length
    if stored ≤ m.largest then
      .ok <| (((r.addUnsigned "Max. live indices" m.largest).addUnsigned
        "Cur. live indices" (m.largest - stored)).addUnsigned
        "Indices stored" stored).addMemory "Memory used" (stored * 4)
    else .error .negativeLiveCount

namespace Tape

variable {F : Type} [Scalar F]

def getParameter (t : Tape F) : Parameter → Except Cause Nat
  | .adjointSize => .ok t.vectors.adjoints.size
  | .primalSize =>
    match t.vectors.primals with
    | some p => .ok p.size
    | none => .error (.parameterUnavailable .primalSize)
  | .statementSize => .ok t.statementCount
  | .jacobianSize => .ok t.jacobianSize
  | .externalFunctionSize => .ok t.records.length
  | .byteDataSize => .ok (t.fixedBytes + t.dynamicBytes)
  | .largestIdentifier => .ok t.issuer.largest

/-- Resizes one of the vectors. The other sizes only ask for room, which nothing shows. -/
def setParameter (t : Tape F) (p : Parameter) (n : Nat) : Except Cause (Tape F) :=
  match p with
  | .adjointSize => .ok (t.withAdjoints (t.vectors.adjoints.resize n))
  | .primalSize =>
    match t.vectors.primals with
    | some p => .ok (t.withPrimals (some (p.resize n)))
    | none => .error (.parameterUnavailable .primalSize)
  | .largestIdentifier => .error (.readOnlyParameter .largestIdentifier)
  | _ => .ok t

def parameterOfName (name : String) : Except Cause Parameter :=
  match Parameter.ofName? name with
  | some p => .ok p
  | none => .error (.unsupportedParameter name)

def getParameterByName (t : Tape F) (name : String) : Except Cause Nat := do
  t.getParameter (← parameterOfName name)

def setParameterByName (t : Tape F) (name : String) (n : Nat) : Except Cause (Tape F) := do
  t.setParameter (← parameterOfName name) n

def kindName : TapeKind → String
  | .jacobian => "Jacobian"
  | .primalValues => "Primal value"

def title (t : Tape F) : String :=
  kindName t.kind ++ " tape (" ++ t.issuer.policy.name ++ " indices)"

def reportPrimals (t : Tape F) (r : Report) : Report :=
  match t.vectors.primals with
  | none => r
  | some p =>
    (((r.addSection "Primal vector").addUnsigned "Number of primals" p.size).addMemory
      "Memory allocated" p.memory).addMemory "Sweep copy memory" t.sweepCopy.memory

def statementBytes (t : Tape F) : Nat :=
  t.statementCount * (16 + if t.hasPrimals then 2 * Scalar.width F else 0)

def jacobianBytes (t : Tape F) : Nat := t.jacobianSize * (Scalar.width F + 4)

def report (t : Tape F) : Except Fault Report := do
  let r := ((Report.new t.title).addSection "Adjoint vector").addUnsigned
    "Number of adjoints" t.vectors.adjoints.size
  let r := r.addMemory "Memory allocated" t.vectors.adjoints.memory
  let r ← t.issuer.report (t.reportPrimals r)
  let r := (r.addSection "Statement entries").addUnsigned "Total number" t.statementCount
  let r := r.addMemory "Memory allocated" t.statementBytes
  let r := (r.addSection "Jacobian entries").addUnsigned "Total number" t.jacobianSize
  let r := r.addMemory "Memory allocated" t.jacobianBytes
  let r := (r.addSection "External function entries").addUnsigned "Total number" t.records.length
  let r := r.addUnsigned "Fixed data bytes" t.fixedBytes
  let r := r.addUnsigned "Dynamic data bytes" t.dynamicBytes
  let r := r.addMemory "Memory allocated" (t.fixedBytes + t.dynamicBytes)
  return r.addMemory "Scratch memory" t.pool.pooledBytes

end Tape

end Autodiff
