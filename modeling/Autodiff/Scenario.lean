import Autodiff.Nested
import Autodiff.Tape.Recording

namespace Autodiff

inductive TypedTape
  | double (t : Tape Float)
  | single (t : Tape Float32)

namespace TypedTape

def new (ty : TapeType) : TypedTape :=
  match ty.precision with
  | .double => double (.new ty.policy .jacobian)
  | .single => single (.new ty.policy .jacobian)

def largest : TypedTape → Identifier
  | double t => t.issuer.largest
  | single t => t.issuer.largest

def statementCount : TypedTape → Nat
  | double t => t.statementCount
  | single t => t.statementCount

def issue : TypedTape → Identifier × TypedTape
  | double t => (t.issue.1, double t.issue.2)
  | single t => (t.issue.1, single t.issue.2)

def closeStatement : TypedTape → Identifier × TypedTape
  | double t => ((t.closeStatement passive 0).1, double (t.closeStatement passive 0).2)
  | single t => ((t.closeStatement passive 0).1, single (t.closeStatement passive 0).2)

end TypedTape

inductive TapeUse
  | issue
  | largest
  | position
  | statement
  deriving DecidableEq, Repr

def TapeUse.perform (use : TapeUse) (t : TypedTape) : Except Fault Nat × TypedTape :=
  match use with
  | issue => (.ok t.issue.1, t.issue.2)
  | largest => (.ok t.largest, t)
  | position => (.ok t.statementCount, t)
  | statement => (.ok t.closeStatement.1, t.closeStatement.2)

abbrev Scenario := Nested TapeType TapeUse

namespace Scenario

abbrev Answer := Nested.Answer

abbrev World := Nested.World TapeType TypedTape

def World.start (types : List TapeType) : World := ⟨.none, types.map fun ty => (ty, .new ty)⟩

def guarding (tape : Nat) (body : List Scenario) : Scenario := .attempt (.holding tape body)

def runAll (borrowed : Option Nat) (w : World) (pieces : List Scenario) :
    List Answer × Option Fault × World :=
  Nested.runAll TapeUse.perform borrowed w pieces

end Scenario

end Autodiff
