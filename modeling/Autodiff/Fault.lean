import Autodiff.Identifier
import Autodiff.Parameter

namespace Autodiff

inductive Cause
  | unsupportedParameter (name : String)
  | readOnlyParameter (parameter : Parameter)
  | parameterUnavailable (parameter : Parameter)
  | invalidRange (start stop : Nat)
  | unknownToken (token : Nat)
  | layoutMismatch (segment : String) (expected actual : Nat)
  | capacityExceeded (stream : String)
  deriving DecidableEq, Repr

namespace Cause

def message : Cause → String
  | unsupportedParameter name => "unsupported tape parameter '" ++ name ++ "'"
  | readOnlyParameter p => "tape parameter " ++ p.label ++ " is read-only"
  | parameterUnavailable p => "tape parameter " ++ p.label ++ " is not available on this tape"
  | invalidRange start stop =>
    "invalid evaluation range " ++ start.repr ++ ".." ++ stop.repr
  | unknownToken token => "unknown external function token " ++ token.repr
  | layoutMismatch segment expected actual =>
    segment ++ " byte segment mismatch: expected " ++ expected.repr ++ " bytes, got " ++ actual.repr
  | capacityExceeded stream => stream ++ " stream exceeds 4294967295 entries"

/-- Requests about parameters leave the tape as it was; every other error ends the run. -/
def isRecoverable : Cause → Bool
  | unsupportedParameter _ | readOnlyParameter _ | parameterUnavailable _ => true
  | _ => false

end Cause

inductive Operand
  | left
  | right
  | result
  deriving DecidableEq, Repr

namespace Operand

def shape : Operand → String
  | left => "a must hold n*k elements"
  | right => "b must hold k*m elements"
  | result => "r must hold n*m elements"

end Operand

inductive Fault
  | fatal (cause : Cause)
  | neverIssued (id : Identifier)
  | rewindPastLargest
  | tooManyArguments
  | bufferNotLent
  | shrinkWhileLent
  | buffersNotReturned
  | operandSize (operand : Operand)
  | tooManyFunctions
  | noActiveTape
  | tapeAlreadyBorrowed
  | raised (text : String)
  /-- More identifiers wait for reuse than were ever issued. -/
  | negativeLiveCount
  | missingRecord
  deriving DecidableEq, Repr

namespace Fault

def message? : Fault → Option String
  | fatal cause => some cause.message
  | neverIssued id => some ("freeing identifier " ++ id.repr ++ " never issued")
  | rewindPastLargest => some "rewinding past the largest identifier"
  | tooManyArguments => some "activity mask holds at most 32 arguments"
  | bufferNotLent => some "recycling a buffer that was not lent"
  | shrinkWhileLent => some "shrinking scratch memory while buffers are lent"
  | buffersNotReturned => some "record did not return all scratch buffers"
  | operandSize operand => some ("matrix_multiply: " ++ operand.shape)
  | tooManyFunctions => some "too many external functions"
  | noActiveTape => some "no active tape on this thread; create a TapeGuard first"
  | tapeAlreadyBorrowed => some "active tape is already borrowed on this thread"
  | raised text => some ("user panic: " ++ text)
  | negativeLiveCount => none
  | missingRecord => none

end Fault

end Autodiff
