namespace Autodiff

inductive Parameter
  | adjointSize
  | primalSize
  | statementSize
  | jacobianSize
  | externalFunctionSize
  | byteDataSize
  | largestIdentifier
  deriving DecidableEq, Repr

namespace Parameter

def all : List Parameter :=
  [adjointSize, primalSize, statementSize, jacobianSize, externalFunctionSize, byteDataSize,
    largestIdentifier]

def name : Parameter → String
  | adjointSize => "adjoint_size"
  | primalSize => "primal_size"
  | statementSize => "statement_size"
  | jacobianSize => "jacobian_size"
  | externalFunctionSize => "external_function_size"
  | byteDataSize => "byte_data_size"
  | largestIdentifier => "largest_identifier"

def label : Parameter → String
  | adjointSize => "AdjointSize"
  | primalSize => "PrimalSize"
  | statementSize => "StatementSize"
  | jacobianSize => "JacobianSize"
  | externalFunctionSize => "ExternalFunctionSize"
  | byteDataSize => "ByteDataSize"
  | largestIdentifier => "LargestIdentifier"

def isReadOnly : Parameter → Bool
  | largestIdentifier => true
  | _ => false

def index (p : Parameter) : Nat := all.idxOf p

def ofName? (s : String) : Option Parameter := all.find? fun p => p.name == s

end Parameter

end Autodiff
