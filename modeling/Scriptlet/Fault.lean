import Scriptlet.Operator
import Scriptlet.Value

namespace Scriptlet

inductive Fault where
  | unknownVariable (name : String)
  | unknownFunction (name : String)
  | alreadyDefined (name : String)
  | typeMismatch (expected found : TypeTag)
  | argumentCountMismatch (name : String) (expected found : Nat)
  | invalidOperands (op : Operator) (left right : TypeTag)
  | expectedBoolean (found : TypeTag)
  | missingValue
  | immutableAssignment (name : String)
  | divisionByZero
  | overflow
  | precisionLoss (value : Int64)
  | returnOutsideFunction
  | output
  deriving DecidableEq

namespace Fault

inductive Category where
  | name
  | type
  | immutability
  | arithmetic
  | controlFlow
  | output
  deriving DecidableEq

def category : Fault → Category
  | .unknownVariable _ | .unknownFunction _ | .alreadyDefined _ => .name
  | .typeMismatch _ _ | .argumentCountMismatch _ _ _ | .invalidOperands _ _ _
  | .expectedBoolean _ | .missingValue => .type
  | .immutableAssignment _ => .immutability
  | .divisionByZero | .overflow | .precisionLoss _ => .arithmetic
  | .returnOutsideFunction => .controlFlow
  | .output => .output

def message : Fault → String
  | .unknownVariable name => "undefined variable '" ++ name ++ "'"
  | .unknownFunction name => "undefined function '" ++ name ++ "'"
  | .alreadyDefined name => "variable '" ++ name ++ "' already defined in this scope"
  | .typeMismatch expected found =>
    "type mismatch: expected " ++ expected.spelling ++ ", got " ++ found.spelling
  | .argumentCountMismatch name expected found =>
    "function '" ++ name ++ s!"' expects {expected} arguments, got {found}"
  | .invalidOperands op left right =>
    "unsupported operand kinds for '" ++ op.spelling ++ "': " ++ left.spelling ++ " and " ++
      right.spelling
  | .expectedBoolean found => "expected bool condition, got " ++ found.spelling
  | .missingValue => "expression produced no value"
  | .immutableAssignment name => "cannot reassign immutable variable '" ++ name ++ "'"
  | .divisionByZero => "division by zero"
  | .overflow => "integer overflow"
  | .precisionLoss value =>
    "integer " ++ toString value.toInt ++ " cannot be converted to f64 without losing precision"
  | .returnOutsideFunction => "'return' outside of function"
  | .output => "failed to write output"

end Fault

/-- A fault and the line of the program that raised it. -/
structure RuntimeError where
  fault : Fault
  line : Nat
  deriving DecidableEq

def RuntimeError.message (e : RuntimeError) : String :=
  s!"line {e.line}: " ++ e.fault.message

end Scriptlet
