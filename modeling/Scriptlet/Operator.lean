namespace Scriptlet

inductive Operator where
  | add
  | sub
  | mul
  | div
  | less
  | greater
  | lessEqual
  | greaterEqual
  | equal
  | notEqual
  deriving DecidableEq

/-- The levels of binding, the loosest first. -/
inductive Level where
  | comparison
  | additive
  | multiplicative
  deriving DecidableEq

namespace Operator

def spelling : Operator → String
  | .add => "+"
  | .sub => "-"
  | .mul => "*"
  | .div => "/"
  | .less => "<"
  | .greater => ">"
  | .lessEqual => "<="
  | .greaterEqual => ">="
  | .equal => "=="
  | .notEqual => "!="

def level : Operator → Level
  | .add | .sub => .additive
  | .mul | .div => .multiplicative
  | .less | .greater | .lessEqual | .greaterEqual | .equal | .notEqual => .comparison

def isComparison (op : Operator) : Bool :=
  op.level = .comparison

end Operator

end Scriptlet
