import Scriptlet.Operator
import Scriptlet.Value

namespace Scriptlet

/-- The line of an operation is that of its operator, and of a call that of its name. -/
inductive Expr where
  | literal (value : Value) (line : Nat)
  | var (name : String) (line : Nat)
  | binary (op : Operator) (left right : Expr) (line : Nat)
  | call (name : String) (arguments : List Expr) (line : Nat)
  deriving Inhabited

def Expr.line : Expr → Nat
  | .literal _ line | .var _ line | .binary _ _ _ line | .call _ _ line => line

end Scriptlet
