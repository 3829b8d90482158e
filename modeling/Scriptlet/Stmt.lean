import Scriptlet.Expr

namespace Scriptlet

structure Param where
  name : String
  type : TypeTag
  deriving DecidableEq

/-- The line of a statement is that of its first token. -/
inductive Stmt where
  | assign (name : String) (type : Option TypeTag) (isMutable : Bool) (value : Expr) (line : Nat)
  | branch (condition : Expr) (yes : List Stmt) (no : Option (List Stmt)) (line : Nat)
  | loop (condition : Expr) (body : List Stmt) (line : Nat)
  | function (name : String) (params : List Param) (returns : Option TypeTag) (body : List Stmt)
      (line : Nat)
  | leave (value : Option Expr) (line : Nat)
  | print (value : Expr) (line : Nat)
  | expression (value : Expr) (line : Nat)
  deriving Inhabited

end Scriptlet
