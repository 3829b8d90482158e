import Scriptlet.Expr
import Scriptlet.Parser

namespace Scriptlet.Parser

/-- More operations of one level, grouped to the left. -/
def operations (level : Level) (operand : Parser Expr) (bound : Nat) (left : Expr) : Parser Expr :=
  match bound with
  | 0 => return left
  | bound + 1 => do
    match ← get with
    | ⟨.operator op, position⟩ :: rest =>
      if op.level = level then
        set rest
        let right ← operand
        operations level operand bound (.binary op left right position.line)
      else return left
    | _ => return left

/-- Operands with operators of one level between them. -/
def chain (level : Level) (operand : Parser Expr) (bound : Nat) : Parser Expr := do
  operations level operand bound (← operand)

def multiplicativeOver (primary : Parser Expr) (bound : Nat) : Parser Expr :=
  chain .multiplicative primary bound

def additiveOver (primary : Parser Expr) (bound : Nat) : Parser Expr :=
  chain .additive (multiplicativeOver primary bound) bound

def comparisonOver (primary : Parser Expr) (bound : Nat) : Parser Expr :=
  chain .comparison (additiveOver primary bound) bound

/-- A name and its arguments. -/
def callOver (primary : Parser Expr) (bound : Nat) : Parser Expr := do
  let line := (← peek).line
  let callee ← name
  discard (expect (.mark .openParen))
  let arguments ← parenthesized (comparisonOver primary bound) bound
  return .call callee arguments line

def literal (value : Value) : Parser Expr := do
  let t ← next
  return .literal value t.line

/-- A literal, a variable, a call, or an expression in parentheses. -/
def primary (bound : Nat) : Parser Expr :=
  match bound with
  | 0 => throw .unexpectedEndOfInput
  | bound + 1 => do
    let t ← peek
    match t.kind with
    | .int n => literal (.int n)
    | .float x => literal (.float x)
    | .str s => literal (.str s)
    | .bool b => literal (.bool b)
    | .name s =>
      if ← followedBy (.mark .openParen) then callOver (primary bound) bound
      else
        discard next
        return .var s t.line
    | kind =>
      if kind = .mark .openParen then
        discard next
        let e ← comparisonOver (primary bound) bound
        discard (expect (.mark .closeParen))
        return e
      else throw (.unexpectedTokenInExpression t)

def multiplicative (bound : Nat) : Parser Expr :=
  multiplicativeOver (primary bound) bound

def additive (bound : Nat) : Parser Expr :=
  additiveOver (primary bound) bound

def comparison (bound : Nat) : Parser Expr :=
  comparisonOver (primary bound) bound

def call (bound : Nat) : Parser Expr :=
  callOver (primary bound) bound

def expression (bound : Nat) : Parser Expr :=
  comparison bound

end Scriptlet.Parser
