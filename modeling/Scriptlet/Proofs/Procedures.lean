import Scriptlet.Stmt.Parser

namespace Scriptlet

/-- The procedures that call each other, with the type of what they find. Those with a list, or with
a left operand, are loops, which have found that much so far. -/
inductive Procedure : Type → Type where
  | expression : Procedure Expr
  | chain (level : Level) : Procedure Expr
  | operations (level : Level) (left : Expr) : Procedure Expr
  | primary : Procedure Expr
  | arguments (found : List Expr) : Procedure (List Expr)
  | params (found : List Param) : Procedure (List Param)
  | statement : Procedure Stmt
  | block : Procedure (List Stmt)
  | statements (found : List Stmt) : Procedure (List Stmt)
  | program (found : List Stmt) : Procedure (List Stmt)

/-- What stands between the operators of a level. -/
def Level.operand : Level → Procedure Expr
  | .comparison => .chain .additive
  | .additive => .chain .multiplicative
  | .multiplicative => .primary

namespace Unbounded

open Scriptlet.Parser

section Bodies

variable (run : {α : Type} → Procedure α → Parser α)

def items {α : Type} (item : Parser α) (more : List α → Parser (List α)) (found : List α) :
    Parser (List α) := do
  let found := (← item) :: found
  let t ← next
  if t.kind = .mark .comma then more found
  else if t.kind = .mark .closeParen then return found.reverse
  else throw (.unexpectedToken (.commaOr (.mark .closeParen)) t)

def parenthesized {α : Type} (more : List α → Parser (List α)) : Parser (List α) := do
  if ← take? (.mark .closeParen) then return []
  more []

def operations (level : Level) (left : Expr) : Parser Expr := do
  match ← get with
  | ⟨.operator op, position⟩ :: rest =>
    if op.level = level then
      set rest
      let right ← run level.operand
      run (.operations level (.binary op left right position.line))
    else return left
  | _ => return left

def call : Parser Expr := do
  let line := (← peek).line
  let callee ← name
  discard (expect (.mark .openParen))
  let arguments ← parenthesized fun found => run (.arguments found)
  return .call callee arguments line

def group (inner : Parser Expr) : Parser Expr := do
  discard next
  let e ← inner
  discard (expect (.mark .closeParen))
  return e

def primary : Parser Expr := do
  let t ← peek
  match t.kind with
  | .int n => literal (.int n)
  | .float x => literal (.float x)
  | .str s => literal (.str s)
  | .bool b => literal (.bool b)
  | .name s =>
    if ← followedBy (.mark .openParen) then call run
    else
      discard next
      return .var s t.line
  | kind =>
    if kind = .mark .openParen then group (run .expression)
    else throw (.unexpectedTokenInExpression t)

def declaration : Parser Stmt := do
  let line := (← expect (.keyword .letWord)).line
  let isMutable ← take? (.keyword .mutWord)
  let target ← name
  let type ← typeBehind? .colon
  discard (expect (.mark .assign))
  let value ← run .expression
  return .assign target type isMutable value line

def reassignment : Parser Stmt := do
  let line := (← peek).line
  let target ← name
  discard (expect (.mark .assign))
  let value ← run .expression
  return .assign target none true value line

def alternative : Parser (Option (List Stmt)) := do
  match dropNewlines (← get) with
  | [] => throw .unexpectedEndOfInput
  | t :: rest =>
    if t.kind = .keyword .elseWord then
      set rest
      return some (← run .block)
    else return none

def branch : Parser Stmt := do
  let line := (← expect (.keyword .ifWord)).line
  let condition ← run .expression
  let yes ← run .block
  let no ← alternative run
  return .branch condition yes no line

def loop : Parser Stmt := do
  let line := (← expect (.keyword .whileWord)).line
  let condition ← run .expression
  let body ← run .block
  return .loop condition body line

def function : Parser Stmt := do
  let line := (← expect (.keyword .fnWord)).line
  let callee ← name
  discard (expect (.mark .openParen))
  let params ← parenthesized fun found => run (.params found)
  let returns ← typeBehind? .arrow
  let body ← run .block
  return .function callee params returns body line

def leave : Parser Stmt := do
  let line := (← expect (.keyword .returnWord)).line
  match (← peek).kind with
  | .newline | .mark .closeBrace | .endOfInput => return .leave none line
  | _ => return .leave (some (← run .expression)) line

def print : Parser Stmt := do
  let line := (← expect (.keyword .printWord)).line
  discard (expect (.mark .openParen))
  let value ← run .expression
  discard (expect (.mark .closeParen))
  return .print value line

def statementFrom (first : Token) : Parser Stmt := do
  match first.kind with
  | .keyword .letWord => declaration run
  | .keyword .ifWord => branch run
  | .keyword .whileWord => loop run
  | .keyword .fnWord => function run
  | .keyword .returnWord => leave run
  | .keyword .printWord => print run
  | .name _ =>
    if ← followedBy (.mark .openParen) then return .expression (← call run) first.line
    else if ← followedBy (.mark .assign) then reassignment run
    else throw (.invalidStatement first)
  | _ => throw (.invalidStatement first)

def statement : Parser Stmt := do
  let result ← statementFrom run (← peek)
  skipNewline
  return result

def block : Parser (List Stmt) := do
  discard (expect (.mark .openBrace))
  run (.statements [])

def statements (found : List Stmt) : Parser (List Stmt) := do
  skipNewlines
  let t ← peek
  if t.kind = .mark .closeBrace then
    discard next
    return found.reverse
  else if t.kind = .endOfInput then
    throw (.unexpectedToken (.token (.mark .closeBrace)) t)
  else
    run (.statements ((← run .statement) :: found))

def program (found : List Stmt) : Parser (List Stmt) := do
  skipNewlines
  if (← peek).kind = .endOfInput then return found.reverse
  else run (.program ((← run .statement) :: found))

/-- The body of a procedure, whose calls are made by `run`. -/
def body {α : Type} : Procedure α → Parser α
  | .expression => run (.chain .comparison)
  | .chain level => do run (.operations level (← run level.operand))
  | .operations level left => operations run level left
  | .primary => primary run
  | .arguments found => items (run .expression) (fun found => run (.arguments found)) found
  | .params found => items param (fun found => run (.params found)) found
  | .statement => statement run
  | .block => block run
  | .statements found => statements run found
  | .program found => program run found

end Bodies

/-- A procedure with its calls replaced by their bodies as many times as there are rounds. The calls
that are left then are made by `start`, whatever it does. -/
def unfolded (start : {α : Type} → Procedure α → Parser α) :
    Nat → {α : Type} → Procedure α → Parser α
  | 0, _, c => start c
  | rounds + 1, _, c => body (unfolded start rounds) c

end Unbounded

end Scriptlet
