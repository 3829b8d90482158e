import Scriptlet.Expr.Parser
import Scriptlet.Stmt

namespace Scriptlet.Parser

def declaration (bound : Nat) : Parser Stmt := do
  let line := (← expect (.keyword .letWord)).line
  let isMutable ← take? (.keyword .mutWord)
  let target ← name
  let type ← typeBehind? .colon
  discard (expect (.mark .assign))
  let value ← expression bound
  return .assign target type isMutable value line

def reassignment (bound : Nat) : Parser Stmt := do
  let line := (← peek).line
  let target ← name
  discard (expect (.mark .assign))
  let value ← expression bound
  return .assign target none true value line

/-- Statements up to a closing brace, which is taken too. -/
def statementsUntilBrace (statement : Parser Stmt) (bound : Nat) (found : List Stmt) :
    Parser (List Stmt) :=
  match bound with
  | 0 => throw .unexpectedEndOfInput
  | bound + 1 => do
    skipNewlines
    let t ← peek
    if t.kind = .mark .closeBrace then
      discard next
      return found.reverse
    else if t.kind = .endOfInput then
      throw (.unexpectedToken (.token (.mark .closeBrace)) t)
    else
      statementsUntilBrace statement bound ((← statement) :: found)

def blockOf (statement : Parser Stmt) (bound : Nat) : Parser (List Stmt) := do
  discard (expect (.mark .openBrace))
  statementsUntilBrace statement bound []

/-- An `else` may stand behind newlines. If there is none, they are left. -/
def alternativeOf (statement : Parser Stmt) (bound : Nat) : Parser (Option (List Stmt)) := do
  match dropNewlines (← get) with
  | [] => throw .unexpectedEndOfInput
  | t :: rest =>
    if t.kind = .keyword .elseWord then
      set rest
      return some (← blockOf statement bound)
    else return none

def branchOf (statement : Parser Stmt) (bound : Nat) : Parser Stmt := do
  let line := (← expect (.keyword .ifWord)).line
  let condition ← expression bound
  let yes ← blockOf statement bound
  let no ← alternativeOf statement bound
  return .branch condition yes no line

def loopOf (statement : Parser Stmt) (bound : Nat) : Parser Stmt := do
  let line := (← expect (.keyword .whileWord)).line
  let condition ← expression bound
  let body ← blockOf statement bound
  return .loop condition body line

def param : Parser Param := do
  let target ← name
  discard (expect (.mark .colon))
  let type ← typeTag
  return ⟨target, type⟩

def functionOf (statement : Parser Stmt) (bound : Nat) : Parser Stmt := do
  let line := (← expect (.keyword .fnWord)).line
  let callee ← name
  discard (expect (.mark .openParen))
  let params ← parenthesized param bound
  let returns ← typeBehind? .arrow
  let body ← blockOf statement bound
  return .function callee params returns body line

/-- A value is expected unless the line, the block or the text ends. -/
def leave (bound : Nat) : Parser Stmt := do
  let line := (← expect (.keyword .returnWord)).line
  match (← peek).kind with
  | .newline | .mark .closeBrace | .endOfInput => return .leave none line
  | _ => return .leave (some (← expression bound)) line

def print (bound : Nat) : Parser Stmt := do
  let line := (← expect (.keyword .printWord)).line
  discard (expect (.mark .openParen))
  let value ← expression bound
  discard (expect (.mark .closeParen))
  return .print value line

/-- A statement whose first token is `first`, over a parser for the statements inside it. -/
def statementFrom (first : Token) (statement : Parser Stmt) (bound : Nat) : Parser Stmt := do
  match first.kind with
  | .keyword .letWord => declaration bound
  | .keyword .ifWord => branchOf statement bound
  | .keyword .whileWord => loopOf statement bound
  | .keyword .fnWord => functionOf statement bound
  | .keyword .returnWord => leave bound
  | .keyword .printWord => print bound
  | .name _ =>
    if ← followedBy (.mark .openParen) then return .expression (← call bound) first.line
    else if ← followedBy (.mark .assign) then reassignment bound
    else throw (.invalidStatement first)
  | _ => throw (.invalidStatement first)

/-- A statement, and the newline behind it if there is one. -/
def statement (bound : Nat) : Parser Stmt :=
  match bound with
  | 0 => throw .unexpectedEndOfInput
  | bound + 1 => do
    let result ← statementFrom (← peek) (statement bound) bound
    skipNewline
    return result

def block (bound : Nat) : Parser (List Stmt) :=
  blockOf (statement bound) bound

/-- Statements up to the token for the end, which is left. -/
def statementsUntilEnd (bound : Nat) (found : List Stmt) : Parser (List Stmt) :=
  match bound with
  | 0 => throw .unexpectedEndOfInput
  | bound + 1 => do
    skipNewlines
    if (← peek).kind = .endOfInput then return found.reverse
    else statementsUntilEnd bound ((← statement (bound + 1)) :: found)

end Scriptlet.Parser

namespace Scriptlet.Stmt

/-- The statements that a list of tokens stands for. What follows the token for the end does not
matter. -/
def ofTokens (tokens : List Token) : Except ParseError (List Stmt) :=
  ((Parser.statementsUntilEnd tokens.length []).parse tokens).1

end Scriptlet.Stmt
