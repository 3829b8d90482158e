import Scriptlet.Token.Scan

namespace Scriptlet

/-- What a parser was ready for. -/
inductive Expectation where
  | token (kind : Token.Kind)
  | name
  | commaOr (closing : Token.Kind)
  deriving DecidableEq

def Expectation.describe : Expectation → String
  | .token kind => kind.describe
  | .name => "identifier"
  | .commaOr closing => (Token.Kind.mark .comma).describe ++ " or " ++ closing.describe

inductive ParseError where
  | unexpectedToken (expected : Expectation) (found : Token)
  | invalidStatement (found : Token)
  | expectedType (found : Token)
  | unexpectedTokenInExpression (found : Token)
  | unexpectedEndOfInput
  deriving DecidableEq

namespace ParseError

def position? : ParseError → Option Position
  | .unexpectedToken _ found | .invalidStatement found | .expectedType found
  | .unexpectedTokenInExpression found => some found.position
  | .unexpectedEndOfInput => none

def message : ParseError → String
  | .unexpectedToken expected found =>
    found.position.label ++ "expected " ++ expected.describe ++ ", found " ++ found.kind.describe
  | .invalidStatement found =>
    found.position.label ++ "invalid statement starting with " ++ found.kind.describe
  | .expectedType found =>
    found.position.label ++ "expected type annotation (i32, f64, str or bool), found " ++
      found.kind.describe
  | .unexpectedTokenInExpression found =>
    found.position.label ++ "unexpected " ++ found.kind.describe ++ " in expression"
  | .unexpectedEndOfInput => "unexpected end of input"

end ParseError

abbrev Parser (α : Type) := ExceptT ParseError (StateM (List Token)) α

namespace Parser

/-- The outcome on these tokens, and the tokens left. -/
def parse {α : Type} (p : Parser α) (tokens : List Token) : Except ParseError α × List Token :=
  p.run.run tokens

section Equations

variable {α β : Type} (tokens : List Token)

@[simp]
theorem parse_pure (a : α) : (pure a : Parser α).parse tokens = (.ok a, tokens) :=
  rfl

@[simp]
theorem parse_throw (e : ParseError) : (throw e : Parser α).parse tokens = (.error e, tokens) :=
  rfl

@[simp]
theorem parse_get : (get : Parser (List Token)).parse tokens = (.ok tokens, tokens) :=
  rfl

@[simp]
theorem parse_set (rest : List Token) : (set rest : Parser PUnit).parse tokens = (.ok (), rest) :=
  rfl

@[simp]
theorem parse_modify (change : List Token → List Token) :
    (modify change : Parser PUnit).parse tokens = (.ok (), change tokens) :=
  rfl

theorem parse_bind (p : Parser α) (q : α → Parser β) :
    (p >>= q).parse tokens =
      match p.parse tokens with
      | (.ok a, rest) => (q a).parse rest
      | (.error e, rest) => (.error e, rest) := by
  simp only [parse, ExceptT.run_bind, StateT.run_bind]
  change (match StateT.run p.run tokens with | (a, rest) => _) = _
  rcases StateT.run p.run tokens with ⟨_ | _, _⟩ <;> rfl

end Equations

/-- The next token, left where it is. -/
def peek : Parser Token := do
  match ← get with
  | [] => throw .unexpectedEndOfInput
  | t :: _ => return t

def next : Parser Token := do
  match ← get with
  | [] => throw .unexpectedEndOfInput
  | t :: rest =>
    set rest
    return t

/-- Takes the next token, whatever it is, and fails if it is not of this kind. -/
def expect (kind : Token.Kind) : Parser Token := do
  let t ← next
  if t.kind = kind then return t
  throw (.unexpectedToken (.token kind) t)

/-- Whether the next token is of this kind. -/
def at? (kind : Token.Kind) : Parser Bool := do
  return (← peek).kind = kind

/-- Whether the token behind the next one is of this kind. -/
def followedBy (kind : Token.Kind) : Parser Bool := do
  match ← get with
  | _ :: t :: _ => return t.kind = kind
  | _ => return false

/-- Takes the next token if it is of this kind. -/
def take? (kind : Token.Kind) : Parser Bool := do
  if ← at? kind then
    discard next
    return true
  return false

def dropNewlines (tokens : List Token) : List Token :=
  tokens.dropWhile (·.kind = .newline)

def skipNewlines : Parser Unit :=
  modify dropNewlines

def skipNewline : Parser Unit :=
  modify fun
    | ⟨.newline, _⟩ :: rest => rest
    | tokens => tokens

def name : Parser String := do
  let t ← next
  match t.kind with
  | .name s => return s
  | _ => throw (.unexpectedToken .name t)

def typeTag : Parser TypeTag := do
  let t ← next
  match t.kind with
  | .typeTag tag => return tag
  | _ => throw (.expectedType t)

/-- A type behind a mark, if the mark is there. -/
def typeBehind? (mark : Mark) : Parser (Option TypeTag) := do
  if ← take? (.mark mark) then return some (← typeTag)
  return none

/-- One or more items with commas between them and `closing` behind the last. The bound is any
number that is not below the number of tokens left. -/
def itemsUntil {α : Type} (closing : Token.Kind) (item : Parser α) (bound : Nat) (items : List α) :
    Parser (List α) :=
  match bound with
  | 0 => throw .unexpectedEndOfInput
  | bound + 1 => do
    let items := (← item) :: items
    let t ← next
    if t.kind = .mark .comma then itemsUntil closing item bound items
    else if t.kind = closing then return items.reverse
    else throw (.unexpectedToken (.commaOr closing) t)

/-- Items in parentheses, of which the opening one has been taken. -/
def parenthesized {α : Type} (item : Parser α) (bound : Nat) : Parser (List α) := do
  if ← take? (.mark .closeParen) then return []
  itemsUntil (.mark .closeParen) item bound []

end Parser

end Scriptlet
