import Scriptlet.Token

namespace Scriptlet

inductive ScanError.Cause where
  | unexpectedCharacter (c : Char)
  | unterminatedString
  | integerTooLarge (literal : String)
  deriving DecidableEq

/-- What a piece of text stands for. Gaps separate tokens and leave no trace. -/
inductive Lexeme where
  | gap
  | token (kind : Token.Kind)
  deriving DecidableEq

namespace Lexeme

/-- A lexeme at the front of a text, and the number of characters it takes after the first. -/
structure Cut where
  lexeme : Lexeme
  more : Nat
  deriving DecidableEq

abbrev Result := Except ScanError.Cause Cut

def isBlank (c : Char) : Bool :=
  c = ' ' || c = '\t' || c = '\r'

def isDigit (c : Char) : Bool :=
  '0' ≤ c && c ≤ '9'

def isWordStart (c : Char) : Bool :=
  ('a' ≤ c && c ≤ 'z') || ('A' ≤ c && c ≤ 'Z') || c = '_'

def isWordChar (c : Char) : Bool :=
  isWordStart c || isDigit c

def isQuote (c : Char) : Bool :=
  c = '"' || c = '\''

/-- Digits alone are an integer; a point behind them makes a float, with or without a fraction. -/
def number (first : Char) (rest : List Char) : Result :=
  let whole := first :: rest.takeWhile isDigit
  match rest.dropWhile isDigit with
  | '.' :: rest =>
    let fraction := rest.takeWhile isDigit
    .ok ⟨.token (.float (Number.ofPointed whole fraction)), whole.length + fraction.length⟩
  | _ =>
    let n := Number.ofDigits whole
    if (n : Int) ≤ Int64.maxValue.toInt then .ok ⟨.token (.int (Int64.ofNat n)), whole.length - 1⟩
    else .error (.integerTooLarge (String.ofList whole))

/-- The character that a backslash and this one stand for. -/
def unescape (c : Char) : Char :=
  match c with
  | 'n' => '\n'
  | 't' => '\t'
  | c => c

/-- The text up to the closing quote, reversed onto `text`, and the number of characters up to and
with the quote. A backslash takes the next character with it, whatever it is. -/
def quoted (quote : Char) (text : List Char) (count : Nat) : List Char → Option (List Char × Nat)
  | [] => none
  | ['\\'] => none
  | '\\' :: c :: rest => quoted quote (unescape c :: text) (count + 2) rest
  | c :: rest =>
    if c = quote then some (text, count + 1) else quoted quote (c :: text) (count + 1) rest

def string (quote : Char) (rest : List Char) : Result :=
  match quoted quote [] 0 rest with
  | some (text, count) => .ok ⟨.token (.str (String.ofList text.reverse)), count⟩
  | none => .error .unterminatedString

def word (first : Char) (rest : List Char) : Result :=
  let more := rest.takeWhile isWordChar
  .ok ⟨.token (.ofWord (String.ofList (first :: more))), more.length⟩

def operator (op : Operator) : Result :=
  .ok ⟨.token (.operator op), op.spelling.length - 1⟩

def mark (m : Mark) : Result :=
  .ok ⟨.token (.mark m), m.spelling.length - 1⟩

/-- Operators and marks; of two that fit, the longer one. -/
def symbol : Char → List Char → Result
  | '=', '=' :: _ => operator .equal
  | '!', '=' :: _ => operator .notEqual
  | '<', '=' :: _ => operator .lessEqual
  | '>', '=' :: _ => operator .greaterEqual
  | '-', '>' :: _ => mark .arrow
  | '=', _ => mark .assign
  | '<', _ => operator .less
  | '>', _ => operator .greater
  | '+', _ => operator .add
  | '-', _ => operator .sub
  | '*', _ => operator .mul
  | '/', _ => operator .div
  | '(', _ => mark .openParen
  | ')', _ => mark .closeParen
  | '\x7b', _ => mark .openBrace
  | '\x7d', _ => mark .closeBrace
  | ':', _ => mark .colon
  | ',', _ => mark .comma
  | c, _ => .error (.unexpectedCharacter c)

/-- The first lexeme of `first :: rest`. -/
def cut (first : Char) (rest : List Char) : Result :=
  if isBlank first then .ok ⟨.gap, (rest.takeWhile isBlank).length⟩
  else if first = '#' then .ok ⟨.gap, (rest.takeWhile (· ≠ '\n')).length⟩
  else if first = '\n' then .ok ⟨.token .newline, 0⟩
  else if isDigit first then number first rest
  else if isQuote first then string first rest
  else if isWordStart first then word first rest
  else symbol first rest

end Lexeme

end Scriptlet
