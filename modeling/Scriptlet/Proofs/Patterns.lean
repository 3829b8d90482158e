import Mathlib.Computability.Language
import Mathlib.Data.Nat.Digits.Defs
import Scriptlet.Token.Scan

namespace Scriptlet

open Lexeme
open scoped Computability

/-- The tokens that are always written the same way. -/
inductive Fixed where
  | keyword (k : Keyword)
  | bool (b : Bool)
  | typeTag (t : TypeTag)
  | operator (op : Operator)
  | mark (m : Mark)
  | newline
  deriving DecidableEq

namespace Fixed

def spelling : Fixed → String
  | keyword k => k.spelling
  | bool b => boolText b
  | typeTag t => t.spelling
  | operator op => op.spelling
  | mark m => m.spelling
  | newline => "\n"

def kind : Fixed → Token.Kind
  | keyword k => .keyword k
  | bool b => .bool b
  | typeTag t => .typeTag t
  | operator op => .operator op
  | mark m => .mark m
  | newline => .newline

end Fixed

/-- The characters that open a string, and close the same string. -/
abbrev Quote : Type :=
  {c : Char // isQuote c = true}

inductive Pattern where
  | float
  | integer
  | string (quote : Quote)
  | unclosed (quote : Quote)
  | identifier
  | fixed (f : Fixed)
  | comment
  | blank

/-- The kind of token that a piece of text stands for. -/
def Lexeme.kind? : Lexeme → Option Token.Kind
  | gap => none
  | token kind => some kind

namespace Pattern

/-- One character of a class. -/
def oneOf (p : Char → Bool) : Language Char :=
  {w | ∃ c, p c = true ∧ w = [c]}

/-- What may stand between the quotes: other characters, and escapes, which are a backslash and any
character whatever. -/
def body (quote : Char) : Language Char :=
  (oneOf (fun c => c ≠ quote && c ≠ '\\') + oneOf (· = '\\') * oneOf fun _ => true)∗

/-- The texts that fit a pattern. -/
def language : Pattern → Language Char
  | float => oneOf isDigit * (oneOf isDigit)∗ * oneOf (· = '.') * (oneOf isDigit)∗
  | integer => oneOf isDigit * (oneOf isDigit)∗
  | string quote => oneOf (· = quote.val) * body quote.val * oneOf (· = quote.val)
  | unclosed quote => oneOf (· = quote.val) * body quote.val
  | identifier => oneOf isWordStart * (oneOf isWordChar)∗
  | fixed f => {f.spelling.toList}
  | comment => oneOf (· = '#') * (oneOf (· ≠ '\n'))∗
  | blank => oneOf isBlank * (oneOf isBlank)∗

section Languages

variable {p : Char → Bool} {L : Language Char} {w : List Char}

theorem mem_oneOf_mul : w ∈ oneOf p * L ↔ ∃ c u, w = c :: u ∧ p c = true ∧ u ∈ L := by
  rw [Language.mem_mul]
  constructor
  · rintro ⟨_, ⟨c, hc, rfl⟩, u, hu, rfl⟩
    exact ⟨c, u, rfl, hc, hu⟩
  · rintro ⟨c, u, rfl, hc, hu⟩
    exact ⟨[c], ⟨c, hc, rfl⟩, u, hu, rfl⟩

theorem mem_mul_oneOf : w ∈ L * oneOf p ↔ ∃ u c, w = u ++ [c] ∧ u ∈ L ∧ p c = true := by
  rw [Language.mem_mul]
  constructor
  · rintro ⟨u, hu, _, ⟨c, hc, rfl⟩, rfl⟩
    exact ⟨u, c, rfl, hu, hc⟩
  · rintro ⟨u, c, rfl, hu, hc⟩
    exact ⟨u, hu, [c], ⟨c, hc, rfl⟩, rfl⟩

theorem mem_kstar_unfold : w ∈ L∗ ↔ w = [] ∨ w ∈ L * L∗ := by
  conv_lhs => rw [← Language.one_add_self_mul_kstar_eq_kstar, Language.mem_add, Language.mem_one]

theorem mem_oneOf_kstar : w ∈ (oneOf p)∗ ↔ ∀ c ∈ w, p c = true := by
  induction w with
  | nil => simp [Language.nil_mem_kstar]
  | cons c w ih =>
    rw [mem_kstar_unfold, mem_oneOf_mul, List.forall_mem_cons, ← ih]
    simp

/-- A run of characters behind a first one. -/
theorem mem_run {q : Char → Bool} :
    w ∈ oneOf p * (oneOf q)∗ ↔ ∃ c u, w = c :: u ∧ p c = true ∧ ∀ d ∈ u, q d = true := by
  rw [mem_oneOf_mul]
  simp only [mem_oneOf_kstar]

theorem cons_mem_run {q : Char → Bool} {c : Char} :
    c :: w ∈ oneOf p * (oneOf q)∗ ↔ p c = true ∧ ∀ d ∈ w, q d = true := by
  rw [mem_run]
  simp

theorem mem_integer : w ∈ language .integer ↔ w ≠ [] ∧ ∀ c ∈ w, isDigit c = true := by
  rw [language, mem_run]
  cases w with
  | nil => simp
  | cons c w => simp

theorem mem_float :
    w ∈ language .float ↔ ∃ whole fraction, w = whole ++ '.' :: fraction ∧
      whole ∈ language .integer ∧ ∀ c ∈ fraction, isDigit c = true := by
  rw [language, mul_assoc, Language.mem_mul]
  simp only [mem_oneOf_mul, mem_oneOf_kstar, decide_eq_true_eq]
  constructor
  · rintro ⟨whole, hw, _, ⟨_, fraction, rfl, rfl, hf⟩, rfl⟩
    exact ⟨whole, fraction, rfl, mem_run.2 hw, hf⟩
  · rintro ⟨whole, fraction, rfl, hw, hf⟩
    exact ⟨whole, mem_run.1 hw, _, ⟨_, fraction, rfl, rfl, hf⟩, rfl⟩

theorem mem_unclosed {quote : Quote} :
    w ∈ language (.unclosed quote) ↔ ∃ inside ∈ body quote.val, w = quote.val :: inside := by
  rw [language, mem_oneOf_mul]
  simp only [decide_eq_true_eq]
  constructor
  · rintro ⟨_, inside, rfl, rfl, hin⟩
    exact ⟨inside, hin, rfl⟩
  · rintro ⟨inside, hin, rfl⟩
    exact ⟨_, inside, rfl, rfl, hin⟩

theorem mem_string {quote : Quote} :
    w ∈ language (.string quote) ↔
      ∃ inside ∈ body quote.val, w = quote.val :: (inside ++ [quote.val]) := by
  rw [language, mem_mul_oneOf]
  simp only [decide_eq_true_eq]
  constructor
  · rintro ⟨_, _, rfl, hopen, rfl⟩
    obtain ⟨inside, hin, rfl⟩ := mem_unclosed.1 hopen
    exact ⟨inside, hin, rfl⟩
  · rintro ⟨inside, hin, rfl⟩
    exact ⟨_, _, rfl, mem_unclosed.2 ⟨inside, hin, rfl⟩, rfl⟩

end Languages

/-- The number that digits stand for, the last of them being the ones. -/
def decimal (digits : List Char) : Nat :=
  Nat.ofDigits 10 (digits.reverse.map Number.digitValue)

/-- The text that the inside of a string stands for. -/
def decode : List Char → List Char
  | '\\' :: c :: rest => unescape c :: decode rest
  | c :: rest => c :: decode rest
  | [] => []

/-- What a piece of text that fits a pattern stands for, or why it is refused. -/
inductive Means : Pattern → List Char → Except ScanError.Cause Lexeme → Prop where
  | float {whole fraction : List Char} (hw : ∀ c ∈ whole, isDigit c = true) :
      Means .float (whole ++ '.' :: fraction)
        (.ok (.token (.float (Number.ofPointed whole fraction))))
  | integer {digits : List Char} {n : Int64} (hn : n.toInt = decimal digits) :
      Means .integer digits (.ok (.token (.int n)))
  | tooLarge {digits : List Char} (hn : 2 ^ 63 - 1 < decimal digits) :
      Means .integer digits (.error (.integerTooLarge (String.ofList digits)))
  | string {quote : Quote} {inside : List Char} :
      Means (.string quote) (quote.val :: (inside ++ [quote.val]))
        (.ok (.token (.str (String.ofList (decode inside)))))
  | unclosed {quote : Quote} {piece : List Char} :
      Means (.unclosed quote) piece (.error .unterminatedString)
  | identifier {word : List Char} :
      Means .identifier word (.ok (.token (.name (String.ofList word))))
  | fixed {f : Fixed} {piece : List Char} : Means (.fixed f) piece (.ok (.token f.kind))
  | comment {piece : List Char} : Means .comment piece (.ok .gap)
  | blank {piece : List Char} : Means .blank piece (.ok .gap)

/-- Nothing at the front of a text that fits a pattern is longer than the piece. -/
def Longest (text piece : List Char) : Prop :=
  ∀ (q : Pattern) (u v : List Char), text = u ++ v → u ∈ q.language → u.length ≤ piece.length

/-- The pattern takes a piece off the front of a text: it fits, nothing longer fits any pattern, and
a word that is reserved is no identifier. -/
structure Takes (text : List Char) (p : Pattern) (piece rest : List Char) : Prop where
  split : text = piece ++ rest
  fits : piece ∈ p.language
  longest : Longest text piece
  reserved : p = .identifier → ∀ f, piece ∉ (Pattern.fixed f).language

/-- No token can be cut off the front of a text: the piece there is refused, or there is none. -/
inductive Fails : List Char → ScanError.Cause → Prop where
  | refused {text piece rest : List Char} {p : Pattern} {cause : ScanError.Cause}
      (h : Takes text p piece rest) (hm : Means p piece (.error cause)) : Fails text cause
  | nothing {c : Char} {rest : List Char}
      (h : ∀ (p : Pattern) (u v : List Char), c :: rest = u ++ v → u ∉ p.language) :
      Fails (c :: rest) (.unexpectedCharacter c)

/-- A piece of text and what it stands for. -/
structure Piece where
  text : List Char
  lexeme : Lexeme
  deriving DecidableEq

/-- The pieces that a text is cut into one after the other, up to its end or up to a failure. -/
inductive Cutting : List Char → List Piece → Option ScanError.Cause → Prop where
  | done : Cutting [] [] none
  | piece {text word rest : List Char} {p : Pattern} {lexeme : Lexeme} {pieces : List Piece}
      {failure : Option ScanError.Cause} (h : Takes text p word rest)
      (hm : Means p word (.ok lexeme)) (more : Cutting rest pieces failure) :
      Cutting text (⟨word, lexeme⟩ :: pieces) failure
  | fail {text : List Char} {cause : ScanError.Cause} (h : Fails text cause) :
      Cutting text [] (some cause)

end Pattern

end Scriptlet
