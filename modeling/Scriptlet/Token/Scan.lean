import Scriptlet.Text.Slice
import Scriptlet.Token.Lexeme

namespace Scriptlet

/-- Why a text cannot be cut into tokens, and where. -/
structure ScanError where
  cause : ScanError.Cause
  position : Position
  deriving DecidableEq

def ScanError.message (e : ScanError) : String :=
  e.position.label ++
  match e.cause with
  | .unexpectedCharacter c => "unexpected character '" ++ c.toString ++ "'"
  | .unterminatedString => "unterminated string"
  | .integerTooLarge literal => "integer literal " ++ literal ++ " is too large"

/-- The line that a scanner is on: its number, and the byte of the text at which it begins. -/
structure LineMark where
  number : Nat := 1
  start : Nat := 0

namespace LineMark

/-- The place of a byte on the line. Columns count the characters since the line began. -/
def place (l : LineMark) (text : String) (offset : Nat) : Position :=
  ⟨l.number, ((Text.slice? text l.start offset).map (·.length + 1)).getD 1⟩

/-- The line behind a token that begins at the byte `start`. A newline begins another line, and so
does the last line feed of a string. -/
def past (l : LineMark) (start : Nat) (piece : List Char) : Token.Kind → LineMark
  | .newline => ⟨l.number + 1, start + Text.size piece⟩
  | .str _ =>
    match Text.lastLineFeed? piece with
    | some last => ⟨l.number + piece.count '\n', start + last + 1⟩
    | none => l
  | _ => l

end LineMark

/-- A scanner at work: the line that it is on, and the text that is left with the byte at which this
begins. -/
structure Scanner where
  line : LineMark := {}
  offset : Nat := 0
  rest : List Char

namespace Scanner

/-- What a scanner comes to next, the byte at which it begins, and the scanner behind it. -/
inductive Next where
  | done
  | token (kind : Token.Kind) (start : Nat) (behind : Scanner)
  | failure (cause : ScanError.Cause) (start : Nat)

/-- Goes over gaps to the next token. The first `pass` characters of the text belong to a gap that
has been cut already. -/
def nextFrom (line : LineMark) (pass offset : Nat) : List Char → Next
  | [] => .done
  | c :: rest =>
    match pass with
    | pass + 1 => nextFrom line pass (offset + c.utf8Size) rest
    | 0 =>
      match Lexeme.cut c rest with
      | .ok ⟨.gap, more⟩ => nextFrom line more (offset + c.utf8Size) rest
      | .ok ⟨.token kind, more⟩ =>
        let piece := c :: rest.take more
        .token kind offset ⟨line.past offset piece kind, offset + Text.size piece, rest.drop more⟩
      | .error cause => .failure cause offset

def next (s : Scanner) : Next :=
  nextFrom s.line 0 s.offset s.rest

end Scanner

namespace Token

/-- Goes on for up to `bound` tokens. The tokens so far are reversed in `found`. A token stands on
the line that the scanner is on before it looks for the token. -/
def scanWithin (text : String) : Nat → Scanner → List Token → Except ScanError (List Token)
  | 0, s, found => .ok (⟨.endOfInput, s.line.place text text.utf8ByteSize⟩ :: found).reverse
  | bound + 1, s, found =>
    match s.next with
    | .done => .ok (⟨.endOfInput, s.line.place text text.utf8ByteSize⟩ :: found).reverse
    | .token kind start behind =>
      scanWithin text bound behind (⟨kind, s.line.place text start⟩ :: found)
    | .failure cause start => .error ⟨cause, s.line.place text start⟩

/-- The tokens of a text, closed by a token for its end. Each takes a character at least, so there
are no more than that. -/
def scan (text : String) : Except ScanError (List Token) :=
  scanWithin text text.length { rest := text.toList } []

end Token

end Scriptlet
