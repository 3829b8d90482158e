import Scriptlet.Operator
import Scriptlet.Value

namespace Scriptlet

/-- A place in the text. Lines and columns count from one, columns in characters. -/
structure Position where
  line : Nat := 1
  column : Nat := 1
  deriving DecidableEq

namespace Position

def label (p : Position) : String :=
  s!"line {p.line}, column {p.column}: "

end Position

inductive Keyword where
  | letWord
  | mutWord
  | fnWord
  | ifWord
  | elseWord
  | whileWord
  | returnWord
  | printWord
  deriving DecidableEq

def Keyword.all : List Keyword :=
  [.letWord, .mutWord, .fnWord, .ifWord, .elseWord, .whileWord, .returnWord, .printWord]

def Keyword.spelling : Keyword → String
  | .letWord => "let"
  | .mutWord => "mut"
  | .fnWord => "fn"
  | .ifWord => "if"
  | .elseWord => "else"
  | .whileWord => "while"
  | .returnWord => "return"
  | .printWord => "print"

inductive Mark where
  | assign
  | openParen
  | closeParen
  | openBrace
  | closeBrace
  | colon
  | arrow
  | comma
  deriving DecidableEq

def Mark.spelling : Mark → String
  | .assign => "="
  | .openParen => "("
  | .closeParen => ")"
  | .openBrace => "\x7b"
  | .closeBrace => "\x7d"
  | .colon => ":"
  | .arrow => "->"
  | .comma => ","

namespace Token

inductive Kind where
  | int (n : Int64)
  | float (x : Float)
  | str (s : String)
  | bool (b : Bool)
  | name (s : String)
  | keyword (k : Keyword)
  | typeTag (t : TypeTag)
  | operator (op : Operator)
  | mark (m : Mark)
  | newline
  | comment
  | blank
  | endOfInput
  deriving DecidableEq

/-- A token's name in messages. -/
def Kind.describe : Kind → String
  | .int n => "integer " ++ quote (toString n.toInt)
  | .float x => "float " ++ quote (Number.plainText x)
  | .str _ => "string literal"
  | .bool b => quote (boolText b)
  | .name s => "identifier " ++ quote s
  | .keyword k => quote k.spelling
  | .typeTag t => quote t.spelling
  | .operator op => quote op.spelling
  | .mark m => quote m.spelling
  | .newline => "newline"
  | .comment => "comment"
  | .blank => "whitespace"
  | .endOfInput => "end of input"
where
  quote (s : String) : String := "`" ++ s ++ "`"

/-- The reserved words. -/
def Kind.words : List (String × Kind) :=
  Keyword.all.map (fun k => (k.spelling, .keyword k)) ++
  [true, false].map (fun b => (boolText b, .bool b)) ++
  TypeTag.all.map (fun t => (t.spelling, .typeTag t))

/-- What a row of letters stands for: a reserved word or else a name. -/
def Kind.ofWord (word : String) : Kind :=
  (words.lookup word).getD (.name word)

end Token

structure Token where
  kind : Token.Kind
  position : Position
  deriving DecidableEq

def Token.line (t : Token) : Nat :=
  t.position.line

end Scriptlet
