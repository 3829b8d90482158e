import Scriptlet.Number.Text

namespace Scriptlet

/-- The kinds of value, which programs also name in annotations. -/
inductive TypeTag where
  | int
  | float
  | str
  | bool
  deriving DecidableEq

def TypeTag.all : List TypeTag :=
  [.int, .float, .str, .bool]

def TypeTag.spelling : TypeTag → String
  | .int => "i32"
  | .float => "f64"
  | .str => "str"
  | .bool => "bool"

def boolText (b : Bool) : String :=
  if b then "true" else "false"

inductive Value where
  | int (n : Int64)
  | float (x : Float)
  | str (s : String)
  | bool (b : Bool)
  deriving DecidableEq

namespace Value

def kind : Value → TypeTag
  | .int _ => .int
  | .float _ => .float
  | .str _ => .str
  | .bool _ => .bool

def text : Value → String
  | .int n => toString n.toInt
  | .float x => Number.markedText x
  | .str s => s
  | .bool b => boolText b

end Value

/-- An annotation admits the values of its own kind, and `float` admits integers too. -/
def TypeTag.admits (tag : TypeTag) (v : Value) : Bool :=
  tag = v.kind || (tag = .float && v.kind = .int)

end Scriptlet
