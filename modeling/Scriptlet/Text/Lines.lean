namespace Scriptlet.Text

def lineFeed : UInt8 := 0x0a

def carriageReturn : UInt8 := 0x0d

/-- A line that has been read backwards, without the carriage return at its end. -/
def endLine : List UInt8 → ByteArray
  | [] => .empty
  | b :: line => (if b = carriageReturn then line else b :: line).reverse.toByteArray

/-- The lines of `line` reversed, followed by `bytes`. -/
def linesFrom (line : List UInt8) (bytes : List UInt8) : List ByteArray :=
  match bytes with
  | [] => if line.isEmpty then [] else [line.reverse.toByteArray]
  | b :: rest =>
    if b = lineFeed then endLine line :: linesFrom [] rest else linesFrom (b :: line) rest

/-- Lines end with a line feed, also with a carriage return before it. The last one may lack it. -/
def lines (bytes : ByteArray) : List ByteArray :=
  linesFrom [] bytes.toList

end Scriptlet.Text
