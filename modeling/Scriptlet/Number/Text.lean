import Scriptlet.Number.Shortest

namespace Scriptlet.Number

def digitsOf (n : Nat) : List Char :=
  Nat.toDigits 10 n

/-- Positional notation without an exponent, and without zeros at the end of the fraction. -/
def Decimal.positional (d : Decimal) : String :=
  match d.exponent with
  | .ofNat up => String.ofList (digitsOf (d.digits * powerOfTen up))
  | .negSucc down =>
    let places := down + 1
    let whole := d.digits / powerOfTen places
    let fraction := digitsOf (d.digits % powerOfTen places)
    let padded := List.replicate (places - fraction.length) '0' ++ fraction
    let kept := (padded.reverse.dropWhile (· = '0')).reverse
    if kept.isEmpty then String.ofList (digitsOf whole)
    else String.ofList (digitsOf whole ++ '.' :: kept)

def signed (negative : Bool) (text : String) : String :=
  if negative then "-" ++ text else text

def textWith (ofMagnitude : Magnitude → String) (x : Float) : String :=
  match Binary64.ofFloat x with
  | .finite negative m => signed negative (ofMagnitude m)
  | .infinite negative => signed negative "inf"
  | .nan => "NaN"

/-- The shortest digits that read back. -/
def plainText : Float → String :=
  textWith fun m => m.shortest.positional

/-- Like `plainText`, but a whole number is written in full and marked by one decimal place. -/
def markedText : Float → String :=
  textWith fun m =>
    match m.whole? with
    | some n => String.ofList (digitsOf n) ++ ".0"
    | none => m.shortest.positional

def digitValue (c : Char) : Nat :=
  c.toNat - '0'.toNat

/-- The number that a row of decimal digits stands for. -/
def ofDigits (digits : List Char) : Nat :=
  digits.foldl (fun n c => 10 * n + digitValue c) 0

/-- The binary64 number nearest to `whole.fraction`. -/
def ofPointed (whole fraction : List Char) : Float :=
  Float.ofScientific (ofDigits (whole ++ fraction)) true fraction.length

end Scriptlet.Number
