namespace Scriptlet.Number

abbrev powerOfTwo (n : Nat) : Nat :=
  Nat.pow 2 n

abbrev powerOfTen (n : Nat) : Nat :=
  Nat.pow 10 n

/-- The magnitude `mantissa * 2 ^ exponent`. -/
structure Magnitude where
  mantissa : Nat
  exponent : Int
  deriving DecidableEq

inductive Binary64 where
  | finite (negative : Bool) (magnitude : Magnitude)
  | infinite (negative : Bool)
  | nan
  deriving DecidableEq

/-- The exponent of the smallest positive number, whose mantissa is one. -/
def leastExponent : Int := -1074

def Binary64.ofFloat (x : Float) : Binary64 :=
  let bits := x.toBits.toNat
  let negative := bits / powerOfTwo 63 == 1
  let biased : Nat := bits / powerOfTwo 52 % 2048
  let fraction : Nat := bits % powerOfTwo 52
  if biased = 2047 then
    if fraction = 0 then .infinite negative else .nan
  else if biased = 0 then
    .finite negative ⟨fraction, leastExponent⟩
  else
    .finite negative ⟨powerOfTwo 52 + fraction, (biased : Int) - 1 + leastExponent⟩

/-- The magnitude itself, if it is a whole number. -/
def Magnitude.whole? (m : Magnitude) : Option Nat :=
  match m.exponent with
  | .ofNat up => some (m.mantissa * powerOfTwo up)
  | .negSucc down =>
    let unit := powerOfTwo (down + 1)
    if m.mantissa % unit = 0 then some (m.mantissa / unit) else none

def isIntegral (x : Float) : Bool :=
  match Binary64.ofFloat x with
  | .finite _ m => m.whole?.isSome
  | _ => false

/-- Up to this magnitude no two integers are nearest to the same binary64 number. -/
def exactBound : Nat :=
  powerOfTwo 53 - 1

/-- The binary64 number equal to a 64-bit integer within the bound. -/
def promote? (n : Int64) : Option Float :=
  if n.toInt.natAbs ≤ exactBound then some (Float.ofInt n.toInt) else none

/-- The binary64 number nearest to a 64-bit integer. -/
def nearest (n : Int64) : Float :=
  Float.ofInt n.toInt

/-- The order of two numbers. A NaN has no place in it. -/
def order (x y : Float) : Option Ordering :=
  if x < y then some .lt
  else if y < x then some .gt
  else if x == y then some .eq
  else none

end Scriptlet.Number
