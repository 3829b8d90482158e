import Scriptlet.Number.Binary64

namespace Scriptlet.Number

/-- The number `digits * 10 ^ exponent`. -/
structure Decimal where
  digits : Nat
  exponent : Int
  deriving DecidableEq

/-- The real numbers that round to a binary64 number, as whole multiples of `2 ^ exponent`. -/
structure Interval where
  low : Nat
  middle : Nat
  high : Nat
  closed : Bool
  exponent : Int

/-- Neighbours are one mantissa step away, except that the step down from a power of two is half
as long. A number halfway between two goes to the even mantissa. -/
def Magnitude.interval (m : Magnitude) : Interval :=
  let stepDown := if m.mantissa = powerOfTwo 52 ∧ m.exponent ≠ leastExponent then 1 else 2
  { low := 4 * m.mantissa - stepDown
    middle := 4 * m.mantissa
    high := 4 * m.mantissa + 2
    closed := m.mantissa % 2 = 0
    exponent := m.exponent - 2 }

/-- An interval laid over a decimal grid: the point `d` of the grid stands at `d * scale`. -/
structure Grid where
  low : Nat
  middle : Nat
  high : Nat
  closed : Bool
  scale : Nat

def Interval.onGrid (i : Interval) (exponent : Int) : Grid :=
  let up := powerOfTwo i.exponent.toNat * powerOfTen (-exponent).toNat
  { low := i.low * up
    middle := i.middle * up
    high := i.high * up
    closed := i.closed
    scale := powerOfTwo (-i.exponent).toNat * powerOfTen exponent.toNat }

def Grid.covers (g : Grid) (d : Nat) : Bool :=
  if g.closed then g.low ≤ d * g.scale && d * g.scale ≤ g.high
  else g.low < d * g.scale && d * g.scale < g.high

/-- The grid point nearest to the middle among those that the interval covers. A middle halfway
between two points goes to the upper one. -/
def Grid.point? (g : Grid) : Option Nat :=
  let below := g.middle / g.scale
  let above := below + 1
  match g.covers below, g.covers above with
  | true, true => if 2 * g.middle < (below + above) * g.scale then some below else some above
  | true, false => some below
  | false, true => some above
  | false, false => none

/-- The point on the coarsest grid that has one, from `10 ^ (step + leastExponent)` downwards. On
the finest grid every binary64 number is itself a point. -/
def Interval.coarsest (i : Interval) : Nat → Decimal
  | 0 =>
    let g := i.onGrid leastExponent
    ⟨g.middle / g.scale, leastExponent⟩
  | step + 1 =>
    let exponent := (step + 1 : Nat) + leastExponent
    match (i.onGrid exponent).point? with
    | some d => ⟨d, exponent⟩
    | none => i.coarsest step

/-- A decimal with the fewest digits among those that round to the magnitude, and of these the
nearest. No binary64 number reaches `10 ^ 309`. -/
def Magnitude.shortest (m : Magnitude) : Decimal :=
  if m.mantissa = 0 then ⟨0, 0⟩ else m.interval.coarsest (309 + 1074)

end Scriptlet.Number
