import Scriptlet.Fault

namespace Scriptlet

namespace Value

/-- The float that a number stands for, if it stands for one exactly. -/
def toFloat : Value → Except Fault Float
  | .float x => .ok x
  | .int n => match Number.promote? n with
    | some x => .ok x
    | none => .error (.precisionLoss n)
  | v => .error (.typeMismatch .float v.kind)

def toBool : Value → Except Fault Bool
  | .bool b => .ok b
  | v => .error (.expectedBoolean v.kind)

/-- The 64-bit integer that an exact result stands for. -/
def ofExact (n : Int) : Except Fault Value :=
  if Int64.minValue.toInt ≤ n ∧ n ≤ Int64.maxValue.toInt then .ok (.int (Int64.ofInt n))
  else .error .overflow

/-- The float nearest to a number. -/
def nearest? : Value → Option Float
  | .int n => some (Number.nearest n)
  | .float x => some x
  | _ => none

end Value

namespace Operator

def refuse {α : Type} (op : Operator) (a b : Value) : Except Fault α :=
  .error (.invalidOperands op a.kind b.kind)

/-- Integers give an integer; as soon as one operand is a float, both become floats. -/
def arithmetic (op : Operator) (onInts : Int → Int → Int) (onFloats : Float → Float → Float)
    (a b : Value) : Except Fault Value :=
  match a, b with
  | .int m, .int n => Value.ofExact (onInts m.toInt n.toInt)
  | .int _, .float _ | .float _, .int _ | .float _, .float _ => do
    let x ← a.toFloat
    let y ← b.toFloat
    return .float (onFloats x y)
  | _, _ => op.refuse a b

/-- The quotient is always a float. -/
def quotient (a b : Value) : Except Fault Value :=
  match a.nearest?, b.nearest? with
  | some x, some y => if y == 0 then .error .divisionByZero else .ok (.float (x / y))
  | _, _ => div.refuse a b

/-- Values of one kind are ordered by it, and numbers of both kinds as floats. -/
def order (op : Operator) (a b : Value) : Except Fault (Option Ordering) :=
  match a, b with
  | .int m, .int n => .ok (some (compare m n))
  | .str s, .str t => .ok (some (compare s t))
  | .bool p, .bool q => .ok (some (compare p q))
  | _, _ =>
    match a.nearest?, b.nearest? with
    | some x, some y => .ok (Number.order x y)
    | _, _ => op.refuse a b

/-- The orders for which a comparison holds. -/
def accepts (op : Operator) (o : Option Ordering) : Bool :=
  match op with
  | .less => o = some .lt
  | .greater => o = some .gt
  | .lessEqual => o = some .lt || o = some .eq
  | .greaterEqual => o = some .gt || o = some .eq
  | .equal => o = some .eq
  | .notEqual => o ≠ some .eq
  | _ => false

def compared (op : Operator) (a b : Value) : Except Fault Value :=
  (op.order a b).map fun o => .bool (op.accepts o)

def apply (op : Operator) (a b : Value) : Except Fault Value :=
  match op with
  | .add =>
    match a, b with
    | .str s, .str t => .ok (.str (s ++ t))
    | _, _ => op.arithmetic (· + ·) (· + ·) a b
  | .sub => op.arithmetic (· - ·) (· - ·) a b
  | .mul => op.arithmetic (· * ·) (· * ·) a b
  | .div => quotient a b
  | .less | .greater | .lessEqual | .greaterEqual | .equal | .notEqual => op.compared a b

end Operator

end Scriptlet
