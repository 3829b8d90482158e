import Scriptlet.Proofs.Evaluation

namespace Scriptlet

/-- An integer that fits in 64 bits. -/
def InRange (x : Int) : Prop :=
  -(Number.powerOfTwo 63 : Int) ≤ x ∧ x < Number.powerOfTwo 63

instance : DecidablePred InRange :=
  fun _ => inferInstanceAs (Decidable (_ ∧ _))

/-- What an operator does to integers of any size. -/
def Operator.onIntegers? : Operator → Option (Int → Int → Int)
  | .add => some (· + ·)
  | .sub => some (· - ·)
  | .mul => some (· * ·)
  | _ => none

namespace Expr

/-- The exact value of an expression made of integers, from the values of its variables. Other
expressions have none. -/
def integer? (values : String → Option Int) : Expr → Option Int
  | .literal (.int n) _ => some n.toInt
  | .literal _ _ => none
  | .var name _ => values name
  | .binary op left right _ =>
    match op.onIntegers?, left.integer? values, right.integer? values with
    | some f, some x, some y => some (f x y)
    | _, _, _ => none
  | .call _ _ _ => none

/-- An expression and all expressions inside it, in the order in which they are evaluated. -/
def postorder : Expr → List Expr
  | .literal value line => [.literal value line]
  | .var name line => [.var name line]
  | .binary op left right line =>
    left.postorder ++ right.postorder ++ [.binary op left right line]
  | .call name arguments line =>
    arguments.flatMap Expr.postorder ++ [.call name arguments line]

def isOperation : Expr → Bool
  | .binary _ _ _ _ => true
  | .literal _ _ | .var _ _ | .call _ _ _ => false

def overflows (values : String → Option Int) (e : Expr) : Bool :=
  (e.integer? values).any fun x => ¬ InRange x

/-- The operation that is the first to have a value out of range. -/
def firstOverflow? (values : String → Option Int) (e : Expr) : Option Expr :=
  (e.postorder.filter isOperation).find? (overflows values)

/-- The expression and all expressions inside it have values in range. -/
def Fits (values : String → Option Int) (e : Expr) : Prop :=
  ∀ part ∈ e.postorder, ∃ x, part.integer? values = some x ∧ InRange x

end Expr

/-- The integer that a variable stands for. -/
def Session.integerIn? (s : Session) (scope : ScopeId) (name : String) : Option Int :=
  match s.scopes.lookup? scope name with
  | some (.int n) => some n.toInt
  | _ => none

section Range

variable {x : Int}

theorem inRange_toInt (n : Int64) : InRange n.toInt :=
  ⟨n.le_toInt, n.toInt_lt⟩

theorem toInt_ofInt_of_inRange (h : InRange x) : (Int64.ofInt x).toInt = x :=
  Int64.toInt_ofInt_of_le h.1 h.2

theorem inRange_iff : InRange x ↔ Int64.minValue.toInt ≤ x ∧ x ≤ Int64.maxValue.toInt := by
  have least : Int64.minValue.toInt = -(Number.powerOfTwo 63 : Int) := by decide
  have greatest : Int64.maxValue.toInt = (Number.powerOfTwo 63 : Int) - 1 := by decide
  rw [least, greatest]
  unfold InRange
  omega

theorem ofExact_of_inRange (h : InRange x) : Value.ofExact x = .ok (.int (Int64.ofInt x)) :=
  if_pos (inRange_iff.mp h)

theorem ofExact_of_not_inRange (h : ¬ InRange x) : Value.ofExact x = .error .overflow :=
  if_neg fun hx => h (inRange_iff.mpr hx)

/-- The operators know no integers but exact ones. -/
theorem apply_integers {op : Operator} {f : Int → Int → Int} (h : op.onIntegers? = some f)
    (m n : Int64) : op.apply (.int m) (.int n) = Value.ofExact (f m.toInt n.toInt) := by
  cases op with
  | add | sub | mul =>
    obtain rfl := Option.some.inj h
    rfl
  | div | less | greater | lessEqual | greaterEqual | equal | notEqual => cases h

end Range

namespace Expr

variable {values : String → Option Int} {op : Operator} {left right e : Expr} {line : Nat}
  {x : Int}

theorem mem_postorder (e : Expr) : e ∈ e.postorder := by
  cases e <;> simp [postorder]

theorem overflows_iff (h : e.integer? values = some x) :
    e.overflows values = true ↔ ¬ InRange x := by
  simp [overflows, h]

theorem Fits.inRange (hf : e.Fits values) (h : e.integer? values = some x) : InRange x := by
  obtain ⟨y, hy, hr⟩ := hf e e.mem_postorder
  rw [h] at hy
  obtain rfl := Option.some.inj hy
  exact hr

theorem fits_binary (hl : left.Fits values) (hr : right.Fits values)
    (h : (Expr.binary op left right line).integer? values = some x) (hx : InRange x) :
    (Expr.binary op left right line).Fits values := by
  intro part hp
  simp only [postorder, List.mem_append, List.mem_singleton] at hp
  rcases hp with (hp | hp) | rfl
  · exact hl part hp
  · exact hr part hp
  · exact ⟨x, h, hx⟩

theorem firstOverflow?_binary :
    (Expr.binary op left right line).firstOverflow? values =
      ((left.firstOverflow? values).or (right.firstOverflow? values)).or
        (if (Expr.binary op left right line).overflows values
          then some (.binary op left right line) else none) := by
  simp only [firstOverflow?, postorder, List.filter_append, List.find?_append]
  congr 1
  simp [isOperation]

/-- A value that does not fit belongs to an operation. -/
theorem Fits.firstOverflow (hf : e.Fits values) : e.firstOverflow? values = none := by
  apply List.find?_eq_none.mpr
  intro part hp
  obtain ⟨x, hx, hr⟩ := hf part (List.mem_filter.mp hp).1
  rw [overflows_iff hx]
  exact fun h => h hr

end Expr

/-- What becomes of an expression whose exact value is `x`. -/
inductive Session.Reckons (s : Session) (scope : ScopeId) (e : Expr) (x : Int) : Prop where
  | fits (h : e.Fits (s.integerIn? scope))
      (he : s.Evaluates scope e (.ok (some (.int (Int64.ofInt x)))))
  | overflow {first : Expr} (h : e.firstOverflow? (s.integerIn? scope) = some first)
      (he : s.Evaluates scope e (.error ⟨.overflow, first.line⟩))

namespace Session

variable {s : Session} {scope : ScopeId} {e left right : Expr} {a b x : Int}

namespace Reckons

/-- Literals and variables have no parts but themselves. -/
theorem leaf {n : Int64} (hp : e.postorder = [e])
    (hn : e.integer? (s.integerIn? scope) = some n.toInt)
    (he : s.Evaluates scope e (.ok (some (.int n)))) : s.Reckons scope e n.toInt := by
  apply Reckons.fits
  · intro part hm
    rw [hp, List.mem_singleton] at hm
    rw [hm]
    exact ⟨_, hn, inRange_toInt n⟩
  · rw [Int64.ofInt_toInt]
    exact he

theorem binary {op : Operator} {f : Int → Int → Int} (hl : s.Reckons scope left a)
    (hr : s.Reckons scope right b) (hf : op.onIntegers? = some f)
    (ha : left.integer? (s.integerIn? scope) = some a)
    (hb : right.integer? (s.integerIn? scope) = some b) (line : Nat) :
    s.Reckons scope (.binary op left right line) (f a b) := by
  have hx : (Expr.binary op left right line).integer? (s.integerIn? scope) = some (f a b) := by
    simp only [Expr.integer?, hf, ha, hb]
  have hfirst := @Expr.firstOverflow?_binary (s.integerIn? scope) op left right line
  cases hl with
  | overflow hl el =>
    rw [hl] at hfirst
    exact .overflow hfirst (el.left_error op right line)
  | fits fl el =>
    rw [fl.firstOverflow] at hfirst
    cases hr with
    | overflow hr er =>
      rw [hr] at hfirst
      exact .overflow hfirst (el.right_error er op line)
    | fits fr er =>
      rw [fr.firstOverflow] at hfirst
      have he := el.binary er op line
      rw [apply_integers hf, toInt_ofInt_of_inRange (fl.inRange ha),
        toInt_ofInt_of_inRange (fr.inRange hb)] at he
      by_cases hr : InRange (f a b)
      · rw [ofExact_of_inRange hr] at he
        exact .fits (Expr.fits_binary fl fr hx hr) he
      · rw [if_pos ((Expr.overflows_iff hx).mpr hr)] at hfirst
        rw [ofExact_of_not_inRange hr] at he
        exact .overflow hfirst he

end Reckons

theorem reckons_of_integer (h : e.integer? (s.integerIn? scope) = some x) :
    s.Reckons scope e x := by
  fun_induction Expr.integer? (s.integerIn? scope) e generalizing x with
  | case1 n line =>
    obtain rfl := Option.some.inj h
    exact .leaf (by rw [Expr.postorder]) rfl (.literal s scope (.int n) line)
  | case3 name line =>
    have hn := h
    unfold integerIn? at hn
    split at hn
    · rename_i n hv
      obtain rfl := Option.some.inj hn
      exact .leaf (by rw [Expr.postorder]) h (.var hv line)
    · cases hn
  | case4 op left right line f a b hb ha hf ihl ihr =>
    obtain rfl := Option.some.inj h
    exact (ihl ha).binary (ihr hb) hf ha hb line
  | case2 | case5 | case6 => cases h

/-- An expression made of integers comes to its exact value if all values inside it are in range.
Otherwise it overflows, at the line of the first operation whose value is out of range. -/
theorem eval_exact (h : e.integer? (s.integerIn? scope) = some x) :
    (e.Fits (s.integerIn? scope) → ∃ n : Int64, n.toInt = x ∧
      ∀ answer, (∃ fuel, s.evalIn scope fuel e = some answer) ↔
        answer = ⟨.ok (some (.int n)), s⟩) ∧
      (¬ e.Fits (s.integerIn? scope) →
        ∃ first, e.firstOverflow? (s.integerIn? scope) = some first ∧
          ∀ answer, (∃ fuel, s.evalIn scope fuel e = some answer) ↔
            answer = ⟨.error ⟨.overflow, first.line⟩, s⟩) := by
  cases reckons_of_integer h with
  | fits hf he =>
    have value := toInt_ofInt_of_inRange (hf.inRange h)
    exact ⟨fun _ => ⟨_, value, he.evalIn_iff⟩, fun hn => absurd hf hn⟩
  | overflow hf he =>
    refine ⟨fun fits => ?_, fun _ => ⟨_, hf, he.evalIn_iff⟩⟩
    rw [fits.firstOverflow] at hf
    cases hf

/-- For one, the greatest integer plus `x` less one, where `x` is one: the value is in range again,
but the sum was not. -/
theorem eval_exact_hidden :
    let s : Session := (({} : Session).define Scopes.globals "x" ⟨.int 1, false⟩).2
    let sum : Expr := .binary .add (.literal (.int Int64.maxValue) 1) (.var "x" 1) 2
    let e : Expr := .binary .sub sum (.literal (.int 1) 3) 3
    e.integer? (s.integerIn? Scopes.globals) = some Int64.maxValue.toInt ∧
      e.firstOverflow? (s.integerIn? Scopes.globals) = some sum ∧
        ∃ fuel, s.evalIn Scopes.globals fuel e = some ⟨.error ⟨.overflow, 2⟩, s⟩ := by
  intro s sum e
  have value : e.integer? (s.integerIn? Scopes.globals) = some Int64.maxValue.toInt := by decide
  have beyond : sum.overflows (s.integerIn? Scopes.globals) = true := by decide
  have first : e.firstOverflow? (s.integerIn? Scopes.globals) = some sum := by
    have operations : e.postorder.filter Expr.isOperation = [sum, e] := by
      simp only [e, sum, Expr.postorder]
      rfl
    rw [Expr.firstOverflow?, operations, List.find?_cons_of_pos beyond]
  obtain ⟨o, ho, answers⟩ := (eval_exact value).2 fun fits => by
    rw [fits.firstOverflow] at first
    cases first
  rw [first] at ho
  obtain rfl := Option.some.inj ho
  exact ⟨value, first, (answers _).mpr rfl⟩

end Session

end Scriptlet
