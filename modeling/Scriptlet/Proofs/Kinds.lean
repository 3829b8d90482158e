import Scriptlet.Proofs.Evaluation

namespace Scriptlet

def TypeTag.isNumber : TypeTag → Bool
  | .int | .float => true
  | .str | .bool => false

/-- The kind of a sum, a difference or a product of numbers. -/
def TypeTag.arithmetic? (a b : TypeTag) : Option TypeTag :=
  if a = .int ∧ b = .int then some .int
  else if a.isNumber ∧ b.isNumber then some .float
  else none

def TypeTag.quotient? (a b : TypeTag) : Option TypeTag :=
  if a.isNumber ∧ b.isNumber then some .float else none

/-- Numbers are compared with numbers, and otherwise only values of one kind. -/
def TypeTag.comparison? (a b : TypeTag) : Option TypeTag :=
  if (a.isNumber ∧ b.isNumber) ∨ (a = .str ∧ b = .str) ∨ (a = .bool ∧ b = .bool) then some .bool
  else none

/-- The kind of what an operator makes of operands of these kinds. -/
def Operator.kind? (op : Operator) (a b : TypeTag) : Option TypeTag :=
  match op with
  | .add => if a = .str ∧ b = .str then some .str else a.arithmetic? b
  | .sub | .mul => a.arithmetic? b
  | .div => a.quotient? b
  | .less | .greater | .lessEqual | .greaterEqual | .equal | .notEqual => a.comparison? b

/-- The kind of an expression, from those of its variables. Of calls nothing is known. -/
def Expr.kind? (kinds : String → Option TypeTag) : Expr → Option TypeTag
  | .literal value _ => some value.kind
  | .var name _ => kinds name
  | .binary op left right _ =>
    match left.kind? kinds, right.kind? kinds with
    | some a, some b => op.kind? a b
    | _, _ => none
  | .call _ _ _ => none

/-- The kind of the value of a variable. -/
def Session.kindIn? (s : Session) (scope : ScopeId) (name : String) : Option TypeTag :=
  (s.scopes.lookup? scope name).map Value.kind

/-- There are no calls in the expression, and all its variables are `known`. -/
inductive Expr.Plain (known : String → Prop) : Expr → Prop where
  | literal (v : Value) (line : Nat) : Plain known (.literal v line)
  | var {name : String} (h : known name) (line : Nat) : Plain known (.var name line)
  | binary {left right : Expr} (op : Operator) (hl : Plain known left) (hr : Plain known right)
      (line : Nat) : Plain known (.binary op left right line)

/-- What an expression of this kind, or of none, may come to. -/
inductive Foretells : Option TypeTag → Except RuntimeError (Option Value) → Prop where
  | value (v : Value) : Foretells (some v.kind) (.ok (some v))
  | arithmetic {kind : Option TypeTag} {error : RuntimeError}
      (h : error.fault.category = .arithmetic) : Foretells kind (.error error)
  | operands (op : Operator) (left right : TypeTag) (line : Nat) :
      Foretells none (.error ⟨.invalidOperands op left right, line⟩)

namespace Foretells

variable (line : Nat) (a b : Value)

theorem refuse (op : Operator) : Foretells none (located line (op.refuse a b)) :=
  .operands op a.kind b.kind line

theorem ofExact (n : Int) : Foretells (some .int) (located line (Value.ofExact n)) := by
  unfold Value.ofExact
  split
  · exact .value (.int _)
  · exact .arithmetic rfl

/-- Numbers fail to become floats only by loss of precision. -/
theorem toFloat_cases {v : Value} (h : v.kind.isNumber = true) :
    (∃ x, v.toFloat = .ok x) ∨ ∃ n, v.toFloat = .error (.precisionLoss n) := by
  cases v with
  | float x => exact .inl ⟨x, rfl⟩
  | int n =>
    unfold Value.toFloat
    cases hp : Number.promote? n with
    | some x => exact .inl ⟨x, by simp [hp]⟩
    | none => exact .inr ⟨n, by simp [hp]⟩
  | str s => cases h
  | bool p => cases h

theorem floats {a b : Value} (ha : a.kind.isNumber = true) (hb : b.kind.isNumber = true)
    (onFloats : Float → Float → Float) :
    Foretells (some .float) (located line (do
      let x ← a.toFloat
      let y ← b.toFloat
      return .float (onFloats x y))) := by
  rcases toFloat_cases ha with ⟨x, hx⟩ | ⟨n, hn⟩
  · rcases toFloat_cases hb with ⟨y, hy⟩ | ⟨n, hn⟩
    · rw [hx, hy]
      exact .value (.float _)
    · rw [hx, hn]
      exact .arithmetic rfl
  · rw [hn]
    exact .arithmetic rfl

theorem ofArithmetic (op : Operator) (onInts : Int → Int → Int)
    (onFloats : Float → Float → Float) :
    Foretells (a.kind.arithmetic? b.kind)
      (located line (op.arithmetic onInts onFloats a b)) := by
  cases a with
  | int m =>
    cases b with
    | int n => exact ofExact line _
    | float y => exact floats line rfl rfl onFloats
    | str | bool => exact refuse line _ _ op
  | float x =>
    cases b with
    | int | float => exact floats line rfl rfl onFloats
    | str | bool => exact refuse line _ _ op
  | str | bool => cases b <;> exact refuse line _ _ op

theorem ofQuotient :
    Foretells (a.kind.quotient? b.kind) (located line (Operator.quotient a b)) := by
  have numbers (x y : Float) : Foretells (some .float)
      (located line (if y == 0 then .error .divisionByZero else .ok (.float (x / y)))) := by
    split
    · exact .arithmetic rfl
    · exact .value (.float _)
  cases a with
  | int | float =>
    cases b with
    | int | float => exact numbers _ _
    | str | bool => exact refuse line _ _ .div
  | str | bool => cases b <;> exact refuse line _ _ .div

theorem ofCompared (op : Operator) :
    Foretells (a.kind.comparison? b.kind) (located line (op.compared a b)) := by
  cases a with
  | int | float =>
    cases b with
    | int | float => exact .value (.bool _)
    | str | bool => exact refuse line _ _ op
  | str =>
    cases b with
    | str => exact .value (.bool _)
    | int | float | bool => exact refuse line _ _ op
  | bool =>
    cases b with
    | bool => exact .value (.bool _)
    | int | float | str => exact refuse line _ _ op

/-- Every operator on values of every kind. -/
theorem apply (op : Operator) :
    Foretells (op.kind? a.kind b.kind) (located line (op.apply a b)) := by
  cases op with
  | add =>
    have numbers := ofArithmetic line a b .add (· + ·) (· + ·)
    cases a with
    | int | float | bool => exact numbers
    | str =>
      cases b with
      | int | float | bool => exact numbers
      | str => exact .value (.str _)
  | sub => exact ofArithmetic line a b .sub _ _
  | mul => exact ofArithmetic line a b .mul _ _
  | div => exact ofQuotient line a b
  | less | greater | lessEqual | greaterEqual | equal | notEqual => exact ofCompared line a b _

end Foretells

namespace Session

variable {s : Session} {scope : ScopeId} {e : Expr}

/-- What an expression comes to is foretold by its kind: if an operand goes wrong then so does the
operation, and an operand that has no kind leaves the operation without one. -/
theorem exists_foretold (h : e.Plain fun name => (s.scopes.lookup? scope name).isSome) :
    ∃ outcome, s.Evaluates scope e outcome ∧ Foretells (e.kind? (s.kindIn? scope)) outcome := by
  induction h with
  | literal v line => exact ⟨_, .literal s scope v line, .value v⟩
  | @var name h line =>
    obtain ⟨v, hv⟩ := Option.isSome_iff_exists.mp h
    have hk : s.kindIn? scope name = some v.kind := by rw [kindIn?, hv, Option.map_some]
    refine ⟨_, .var hv line, ?_⟩
    rw [Expr.kind?, hk]
    exact .value v
  | @binary left right op _ _ line hl hr =>
    obtain ⟨x, hx, fx⟩ := hl
    obtain ⟨y, hy, fy⟩ := hr
    rw [Expr.kind?]
    generalize left.kind? (s.kindIn? scope) = k at fx ⊢
    generalize right.kind? (s.kindIn? scope) = l at fy ⊢
    cases fx with
    | arithmetic h => exact ⟨_, hx.left_error op right line, .arithmetic h⟩
    | operands o m n place => exact ⟨_, hx.left_error op right line, .operands o m n place⟩
    | value a =>
      cases fy with
      | arithmetic h => exact ⟨_, hx.right_error hy op line, .arithmetic h⟩
      | operands o m n place => exact ⟨_, hx.right_error hy op line, .operands o m n place⟩
      | value b => exact ⟨_, hx.binary hy op line, .apply line a b op⟩

/-- Evaluating an expression without calls whose variables are all there changes nothing. If it
has a kind, it comes to a value of this kind or its arithmetic goes wrong. If it has none, it comes
to no value: some operator refuses its operands, unless arithmetic goes wrong first. -/
theorem eval_kind (h : e.Plain fun name => (s.scopes.lookup? scope name).isSome) :
    ∃ outcome,
      (∀ answer, (∃ fuel, s.evalIn scope fuel e = some answer) ↔ answer = ⟨outcome, s⟩) ∧
        Foretells (e.kind? (s.kindIn? scope)) outcome := by
  obtain ⟨outcome, ho, hf⟩ := exists_foretold h
  exact ⟨outcome, ho.evalIn_iff, hf⟩

/-- For one, `"a" + "b" == x + 2` comes to an error where `x` is an integer. -/
theorem eval_kind_refused :
    let s : Session := (({} : Session).define Scopes.globals "x" ⟨.int 1, false⟩).2
    let e : Expr := .binary .equal (.binary .add (.literal (.str "a") 1) (.literal (.str "b") 1) 1)
      (.binary .add (.var "x" 1) (.literal (.int 2) 1) 1) 1
    e.Plain (fun name => (s.scopes.lookup? Scopes.globals name).isSome) ∧
      e.kind? (s.kindIn? Scopes.globals) = none ∧
        ∃ error fuel, s.evalIn Scopes.globals fuel e = some ⟨.error error, s⟩ := by
  intro s e
  have known : (s.scopes.lookup? Scopes.globals "x").isSome = true := by decide
  have plain : e.Plain fun name => (s.scopes.lookup? Scopes.globals name).isSome :=
    .binary _ (.binary _ (.literal _ 1) (.literal _ 1) 1)
      (.binary _ (.var known 1) (.literal _ 1) 1) 1
  have none : e.kind? (s.kindIn? Scopes.globals) = none := by decide
  obtain ⟨outcome, ho, hf⟩ := eval_kind plain
  rw [none] at hf
  refine ⟨plain, none, ?_⟩
  cases hf with
  | @arithmetic _ error _ => exact ⟨error, (ho _).mpr rfl⟩
  | operands op l r line => exact ⟨_, (ho _).mpr rfl⟩

end Session

end Scriptlet
