import Scriptlet.Proofs.Requests

namespace Scriptlet

/-- What the result of an operation makes the outcome of an expression at this line. -/
def located (line : Nat) : Except Fault Value → Except RuntimeError (Option Value)
  | .ok v => .ok (some v)
  | .error fault => .error ⟨fault, line⟩

/-- The expression comes to this outcome and changes nothing. -/
def Session.Evaluates (s : Session) (scope : ScopeId) (e : Expr)
    (outcome : Except RuntimeError (Option Value)) : Prop :=
  Finishes (Plan.expression e scope s) ⟨outcome, s⟩

section Operand

variable {f : Form} {e : Expr} {scope : ScopeId} {s t : Session}
  {next : Value → Session → Plan f}

theorem finishes_operand {v : Value} {a : Answer f}
    (h : Finishes (Plan.expression e scope s) ⟨.ok (some v), t⟩) (rest : Finishes (next v t) a) :
    Finishes (Plan.operand e scope s next) a :=
  .await h rest

theorem finishes_operand_error {error : RuntimeError}
    (h : Finishes (Plan.expression e scope s) ⟨.error error, t⟩) :
    Finishes (Plan.operand e scope s next) ⟨.error error, t⟩ :=
  .await h (.finish _)

end Operand

namespace Session.Evaluates

variable {s : Session} {scope : ScopeId} {left right : Expr} {a b : Value} {error : RuntimeError}

/-- There is no other answer. -/
theorem evalIn_iff {e : Expr} {outcome : Except RuntimeError (Option Value)}
    (h : s.Evaluates scope e outcome) (answer : Answer .expression) :
    (∃ fuel, s.evalIn scope fuel e = some answer) ↔ answer = ⟨outcome, s⟩ := by
  rw [evalIn_eq_some_iff]
  exact h.answer_iff

theorem literal (s : Session) (scope : ScopeId) (v : Value) (line : Nat) :
    s.Evaluates scope (.literal v line) (.ok (some v)) :=
  .finish _

theorem var {name : String} {v : Value} (h : s.scopes.lookup? scope name = some v) (line : Nat) :
    s.Evaluates scope (.var name line) (.ok (some v)) := by
  have hp : Plan.expression (.var name line) scope s = Plan.ok (some v) s := by
    simp only [Plan.expression, h]
  unfold Evaluates
  rw [hp]
  exact .finish _

theorem binary (hl : s.Evaluates scope left (.ok (some a)))
    (hr : s.Evaluates scope right (.ok (some b))) (op : Operator) (line : Nat) :
    s.Evaluates scope (.binary op left right line) (located line (op.apply a b)) := by
  apply finishes_operand hl
  apply finishes_operand hr
  cases op.apply a b with
  | ok v => exact .finish _
  | error fault => exact .finish _

/-- The right operand is not evaluated if the left one goes wrong. -/
theorem left_error (hl : s.Evaluates scope left (.error error)) (op : Operator) (right : Expr)
    (line : Nat) : s.Evaluates scope (.binary op left right line) (.error error) :=
  finishes_operand_error hl

theorem right_error (hl : s.Evaluates scope left (.ok (some a)))
    (hr : s.Evaluates scope right (.error error)) (op : Operator) (line : Nat) :
    s.Evaluates scope (.binary op left right line) (.error error) := by
  apply finishes_operand hl
  exact finishes_operand_error hr

end Session.Evaluates

end Scriptlet
