import Scriptlet.Session
import Scriptlet.Value.Operation

namespace Scriptlet

/-- How a list of statements ends. -/
inductive Completion where
  | normal
  | returned (value : Option Value) (line : Nat)
  deriving DecidableEq

def Completion.value? : Completion → Option Value
  | .normal => none
  | .returned value _ => value

/-- The forms of program text that can be evaluated. -/
inductive Form where
  | expression
  | block
  | program
  | line
  deriving DecidableEq

/-- An expression may have no value; a line gives the values of the calls that stand alone. -/
@[reducible]
def Form.Result : Form → Type
  | .expression => Option Value
  | .block => Completion
  | .program => Unit
  | .line => List Value

/-- Program text to be evaluated. Programs and lines belong to the global scope. -/
inductive Task : Form → Type where
  | expression (e : Expr) (scope : ScopeId) : Task .expression
  | block (body : List Stmt) (scope : ScopeId) : Task .block
  | program (body : List Stmt) : Task .program
  | line (body : List Stmt) : Task .line

/-- The session goes on after an error too. -/
structure Answer (f : Form) where
  outcome : Except RuntimeError f.Result
  session : Session

/-- What is to be done for a task: answer it, wait for another task's answer and go on, or leave
the answer to another task. -/
inductive Plan (f : Form) : Type where
  | finish (answer : Answer f)
  | await {g : Form} (task : Task g) (session : Session) (next : Answer g → Plan f)
  | become (task : Task f) (session : Session)

namespace Plan

variable {f g : Form} {α : Type}

def ok (result : f.Result) (s : Session) : Plan f :=
  .finish ⟨.ok result, s⟩

def fail (fault : Fault) (line : Nat) (s : Session) : Plan f :=
  .finish ⟨.error ⟨fault, line⟩, s⟩

/-- Goes on with the result of a task; its error ends the plan. -/
def after (task : Task g) (s : Session) (next : g.Result → Session → Plan f) : Plan f :=
  .await task s fun
    | ⟨.ok result, s⟩ => next result s
    | ⟨.error e, s⟩ => .finish ⟨.error e, s⟩

/-- Goes on with the outcome of an operation, whose fault is reported at `line`. -/
def attempt (line : Nat) (step : Except Fault α × Session) (next : α → Session → Plan f) : Plan f :=
  match step with
  | (.ok a, s) => next a s
  | (.error fault, s) => fail fault line s

/-- Goes on with the value of an expression that has to have one. -/
def operand (e : Expr) (scope : ScopeId) (s : Session) (next : Value → Session → Plan f) : Plan f :=
  after (.expression e scope) s fun
    | some v, s => next v s
    | none, s => fail .missingValue e.line s

/-- Goes on with the values of several expressions, evaluated from left to right. -/
def operands (es : List Expr) (scope : ScopeId) (values : List Value) (s : Session)
    (next : List Value → Session → Plan f) : Plan f :=
  match es with
  | [] => next values.reverse s
  | e :: es => operand e scope s fun v s => operands es scope (v :: values) s next

/-- Goes on with the truth of a condition. -/
def condition (e : Expr) (line : Nat) (scope : ScopeId) (s : Session)
    (next : Bool → Session → Plan f) : Plan f :=
  operand e scope s fun v s => attempt line (v.toBool, s) next

end Plan

end Scriptlet
