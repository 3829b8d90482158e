import Scriptlet.Machine
import Scriptlet.Stmt.Parser

namespace Scriptlet

inductive Error where
  | scan (e : ScanError)
  | parse (e : ParseError)
  | runtime (e : RuntimeError)
  deriving DecidableEq

def Error.message : Error → String
  | .scan e => e.message
  | .parse e => e.message
  | .runtime e => e.message

/-- The statements of a text. -/
def Stmt.ofText (text : String) : Except Error (List Stmt) :=
  match Token.scan text with
  | .error e => .error (.scan e)
  | .ok tokens =>
    match Stmt.ofTokens tokens with
    | .error e => .error (.parse e)
    | .ok body => .ok body

namespace Session

variable {f : Form}

/-- The answer to a task, if it takes no more than `fuel` steps. -/
def complete (fuel : Nat) (task : Task f) (s : Session) : Option (Answer f) :=
  (Machine.start task s).run fuel

/-- Reads a text and completes the task that its statements make up. A text that cannot be read
changes nothing. -/
def completeText (fuel : Nat) (task : List Stmt → Task f) (text : String) (s : Session) :
    Option (Except Error f.Result × Session) :=
  match Stmt.ofText text with
  | .error e => some (.error e, s)
  | .ok body => (s.complete fuel (task body)).map fun answer =>
    (answer.outcome.mapError .runtime, answer.session)

/-- Runs a whole program. -/
def run (fuel : Nat) (text : String) (s : Session) : Option (Except Error Unit × Session) :=
  s.completeText fuel .program text

/-- Evaluates a line and gives the values of the calls that stand alone in it. -/
def evalLine (fuel : Nat) (text : String) (s : Session) :
    Option (Except Error (List Value) × Session) :=
  s.completeText fuel .line text

def execute (fuel : Nat) (body : List Stmt) (s : Session) : Option (Answer .program) :=
  s.complete fuel (.program body)

/-- Runs statements in a scope and tells how they end. -/
def executeBlockIn (scope : ScopeId) (fuel : Nat) (body : List Stmt) (s : Session) :
    Option (Answer .block) :=
  s.complete fuel (.block body scope)

def evalIn (scope : ScopeId) (fuel : Nat) (e : Expr) (s : Session) :
    Option (Answer .expression) :=
  s.complete fuel (.expression e scope)

/-- Evaluates an expression that has to have a value. -/
def evalOperandIn (scope : ScopeId) (fuel : Nat) (e : Expr) (s : Session) :
    Option (Except RuntimeError Value × Session) :=
  (s.evalIn scope fuel e).map fun
    | ⟨.ok (some v), s⟩ => (.ok v, s)
    | ⟨.ok none, s⟩ => (.error ⟨.missingValue, e.line⟩, s)
    | ⟨.error e, s⟩ => (.error e, s)

def executeBlock (fuel : Nat) (body : List Stmt) (s : Session) : Option (Answer .block) :=
  s.executeBlockIn Scopes.globals fuel body

def eval (fuel : Nat) (e : Expr) (s : Session) : Option (Answer .expression) :=
  s.evalIn Scopes.globals fuel e

def evalOperand (fuel : Nat) (e : Expr) (s : Session) :
    Option (Except RuntimeError Value × Session) :=
  s.evalOperandIn Scopes.globals fuel e

end Session

end Scriptlet
