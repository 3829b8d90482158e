import Scriptlet.Plan

namespace Scriptlet.Plan

/-- Runs a function's body in a new scope that binds its parameters. -/
def enter (f : Function) (values : List Value) (line : Nat) (s : Session) : Plan .expression :=
  let frame := s.scopes.fresh
  attempt line ((s.openScope f.closure).defineAll frame (f.params.zip values)) fun _ s =>
  after (.block f.body frame) s fun completion s => ok completion.value? s

def call (name : String) (arguments : List Expr) (line : Nat) (scope : ScopeId) (s : Session) :
    Plan .expression :=
  match s.function? name with
  | none => fail (.unknownFunction name) line s
  | some f =>
    if arguments.length = f.params.length then
      operands arguments scope [] s fun values s => enter f values line s
    else fail (.argumentCountMismatch name f.params.length arguments.length) line s

def expression (e : Expr) (scope : ScopeId) (s : Session) : Plan .expression :=
  match e with
  | .literal value _ => ok (some value) s
  | .var name line =>
    match s.scopes.lookup? scope name with
    | some value => ok (some value) s
    | none => fail (.unknownVariable name) line s
  | .binary op left right line =>
    operand left scope s fun a s =>
    operand right scope s fun b s =>
    attempt line (op.apply a b, s) fun value s => ok (some value) s
  | .call name arguments line => call name arguments line scope s

/-- Runs statements inside a statement. If they return, so does the block around them. -/
def inner (body : List Stmt) (scope : ScopeId) (s : Session) (next : Session → Plan .block) :
    Plan .block :=
  after (.block body scope) s fun
    | .normal, s => next s
    | .returned value line, s => ok (.returned value line) s

/-- Runs the first statement and leaves the others to a task of their own. Blocks inside a
statement open no scope. -/
def block (body : List Stmt) (scope : ScopeId) (s : Session) : Plan .block :=
  match body with
  | [] => ok .normal s
  | first :: rest =>
    let goOn := Plan.become (.block rest scope)
    match first with
    | .assign name type isMutable value line =>
      operand value scope s fun v s =>
      attempt line (s.assign scope name type isMutable v) fun _ s => goOn s
    | .branch test yes no line =>
      condition test line scope s fun holds s =>
      inner (if holds then yes else no.getD []) scope s goOn
    | .loop test body line =>
      condition test line scope s fun holds s =>
      if holds then inner body scope s (.become (.block (first :: rest) scope)) else goOn s
    | .function name params returns body _ =>
      goOn (s.declare name ⟨params, returns, body, scope⟩)
    | .leave none line => ok (.returned none line) s
    | .leave (some value) line =>
      after (.expression value scope) s fun v s => ok (.returned v line) s
    | .print value line =>
      operand value scope s fun v s =>
      attempt line (s.print v.text) fun _ s => goOn s
    | .expression value _ =>
      after (.expression value scope) s fun _ s => goOn s

/-- Goes on unless statements outside of any function have returned. -/
def outermost {f : Form} (body : List Stmt) (s : Session) (next : Session → Plan f) : Plan f :=
  after (.block body Scopes.globals) s fun
    | .normal, s => next s
    | .returned _ line, s => fail .returnOutsideFunction line s

def program (body : List Stmt) (s : Session) : Plan .program :=
  outermost body s (ok ())

/-- Evaluates a line statement by statement and collects the values of its expressions. -/
def line (body : List Stmt) (values : List Value) (s : Session) : Plan .line :=
  match body with
  | [] => ok values.reverse s
  | .expression value _ :: rest =>
    after (.expression value Scopes.globals) s fun v s => line rest (v.toList ++ values) s
  | first :: rest => outermost [first] s fun s => line rest values s

def ofTask {f : Form} (task : Task f) (s : Session) : Plan f :=
  match task with
  | .expression e scope => expression e scope s
  | .block body scope => block body scope s
  | .program body => program body s
  | .line body => line body [] s

end Scriptlet.Plan
