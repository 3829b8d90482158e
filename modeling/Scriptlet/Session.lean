import Scriptlet.Scope
import Scriptlet.Sink
import Scriptlet.Stmt

namespace Scriptlet

/-- A function remembers the scope that it was defined in. -/
structure Function where
  params : List Param
  returns : Option TypeTag
  body : List Stmt
  closure : ScopeId

structure Session where
  scopes : Scopes := .start
  functions : List (String × Function) := []
  sink : Sink := {}

namespace Session

def function? (s : Session) (name : String) : Option Function :=
  s.functions.lookup name

/-- Functions share one table, in which the last definition of a name counts. -/
def declare : Session → String → Function → Session
  | ⟨scopes, functions, sink⟩, name, f =>
    ⟨scopes, (name, f) :: functions.filter (·.1 ≠ name), sink⟩

/-- Opens a new scope inside another one. -/
def openScope : Session → ScopeId → Session
  | ⟨scopes, functions, sink⟩, parent => ⟨scopes.child parent, functions, sink⟩

def define : Session → ScopeId → String → Binding → Except Fault Unit × Session
  | ⟨scopes, functions, sink⟩, id, name, b =>
    match scopes.define id name b with
    | (outcome, scopes) => (outcome, ⟨scopes, functions, sink⟩)

def reassign : Session → ScopeId → String → Value → Except Fault Unit × Session
  | ⟨scopes, functions, sink⟩, id, name, v =>
    match scopes.assign id name v with
    | (outcome, scopes) => (outcome, ⟨scopes, functions, sink⟩)

/-- Binds parameters to arguments, in order, as variables that may change. -/
def defineAll (s : Session) (id : ScopeId) : List (Param × Value) → Except Fault Unit × Session
  | [] => (.ok (), s)
  | (p, v) :: rest =>
    match s.define id p.name ⟨v, true⟩ with
    | (.ok (), s) => s.defineAll id rest
    | (.error fault, s) => (.error fault, s)

/-- With an annotation, introduces a variable in the scope itself. Without one, changes the
nearest variable of this name, and introduces one only if there is none. -/
def assign (s : Session) (id : ScopeId) (name : String) (type : Option TypeTag) (isMutable : Bool)
    (v : Value) : Except Fault Unit × Session :=
  match type with
  | some tag =>
    if tag.admits v then s.define id name ⟨v, isMutable⟩
    else (.error (.typeMismatch tag v.kind), s)
  | none =>
    if (s.scopes.lookup? id name).isSome then s.reassign id name v
    else s.define id name ⟨v, isMutable⟩

def print : Session → String → Except Fault Unit × Session
  | ⟨scopes, functions, sink⟩, text =>
    match sink.print text with
    | (true, sink) => (.ok (), ⟨scopes, functions, sink⟩)
    | (false, sink) => (.error .output, ⟨scopes, functions, sink⟩)

end Session

end Scriptlet
