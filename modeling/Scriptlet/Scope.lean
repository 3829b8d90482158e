import Scriptlet.Fault

namespace Scriptlet

structure Binding where
  value : Value
  isMutable : Bool
  deriving DecidableEq

/-- Scopes are numbered in the order of their creation. -/
abbrev ScopeId := Nat

structure Scope where
  bindings : List (String × Binding) := []
  parent : Option ScopeId := none
  deriving DecidableEq

namespace Scope

def find? (s : Scope) (name : String) : Option Binding :=
  s.bindings.lookup name

def insert (s : Scope) (name : String) (b : Binding) : Scope :=
  ⟨(name, b) :: s.bindings, s.parent⟩

/-- Gives the variable of this name another value. -/
def update (s : Scope) (name : String) (v : Value) : Scope :=
  let change : String × Binding → String × Binding := fun (key, b) =>
    if key = name then (key, ⟨v, b.isMutable⟩) else (key, b)
  ⟨s.bindings.map change, s.parent⟩

end Scope

structure Scopes where
  cells : Array Scope
  deriving DecidableEq

namespace Scopes

/-- The store with nothing but the global scope. -/
def start : Scopes :=
  ⟨#[{}]⟩

def globals : ScopeId := 0

/-- The number that the next scope will get. -/
def fresh (s : Scopes) : ScopeId :=
  s.cells.size

/-- A new scope inside another one. -/
def child (s : Scopes) (parent : ScopeId) : Scopes :=
  ⟨s.cells.push ⟨[], some parent⟩⟩

/-- The binding in this very scope. -/
def local? (s : Scopes) (id : ScopeId) (name : String) : Option Binding :=
  s.cells[id]?.bind (·.find? name)

def parent? (s : Scopes) (id : ScopeId) : Option ScopeId :=
  s.cells[id]?.bind (·.parent)

/-- The nearest scope that binds a name, looking outwards through at most `reach` scopes. -/
def resolveWithin (s : Scopes) (name : String) : Nat → ScopeId → Option (ScopeId × Binding)
  | 0, _ => none
  | reach + 1, id =>
    match s.local? id name with
    | some b => some (id, b)
    | none => (s.parent? id).bind (s.resolveWithin name reach)

/-- The nearest scope that binds a name. A parent is older than its children, so no scope has more
than its own number of scopes around it. -/
def resolve? (s : Scopes) (id : ScopeId) (name : String) : Option (ScopeId × Binding) :=
  s.resolveWithin name (id + 1) id

def lookup? (s : Scopes) (id : ScopeId) (name : String) : Option Value :=
  (s.resolve? id name).map (·.2.value)

def modify (s : Scopes) (id : ScopeId) (f : Scope → Scope) : Scopes :=
  ⟨s.cells.modify id f⟩

/-- Binds a name in a scope that does not bind it yet. -/
def define (s : Scopes) (id : ScopeId) (name : String) (b : Binding) : Except Fault Unit × Scopes :=
  if (s.local? id name).isSome then (.error (.alreadyDefined name), s)
  else (.ok (), s.modify id (·.insert name b))

/-- Gives the nearest variable of this name another value, looking outwards through at most `reach`
scopes. -/
def assignWithin (s : Scopes) (name : String) (v : Value) :
    Nat → ScopeId → Except Fault Unit × Scopes
  | 0, _ => (.error (.unknownVariable name), s)
  | reach + 1, id =>
    match s.local? id name with
    | some b =>
      if b.isMutable then (.ok (), s.modify id (·.update name v))
      else (.error (.immutableAssignment name), s)
    | none =>
      match s.parent? id with
      | some outer => s.assignWithin name v reach outer
      | none => (.error (.unknownVariable name), s)

/-- Gives the nearest variable of this name another value. -/
def assign (s : Scopes) (id : ScopeId) (name : String) (v : Value) : Except Fault Unit × Scopes :=
  s.assignWithin name v (id + 1) id

end Scopes

end Scriptlet
