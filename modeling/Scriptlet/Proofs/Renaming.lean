import Scriptlet.Plan

namespace Scriptlet

/-- New names for the variables, parameters included, and new names for the functions. -/
structure Renaming where
  var : String → String
  fn : String → String

/-- All names stay. -/
def Renaming.none : Renaming :=
  ⟨id, id⟩

def Param.rename (ν : Renaming) (p : Param) : Param :=
  ⟨ν.var p.name, p.type⟩

def Expr.rename (ν : Renaming) : Expr → Expr
  | .literal value line => .literal value line
  | .var name line => .var (ν.var name) line
  | .binary op left right line => .binary op (left.rename ν) (right.rename ν) line
  | .call name arguments line => .call (ν.fn name) (arguments.map (Expr.rename ν)) line

def Stmt.rename (ν : Renaming) : Stmt → Stmt
  | .assign name type isMutable value line =>
    .assign (ν.var name) type isMutable (value.rename ν) line
  | .branch test yes none line =>
    .branch (test.rename ν) (yes.map (Stmt.rename ν)) none line
  | .branch test yes (some no) line =>
    .branch (test.rename ν) (yes.map (Stmt.rename ν)) (some (no.map (Stmt.rename ν))) line
  | .loop test body line => .loop (test.rename ν) (body.map (Stmt.rename ν)) line
  | .function name params returns body line =>
    .function (ν.fn name) (params.map (Param.rename ν)) returns (body.map (Stmt.rename ν)) line
  | .leave value line => .leave (value.map (Expr.rename ν)) line
  | .print value line => .print (value.rename ν) line
  | .expression value line => .expression (value.rename ν) line

def Function.rename (ν : Renaming) : Function → Function
  | ⟨params, returns, body, closure⟩ =>
    ⟨params.map (Param.rename ν), returns, body.map (Stmt.rename ν), closure⟩

/-- The same fault of a variable or a function with another name. -/
def Fault.rename (ν : Renaming) : Fault → Fault
  | .unknownVariable name => .unknownVariable (ν.var name)
  | .unknownFunction name => .unknownFunction (ν.fn name)
  | .alreadyDefined name => .alreadyDefined (ν.var name)
  | .argumentCountMismatch name expected found =>
    .argumentCountMismatch (ν.fn name) expected found
  | .immutableAssignment name => .immutableAssignment (ν.var name)
  | fault => fault

def RuntimeError.rename (ν : Renaming) : RuntimeError → RuntimeError
  | ⟨fault, line⟩ => ⟨fault.rename ν, line⟩

def Task.rename {f : Form} (ν : Renaming) : Task f → Task f
  | .expression e scope => .expression (e.rename ν) scope
  | .block body scope => .block (body.map (Stmt.rename ν)) scope
  | .program body => .program (body.map (Stmt.rename ν))
  | .line body => .line (body.map (Stmt.rename ν))

variable (ν : Renaming)

theorem Stmt.rename_branch (test : Expr) (yes : List Stmt) (no : Option (List Stmt)) (line : Nat) :
    (Stmt.branch test yes no line).rename ν =
      .branch (test.rename ν) (yes.map (Stmt.rename ν)) (no.map (List.map (Stmt.rename ν)))
        line := by
  cases no <;> simp [Stmt.rename]

theorem Expr.line_rename (e : Expr) : (e.rename ν).line = e.line := by
  cases e <;> simp [Expr.rename, Expr.line]

@[simp]
theorem Renaming.var_none (name : String) : Renaming.none.var name = name :=
  rfl

@[simp]
theorem Renaming.fn_none (name : String) : Renaming.none.fn name = name :=
  rfl

@[simp]
theorem Param.rename_none (p : Param) : p.rename .none = p :=
  rfl

@[simp]
theorem Expr.rename_none (e : Expr) : e.rename .none = e := by
  fun_induction Expr.rename .none e with
  | case1 | case2 => rfl
  | case3 _ _ _ _ hl hr => rw [hl, hr]
  | case4 _ _ _ ih => simp [List.map_congr_left ih]

@[simp]
theorem Stmt.rename_none (s : Stmt) : s.rename .none = s := by
  fun_induction Stmt.rename .none s with
  | case1 | case7 | case8 => simp
  | case2 _ _ _ ih => simp [List.map_congr_left ih]
  | case3 _ _ _ _ ihy ihn => simp [List.map_congr_left ihy, List.map_congr_left ihn]
  | case4 _ _ _ ih => simp [List.map_congr_left ih]
  | case5 _ _ _ _ _ ih => simp [List.map_congr_left ih, List.map_id'' Param.rename_none]
  | case6 value _ => cases value <;> simp

@[simp]
theorem Function.rename_none (h : Function) : h.rename .none = h := by
  simp [Function.rename, List.map_id'' Param.rename_none, List.map_id'' Stmt.rename_none]

theorem Function.map_rename_none (h : Option Function) : h.map (Function.rename .none) = h := by
  rw [funext Function.rename_none, Option.map_id']

@[simp]
theorem Fault.rename_none (fault : Fault) : fault.rename .none = fault := by
  cases fault <;> rfl

@[simp]
theorem RuntimeError.rename_none (e : RuntimeError) : e.rename .none = e := by
  simp [RuntimeError.rename]

@[simp]
theorem Task.rename_none {f : Form} (task : Task f) : task.rename .none = task := by
  cases task <;> simp [Task.rename, List.map_id'' Stmt.rename_none]

def Unnamed {α : Type} (ν : Renaming) (x : Except Fault α) : Prop :=
  x.mapError (Fault.rename ν) = x

theorem unnamed_none {α : Type} (x : Except Fault α) : Unnamed .none x := by
  cases x with
  | error fault => exact congrArg Except.error fault.rename_none
  | ok a => rfl

variable {ν}

theorem Unnamed.bind {α β : Type} {x : Except Fault α} {f : α → Except Fault β}
    (hx : Unnamed ν x) (hf : ∀ a, Unnamed ν (f a)) : Unnamed ν (x >>= f) := by
  cases x with
  | error fault =>
    have hfault : fault.rename ν = fault := Except.error.inj hx
    exact congrArg Except.error hfault
  | ok a => exact hf a

theorem unnamed_toFloat (v : Value) : Unnamed ν v.toFloat := by
  cases v with
  | int n =>
    unfold Value.toFloat
    dsimp only
    split <;> rfl
  | float | str | bool => rfl

theorem unnamed_toBool (v : Value) : Unnamed ν v.toBool := by
  cases v <;> rfl

theorem unnamed_arithmetic (op : Operator) (onInts : Int → Int → Int)
    (onFloats : Float → Float → Float) (a b : Value) :
    Unnamed ν (op.arithmetic onInts onFloats a b) := by
  have floats : Unnamed ν (do
      let x ← a.toFloat
      let y ← b.toFloat
      return Value.float (onFloats x y)) :=
    (unnamed_toFloat a).bind fun _ => (unnamed_toFloat b).bind fun _ => rfl
  unfold Operator.arithmetic
  split
  · unfold Value.ofExact
    split <;> rfl
  · exact floats
  · exact floats
  · exact floats
  · rfl

theorem unnamed_quotient (a b : Value) : Unnamed ν (Operator.quotient a b) := by
  unfold Operator.quotient
  split
  · split <;> rfl
  · rfl

theorem unnamed_compared (op : Operator) (a b : Value) : Unnamed ν (op.compared a b) := by
  unfold Operator.compared Operator.order
  split
  · rfl
  · rfl
  · rfl
  · split <;> rfl

theorem unnamed_apply (op : Operator) (a b : Value) : Unnamed ν (op.apply a b) := by
  unfold Operator.apply
  cases op
  case add =>
    dsimp only
    split
    · rfl
    · exact unnamed_arithmetic ..
  case sub | mul => exact unnamed_arithmetic ..
  case div => exact unnamed_quotient a b
  all_goals exact unnamed_compared _ a b

end Scriptlet
