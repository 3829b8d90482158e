import Scriptlet.Plan

namespace Scriptlet

def Expr.mapLines (f : Nat → Nat) : Expr → Expr
  | .literal value line => .literal value (f line)
  | .var name line => .var name (f line)
  | .binary op left right line => .binary op (left.mapLines f) (right.mapLines f) (f line)
  | .call name arguments line => .call name (arguments.map (Expr.mapLines f)) (f line)

def Stmt.mapLines (f : Nat → Nat) : Stmt → Stmt
  | .assign name type isMutable value line =>
    .assign name type isMutable (value.mapLines f) (f line)
  | .branch test yes none line =>
    .branch (test.mapLines f) (yes.map (Stmt.mapLines f)) none (f line)
  | .branch test yes (some no) line =>
    .branch (test.mapLines f) (yes.map (Stmt.mapLines f)) (some (no.map (Stmt.mapLines f)))
      (f line)
  | .loop test body line => .loop (test.mapLines f) (body.map (Stmt.mapLines f)) (f line)
  | .function name params returns body line =>
    .function name params returns (body.map (Stmt.mapLines f)) (f line)
  | .leave value line => .leave (value.map (Expr.mapLines f)) (f line)
  | .print value line => .print (value.mapLines f) (f line)
  | .expression value line => .expression (value.mapLines f) (f line)

def Function.mapLines (f : Nat → Nat) : Function → Function
  | ⟨params, returns, body, closure⟩ => ⟨params, returns, body.map (Stmt.mapLines f), closure⟩

def RuntimeError.mapLines (f : Nat → Nat) : RuntimeError → RuntimeError
  | ⟨fault, line⟩ => ⟨fault, f line⟩

def Completion.mapLines (f : Nat → Nat) : Completion → Completion
  | .normal => .normal
  | .returned value line => .returned value (f line)

def Form.mapLines (f : Nat → Nat) : (form : Form) → form.Result → form.Result
  | .expression, value => value
  | .block, completion => completion.mapLines f
  | .program, result => result
  | .line, values => values

def Task.mapLines {form : Form} (f : Nat → Nat) : Task form → Task form
  | .expression e scope => .expression (e.mapLines f) scope
  | .block body scope => .block (body.map (Stmt.mapLines f)) scope
  | .program body => .program (body.map (Stmt.mapLines f))
  | .line body => .line (body.map (Stmt.mapLines f))

variable (f g : Nat → Nat)

@[simp]
theorem Expr.mapLines_id (e : Expr) : e.mapLines id = e := by
  fun_induction Expr.mapLines id e with
  | case1 | case2 => rfl
  | case3 _ _ _ _ hl hr => rw [hl, hr, id]
  | case4 _ _ _ ih => rw [List.map_congr_left ih, List.map_id', id]

@[simp]
theorem Stmt.mapLines_id (s : Stmt) : s.mapLines id = s := by
  fun_induction Stmt.mapLines id s with
  | case1 | case7 | case8 => simp
  | case2 _ _ _ ih => simp [List.map_congr_left ih]
  | case3 _ _ _ _ ihy ihn => simp [List.map_congr_left ihy, List.map_congr_left ihn]
  | case4 _ _ _ ih => simp [List.map_congr_left ih]
  | case5 _ _ _ _ _ ih => simp [List.map_congr_left ih]
  | case6 value _ => cases value <;> simp

theorem Expr.mapLines_mapLines (e : Expr) : (e.mapLines f).mapLines g = e.mapLines (g ∘ f) := by
  fun_induction Expr.mapLines f e with
  | case1 | case2 => simp [Expr.mapLines]
  | case3 _ _ _ _ hl hr => simp [Expr.mapLines, hl, hr]
  | case4 _ _ _ ih => simpa [Expr.mapLines] using ih

theorem Stmt.mapLines_mapLines (s : Stmt) :
    (s.mapLines f).mapLines g = s.mapLines (g ∘ f) := by
  fun_induction Stmt.mapLines f s with
  | case1 | case7 | case8 => simp [Stmt.mapLines, Expr.mapLines_mapLines]
  | case2 _ _ _ ih => simpa [Stmt.mapLines, Expr.mapLines_mapLines] using ih
  | case3 _ _ _ _ ihy ihn =>
    simpa [Stmt.mapLines, Expr.mapLines_mapLines] using And.intro ihy ihn
  | case4 _ _ _ ih => simpa [Stmt.mapLines, Expr.mapLines_mapLines] using ih
  | case5 _ _ _ _ _ ih => simpa [Stmt.mapLines] using ih
  | case6 value _ => cases value <;> simp [Stmt.mapLines, Expr.mapLines_mapLines]

@[simp]
theorem Stmt.map_mapLines_id (body : List Stmt) : body.map (Stmt.mapLines id) = body :=
  List.map_id'' Stmt.mapLines_id body

@[simp]
theorem Function.mapLines_id (h : Function) : h.mapLines id = h := by
  simp [Function.mapLines]

@[simp]
theorem RuntimeError.mapLines_id (e : RuntimeError) : e.mapLines id = e :=
  rfl

@[simp]
theorem Form.mapLines_id (form : Form) (r : form.Result) : form.mapLines id r = r := by
  cases form
  case block => cases r <;> rfl
  all_goals rfl

theorem Stmt.mapLines_branch (test : Expr) (yes : List Stmt) (no : Option (List Stmt))
    (line : Nat) :
    (Stmt.branch test yes no line).mapLines f =
      .branch (test.mapLines f) (yes.map (Stmt.mapLines f)) (no.map (List.map (Stmt.mapLines f)))
        (f line) := by
  cases no <;> simp [Stmt.mapLines]

theorem Expr.line_mapLines (e : Expr) : (e.mapLines f).line = f e.line := by
  cases e <;> simp [Expr.mapLines, Expr.line]

/-- The lines of an expression and of all expressions inside it. -/
def Expr.lines : Expr → List Nat
  | .literal _ line | .var _ line => [line]
  | .binary _ left right line => line :: (left.lines ++ right.lines)
  | .call _ arguments line => line :: arguments.flatMap Expr.lines

/-- The lines of a statement and of all statements and expressions inside it. -/
def Stmt.lines : Stmt → List Nat
  | .assign _ _ _ value line | .print value line | .expression value line => line :: value.lines
  | .branch test yes none line => line :: (test.lines ++ yes.flatMap Stmt.lines)
  | .branch test yes (some no) line =>
    line :: (test.lines ++ yes.flatMap Stmt.lines ++ no.flatMap Stmt.lines)
  | .loop test body line => line :: (test.lines ++ body.flatMap Stmt.lines)
  | .function _ _ _ body line => line :: body.flatMap Stmt.lines
  | .leave value line => line :: value.elim [] Expr.lines

def Task.lines {form : Form} : Task form → List Nat
  | .expression e _ => e.lines
  | .block body _ | .program body | .line body => body.flatMap Stmt.lines

theorem Stmt.lines_branch (test : Expr) (yes : List Stmt) (no : Option (List Stmt)) (line : Nat) :
    (Stmt.branch test yes no line).lines =
      line :: (test.lines ++ yes.flatMap Stmt.lines ++ (no.getD []).flatMap Stmt.lines) := by
  cases no <;> simp [Stmt.lines]

/-- If the lines of each part go along with the map, those of all parts do. -/
theorem flatMap_map_lines {α : Type} {g : α → α} {lines : α → List Nat} {parts : List α}
    (h : ∀ a ∈ parts, lines (g a) = (lines a).map f) :
    (parts.map g).flatMap lines = (parts.flatMap lines).map f := by
  induction parts with
  | nil => rfl
  | cons a parts ih =>
    rw [List.map_cons, List.flatMap_cons, List.flatMap_cons, List.map_append, h a (by simp),
      ih fun b hb => h b (by simp [hb])]

theorem Expr.lines_mapLines (e : Expr) : (e.mapLines f).lines = e.lines.map f := by
  fun_induction Expr.mapLines f e with
  | case1 | case2 => simp [Expr.lines]
  | case3 _ _ _ _ hl hr => simp [Expr.lines, hl, hr]
  | case4 _ _ _ ih => simp [Expr.lines, flatMap_map_lines f ih]

theorem Stmt.lines_mapLines (s : Stmt) : (s.mapLines f).lines = s.lines.map f := by
  fun_induction Stmt.mapLines f s with
  | case1 | case7 | case8 => simp [Stmt.lines, Expr.lines_mapLines]
  | case2 _ _ _ ih | case4 _ _ _ ih =>
    simp [Stmt.lines, Expr.lines_mapLines, flatMap_map_lines f ih]
  | case3 _ _ _ _ ihy ihn =>
    simp [Stmt.lines, Expr.lines_mapLines, flatMap_map_lines f ihy, flatMap_map_lines f ihn]
  | case5 _ _ _ _ _ ih => simp [Stmt.lines, flatMap_map_lines f ih]
  | case6 value _ => cases value <;> simp [Stmt.lines, Expr.lines_mapLines]

theorem Expr.line_mem_lines (e : Expr) : e.line ∈ e.lines := by
  cases e <;> simp [Expr.lines, Expr.line]

end Scriptlet
