import Mathlib.Data.Fintype.Card
import Mathlib.Data.Set.Finite.Basic
import Mathlib.Logic.Relation
import Scriptlet.Proofs.Requests
import Scriptlet.Proofs.Store

namespace Scriptlet

/-- The names of the functions that an expression calls. -/
def Expr.calls : Expr → List String
  | .literal _ _ | .var _ _ => []
  | .binary _ left right _ => left.calls ++ right.calls
  | .call name arguments _ => name :: arguments.flatMap Expr.calls

namespace Stmt

/-- The names of the functions that a statement calls by itself. What is called in the body of a
function is called by that function. -/
def calls : Stmt → List String
  | .assign _ _ _ value _ | .print value _ | .expression value _ => value.calls
  | .branch test yes none _ => test.calls ++ yes.flatMap calls
  | .branch test yes (some no) _ => test.calls ++ yes.flatMap calls ++ no.flatMap calls
  | .loop test body _ => test.calls ++ body.flatMap calls
  | .function _ _ _ _ _ => []
  | .leave value _ => value.elim [] Expr.calls

/-- The functions that are defined anywhere in a statement, with their bodies. -/
def definitions : Stmt → List (String × List Stmt)
  | .assign _ _ _ _ _ | .print _ _ | .expression _ _ | .leave _ _ => []
  | .branch _ yes none _ => yes.flatMap definitions
  | .branch _ yes (some no) _ => yes.flatMap definitions ++ no.flatMap definitions
  | .loop _ body _ => body.flatMap definitions
  | .function name _ _ body _ => (name, body) :: body.flatMap definitions

/-- The lines of the loops anywhere in a statement. -/
def loops : Stmt → List Nat
  | .assign _ _ _ _ _ | .print _ _ | .expression _ _ | .leave _ _ => []
  | .branch _ yes none _ => yes.flatMap loops
  | .branch _ yes (some no) _ => yes.flatMap loops ++ no.flatMap loops
  | .loop _ body line => line :: body.flatMap loops
  | .function _ _ _ body _ => body.flatMap loops

/-- Some definition of one function in the program calls the other one. -/
def Calls (program : List Stmt) (caller callee : String) : Prop :=
  ∃ body, (caller, body) ∈ program.flatMap definitions ∧ callee ∈ body.flatMap calls

/-- No function calls itself, directly or through others. -/
def Acyclic (program : List Stmt) : Prop :=
  ∀ name, ¬ Relation.TransGen (Calls program) name name

theorem definitions_branch (test : Expr) (yes : List Stmt) (no : Option (List Stmt))
    (line : Nat) :
    (Stmt.branch test yes no line).definitions =
      yes.flatMap definitions ++ (no.getD []).flatMap definitions := by
  cases no <;> simp [definitions]

theorem loops_branch (test : Expr) (yes : List Stmt) (no : Option (List Stmt)) (line : Nat) :
    (Stmt.branch test yes no line).loops = yes.flatMap loops ++ (no.getD []).flatMap loops := by
  cases no <;> simp [loops]

/-- What the part defines is defined in the whole, and its loops are there too. -/
structure Covers (whole part : List Stmt) : Prop where
  definitions : part.flatMap Stmt.definitions ⊆ whole.flatMap Stmt.definitions
  loops : part.flatMap Stmt.loops ⊆ whole.flatMap Stmt.loops

namespace Covers

variable {whole part parts : List Stmt}

theorem refl (whole : List Stmt) : Covers whole whole :=
  ⟨List.Subset.refl _, List.Subset.refl _⟩

theorem trans (h : Covers whole parts) (h' : Covers parts part) : Covers whole part :=
  ⟨List.Subset.trans h'.definitions h.definitions, List.Subset.trans h'.loops h.loops⟩

theorem of_mem {stmt : Stmt} (h : stmt ∈ whole) : Covers whole [stmt] := by
  constructor
  · intro d hd
    exact List.mem_flatMap.mpr ⟨stmt, h, by simpa using hd⟩
  · intro line hl
    exact List.mem_flatMap.mpr ⟨stmt, h, by simpa using hl⟩

theorem branch (test : Expr) (yes : List Stmt) (no : Option (List Stmt)) (line : Nat) :
    Covers [.branch test yes no line] yes ∧ Covers [.branch test yes no line] (no.getD []) := by
  have hd := definitions_branch test yes no line
  have hl := loops_branch test yes no line
  constructor
  · exact ⟨by simp [hd], by simp [hl]⟩
  · exact ⟨by simp [hd], by simp [hl]⟩

theorem loop (test : Expr) (body : List Stmt) (line : Nat) : Covers [.loop test body line] body :=
  ⟨by simp [Stmt.definitions], by simp [Stmt.loops]⟩

theorem function (name : String) (params : List Param) (returns : Option TypeTag)
    (body : List Stmt) (line : Nat) : Covers [.function name params returns body line] body :=
  ⟨by simp [Stmt.definitions], by simp [Stmt.loops]⟩

/-- The body of a function that is defined somewhere in a statement. -/
theorem of_definition {stmt : Stmt} {name : String} {body : List Stmt}
    (h : (name, body) ∈ stmt.definitions) : Covers [stmt] body := by
  have inside {parts : List Stmt} (ih : ∀ part ∈ parts, (name, body) ∈ part.definitions →
      Covers [part] body) (hm : (name, body) ∈ parts.flatMap Stmt.definitions) :
      Covers parts body := by
    obtain ⟨part, hp, hm⟩ := List.mem_flatMap.mp hm
    exact (of_mem hp).trans (ih part hp hm)
  fun_induction Stmt.definitions stmt with
  | case1 | case2 | case3 | case4 => simp at h
  | case5 test yes line ih => exact (branch test yes none line).1.trans (inside ih h)
  | case6 test yes no line ihy ihn =>
    obtain ⟨cy, cn⟩ := branch test yes (some no) line
    rcases List.mem_append.mp h with h | h
    · exact cy.trans (inside ihy h)
    · exact cn.trans (inside ihn h)
  | case7 test parts line ih => exact (loop test parts line).trans (inside ih h)
  | case8 other params returns parts line ih =>
    rcases List.mem_cons.mp h with h | h
    · cases h
      exact function name params returns body line
    · exact (function other params returns parts line).trans (inside ih h)

end Covers

/-- A function that is not defined calls nothing, and of the others there are finitely many, so that
without circles every way from caller to callee comes to an end. -/
theorem Acyclic.wellFounded {program : List Stmt} (h : Acyclic program) :
    WellFounded (flip (Calls program)) := by
  let defined : List String := (program.flatMap definitions).map Prod.fst
  have mem_defined {caller callee : String} (hc : Calls program caller callee) :
      caller ∈ defined := by
    obtain ⟨body, hb, _⟩ := hc
    exact List.mem_map.mpr ⟨_, hb, rfl⟩
  let r (a b : {name // name ∈ defined}) : Prop := Relation.TransGen (Calls program) b a
  have : IsTrans _ r := ⟨fun _ _ _ hab hbc => hbc.trans hab⟩
  have : Std.Irrefl r := ⟨fun a => h a⟩
  have : Finite {name // name ∈ defined} := List.finite_toSet defined
  have hr : WellFounded r := Finite.wellFounded_of_trans_of_irrefl r
  have ofDefined (name : {name // name ∈ defined}) : Acc (flip (Calls program)) name := by
    induction name using hr.induction with
    | h name ih =>
      constructor
      intro callee hc
      by_cases hd : callee ∈ defined
      · exact ih ⟨callee, hd⟩ (.single hc)
      · exact ⟨_, fun _ hc' => absurd (mem_defined hc') hd⟩
  constructor
  intro name
  constructor
  intro callee hc
  by_cases hd : callee ∈ defined
  · exact ofDefined ⟨callee, hd⟩
  · exact ⟨_, fun _ hc' => absurd (mem_defined hc') hd⟩

end Stmt

/-- The plan comes to an answer, which leaves a session in order. -/
def Terminates (I : Session → Prop) {f : Form} (p : Plan f) : Prop :=
  ∃ a, Finishes p a ∧ I a.session

namespace Terminates

variable {I : Session → Prop} {f g : Form} {α : Type} {s : Session} {scope : ScopeId}

theorem finish {a : Answer f} (hs : I a.session) : Terminates I (.finish a) :=
  ⟨a, .finish a, hs⟩

theorem become {task : Task f} (h : Terminates I (.ofTask task s)) :
    Terminates I (.become task s) := by
  obtain ⟨a, ha, hs⟩ := h
  exact ⟨a, .become ha, hs⟩

theorem after {task : Task g} {next : g.Result → Session → Plan f}
    (awaited : Terminates I (.ofTask task s)) (rest : ∀ r t, I t → Terminates I (next r t)) :
    Terminates I (.after task s next) := by
  obtain ⟨⟨e | r, t⟩, hb, ht⟩ := awaited
  · exact ⟨_, .await hb (.finish _), ht⟩
  · obtain ⟨a, ha, hs⟩ := rest r t ht
    exact ⟨a, .await hb ha, hs⟩

theorem attempt {line : Nat} {x : Except Fault α × Session} {next : α → Session → Plan f}
    (hx : I x.2) (rest : ∀ r, Terminates I (next r x.2)) : Terminates I (.attempt line x next) := by
  obtain ⟨fault | r, t⟩ := x
  · exact finish hx
  · exact rest r

theorem operand {e : Expr} {next : Value → Session → Plan f}
    (awaited : Terminates I (.expression e scope s)) (rest : ∀ v t, I t → Terminates I (next v t)) :
    Terminates I (.operand e scope s next) := by
  apply after awaited
  intro r t ht
  cases r with
  | none => exact finish ht
  | some v => exact rest v t ht

theorem operands {es : List Expr} {next : List Value → Session → Plan f}
    (awaited : ∀ e ∈ es, ∀ t, I t → Terminates I (.expression e scope t))
    (rest : ∀ vs t, I t → Terminates I (next vs t)) (values : List Value) (hs : I s) :
    Terminates I (.operands es scope values s next) := by
  induction es generalizing values s with
  | nil => exact rest _ s hs
  | cons e es ih =>
    apply operand (awaited e List.mem_cons_self s hs)
    intro v t ht
    exact ih (fun e he => awaited e (List.mem_cons_of_mem _ he)) (v :: values) ht

theorem condition {e : Expr} {line : Nat} {next : Bool → Session → Plan f}
    (awaited : Terminates I (.expression e scope s)) (rest : ∀ b t, I t → Terminates I (next b t)) :
    Terminates I (.condition e line scope s next) := by
  apply operand awaited
  intro v t ht
  exact attempt ht fun b => rest b t ht

theorem inner {body : List Stmt} {next : Session → Plan .block}
    (awaited : Terminates I (.block body scope s)) (rest : ∀ t, I t → Terminates I (next t)) :
    Terminates I (.inner body scope s next) := by
  apply after awaited
  intro r t ht
  cases r with
  | normal => exact rest t ht
  | returned value line => exact finish ht

theorem program {body : List Stmt} (awaited : Terminates I (.block body Scopes.globals s)) :
    Terminates I (.program body s) := by
  apply after awaited
  intro r t ht
  cases r with
  | normal => exact finish ht
  | returned value line => exact finish ht

end Terminates

/-- All functions of the session are defined in the program. -/
def Session.DrawnFrom (program : List Stmt) (s : Session) : Prop :=
  ∀ name f, s.function? name = some f → (name, f.body) ∈ program.flatMap Stmt.definitions

/-- Whichever definition of a function the session has, calls of the function come to an end. -/
def Stmt.Halts (program : List Stmt) (name : String) : Prop :=
  ∀ body, (name, body) ∈ program.flatMap Stmt.definitions → ∀ scope s, s.DrawnFrom program →
    Terminates (Session.DrawnFrom program) (.block body scope s)

namespace Session.DrawnFrom

variable {program : List Stmt} {s t : Session}

theorem of_functions (h : s.DrawnFrom program) (same : t.functions = s.functions) :
    t.DrawnFrom program := by
  intro name f hf
  rw [function?, same] at hf
  exact h name f hf

theorem declare (h : s.DrawnFrom program) {name : String} {f : Function}
    (hf : (name, f.body) ∈ program.flatMap Stmt.definitions) :
    (s.declare name f).DrawnFrom program := by
  intro key g hg
  rw [function_declare] at hg
  split at hg
  · cases hg
    subst key
    exact hf
  · exact h key g hg

theorem assign (h : s.DrawnFrom program) (scope : ScopeId) (name : String) (type : Option TypeTag)
    (isMutable : Bool) (v : Value) :
    (s.assign scope name type isMutable v).2.DrawnFrom program := by
  apply h.of_functions
  cases type with
  | some tag =>
    simp only [Session.assign]
    split <;> rfl
  | none =>
    simp only [Session.assign]
    split <;> rfl

theorem print (h : s.DrawnFrom program) (text : String) : (s.print text).2.DrawnFrom program := by
  apply h.of_functions
  rw [print_session]

theorem defineAll (h : s.DrawnFrom program) (frame : ScopeId) (bindings : List (Param × Value)) :
    (s.defineAll frame bindings).2.DrawnFrom program := by
  induction bindings generalizing s with
  | nil => exact h
  | cons binding rest ih =>
    obtain ⟨p, v⟩ := binding
    have hd : (s.define frame p.name ⟨v, true⟩).2.DrawnFrom program := h.of_functions rfl
    simp only [Session.defineAll]
    generalize s.define frame p.name ⟨v, true⟩ = x at hd ⊢
    obtain ⟨_ | _, t⟩ := x
    · exact hd
    · exact ih hd

end Session.DrawnFrom

namespace Terminates

variable {program : List Stmt} {s : Session} {scope : ScopeId}

theorem enter {f : Function} {values : List Value} {line : Nat} (hs : s.DrawnFrom program)
    (hb : ∀ scope s, s.DrawnFrom program →
      Terminates (Session.DrawnFrom program) (.block f.body scope s)) :
    Terminates (Session.DrawnFrom program) (.enter f values line s) := by
  have opened : (s.openScope f.closure).DrawnFrom program := hs.of_functions rfl
  have bound := opened.defineAll s.scopes.fresh (f.params.zip values)
  refine attempt bound fun _ => ?_
  exact after (hb _ _ bound) fun _ _ ht => finish ht

theorem expression {e : Expr} (halts : ∀ name ∈ e.calls, Stmt.Halts program name)
    (hs : s.DrawnFrom program) :
    Terminates (Session.DrawnFrom program) (.expression e scope s) := by
  fun_induction Expr.calls e generalizing s with
  | case1 value line => exact finish hs
  | case2 name line =>
    simp only [Plan.expression]
    split
    · exact finish hs
    · exact finish hs
  | case3 op left right line hl hr =>
    rw [List.forall_mem_append] at halts
    refine operand (hl halts.1 hs) fun a t ht => ?_
    refine operand (hr halts.2 ht) fun b u hu => ?_
    exact attempt hu fun _ => finish hu
  | case4 name arguments line ih =>
    rw [List.forall_mem_cons] at halts
    simp only [Plan.expression, Plan.call]
    split
    · exact finish hs
    · rename_i f hf
      split
      · have hb := halts.1 f.body (hs name f hf)
        refine operands (fun e he t ht => ?_) (fun vs t ht => enter ht hb) [] hs
        exact ih e he (fun g hg => halts.2 g (List.mem_flatMap.mpr ⟨e, he, hg⟩)) ht
      · exact finish hs

/-- The statement comes to an end if what follows it does. -/
def Passes (program : List Stmt) (scope : ScopeId) (stmt : Stmt) : Prop :=
  ∀ rest s, s.DrawnFrom program →
    (∀ t, t.DrawnFrom program →
      Terminates (Session.DrawnFrom program) (.block rest scope t)) →
    Terminates (Session.DrawnFrom program) (.block (stmt :: rest) scope s)

theorem block_of_passes {body : List Stmt} (h : ∀ stmt ∈ body, Passes program scope stmt)
    (hs : s.DrawnFrom program) :
    Terminates (Session.DrawnFrom program) (.block body scope s) := by
  induction body generalizing s with
  | nil => exact finish hs
  | cons first rest ih =>
    apply h first List.mem_cons_self rest s hs
    intro t ht
    exact ih (fun stmt hm => h stmt (List.mem_cons_of_mem _ hm)) ht

theorem passes_branch {test : Expr} {yes : List Stmt} {no : Option (List Stmt)} {line : Nat}
    (ht : ∀ name ∈ test.calls, Stmt.Halts program name)
    (hy : ∀ s, s.DrawnFrom program → Terminates (Session.DrawnFrom program) (.block yes scope s))
    (hn : ∀ s, s.DrawnFrom program →
      Terminates (Session.DrawnFrom program) (.block (no.getD []) scope s)) :
    Passes program scope (.branch test yes no line) := by
  intro rest s hs goOn
  refine condition (expression ht hs) fun holds t ht => ?_
  refine inner ?_ fun u hu => become (goOn u hu)
  cases holds with
  | true => exact hy t ht
  | false => exact hn t ht

/-- One case for each form of the statement. -/
theorem passes (noLoop : program.flatMap Stmt.loops = []) {stmt : Stmt}
    (covered : Stmt.Covers program [stmt]) (halts : ∀ name ∈ stmt.calls, Stmt.Halts program name) :
    Passes program scope stmt := by
  have parts {body : List Stmt} (ih : ∀ part ∈ body, Stmt.Covers program [part] →
      (∀ name ∈ part.calls, Stmt.Halts program name) → Passes program scope part)
      (hc : Stmt.Covers program body)
      (hh : ∀ name ∈ body.flatMap Stmt.calls, Stmt.Halts program name) {s : Session}
      (hs : s.DrawnFrom program) :
      Terminates (Session.DrawnFrom program) (.block body scope s) := by
    refine block_of_passes (fun part hp => ih part hp (hc.trans (.of_mem hp)) fun name hn => ?_) hs
    exact hh name (List.mem_flatMap.mpr ⟨part, hp, hn⟩)
  fun_induction Stmt.definitions stmt with
  | case1 name type isMutable value line =>
    intro rest s hs goOn
    simp only [Stmt.calls] at halts
    refine operand (expression halts hs) fun v t ht => ?_
    have ha := ht.assign scope name type isMutable v
    exact attempt ha fun _ => become (goOn _ ha)
  | case2 value line =>
    intro rest s hs goOn
    simp only [Stmt.calls] at halts
    refine operand (expression halts hs) fun v t ht => ?_
    have hp := ht.print v.text
    exact attempt hp fun _ => become (goOn _ hp)
  | case3 value line =>
    intro rest s hs goOn
    simp only [Stmt.calls] at halts
    exact after (expression halts hs) fun _ t ht => become (goOn t ht)
  | case4 value line =>
    intro rest s hs goOn
    cases value with
    | none => exact finish hs
    | some e =>
      simp only [Stmt.calls, Option.elim_some] at halts
      exact after (expression halts hs) fun _ t ht => finish ht
  | case5 test yes line ih =>
    simp only [Stmt.calls, List.forall_mem_append] at halts
    have cy := covered.trans (Stmt.Covers.branch test yes none line).1
    exact passes_branch halts.1 (fun _ => parts ih cy halts.2) fun _ hs => finish hs
  | case6 test yes no line ihy ihn =>
    simp only [Stmt.calls, List.forall_mem_append] at halts
    obtain ⟨cy, cn⟩ := Stmt.Covers.branch test yes (some no) line
    exact passes_branch halts.1.1 (fun _ => parts ihy (covered.trans cy) halts.1.2)
      fun _ => parts ihn (covered.trans cn) halts.2
  | case7 test body line ih =>
    have hm : line ∈ program.flatMap Stmt.loops := covered.loops (by simp [Stmt.loops])
    simp [noLoop] at hm
  | case8 name params returns body line ih =>
    intro rest s hs goOn
    have hd : (name, body) ∈ program.flatMap Stmt.definitions :=
      covered.definitions (by simp [Stmt.definitions])
    exact become (goOn _ (hs.declare hd))

theorem block (noLoop : program.flatMap Stmt.loops = []) {body : List Stmt}
    (covered : Stmt.Covers program body)
    (halts : ∀ name ∈ body.flatMap Stmt.calls, Stmt.Halts program name)
    (hs : s.DrawnFrom program) :
    Terminates (Session.DrawnFrom program) (.block body scope s) := by
  refine block_of_passes (fun stmt hm => ?_) hs
  apply passes noLoop (covered.trans (.of_mem hm))
  intro name hn
  exact halts name (List.mem_flatMap.mpr ⟨stmt, hm, hn⟩)

end Terminates

/-- By induction along the calls. Whatever definition of a function there is, the functions that it
calls come before it. -/
theorem Stmt.Acyclic.halts {program : List Stmt} (acyclic : Acyclic program)
    (noLoop : program.flatMap loops = []) (name : String) : Halts program name := by
  induction name using acyclic.wellFounded.induction with
  | h name ih =>
    intro body hb scope s hs
    obtain ⟨stmt, hm, hd⟩ := List.mem_flatMap.mp hb
    have covered : Covers program body := (Covers.of_mem hm).trans (.of_definition hd)
    exact .block noLoop covered (fun callee hc => ih callee ⟨body, hb, hc⟩) hs

/-- Functions that only call functions of lower rank do not call each other in circles. -/
theorem Stmt.acyclic_of_rank {program : List Stmt} (rank : String → Nat)
    (h : ∀ d ∈ program.flatMap definitions, ∀ callee ∈ d.2.flatMap calls,
      rank callee < rank d.1) : Acyclic program := by
  have lower {caller callee : String} (hc : Relation.TransGen (Calls program) caller callee) :
      rank callee < rank caller := by
    induction hc with
    | single hc =>
      obtain ⟨body, hb, hm⟩ := hc
      exact h _ hb _ hm
    | tail _ hc ih =>
      obtain ⟨body, hb, hm⟩ := hc
      exact Nat.lt_trans (h _ hb _ hm) ih
  intro name hc
  exact Nat.lt_irrefl _ (lower hc)

namespace Session

/-- A program comes to an end, well or with an error, if there is no loop in it and no function
calls itself, directly or through others. -/
theorem execute_terminates {program : List Stmt} (noLoop : program.flatMap Stmt.loops = [])
    (acyclic : Stmt.Acyclic program) (sink : Sink) :
    ∃ fuel answer, execute fuel program ⟨.start, [], sink⟩ = some answer := by
  have empty : (⟨.start, [], sink⟩ : Session).DrawnFrom program := by
    intro name f hf
    cases hf
  have hb : Terminates (DrawnFrom program)
      (.block program Scopes.globals ⟨.start, [], sink⟩) :=
    .block noLoop (.refl program) (fun name _ => acyclic.halts noLoop name) empty
  obtain ⟨answer, ha, _⟩ := hb.program
  have ha : Finishes (.ofTask (.program program) ⟨.start, [], sink⟩) answer := ha
  obtain ⟨fuel, h⟩ := complete_eq_some_iff.mpr ha
  exact ⟨fuel, answer, h⟩

/-- For one, where a branch defines `f` in one way or another, and `f` defines `g` over again before
it calls it. -/
theorem execute_terminates_redefined :
    let call (name : String) : Stmt := .expression (.call name [] 1) 1
    let define (name : String) (body : List Stmt) : Stmt := .function name [] none body 1
    let program : List Stmt := [define "g" [call "h"],
      .branch (.literal (.bool true) 1) [define "f" [define "g" [], call "g"]]
        (some [define "f" [call "g", call "h"]]) 1,
      call "f", call "g"]
    program.flatMap Stmt.loops = [] ∧ Stmt.Acyclic program ∧
      ∃ fuel answer, execute fuel program {} = some answer := by
  intro call define program
  have noLoop : program.flatMap Stmt.loops = [] := by
    simp [program, define, call, Stmt.loops]
  have acyclic : Stmt.Acyclic program := by
    let rank (name : String) : Nat := if name = "f" then 2 else if name = "g" then 1 else 0
    apply Stmt.acyclic_of_rank rank
    simp only [program, define, call, rank, Stmt.definitions, Stmt.calls, Expr.calls,
      List.flatMap_cons, List.flatMap_nil, List.cons_append, List.nil_append, List.forall_mem_cons]
    decide
  exact ⟨noLoop, acyclic, execute_terminates noLoop acyclic {}⟩

end Session

end Scriptlet
