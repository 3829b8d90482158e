import Scriptlet.Proofs.Invariant
import Scriptlet.Proofs.Kinds
import Scriptlet.Proofs.Requests
import Scriptlet.Proofs.Store

namespace Scriptlet

/-- The lines of the return statements outside the bodies of functions. -/
def Stmt.returns : Stmt → List Nat
  | .leave _ line => [line]
  | .branch _ yes none _ => yes.flatMap Stmt.returns
  | .branch _ yes (some no) _ => yes.flatMap Stmt.returns ++ no.flatMap Stmt.returns
  | .loop _ body _ => body.flatMap Stmt.returns
  | .function _ _ _ _ _ | .assign _ _ _ _ _ | .print _ _ | .expression _ _ => []

theorem Stmt.returns_branch (test : Expr) (yes : List Stmt) (no : Option (List Stmt))
    (line : Nat) :
    (Stmt.branch test yes no line).returns =
      yes.flatMap Stmt.returns ++ (no.getD []).flatMap Stmt.returns := by
  cases no <;> simp [Stmt.returns]

/-- The lines from which a task may return. -/
def Task.returns {f : Form} : Task f → List Nat
  | .expression _ _ => []
  | .block body _ | .program body | .line body => body.flatMap Stmt.returns

/-- The lines of the returns that a task may complain about. Only programs and lines do. -/
def Task.strayReturns {f : Form} : Task f → List Nat
  | .expression _ _ | .block _ _ => []
  | .program body | .line body => body.flatMap Stmt.returns

/-- If the answer is a return then from one of the lines `own`, and if it is a complaint about a
return then at one of the lines `stray`. -/
structure Answer.ReturnsFrom {f : Form} (own stray : List Nat) (a : Answer f) : Prop where
  returned : ∀ r, a.outcome = .ok r → ∀ line ∈ f.line? r, line ∈ own
  refused : ∀ line, a.outcome = .error ⟨.returnOutsideFunction, line⟩ → line ∈ stray

section Operations

variable (s : Session) (id : ScopeId) (name : String)

theorem Value.toBool_ne_stray (v : Value) : v.toBool ≠ .error .returnOutsideFunction := by
  cases v <;> simp [Value.toBool]

theorem Operator.apply_ne_stray (op : Operator) (a b : Value) :
    op.apply a b ≠ .error .returnOutsideFunction := by
  intro h
  have hf := Foretells.apply 0 a b op
  rw [h] at hf
  generalize op.kind? a.kind b.kind = kind at hf
  cases hf with
  | arithmetic hc => cases hc

theorem Session.define_ne_stray (b : Binding) :
    (s.define id name b).1 ≠ .error .returnOutsideFunction := by
  rw [Session.define_outcome]
  rcases s.scopes.define_cases id name b with ⟨hd, _⟩ | ⟨hd, _⟩ <;> simp [hd]

theorem Session.reassign_ne_stray (v : Value) :
    (s.reassign id name v).1 ≠ .error .returnOutsideFunction := by
  rw [Session.reassign_outcome, Scopes.assign_eq]
  cases s.scopes.resolve? id name with
  | none => simp [Scopes.assignFound]
  | some found =>
    rw [Scopes.assignFound]
    split <;> simp

theorem Session.defineAll_ne_stray (bindings : List (Param × Value)) :
    (s.defineAll id bindings).1 ≠ .error .returnOutsideFunction := by
  induction bindings generalizing s with
  | nil => simp [Session.defineAll]
  | cons binding rest ih =>
    obtain ⟨p, v⟩ := binding
    have hd := s.define_ne_stray id p.name ⟨v, true⟩
    simp only [Session.defineAll]
    generalize s.define id p.name ⟨v, true⟩ = x at hd ⊢
    obtain ⟨_ | _, t⟩ := x
    · exact hd
    · exact ih t

theorem Session.assign_ne_stray (type : Option TypeTag) (isMutable : Bool) (v : Value) :
    (s.assign id name type isMutable v).1 ≠ .error .returnOutsideFunction := by
  cases type with
  | some tag =>
    simp only [Session.assign]
    split
    · exact s.define_ne_stray id name _
    · simp
  | none =>
    simp only [Session.assign]
    split
    · exact s.reassign_ne_stray id name v
    · exact s.define_ne_stray id name _

theorem Session.print_ne_stray (text : String) :
    (s.print text).1 ≠ .error .returnOutsideFunction := by
  rw [Session.print_outcome]
  split <;> simp

end Operations

/-- Every task returns, and complains about returns, only from lines of its own. -/
def confinement : Contract where
  always _ := True
  pre _ _ := True
  post task _ a := a.ReturnsFrom task.returns task.strayReturns

/-- A plan that does so for these lines, if the tasks that it waits for do. -/
abbrev Confined {f : Form} (own stray : List Nat) : Plan f → Prop :=
  Meets confinement (Answer.ReturnsFrom own stray)

namespace Confined

variable {f g : Form} {own stray : List Nat} {α : Type} {s : Session} {scope : ScopeId}

theorem ok {r : f.Result} (h : ∀ line ∈ f.line? r, line ∈ own) :
    Confined own stray (.ok r s) := by
  refine .finish trivial ⟨?_, ?_⟩
  · intro r' hr
    cases hr
    exact h
  · intro line hl
    cases hl

theorem fail {fault : Fault} {line : Nat} (h : fault = .returnOutsideFunction → line ∈ stray) :
    Confined own stray (Plan.fail (f := f) fault line s) := by
  refine .finish trivial ⟨?_, ?_⟩
  · intro r hr
    cases hr
  · intro line hl
    cases hl
    exact h rfl

/-- The tasks that a plan waits for complain about no return. -/
theorem after {task : Task g} {next : g.Result → Session → Plan f} (quiet : task.strayReturns = [])
    (rest : ∀ r t, (∀ line ∈ g.line? r, line ∈ task.returns) → Confined own stray (next r t)) :
    Confined own stray (.after task s next) := by
  apply Meets.after trivial trivial
  · intro e t _ hb
    refine ⟨?_, ?_⟩
    · intro r hr
      cases hr
    · intro line hl
      cases hl
      have hm := hb.refused line rfl
      rw [quiet] at hm
      exact absurd hm List.not_mem_nil
  · intro r t _ hb
    exact rest r t (hb.returned r rfl)

theorem attempt {line : Nat} {x : Except Fault α × Session} {next : α → Session → Plan f}
    (quiet : x.1 ≠ .error .returnOutsideFunction) (rest : ∀ r t, Confined own stray (next r t)) :
    Confined own stray (.attempt line x next) := by
  obtain ⟨fault | r, t⟩ := x
  · exact fail fun h => absurd (congrArg Except.error h) quiet
  · exact rest r t

theorem operand {e : Expr} {next : Value → Session → Plan f}
    (rest : ∀ v t, Confined own stray (next v t)) :
    Confined own stray (.operand e scope s next) := by
  apply after rfl
  intro r t _
  cases r with
  | none => exact fail (by simp)
  | some v => exact rest v t

theorem operands {es : List Expr} {next : List Value → Session → Plan f}
    (rest : ∀ vs t, Confined own stray (next vs t)) (values : List Value) :
    Confined own stray (.operands es scope values s next) := by
  induction es generalizing values s with
  | nil => exact rest _ _
  | cons e es ih =>
    apply operand
    intro v t
    exact ih (v :: values)

theorem condition {e : Expr} {line : Nat} {next : Bool → Session → Plan f}
    (rest : ∀ b t, Confined own stray (next b t)) :
    Confined own stray (.condition e line scope s next) := by
  apply operand
  intro v t
  exact attempt v.toBool_ne_stray rest

/-- A return of the statements inside is one of the block around them. -/
theorem inner {body : List Stmt} {next : Session → Plan .block}
    (within : ∀ line ∈ body.flatMap Stmt.returns, line ∈ own)
    (rest : ∀ t, Confined own stray (next t)) :
    Confined own stray (.inner body scope s next) := by
  apply after rfl
  intro r t hr
  cases r with
  | normal => exact rest t
  | returned value line => exact ok fun l hl => within l (hr l hl)

/-- Outside of all functions a return is an error. -/
theorem outermost {body : List Stmt} {next : Session → Plan f}
    (within : ∀ line ∈ body.flatMap Stmt.returns, line ∈ stray)
    (rest : ∀ t, Confined own stray (next t)) :
    Confined own stray (.outermost body s next) := by
  apply after rfl
  intro r t hr
  cases r with
  | normal => exact rest t
  | returned value line => exact fail fun _ => within line (hr line rfl)

theorem ofLine {body : List Stmt} (within : ∀ line ∈ body.flatMap Stmt.returns, line ∈ stray)
    (values : List Value) : Confined own stray (.line body values s) := by
  induction body generalizing values s with
  | nil => exact ok (by simp [Form.line?])
  | cons first rest ih =>
    simp only [List.flatMap_cons, List.forall_mem_append] at within
    obtain ⟨hfirst, hrest⟩ := within
    have single : ∀ line ∈ [first].flatMap Stmt.returns, line ∈ stray := by simpa using hfirst
    cases first
    case expression value line =>
      apply after rfl
      intro v t _
      exact ih hrest _
    all_goals exact outermost single fun t => ih hrest values

/-- A call gives the value of the return that its function ends with, and nothing else of it. -/
theorem call {name : String} {arguments : List Expr} {line : Nat} :
    Confined own stray (.call name arguments line scope s) := by
  simp only [Plan.call]
  split
  · exact fail (by simp)
  · rename_i h _
    split
    · refine operands (fun values t => ?_) []
      refine attempt (Session.defineAll_ne_stray _ _ _) fun _ t => ?_
      apply after rfl
      intro completion t _
      exact ok (by simp [Form.line?])
    · exact fail (by simp)

theorem expression {e : Expr} : Confined own stray (.expression e scope s) := by
  cases e with
  | literal value line => exact ok (by simp [Form.line?])
  | var name line =>
    simp only [Plan.expression]
    split
    · exact ok (by simp [Form.line?])
    · exact fail (by simp)
  | binary op left right line =>
    refine operand fun a _ => operand fun b _ => ?_
    exact attempt (op.apply_ne_stray a b) fun _ _ => ok (by simp [Form.line?])
  | call name arguments line => exact call

/-- One case for each form of the first statement. -/
theorem block {body : List Stmt} (within : ∀ line ∈ body.flatMap Stmt.returns, line ∈ own) :
    Confined own [] (.block body scope s) := by
  have become {body : List Stmt} {t : Session}
      (within : ∀ line ∈ body.flatMap Stmt.returns, line ∈ own) :
      Confined own [] (.become (.block body scope) t) := by
    refine .become trivial trivial fun a ha => ⟨?_, ha.refused⟩
    intro r hr line hl
    exact within line (ha.returned r hr line hl)
  cases body with
  | nil => exact ok (by simp [Form.line?])
  | cons first rest =>
    have whole := within
    simp only [List.flatMap_cons, List.forall_mem_append] at within
    obtain ⟨hfirst, hrest⟩ := within
    cases first with
    | assign name type isMutable value line =>
      refine operand fun v t => ?_
      exact attempt (t.assign_ne_stray scope name type isMutable v) fun _ _ => become hrest
    | branch test yes no line =>
      rw [Stmt.returns_branch, List.forall_mem_append] at hfirst
      refine condition fun holds t => inner ?_ fun _ => become hrest
      cases holds with
      | true => exact hfirst.1
      | false => exact hfirst.2
    | loop test body line =>
      refine condition fun holds t => ?_
      cases holds with
      | true => exact inner (by simpa [Stmt.returns] using hfirst) fun _ => become whole
      | false => exact become hrest
    | function name params returns body line => exact become hrest
    | leave value line =>
      have here : line ∈ own := hfirst line (by simp [Stmt.returns])
      cases value with
      | none => exact ok (by rintro _ ⟨⟩; exact here)
      | some e => exact after rfl fun _ _ _ => ok (by rintro _ ⟨⟩; exact here)
    | print value line =>
      refine operand fun v t => ?_
      exact attempt (t.print_ne_stray v.text) fun _ _ => become hrest
    | expression value line => exact after rfl fun _ _ _ => become hrest

end Confined

theorem confinement_fulfilled : confinement.Fulfilled := by
  intro f task s _ _
  cases task with
  | expression e scope => exact Confined.expression
  | block body scope => exact Confined.block fun _ h => h
  | program body => exact Confined.outermost (fun _ h => h) fun _ => .ok (by simp [Form.line?])
  | line body => exact Confined.ofLine (fun _ h => h) []

namespace Session

variable {s t : Session} {fuel : Nat}

theorem returnsFrom_of_complete {f : Form} {task : Task f} {a : Answer f}
    (h : s.complete fuel task = some a) : a.ReturnsFrom task.returns task.strayReturns :=
  (confinement_fulfilled.finishes trivial trivial (finishes_of_complete h)).2

theorem evalOperandIn_eq_error {scope : ScopeId} {e : Expr} {error : RuntimeError}
    (h : s.evalOperandIn scope fuel e = some (.error error, t)) :
    error = ⟨.missingValue, e.line⟩ ∨ s.evalIn scope fuel e = some ⟨.error error, t⟩ := by
  obtain ⟨⟨_ | _ | v, u⟩, ha, he⟩ := Option.map_eq_some_iff.mp h
  · cases he
    exact .inr ha
  · cases he
    exact .inl rfl
  · cases he

/-- An error that a text raises while it runs is one of the task that is made of it. -/
theorem completeText_eq_runtime {f : Form} {task : List Stmt → Task f} {text : String}
    {error : RuntimeError}
    (h : s.completeText fuel task text = some (.error (.runtime error), t)) :
    ∃ body, Stmt.ofText text = .ok body ∧ s.complete fuel (task body) = some ⟨.error error, t⟩ := by
  cases hread : Stmt.ofText text with
  | error e =>
    have hne : e ≠ .runtime error := by
      simp only [Stmt.ofText] at hread
      split at hread
      · cases hread
        simp
      · split at hread <;> cases hread
        simp
    simp only [completeText, hread, Option.some.injEq, Prod.mk.injEq, Except.error.injEq] at h
    exact absurd h.1 hne
  | ok body =>
    simp only [completeText, hread] at h
    obtain ⟨⟨_ | r, u⟩, ha, he⟩ := Option.map_eq_some_iff.mp h
    · cases he
      exact ⟨body, rfl, ha⟩
    · cases he

/-- How far returns reach in a session. -/
structure ReturnsConfined (s : Session) : Prop where
  /-- Statements return only from one of their own return statements. -/
  block : ∀ scope fuel body value line t,
    s.executeBlockIn scope fuel body = some ⟨.ok (.returned value line), t⟩ →
      line ∈ body.flatMap Stmt.returns
  blockQuiet : ∀ scope fuel body line t,
    s.executeBlockIn scope fuel body ≠ some ⟨.error ⟨.returnOutsideFunction, line⟩, t⟩
  /-- Whatever functions an expression calls, their returns stay in them. -/
  expression : ∀ scope fuel e line t,
    s.evalIn scope fuel e ≠ some ⟨.error ⟨.returnOutsideFunction, line⟩, t⟩
  operand : ∀ scope fuel e line t,
    s.evalOperandIn scope fuel e ≠ some (.error ⟨.returnOutsideFunction, line⟩, t)
  /-- A program fails by a return only at one of its own return statements. -/
  program : ∀ fuel body line t,
    s.execute fuel body = some ⟨.error ⟨.returnOutsideFunction, line⟩, t⟩ →
      line ∈ body.flatMap Stmt.returns
  line : ∀ fuel text line t,
    s.evalLine fuel text = some (.error (.runtime ⟨.returnOutsideFunction, line⟩), t) →
      ∃ body, Stmt.ofText text = .ok body ∧ line ∈ body.flatMap Stmt.returns
  /-- So it never does if they all stand in functions. -/
  programQuiet : ∀ fuel body line t, body.flatMap Stmt.returns = [] →
    s.execute fuel body ≠ some ⟨.error ⟨.returnOutsideFunction, line⟩, t⟩
  lineQuiet : ∀ fuel text body line t, Stmt.ofText text = .ok body →
    body.flatMap Stmt.returns = [] →
      s.evalLine fuel text ≠ some (.error (.runtime ⟨.returnOutsideFunction, line⟩), t)

theorem mem_returns_of_execute {body : List Stmt} {line : Nat}
    (h : s.execute fuel body = some ⟨.error ⟨.returnOutsideFunction, line⟩, t⟩) :
    line ∈ body.flatMap Stmt.returns :=
  (returnsFrom_of_complete h).refused line rfl

theorem mem_returns_of_evalLine {text : String} {line : Nat}
    (h : s.evalLine fuel text = some (.error (.runtime ⟨.returnOutsideFunction, line⟩), t)) :
    ∃ body, Stmt.ofText text = .ok body ∧ line ∈ body.flatMap Stmt.returns := by
  obtain ⟨body, hread, hc⟩ := completeText_eq_runtime h
  exact ⟨body, hread, (returnsFrom_of_complete hc).refused line rfl⟩

theorem evalIn_ne_stray {scope : ScopeId} {e : Expr} {line : Nat} :
    s.evalIn scope fuel e ≠ some ⟨.error ⟨.returnOutsideFunction, line⟩, t⟩ := by
  intro h
  exact absurd ((returnsFrom_of_complete h).refused line rfl) List.not_mem_nil

/-- Returns stay in the functions that they stand in, in every session and whatever is called. -/
theorem returns_confined (s : Session) : s.ReturnsConfined where
  block scope fuel body value line t h := (returnsFrom_of_complete h).returned _ rfl line rfl
  blockQuiet scope fuel body line t h :=
    absurd ((returnsFrom_of_complete h).refused line rfl) List.not_mem_nil
  expression scope fuel e line t := evalIn_ne_stray
  operand scope fuel e line t h := by
    rcases evalOperandIn_eq_error h with he | he
    · cases he
    · exact evalIn_ne_stray he
  program fuel body line t h := mem_returns_of_execute h
  line fuel text line t h := mem_returns_of_evalLine h
  programQuiet fuel body line t hn h := by
    have hm := mem_returns_of_execute h
    rw [hn] at hm
    exact absurd hm List.not_mem_nil
  lineQuiet fuel text body line t hread hn h := by
    obtain ⟨body', hread', hm⟩ := mem_returns_of_evalLine h
    cases hread.symm.trans hread'
    rw [hn] at hm
    exact absurd hm List.not_mem_nil

/-- For one, where `f` returns from line 1 in each call and the loop around the calls from
line 4. -/
theorem returns_confined_loop :
    let call : Expr := .call "f" [] 3
    let body : List Stmt := [.function "f" [] none [.leave (some (.literal (.bool true) 1)) 1] 1,
      .loop call [.expression call 3, .leave none 4] 2]
    (∃ t, Session.execute 99 body {} = some ⟨.error ⟨.returnOutsideFunction, 4⟩, t⟩) ∧
      4 ∈ body.flatMap Stmt.returns := by
  intro call body
  have h : (Session.execute 99 body {}).map Answer.outcome =
      some (.error ⟨.returnOutsideFunction, 4⟩) := by rfl
  obtain ⟨⟨outcome, t⟩, ha, ho⟩ := Option.map_eq_some_iff.mp h
  cases ho
  exact ⟨⟨t, ha⟩, (returns_confined {}).program 99 body 4 t ha⟩

end Session

end Scriptlet
