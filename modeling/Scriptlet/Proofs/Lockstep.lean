import Scriptlet.Machine.Finishes
import Scriptlet.Proofs.Lines

namespace Scriptlet

/-- The scope that a task begins in. -/
def Task.scope {form : Form} : Task form → ScopeId
  | .expression _ scope | .block _ scope => scope
  | .program _ | .line _ => Scopes.globals

/-- A task reads in a scope and, unless it is an expression, writes in it too. -/
def Task.Within {form : Form} (reads writes : ScopeId → Prop) : Task form → Prop
  | .expression _ scope => reads scope
  | .block _ scope => writes scope
  | .program _ | .line _ => writes Scopes.globals

theorem Task.within_of_scope {form : Form} {reads writes : ScopeId → Prop} {task : Task form}
    (hr : reads task.scope) (hw : writes task.scope) : task.Within reads writes := by
  cases task
  · exact hr
  all_goals exact hw

/-- Outcomes that differ at most in lines which look the same through `view`. -/
inductive Alike (view : Nat → Nat) (f : Form) :
    Except RuntimeError f.Result → Except RuntimeError f.Result → Prop where
  | ok {r r' : f.Result} (same : f.mapLines view r = f.mapLines view r') :
      Alike view f (.ok r) (.ok r')
  | error {e e' : RuntimeError} (same : e.mapLines view = e'.mapLines view) :
      Alike view f (.error e) (.error e')

theorem Alike.eq {f : Form} {x y : Except RuntimeError f.Result} (h : Alike id f x y) : x = y := by
  cases h with
  | ok same => simpa using same
  | error same => simpa using same

/-- How two runs go together: which lines look the same, in which scopes expressions are evaluated
and in which scopes statements run, and how the two sessions are related. -/
structure Coupling where
  view : Nat → Nat
  reads : ScopeId → Prop
  writes : ScopeId → Prop
  related : Session → Session → Prop

/-- No operation can tell the related sessions apart or break the relation. -/
structure Lockstep (C : Coupling) : Prop where
  visible : ∀ {id}, C.writes id → C.reads id
  closure : ∀ {s t name f}, C.related s t → s.function? name = some f → C.writes f.closure
  fresh : ∀ {s t}, C.related s t → s.scopes.fresh = t.scopes.fresh ∧ C.writes s.scopes.fresh
  lookup : ∀ {s t id} name, C.related s t → C.reads id →
    s.scopes.lookup? id name = t.scopes.lookup? id name
  function : ∀ {s t} name, C.related s t →
    (s.function? name).map (Function.mapLines C.view) =
      (t.function? name).map (Function.mapLines C.view)
  openScope : ∀ {s t id}, C.related s t → C.writes id → C.related (s.openScope id) (t.openScope id)
  define : ∀ {s t id} name b, C.related s t → C.writes id →
    (s.define id name b).1 = (t.define id name b).1 ∧
      C.related (s.define id name b).2 (t.define id name b).2
  reassign : ∀ {s t id} name v, C.related s t → C.writes id →
    (s.reassign id name v).1 = (t.reassign id name v).1 ∧
      C.related (s.reassign id name v).2 (t.reassign id name v).2
  declare : ∀ {s t f g} name, C.related s t → C.writes f.closure →
    f.mapLines C.view = g.mapLines C.view → C.related (s.declare name f) (t.declare name g)
  print : ∀ {s t} text, C.related s t →
    (s.print text).1 = (t.print text).1 ∧ C.related (s.print text).2 (t.print text).2

/-- Plans that wait for the same tasks in related sessions and finish alike. -/
inductive Coupled (C : Coupling) {f : Form} : Plan f → Plan f → Prop where
  | finish {a b : Answer f} (same : Alike C.view f a.outcome b.outcome)
      (hr : C.related a.session b.session) : Coupled C (.finish a) (.finish b)
  | await {g : Form} {task task' : Task g} {s t : Session} {next next' : Answer g → Plan f}
      (same : task.mapLines C.view = task'.mapLines C.view)
      (within : task.Within C.reads C.writes) (hr : C.related s t)
      (rest : ∀ a b : Answer g, Alike C.view g a.outcome b.outcome →
        C.related a.session b.session → Coupled C (next a) (next' b)) :
      Coupled C (.await task s next) (.await task' t next')
  | become {task task' : Task f} {s t : Session}
      (same : task.mapLines C.view = task'.mapLines C.view)
      (within : task.Within C.reads C.writes) (hr : C.related s t) :
      Coupled C (.become task s) (.become task' t)

variable {C : Coupling} {f g : Form} {α : Type} {s t : Session}

/-- If the plans of all tasks are coupled, then coupled plans finish together. -/
theorem Finishes.coupled
    (tasks : ∀ {f : Form} {task task' : Task f} {s t : Session},
      task.mapLines C.view = task'.mapLines C.view → task.Within C.reads C.writes →
      C.related s t → Coupled C (Plan.ofTask task s) (Plan.ofTask task' t))
    {p q : Plan f} {a : Answer f} (h : Finishes p a) (hc : Coupled C p q) :
    ∃ b, Finishes q b ∧ Alike C.view f a.outcome b.outcome ∧ C.related a.session b.session := by
  induction h with
  | finish a =>
    cases hc with
    | finish same hr => exact ⟨_, .finish _, same, hr⟩
  | await _ _ ih₁ ih₂ =>
    cases hc with
    | await same within hr rest =>
      obtain ⟨b, hb, hs, hr⟩ := ih₁ (tasks same within hr)
      obtain ⟨c, hc, hs', hr'⟩ := ih₂ (rest _ b hs hr)
      exact ⟨c, .await hb hc, hs', hr'⟩
  | become _ ih =>
    cases hc with
    | become same within hr =>
      obtain ⟨b, hb, hs, hr⟩ := ih (tasks same within hr)
      exact ⟨b, .become hb, hs, hr⟩

namespace Coupled

theorem ok {r r' : f.Result} (same : f.mapLines C.view r = f.mapLines C.view r')
    (hr : C.related s t) :
    Coupled C (Plan.ok r s) (Plan.ok r' t) :=
  .finish (.ok same) hr

theorem fail {fault : Fault} {line line' : Nat} (hl : C.view line = C.view line')
    (hr : C.related s t) :
    Coupled C (Plan.fail (f := f) fault line s) (Plan.fail fault line' t) :=
  .finish (.error (by simp [RuntimeError.mapLines, hl])) hr

theorem after {task task' : Task g} {next next' : g.Result → Session → Plan f}
    (same : task.mapLines C.view = task'.mapLines C.view) (within : task.Within C.reads C.writes)
    (hr : C.related s t)
    (rest : ∀ r r' s t, g.mapLines C.view r = g.mapLines C.view r' → C.related s t →
      Coupled C (next r s) (next' r' t)) :
    Coupled C (Plan.after task s next) (Plan.after task' t next') := by
  refine .await same within hr ?_
  rintro ⟨_, s⟩ ⟨_, t⟩ ho hr
  cases ho with
  | ok same => exact rest _ _ s t same hr
  | error same => exact .finish (.error same) hr

theorem attempt {line line' : Nat} {x y : Except Fault α × Session}
    {next next' : α → Session → Plan f} (hl : C.view line = C.view line')
    (h : x.1 = y.1 ∧ C.related x.2 y.2)
    (rest : ∀ a s t, C.related s t → Coupled C (next a s) (next' a t)) :
    Coupled C (Plan.attempt line x next) (Plan.attempt line' y next') := by
  obtain ⟨_ | a, s⟩ := x <;> obtain ⟨_, t⟩ := y <;> obtain ⟨rfl, hr⟩ := h
  · exact fail hl hr
  · exact rest a s t hr

theorem operand {e e' : Expr} {scope : ScopeId} {next next' : Value → Session → Plan f}
    (same : e.mapLines C.view = e'.mapLines C.view) (within : C.reads scope) (hr : C.related s t)
    (rest : ∀ v s t, C.related s t → Coupled C (next v s) (next' v t)) :
    Coupled C (Plan.operand e scope s next) (Plan.operand e' scope t next') := by
  have hl : C.view e.line = C.view e'.line := by
    rw [← Expr.line_mapLines C.view e, same, Expr.line_mapLines]
  refine after (by simp [Task.mapLines, same]) within hr ?_
  rintro r _ s t (rfl : r = _) hr
  cases r with
  | none => exact fail hl hr
  | some v => exact rest v s t hr

theorem operands {es es' : List Expr} {scope : ScopeId}
    {next next' : List Value → Session → Plan f}
    (same : es.map (Expr.mapLines C.view) = es'.map (Expr.mapLines C.view)) (within : C.reads scope)
    (rest : ∀ vs s t, C.related s t → Coupled C (next vs s) (next' vs t)) :
    ∀ (values : List Value) {s t : Session}, C.related s t →
      Coupled C (Plan.operands es scope values s next)
        (Plan.operands es' scope values t next') := by
  induction es generalizing es' with
  | nil =>
    intro values s t hr
    obtain rfl : es' = [] := by simpa using same.symm
    exact rest _ _ _ hr
  | cons e es ih =>
    intro values s t hr
    obtain ⟨e', es', rfl, he, hes⟩ := List.map_eq_cons_iff.mp same.symm
    exact operand he.symm within hr fun v _ _ hr => ih hes.symm (v :: values) hr

theorem condition {e e' : Expr} {line line' : Nat} {scope : ScopeId}
    {next next' : Bool → Session → Plan f} (same : e.mapLines C.view = e'.mapLines C.view)
    (hl : C.view line = C.view line') (within : C.reads scope) (hr : C.related s t)
    (rest : ∀ b s t, C.related s t → Coupled C (next b s) (next' b t)) :
    Coupled C (Plan.condition e line scope s next)
      (Plan.condition e' line' scope t next') :=
  operand same within hr fun _ _ _ hr => attempt hl ⟨rfl, hr⟩ rest

theorem inner {body body' : List Stmt} {scope : ScopeId} {next next' : Session → Plan .block}
    (same : body.map (Stmt.mapLines C.view) = body'.map (Stmt.mapLines C.view))
    (within : C.writes scope) (hr : C.related s t)
    (rest : ∀ s t, C.related s t → Coupled C (next s) (next' t)) :
    Coupled C (Plan.inner body scope s next) (Plan.inner body' scope t next') := by
  refine after (by simp [Task.mapLines, same]) within hr ?_
  intro r r' s t hrr hr
  cases r <;> cases r' <;> simp only [Form.mapLines, Completion.mapLines, reduceCtorEq] at hrr
  · exact rest s t hr
  · exact ok hrr hr

theorem outermost {body body' : List Stmt} {next next' : Session → Plan f}
    (same : body.map (Stmt.mapLines C.view) = body'.map (Stmt.mapLines C.view))
    (within : C.writes Scopes.globals) (hr : C.related s t)
    (rest : ∀ s t, C.related s t → Coupled C (next s) (next' t)) :
    Coupled C (Plan.outermost body s next) (Plan.outermost body' t next') := by
  refine after (by simp [Task.mapLines, same]) within hr ?_
  intro r r' s t hrr hr
  cases r <;> cases r' <;> simp only [Form.mapLines, Completion.mapLines, reduceCtorEq] at hrr
  · exact rest s t hr
  · exact fail (by simpa using (Completion.returned.inj hrr).2) hr

end Coupled

namespace Lockstep

variable (L : Lockstep C)
include L

theorem defineAll {frame : ScopeId} (within : C.writes frame) (bindings : List (Param × Value)) :
    ∀ {s t : Session}, C.related s t →
      (s.defineAll frame bindings).1 = (t.defineAll frame bindings).1 ∧
        C.related (s.defineAll frame bindings).2 (t.defineAll frame bindings).2 := by
  induction bindings with
  | nil => exact fun hr => ⟨rfl, hr⟩
  | cons binding rest ih =>
    intro s t hr
    obtain ⟨p, v⟩ := binding
    obtain ⟨ho, hd⟩ := L.define p.name ⟨v, true⟩ hr within
    simp only [Session.defineAll]
    generalize s.define frame p.name ⟨v, true⟩ = x at ho hd ⊢
    generalize t.define frame p.name ⟨v, true⟩ = y at ho hd ⊢
    obtain ⟨_ | _, s⟩ := x <;> obtain ⟨_, t⟩ := y <;> cases ho
    · exact ⟨rfl, hd⟩
    · exact ih hd

theorem assign {scope : ScopeId} (within : C.writes scope) (hr : C.related s t) (name : String)
    (type : Option TypeTag) (isMutable : Bool) (v : Value) :
    (s.assign scope name type isMutable v).1 = (t.assign scope name type isMutable v).1 ∧
      C.related (s.assign scope name type isMutable v).2
        (t.assign scope name type isMutable v).2 := by
  cases type with
  | some tag =>
    simp only [Session.assign]
    split
    · exact L.define name _ hr within
    · exact ⟨rfl, hr⟩
  | none =>
    simp only [Session.assign, L.lookup name hr (L.visible within)]
    split
    · exact L.reassign name v hr within
    · exact L.define name _ hr within

theorem enter {h h' : Function} (same : h.mapLines C.view = h'.mapLines C.view)
    (within : C.writes h.closure) (values : List Value) {line line' : Nat}
    (hl : C.view line = C.view line') (hr : C.related s t) :
    Coupled C (Plan.enter h values line s) (Plan.enter h' values line' t) := by
  obtain ⟨params, returns, body, closure⟩ := h
  obtain ⟨params', returns', body', closure'⟩ := h'
  simp only [Function.mapLines, Function.mk.injEq] at same
  obtain ⟨rfl, rfl, hb, rfl⟩ := same
  obtain ⟨hf, frame⟩ := L.fresh hr
  simp only [Plan.enter, ← hf]
  refine .attempt hl (L.defineAll frame _ (L.openScope hr within)) fun _ s t hr => ?_
  refine .after (by simp [Task.mapLines, hb]) frame hr fun r r' s t hrr hr => .ok ?_ hr
  cases r <;> cases r' <;> simp_all [Form.mapLines, Completion.mapLines, Completion.value?]

theorem call {name : String} {es es' : List Expr} {line line' : Nat} {scope : ScopeId}
    (same : es.map (Expr.mapLines C.view) = es'.map (Expr.mapLines C.view))
    (hl : C.view line = C.view line') (within : C.reads scope) (hr : C.related s t) :
    Coupled C (Plan.call name es line scope s) (Plan.call name es' line' scope t) := by
  have hn : es.length = es'.length := by simpa using congrArg List.length same
  have hf := L.function name hr
  simp only [Plan.call]
  cases hs : s.function? name with
  | none =>
    obtain ht : t.function? name = none := by simpa [hs] using hf.symm
    simp only [ht]
    exact .fail hl hr
  | some h =>
    obtain ⟨h', ht, hh⟩ : ∃ h', t.function? name = some h' ∧
        h'.mapLines C.view = h.mapLines C.view := by simpa [hs] using hf.symm
    have hp : h.params = h'.params := (congrArg Function.params hh).symm
    simp only [ht, hn, hp]
    split
    · have hc : C.writes h.closure := L.closure hr hs
      exact .operands same within (fun values _ _ hr => L.enter hh.symm hc values hl hr) [] hr
    · exact .fail hl hr

theorem expression {e e' : Expr} {scope : ScopeId} (same : e.mapLines C.view = e'.mapLines C.view)
    (within : C.reads scope) (hr : C.related s t) :
    Coupled C (Plan.expression e scope s) (Plan.expression e' scope t) := by
  cases e <;> cases e' <;>
    simp only [Expr.mapLines, Expr.literal.injEq, Expr.var.injEq, Expr.binary.injEq,
      Expr.call.injEq, reduceCtorEq] at same
  case literal.literal v _ v' _ =>
    obtain ⟨rfl, _⟩ := same
    exact .ok rfl hr
  case var.var name _ name' _ =>
    obtain ⟨rfl, hl⟩ := same
    simp only [Plan.expression, L.lookup name hr within]
    split
    · exact .ok rfl hr
    · exact .fail hl hr
  case binary.binary op _ _ _ op' _ _ _ =>
    obtain ⟨rfl, hleft, hright, hl⟩ := same
    refine .operand hleft within hr fun a s t hr => ?_
    refine .operand hright within hr fun b s t hr => ?_
    exact .attempt hl ⟨rfl, hr⟩ fun _ _ _ hr => .ok rfl hr
  case call.call name _ _ name' _ _ =>
    obtain ⟨rfl, hes, hl⟩ := same
    exact L.call hes hl within hr

theorem block {body body' : List Stmt} {scope : ScopeId}
    (same : body.map (Stmt.mapLines C.view) = body'.map (Stmt.mapLines C.view))
    (within : C.writes scope) (hr : C.related s t) :
    Coupled C (Plan.block body scope s) (Plan.block body' scope t) := by
  cases body with
  | nil =>
    obtain rfl : body' = [] := by simpa using same.symm
    exact .ok rfl hr
  | cons first rest =>
    obtain ⟨first', rest', rfl, hfirst, hrest⟩ := List.map_eq_cons_iff.mp same.symm
    have goOn : ∀ s t, C.related s t →
        Coupled C (.become (.block rest scope) s) (.become (.block rest' scope) t) :=
      fun s t hr => .become (by simp [Task.mapLines, hrest]) within hr
    have sees : C.reads scope := L.visible within
    cases first <;> cases first' <;>
      simp only [Stmt.mapLines_branch, Stmt.mapLines, Stmt.assign.injEq, Stmt.branch.injEq,
        Stmt.loop.injEq, Stmt.function.injEq, Stmt.leave.injEq, Stmt.print.injEq,
        Stmt.expression.injEq, reduceCtorEq] at hfirst
    case assign.assign =>
      obtain ⟨rfl, rfl, rfl, hv, hl⟩ := hfirst
      refine .operand hv.symm sees hr fun v s t hr => ?_
      exact .attempt hl.symm (L.assign within hr _ _ _ v) fun _ s t hr => goOn s t hr
    case branch.branch _ yes no _ _ yes' no' _ =>
      obtain ⟨htest, hyes, hno, hl⟩ := hfirst
      refine .condition htest.symm hl.symm sees hr fun holds s t hr => ?_
      refine .inner ?_ within hr goOn
      cases holds
      · cases no <;> cases no' <;> simp_all
      · simpa using hyes.symm
    case loop.loop =>
      have hbody := hfirst.2.1
      refine .condition hfirst.1.symm hfirst.2.2.symm sees hr fun holds s t hr => ?_
      cases holds
      · exact goOn s t hr
      · exact .inner hbody.symm within hr fun s t hr =>
          .become (by simpa [Task.mapLines] using same) within hr
    case function.function =>
      obtain ⟨rfl, rfl, rfl, hbody, _⟩ := hfirst
      exact goOn _ _ (L.declare _ hr within (by simp [Function.mapLines, hbody]))
    case leave.leave v _ v' _ =>
      obtain ⟨hv, hl⟩ := hfirst
      cases v <;> cases v' <;> simp only [Option.map_none, Option.map_some, reduceCtorEq,
        Option.some.injEq] at hv
      · exact .ok (by simp [Form.mapLines, Completion.mapLines, hl]) hr
      · refine .after (by simp [Task.mapLines, hv]) sees hr ?_
        rintro r _ s t (rfl : r = _) hr
        exact .ok (by simp [Form.mapLines, Completion.mapLines, hl]) hr
    case print.print =>
      obtain ⟨hv, hl⟩ := hfirst
      refine .operand hv.symm sees hr fun v s t hr => ?_
      exact .attempt hl.symm (L.print _ hr) fun _ s t hr => goOn s t hr
    case expression.expression =>
      refine .after (by simp [Task.mapLines, hfirst.1]) sees hr fun _ _ s t _ hr => ?_
      exact goOn s t hr

theorem line {body body' : List Stmt}
    (same : body.map (Stmt.mapLines C.view) = body'.map (Stmt.mapLines C.view))
    (within : C.writes Scopes.globals) :
    ∀ (values : List Value) {s t : Session}, C.related s t →
      Coupled C (Plan.line body values s) (Plan.line body' values t) := by
  induction body generalizing body' with
  | nil =>
    intro values s t hr
    obtain rfl : body' = [] := by simpa using same.symm
    exact .ok rfl hr
  | cons first rest ih =>
    intro values s t hr
    obtain ⟨first', rest', rfl, hfirst, hrest⟩ := List.map_eq_cons_iff.mp same.symm
    have single : [first].map (Stmt.mapLines C.view) = [first'].map (Stmt.mapLines C.view) := by
      simp [hfirst]
    have goOn : ∀ s t, C.related s t →
        Coupled C (Plan.line rest values s) (Plan.line rest' values t) :=
      fun s t hr => ih hrest.symm values hr
    cases first <;> cases first' <;>
      simp only [Stmt.mapLines_branch, Stmt.mapLines, Stmt.expression.injEq, reduceCtorEq] at hfirst
    case expression.expression =>
      refine .after (by simp [Task.mapLines, hfirst.1]) (L.visible within) hr ?_
      rintro r _ s t (rfl : r = _) hr
      exact ih hrest.symm _ hr
    all_goals exact .outermost single within hr goOn

theorem ofTask {task task' : Task f} (same : task.mapLines C.view = task'.mapLines C.view)
    (within : task.Within C.reads C.writes) (hr : C.related s t) :
    Coupled C (Plan.ofTask task s) (Plan.ofTask task' t) := by
  cases task <;> cases task' <;>
    simp only [Task.mapLines, Task.expression.injEq, Task.block.injEq, Task.program.injEq,
      Task.line.injEq] at same
  case expression.expression =>
    obtain ⟨he, rfl⟩ := same
    exact L.expression he within hr
  case block.block =>
    obtain ⟨hb, rfl⟩ := same
    exact L.block hb within hr
  case program.program => exact .outermost same within hr fun _ _ hr => .ok rfl hr
  case line.line => exact L.line same within [] hr

/-- Of two coupled plans, the second finishes whenever the first does, and alike. -/
theorem finishes {p q : Plan f} {a : Answer f} (hc : Coupled C p q)
    (h : Finishes p a) :
    ∃ b, Finishes q b ∧ Alike C.view f a.outcome b.outcome ∧ C.related a.session b.session :=
  h.coupled L.ofTask hc

end Lockstep

/-- A property of sessions that every operation preserves in the scopes where statements run. -/
structure Preserved (writes : ScopeId → Prop) (P : Session → Prop) : Prop where
  closure : ∀ {s name f}, P s → s.function? name = some f → writes f.closure
  fresh : ∀ {s}, P s → writes s.scopes.fresh
  openScope : ∀ {s id}, P s → writes id → P (s.openScope id)
  define : ∀ {s id} name b, P s → writes id → P (s.define id name b).2
  reassign : ∀ {s id} name v, P s → writes id → P (s.reassign id name v).2
  declare : ∀ {s f} name, P s → writes f.closure → P (s.declare name f)
  print : ∀ {s} text, P s → P (s.print text).2

/-- A run beside itself. -/
def Coupling.self (writes : ScopeId → Prop) (P : Session → Prop) : Coupling :=
  ⟨id, fun _ => True, writes, fun s t => s = t ∧ P s⟩

namespace Preserved

variable {writes : ScopeId → Prop} {P : Session → Prop} (h : Preserved writes P)
include h

theorem lockstep : Lockstep (.self writes P) where
  visible _ := trivial
  closure := by rintro s _ name f ⟨rfl, hs⟩ hf; exact h.closure hs hf
  fresh := by rintro s _ ⟨rfl, hs⟩; exact ⟨rfl, h.fresh hs⟩
  lookup := by rintro s _ id name ⟨rfl, _⟩ _; rfl
  function := by rintro s _ name ⟨rfl, _⟩; rfl
  openScope := by rintro s _ id ⟨rfl, hs⟩ hi; exact ⟨rfl, h.openScope hs hi⟩
  define := by rintro s _ id name b ⟨rfl, hs⟩ hi; exact ⟨rfl, rfl, h.define name b hs hi⟩
  reassign := by rintro s _ id name v ⟨rfl, hs⟩ hi; exact ⟨rfl, rfl, h.reassign name v hs hi⟩
  declare := by
    rintro s _ f g name ⟨rfl, hs⟩ hi hfg
    obtain rfl : f = g := by simpa [Coupling.self] using hfg
    exact ⟨rfl, h.declare name hs hi⟩
  print := by rintro s _ text ⟨rfl, hs⟩; exact ⟨rfl, rfl, h.print text hs⟩

theorem finishes_plan {p : Plan f} {a : Answer f} (hc : Coupled (.self writes P) p p)
    (ha : Finishes p a) : P a.session := by
  obtain ⟨b, _, _, _, hp⟩ := h.lockstep.finishes hc ha
  exact hp

theorem finishes {task : Task f} {a : Answer f} (within : task.Within (fun _ => True) writes)
    (hs : P s) (ha : Finishes (.ofTask task s) a) : P a.session :=
  h.finishes_plan (h.lockstep.ofTask rfl within ⟨rfl, hs⟩) ha

end Preserved

end Scriptlet
