import Scriptlet.Proofs.Prints
import Scriptlet.Proofs.Renaming
import Scriptlet.Proofs.Store

namespace Scriptlet

/-- How a second run follows a first one: the names that it uses, and which of its sessions go with
a session of the first run after the prints so far. -/
structure Following where
  names : Renaming
  related : List Printing → Session → Session → Prop

namespace Following

/-- The outcome of the second run for one of the first. -/
def outcome (F : Following) {α : Type} (o : Except RuntimeError α) : Except RuntimeError α :=
  o.mapError (RuntimeError.rename F.names)

theorem outcome_of_none {F : Following} (h : F.names = .none) {α : Type}
    (o : Except RuntimeError α) : F.outcome o = o := by
  rw [outcome, h]
  cases o with
  | error e => exact congrArg Except.error e.rename_none
  | ok r => rfl

/-- The operation of the second run fails as that of the first one does, and otherwise gives the
same; the sessions stay related. -/
structure Alike (F : Following) {α : Type} (past : List Printing)
    (x y : Except Fault α × Session) : Prop where
  outcome : y.1 = x.1.mapError (Fault.rename F.names)
  related : F.related past x.2 y.2

/-- No operation of the second run falls behind, unless it is a print. -/
structure Kept (F : Following) : Prop where
  fresh : ∀ {past s t}, F.related past s t → t.scopes.fresh = s.scopes.fresh
  lookup : ∀ {past s t} id name, F.related past s t →
    t.scopes.lookup? id (F.names.var name) = s.scopes.lookup? id name
  function : ∀ {past s t} name, F.related past s t →
    t.function? (F.names.fn name) = (s.function? name).map (Function.rename F.names)
  openScope : ∀ {past s t} id, F.related past s t →
    F.related past (s.openScope id) (t.openScope id)
  define : ∀ {past s t} id name b, F.related past s t →
    F.Alike past (s.define id name b) (t.define id (F.names.var name) b)
  reassign : ∀ {past s t} id name v, F.related past s t →
    F.Alike past (s.reassign id name v) (t.reassign id (F.names.var name) v)
  declare : ∀ {past s t} name f, F.related past s t →
    F.related past (s.declare name f) (t.declare (F.names.fn name) (f.rename F.names))
  print : ∀ {past s t} line text, F.related past s t → (t.print text).1 = .ok () →
    (s.print text).1 = .ok () ∧
      F.related (past ++ [⟨line, text, s⟩]) (s.print text).2 (t.print text).2

end Following

/-- A plan of the second run that keeps up with a plan of the first one. -/
inductive Follows (F : Following) {f : Form} :
    List Printing → Option Nat → Plan f → Plan f → Prop where
  | finish {past : List Printing} {line? : Option Nat} {a : Answer f} {t : Session}
      (hr : F.related past a.session t) :
      Follows F past line? (.finish a) (.finish ⟨F.outcome a.outcome, t⟩)
  | await {past : List Printing} {line? : Option Nat} {g : Form} {task : Task g} {s t : Session}
      {next next' : Answer g → Plan f} (hr : F.related past s t)
      (error : ∀ e t, next' ⟨.error e, t⟩ = .finish ⟨.error e, t⟩)
      (silent : ∀ past (a : Answer g) t, F.related past a.session t → a.printing? line? = none →
        Follows F past none (next a) (next' ⟨F.outcome a.outcome, t⟩))
      (taken : ∀ past (a : Answer g) t (x : Printing), F.related past a.session t →
        a.printing? line? = some x → (t.print x.text).1 = .ok () →
        Follows F (past ++ [x]) none (next a) (next' ⟨F.outcome a.outcome, t⟩))
      (refused : ∀ past (a : Answer g) t (x : Printing), F.related past a.session t →
        a.printing? line? = some x → (t.print x.text).1 ≠ .ok () →
        next' ⟨F.outcome a.outcome, t⟩ = .finish ⟨.error ⟨.output, x.line⟩, (t.print x.text).2⟩) :
      Follows F past line? (.await task s next) (.await (task.rename F.names) t next')
  | become {past : List Printing} {line? : Option Nat} {task : Task f} {s t : Session}
      (hr : F.related past s t) :
      Follows F past line? (.become task s) (.become (task.rename F.names) t)

/-- How the second run ends: where the first one does, or at the first print that is refused. -/
inductive Follows.Ends (F : Following) {f : Form} (past ps : List Printing) (a : Answer f)
    (q : Plan f) : Prop where
  | together {t : Session} (h : Finishes q ⟨F.outcome a.outcome, t⟩)
      (hr : F.related (past ++ ps) a.session t)
  | refused {before after : List Printing} {x : Printing} {t : Session}
      (hps : ps = before ++ x :: after) (hr : F.related (past ++ before) x.session t)
      (hx : (t.print x.text).1 ≠ .ok ())
      (h : Finishes q ⟨.error ⟨.output, x.line⟩, (t.print x.text).2⟩)

variable {F : Following} {f g : Form} {α : Type} {past : List Printing} {s t : Session}

/-- Prints and waiting that came before. -/
theorem Follows.Ends.prepend {ps qs : List Printing} {a : Answer f} {q q' : Plan f}
    (h : Ends F (past ++ ps) qs a q) (hq : ∀ b, Finishes q b → Finishes q' b) :
    Ends F past (ps ++ qs) a q' := by
  cases h with
  | together h hr =>
    rw [List.append_assoc] at hr
    exact .together (hq _ h) hr
  | refused hqs hr hx h =>
    rw [List.append_assoc] at hr
    exact .refused (by rw [hqs, List.append_assoc]) hr hx (hq _ h)

theorem Session.print_refused {text : String} (h : (t.print text).1 ≠ .ok ()) :
    (t.print text).1 = .error .output := by
  rw [print_outcome] at h ⊢
  split <;> simp_all

namespace Follows

variable {line? : Option Nat}

theorem ok {r : f.Result} (hr : F.related past s t) :
    Follows F past line? (Plan.ok r s) (Plan.ok r t) :=
  .finish (a := ⟨.ok r, s⟩) hr

theorem fail (fault : Fault) (line : Nat) (hr : F.related past s t) :
    Follows F past line? (Plan.fail (f := f) fault line s)
      (Plan.fail (fault.rename F.names) line t) :=
  .finish (a := ⟨.error ⟨fault, line⟩, s⟩) hr

theorem after (task : Task g) {next next' : g.Result → Session → Plan f}
    (hr : F.related past s t)
    (rest : ∀ past r s t, F.related past s t → Follows F past none (next r s) (next' r t)) :
    Follows F past none (Plan.after task s next)
      (Plan.after (task.rename F.names) t next') := by
  have quiet (a : Answer g) : a.printing? none = none := by
    unfold Answer.printing?
    split <;> simp_all
  refine .await hr (fun _ _ => rfl) ?_ ?_ ?_
  · intro past a t hr _
    obtain ⟨_ | r, s⟩ := a
    · exact .finish hr
    · exact rest past r s t hr
  · intro past a t x _ hx
    rw [quiet] at hx
    cases hx
  · intro past a t x _ hx
    rw [quiet] at hx
    cases hx

theorem attempt {line : Nat} {x y : Except Fault α × Session} {next next' : α → Session → Plan f}
    (h : F.Alike past x y)
    (rest : ∀ a, F.related past x.2 y.2 → Follows F past none (next a x.2) (next' a y.2)) :
    Follows F past none (Plan.attempt line x next) (Plan.attempt line y next') := by
  obtain ⟨fault | a, s⟩ := x <;> obtain ⟨_, t⟩ := y <;> obtain ⟨rfl, hr⟩ := h
  · exact fail fault line hr
  · exact rest a hr

theorem operand {e : Expr} {scope : ScopeId} {next next' : Value → Session → Plan f}
    (hr : F.related past s t)
    (rest : ∀ past v s t, F.related past s t → Follows F past none (next v s) (next' v t)) :
    Follows F past none (Plan.operand e scope s next)
      (Plan.operand (e.rename F.names) scope t next') := by
  refine after (.expression e scope) hr ?_
  intro past r s t hr
  cases r with
  | none =>
    rw [Expr.line_rename]
    exact fail .missingValue e.line hr
  | some v => exact rest past v s t hr

theorem operands {es : List Expr} {scope : ScopeId} {next next' : List Value → Session → Plan f}
    (rest : ∀ past vs s t, F.related past s t → Follows F past none (next vs s) (next' vs t)) :
    ∀ {past} (values : List Value) {s t : Session}, F.related past s t →
      Follows F past none (Plan.operands es scope values s next)
        (Plan.operands (es.map (Expr.rename F.names)) scope values t next') := by
  induction es with
  | nil => exact fun values _ _ hr => rest _ _ _ _ hr
  | cons e es ih => exact fun values _ _ hr => operand hr fun _ v _ _ hr => ih (v :: values) hr

theorem condition {e : Expr} {line : Nat} {scope : ScopeId} {next next' : Bool → Session → Plan f}
    (hr : F.related past s t)
    (rest : ∀ past b s t, F.related past s t → Follows F past none (next b s) (next' b t)) :
    Follows F past none (Plan.condition e line scope s next)
      (Plan.condition (e.rename F.names) line scope t next') :=
  operand hr fun past v s t hr =>
    attempt ⟨(unnamed_toBool v).symm, hr⟩ fun b hr => rest past b s t hr

theorem inner {body : List Stmt} {scope : ScopeId} {next next' : Session → Plan .block}
    (hr : F.related past s t)
    (rest : ∀ past s t, F.related past s t → Follows F past none (next s) (next' t)) :
    Follows F past none (Plan.inner body scope s next)
      (Plan.inner (body.map (Stmt.rename F.names)) scope t next') := by
  refine after (.block body scope) hr ?_
  intro past r s t hr
  cases r with
  | normal => exact rest past s t hr
  | returned value line => exact ok hr

theorem outermost {body : List Stmt} {next next' : Session → Plan f} (hr : F.related past s t)
    (rest : ∀ past s t, F.related past s t → Follows F past none (next s) (next' t)) :
    Follows F past none (Plan.outermost body s next)
      (Plan.outermost (body.map (Stmt.rename F.names)) t next') := by
  refine after (.block body Scopes.globals) hr ?_
  intro past r s t hr
  cases r with
  | normal => exact rest past s t hr
  | returned value line => exact fail .returnOutsideFunction line hr

theorem ofLine (body : List Stmt) :
    ∀ {past} (values : List Value) {s t : Session}, F.related past s t →
      Follows F past none (Plan.line body values s)
        (Plan.line (body.map (Stmt.rename F.names)) values t) := by
  induction body with
  | nil => exact fun values _ _ hr => ok hr
  | cons first rest ih =>
    intro past values s t hr
    have goOn : ∀ past s t, F.related past s t →
        Follows F past none (Plan.line rest values s)
          (Plan.line (rest.map (Stmt.rename F.names)) values t) :=
      fun past s t hr => ih values hr
    have single : Follows F past none (Plan.outermost [first] s (Plan.line rest values))
        (Plan.outermost [first.rename F.names] t
          (Plan.line (rest.map (Stmt.rename F.names)) values)) :=
      outermost hr goOn
    rw [List.map_cons]
    cases first with
    | expression value line =>
      simp only [Stmt.rename]
      exact after (.expression value Scopes.globals) hr fun _ v _ _ hr => ih _ hr
    | branch test yes no line => cases no <;> simpa only [Stmt.rename, Plan.line] using single
    | _ => simpa only [Stmt.rename, Plan.line] using single

end Follows

namespace Following.Kept

variable (hF : F.Kept)
include hF

theorem defineAll (frame : ScopeId) (params : List Param) (values : List Value) :
    ∀ {s t : Session}, F.related past s t →
      F.Alike past (s.defineAll frame (params.zip values))
        (t.defineAll frame ((params.map (Param.rename F.names)).zip values)) := by
  induction params generalizing values with
  | nil => exact fun hr => ⟨rfl, hr⟩
  | cons p params ih =>
    intro s t hr
    cases values with
    | nil => exact ⟨rfl, hr⟩
    | cons v values =>
      obtain ⟨ho, hd⟩ := hF.define frame p.name ⟨v, true⟩ hr
      simp only [List.zip_cons_cons, List.map_cons, Session.defineAll, Param.rename]
      generalize s.define frame p.name ⟨v, true⟩ = x at ho hd ⊢
      generalize t.define frame (F.names.var p.name) ⟨v, true⟩ = y at ho hd ⊢
      obtain ⟨_ | _, s⟩ := x <;> obtain ⟨_, t⟩ := y <;> cases ho
      · exact ⟨rfl, hd⟩
      · exact ih values hd

theorem assign (scope : ScopeId) (name : String) (type : Option TypeTag) (isMutable : Bool)
    (v : Value) (hr : F.related past s t) :
    F.Alike past (s.assign scope name type isMutable v)
      (t.assign scope (F.names.var name) type isMutable v) := by
  cases type with
  | some tag =>
    simp only [Session.assign]
    split
    · exact hF.define scope name _ hr
    · exact ⟨rfl, hr⟩
  | none =>
    simp only [Session.assign, hF.lookup scope name hr]
    split
    · exact hF.reassign scope name v hr
    · exact hF.define scope name _ hr

theorem enter (h : Function) (values : List Value) (line : Nat) (hr : F.related past s t) :
    Follows F past none (Plan.enter h values line s)
      (Plan.enter (h.rename F.names) values line t) := by
  simp only [Plan.enter, hF.fresh hr]
  refine .attempt (hF.defineAll _ _ values (hF.openScope _ hr)) fun _ hr => ?_
  exact .after (.block h.body _) hr fun _ r _ _ hr => .ok hr

theorem call (name : String) (es : List Expr) (line : Nat) (scope : ScopeId)
    (hr : F.related past s t) :
    Follows F past none (Plan.call name es line scope s)
      (Plan.call (F.names.fn name) (es.map (Expr.rename F.names)) line scope t) := by
  simp only [Plan.call, hF.function name hr]
  cases s.function? name with
  | none => exact .fail (.unknownFunction name) line hr
  | some h =>
    have hn : (h.rename F.names).params.length = h.params.length := by simp [Function.rename]
    simp only [Option.map_some, List.length_map, hn]
    split
    · exact .operands (fun _ values _ _ hr => hF.enter h values line hr) [] hr
    · exact .fail (.argumentCountMismatch name h.params.length es.length) line hr

theorem expression (e : Expr) (scope : ScopeId) (hr : F.related past s t) :
    Follows F past none (Plan.expression e scope s)
      (Plan.expression (e.rename F.names) scope t) := by
  cases e with
  | literal value line =>
    simp only [Expr.rename]
    exact .ok hr
  | var name line =>
    simp only [Expr.rename, Plan.expression, hF.lookup scope name hr]
    split
    · exact .ok hr
    · exact .fail (.unknownVariable name) line hr
  | binary op left right line =>
    simp only [Expr.rename]
    refine .operand hr fun _ a _ _ hr => ?_
    refine .operand hr fun _ b _ _ hr => ?_
    exact .attempt ⟨(unnamed_apply op a b).symm, hr⟩ fun _ hr => .ok hr
  | call name arguments line =>
    simp only [Expr.rename]
    exact hF.call name arguments line scope hr

/-- A print statement is where the second run may stay behind. -/
theorem printing (value : Expr) (line : Nat) (rest : List Stmt) (scope : ScopeId)
    (hr : F.related past s t) :
    Follows F past (some line) (Plan.block (.print value line :: rest) scope s)
      (Plan.block (.print (value.rename F.names) line :: rest.map (Stmt.rename F.names)) scope
        t) := by
  refine Follows.await hr (fun _ _ => rfl) ?_ ?_ ?_
  · intro past a t hr hx
    obtain ⟨_ | _ | v, s⟩ := a
    · exact .finish hr
    · rw [← Expr.line_rename F.names value]
      exact .fail .missingValue _ hr
    · cases hx
  · intro past a t x hr hx ht
    obtain ⟨_ | _ | v, s⟩ := a <;> cases hx
    obtain ⟨hs, hr⟩ := hF.print line v.text hr ht
    have hs' : s.print v.text = (.ok (), (s.print v.text).2) := Prod.ext hs rfl
    have ht' : t.print v.text = (.ok (), (t.print v.text).2) := Prod.ext ht rfl
    change Follows F _ none (Plan.attempt line (s.print v.text) _)
      (Plan.attempt line (t.print v.text) _)
    rw [hs', ht']
    exact .become hr
  · intro past a t x hr hx ht
    obtain ⟨_ | _ | v, s⟩ := a <;> cases hx
    have ht' : t.print v.text = (.error .output, (t.print v.text).2) :=
      Prod.ext (Session.print_refused ht) rfl
    change Plan.attempt line (t.print v.text) _ = _
    rw [ht']
    rfl

theorem block (body : List Stmt) (scope : ScopeId) (hr : F.related past s t) :
    Follows F past (Task.block body scope).printLine? (Plan.block body scope s)
      (Plan.block (body.map (Stmt.rename F.names)) scope t) := by
  cases body with
  | nil => exact .ok hr
  | cons first rest =>
    have goOn : ∀ past s t, F.related past s t →
        Follows F past none (.become (.block rest scope) s)
          (.become (.block (rest.map (Stmt.rename F.names)) scope) t) :=
      fun past s t hr => .become hr
    rw [List.map_cons]
    cases first with
    | assign name type isMutable value line =>
      simp only [Stmt.rename]
      refine .operand hr fun past v s t hr => ?_
      exact .attempt (hF.assign scope name type isMutable v hr) fun _ hr => goOn past _ _ hr
    | branch test yes no line =>
      rw [Stmt.rename_branch]
      refine .condition hr fun past holds s t hr => ?_
      cases holds
      · cases no <;> exact .inner hr goOn
      · exact .inner hr goOn
    | loop test body line =>
      simp only [Stmt.rename]
      refine .condition hr fun past holds s t hr => ?_
      cases holds
      · exact goOn past s t hr
      · refine .inner hr fun past s t hr => ?_
        let again : Task .block := .block (.loop test body line :: rest) scope
        have hagain : Follows F past none (.become again s) (.become (again.rename F.names) t) :=
          .become hr
        simpa only [again, Task.rename, List.map_cons, Stmt.rename] using hagain
    | function name params returns body line =>
      simp only [Stmt.rename]
      exact .become (hF.declare name ⟨params, returns, body, scope⟩ hr)
    | leave value line =>
      cases value with
      | none =>
        simp only [Stmt.rename, Option.map_none]
        exact .ok hr
      | some e =>
        simp only [Stmt.rename, Option.map_some]
        exact .after (.expression e scope) hr fun _ _ _ _ hr => .ok hr
    | print value line =>
      simp only [Stmt.rename]
      exact hF.printing value line rest scope hr
    | expression value line =>
      simp only [Stmt.rename]
      exact .after (.expression value scope) hr fun past _ s t hr => goOn past s t hr

theorem ofTask {task : Task f} (hr : F.related past s t) :
    Follows F past task.printLine? (.ofTask task s) (.ofTask (task.rename F.names) t) := by
  cases task with
  | expression e scope => exact hF.expression e scope hr
  | block body scope => exact hF.block body scope hr
  | program body => exact .outermost hr fun _ _ _ hr => .ok hr
  | line body => exact .ofLine body [] hr

/-- A run is followed to its end, or to the first print that is refused. -/
theorem ends {line? : Option Nat} {p q : Plan f} {ps : List Printing} {a : Answer f}
    (h : Prints line? p ps a) (hf : Follows F past line? p q) : Follows.Ends F past ps a q := by
  induction h generalizing past with
  | finish a =>
    cases hf with
    | finish hr => exact .together (.finish _) (by rwa [List.append_nil])
  | @await _ _ line? _ _ _ b _ ps qs _ _ ih₁ ih₂ =>
    cases hf with
    | await hr error silent taken refused =>
      cases ih₁ (hF.ofTask hr) with
      | refused hps hr hx hstop =>
        rw [hps, List.append_assoc, List.append_assoc, List.cons_append]
        refine .refused rfl hr hx (.await hstop ?_)
        rw [error]
        exact .finish _
      | @together t hawaited hr =>
        cases hb : b.printing? line? with
        | none =>
          rw [Option.toList_none, List.append_nil]
          exact (ih₂ (silent _ _ _ hr hb)).prepend fun _ hrest => .await hawaited hrest
        | some x =>
          by_cases hx : (t.print x.text).1 = .ok ()
          · have hrest := taken _ _ _ _ hr hb hx
            rw [List.append_assoc] at hrest
            exact (ih₂ hrest).prepend fun _ hrest => .await hawaited hrest
          · rw [Option.toList_some, List.append_assoc, List.singleton_append]
            have hx' : F.related (past ++ ps) x.session t := Answer.session_of_printing hb ▸ hr
            refine .refused rfl hx' hx (.await hawaited ?_)
            rw [refused _ _ _ _ hr hb hx]
            exact .finish _
  | become _ ih =>
    cases hf with
    | become hr =>
      cases ih (hF.ofTask hr) with
      | together h hr => exact .together (.become h) hr
      | refused hps hr hx h => exact .refused hps hr hx (.become h)

/-- If no print is refused, the second run comes to an end when the first one does. -/
theorem finishes
    (never : ∀ {past : List Printing} {s t : Session} (text : String), F.related past s t →
      (t.print text).1 = .ok ())
    {task : Task f} {a : Answer f} (h : Finishes (.ofTask task s) a) (hr : F.related past s t) :
    ∃ past u, F.related past a.session u ∧
      Finishes (.ofTask (task.rename F.names) t) ⟨F.outcome a.outcome, u⟩ := by
  obtain ⟨prints, hp⟩ := h.exists_prints task.printLine?
  cases hF.ends hp (hF.ofTask hr) with
  | together hend hr => exact ⟨_, _, hr, hend⟩
  | refused _ hr hx _ => exact absurd (never _ hr) hx

/-- Conversely, if no print is refused, the first run comes to an end when the second one does. -/
theorem ended
    (never : ∀ {past : List Printing} {s t : Session} (text : String), F.related past s t →
      (t.print text).1 = .ok ())
    {line? : Option Nat} {p q : Plan f} {b : Answer f} (h : Finishes q b)
    (hf : Follows F past line? p q) :
    ∃ a past, Finishes p a ∧ b.outcome = F.outcome a.outcome ∧
      F.related past a.session b.session := by
  induction h generalizing past line? with
  | finish b =>
    cases hf with
    | finish hr => exact ⟨_, past, .finish _, rfl, hr⟩
  | @await _ _ _ _ _ b _ _ _ ih₁ ih₂ =>
    cases hf with
    | await hr error silent taken refused =>
      obtain ⟨a, past, ha, hb, hr⟩ := ih₁ (hF.ofTask hr)
      obtain ⟨_, t⟩ := b
      obtain rfl := hb
      cases hx : a.printing? line? with
      | none =>
        obtain ⟨c, past, hc, hend⟩ := ih₂ (silent _ _ _ hr hx)
        exact ⟨c, past, .await ha hc, hend⟩
      | some x =>
        obtain ⟨c, past, hc, hend⟩ := ih₂ (taken _ _ _ _ hr hx (never _ hr))
        exact ⟨c, past, .await ha hc, hend⟩
  | become _ ih =>
    cases hf with
    | become hr =>
      obtain ⟨a, past, ha, hend⟩ := ih (hF.ofTask hr)
      exact ⟨a, past, .become ha, hend⟩

end Following.Kept

end Scriptlet
