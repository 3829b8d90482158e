import Scriptlet.Proofs.Contract

namespace Scriptlet

/-- The line that a result points at. -/
def Form.line? : (f : Form) → f.Result → Option Nat
  | .block, .returned _ n => some n
  | _, _ => none

def Answer.line? {f : Form} : Answer f → Option Nat
  | ⟨.ok result, _⟩ => f.line? result
  | ⟨.error e, _⟩ => some e.line

/-- What holds of a session, of the scopes in which text runs there, and of the lines of text. -/
structure Invariant where
  session : Session → Prop
  scope : Session → ScopeId → Prop
  line : Nat → Prop

namespace Invariant

/-- A session that is in order, and in which scopes are as good as in the first one. -/
def Leads (I : Invariant) (s t : Session) : Prop :=
  I.session t ∧ ∀ id, I.scope s id → I.scope t id

def Ends (I : Invariant) {f : Form} (s : Session) (a : Answer f) : Prop :=
  (∀ id, I.scope s id → I.scope a.session id) ∧ ∀ line ∈ a.line?, I.line line

def contract (I : Invariant) : Contract where
  always := I.session
  pre task s := I.scope s task.scope ∧ ∀ line ∈ task.lines, I.line line
  post _ s a := I.Ends s a

/-- No operation breaks the invariant. -/
structure Kept (I : Invariant) : Prop where
  function : ∀ {s name f}, I.session s → s.function? name = some f →
    I.scope s f.closure ∧ ∀ line ∈ f.body.flatMap Stmt.lines, I.line line
  openScope : ∀ {s id}, I.session s → I.scope s id →
    I.Leads s (s.openScope id) ∧ I.scope (s.openScope id) s.scopes.fresh
  define : ∀ {s id} name b, I.session s → I.scope s id → I.Leads s (s.define id name b).2
  reassign : ∀ {s id} name v, I.session s → I.scope s id → I.Leads s (s.reassign id name v).2
  declare : ∀ {s f} name, I.session s → I.scope s f.closure →
    (∀ line ∈ f.body.flatMap Stmt.lines, I.line line) → I.Leads s (s.declare name f)
  print : ∀ {s} text, I.session s → I.Leads s (s.print text).2

variable {I : Invariant} {f g : Form} {α : Type} {base s t : Session} {scope : ScopeId}

theorem Leads.refl (hs : I.session s) : I.Leads s s :=
  ⟨hs, fun _ hi => hi⟩

theorem Leads.trans (h : I.Leads base s) (h' : I.Leads s t) : I.Leads base t :=
  ⟨h'.1, fun id hi => h'.2 id (h.2 id hi)⟩

theorem ok {r : f.Result} (hs : I.Leads base s) (hr : ∀ line ∈ f.line? r, I.line line) :
    Meets I.contract (I.Ends base) (.ok r s) :=
  .finish hs.1 ⟨hs.2, hr⟩

/-- A result that points at no line. -/
theorem okSilent {r : f.Result} (hs : I.Leads base s) (hr : f.line? r = none) :
    Meets I.contract (I.Ends base) (.ok r s) :=
  ok hs (by simp [hr])

theorem fail {fault : Fault} {line : Nat} (hs : I.Leads base s) (hl : I.line line) :
    Meets I.contract (I.Ends base) (Plan.fail (f := f) fault line s) :=
  .finish hs.1 ⟨hs.2, by rintro _ ⟨⟩; exact hl⟩

theorem after {task : Task g} {next : g.Result → Session → Plan f} (hs : I.Leads base s)
    (known : I.scope s task.scope) (lines : ∀ line ∈ task.lines, I.line line)
    (rest : ∀ r t, I.Leads base t → (∀ line ∈ g.line? r, I.line line) →
      Meets I.contract (I.Ends base) (next r t)) :
    Meets I.contract (I.Ends base) (.after task s next) := by
  refine .after hs.1 ⟨known, lines⟩ (fun e t ht hb => ?_) (fun r t ht hb => ?_)
  · exact ⟨(hs.trans ⟨ht, hb.1⟩).2, hb.2⟩
  · exact rest r t (hs.trans ⟨ht, hb.1⟩) hb.2

theorem attempt {line : Nat} {x : Except Fault α × Session} {next : α → Session → Plan f}
    (hx : I.Leads base x.2) (hl : I.line line)
    (rest : ∀ r, Meets I.contract (I.Ends base) (next r x.2)) :
    Meets I.contract (I.Ends base) (.attempt line x next) :=
  .attempt hx.1 (fun _ => ⟨hx.2, by rintro _ ⟨⟩; exact hl⟩) rest

theorem operand {e : Expr} {next : Value → Session → Plan f} (hs : I.Leads base s)
    (known : I.scope base scope) (lines : ∀ line ∈ e.lines, I.line line)
    (rest : ∀ v t, I.Leads base t → Meets I.contract (I.Ends base) (next v t)) :
    Meets I.contract (I.Ends base) (.operand e scope s next) := by
  refine after hs (hs.2 _ known) lines fun r t ht _ => ?_
  cases r with
  | none => exact fail ht (lines _ e.line_mem_lines)
  | some v => exact rest v t ht

theorem operands {es : List Expr} {next : List Value → Session → Plan f}
    (known : I.scope base scope) (lines : ∀ line ∈ es.flatMap Expr.lines, I.line line)
    (rest : ∀ vs t, I.Leads base t → Meets I.contract (I.Ends base) (next vs t)) :
    ∀ (values : List Value) {s : Session}, I.Leads base s →
      Meets I.contract (I.Ends base) (.operands es scope values s next) := by
  induction es with
  | nil => exact fun values s hs => rest _ _ hs
  | cons e es ih =>
    simp only [List.flatMap_cons, List.forall_mem_append] at lines
    exact fun values s hs => operand hs known lines.1 fun v t ht => ih lines.2 (v :: values) ht

theorem condition {e : Expr} {line : Nat} {next : Bool → Session → Plan f} (hs : I.Leads base s)
    (known : I.scope base scope) (lines : ∀ line ∈ e.lines, I.line line) (hl : I.line line)
    (rest : ∀ b t, I.Leads base t → Meets I.contract (I.Ends base) (next b t)) :
    Meets I.contract (I.Ends base) (.condition e line scope s next) :=
  operand hs known lines fun _ t ht => attempt ht hl fun b => rest b t ht

theorem inner {body : List Stmt} {next : Session → Plan .block} (hs : I.Leads base s)
    (known : I.scope base scope) (lines : ∀ line ∈ body.flatMap Stmt.lines, I.line line)
    (rest : ∀ t, I.Leads base t → Meets I.contract (I.Ends base) (next t)) :
    Meets I.contract (I.Ends base) (.inner body scope s next) := by
  refine after hs (hs.2 _ known) lines fun r t ht hr => ?_
  cases r with
  | normal => exact rest t ht
  | returned value line => exact ok ht hr

theorem outermost {body : List Stmt} {next : Session → Plan f} (hs : I.Leads base s)
    (known : I.scope base Scopes.globals) (lines : ∀ line ∈ body.flatMap Stmt.lines, I.line line)
    (rest : ∀ t, I.Leads base t → Meets I.contract (I.Ends base) (next t)) :
    Meets I.contract (I.Ends base) (.outermost body s next) := by
  refine after hs (hs.2 _ known) lines fun r t ht hr => ?_
  cases r with
  | normal => exact rest t ht
  | returned value line => exact fail ht (hr line rfl)

theorem ofLine {body : List Stmt} (known : I.scope base Scopes.globals)
    (lines : ∀ line ∈ body.flatMap Stmt.lines, I.line line) :
    ∀ (values : List Value) {s : Session}, I.Leads base s →
      Meets I.contract (I.Ends base) (.line body values s) := by
  induction body with
  | nil => exact fun values s hs => okSilent hs rfl
  | cons first rest ih =>
    intro values s hs
    simp only [List.flatMap_cons, List.forall_mem_append] at lines
    obtain ⟨lines, hrest⟩ := lines
    have single : ∀ line ∈ [first].flatMap Stmt.lines, I.line line := by simpa using lines
    cases first
    case expression value line =>
      simp only [Stmt.lines, List.forall_mem_cons] at lines
      exact after hs (hs.2 _ known) lines.2 fun v t ht _ => ih hrest _ ht
    all_goals exact outermost hs known single fun t ht => ih hrest values ht

namespace Kept

variable (hI : I.Kept)
include hI

theorem defineAll {frame : ScopeId} (bindings : List (Param × Value)) :
    ∀ {s : Session}, I.Leads base s → I.scope s frame →
      I.Leads base (s.defineAll frame bindings).2 := by
  induction bindings with
  | nil => exact fun hs _ => hs
  | cons binding rest ih =>
    intro s hs known
    obtain ⟨p, v⟩ := binding
    have hd := hI.define p.name ⟨v, true⟩ hs.1 known
    simp only [Session.defineAll]
    generalize s.define frame p.name ⟨v, true⟩ = x at hd ⊢
    obtain ⟨_ | _, t⟩ := x
    · exact hs.trans hd
    · exact ih (hs.trans hd) (hd.2 _ known)

theorem assign (hs : I.Leads base s) (known : I.scope base scope) (name : String)
    (type : Option TypeTag) (isMutable : Bool) (v : Value) :
    I.Leads base (s.assign scope name type isMutable v).2 := by
  have known' := hs.2 _ known
  cases type with
  | some tag =>
    simp only [Session.assign]
    split
    · exact hs.trans (hI.define name _ hs.1 known')
    · exact hs
  | none =>
    simp only [Session.assign]
    split
    · exact hs.trans (hI.reassign name v hs.1 known')
    · exact hs.trans (hI.define name _ hs.1 known')

theorem enter {h : Function} (hs : I.Leads base s) (known : I.scope s h.closure)
    (lines : ∀ line ∈ h.body.flatMap Stmt.lines, I.line line) (values : List Value) {line : Nat}
    (hl : I.line line) : Meets I.contract (I.Ends base) (.enter h values line s) := by
  obtain ⟨opened, frame⟩ := hI.openScope hs.1 known
  have hd := hI.defineAll (h.params.zip values) (.refl opened.1) frame
  refine attempt ((hs.trans opened).trans hd) hl fun _ => ?_
  exact after ((hs.trans opened).trans hd) (hd.2 _ frame) lines fun _ t ht _ => okSilent ht rfl

theorem call {name : String} {es : List Expr} {line : Nat} (hs : I.session s)
    (known : I.scope s scope) (lines : ∀ line ∈ es.flatMap Expr.lines, I.line line)
    (hl : I.line line) : Meets I.contract (I.Ends s) (.call name es line scope s) := by
  simp only [Plan.call]
  cases hf : s.function? name with
  | none => exact fail (.refl hs) hl
  | some h =>
    obtain ⟨closure, body⟩ := hI.function hs hf
    dsimp only
    split
    · refine operands known lines (fun values t ht => ?_) [] (.refl hs)
      exact hI.enter ht (ht.2 _ closure) body values hl
    · exact fail (.refl hs) hl

theorem expression {e : Expr} (hs : I.session s) (known : I.scope s scope)
    (lines : ∀ line ∈ e.lines, I.line line) :
    Meets I.contract (I.Ends s) (.expression e scope s) := by
  cases e <;>
    simp only [Expr.lines, List.forall_mem_cons, List.forall_mem_append] at lines
  case literal => exact okSilent (.refl hs) rfl
  case var =>
    simp only [Plan.expression]
    split
    · exact okSilent (.refl hs) rfl
    · exact fail (.refl hs) lines.1
  case binary =>
    obtain ⟨hl, hleft, hright⟩ := lines
    refine operand (.refl hs) known hleft fun a t ht => ?_
    refine operand ht known hright fun b t ht => ?_
    exact attempt ht hl fun _ => okSilent ht rfl
  case call => exact hI.call hs known lines.2 lines.1

theorem block {body : List Stmt} (hs : I.session s) (known : I.scope s scope)
    (lines : ∀ line ∈ body.flatMap Stmt.lines, I.line line) :
    Meets I.contract (I.Ends s) (.block body scope s) := by
  cases body with
  | nil => exact okSilent (.refl hs) rfl
  | cons first rest =>
    have whole := lines
    simp only [List.flatMap_cons, List.forall_mem_append] at lines
    obtain ⟨lines, after⟩ := lines
    have become (body : List Stmt) (lines : ∀ line ∈ body.flatMap Stmt.lines, I.line line)
        (t : Session) (ht : I.Leads s t) :
        Meets I.contract (I.Ends s) (.become (.block body scope) t) :=
      .become ht.1 ⟨ht.2 _ known, lines⟩ fun a ha => ⟨fun id hi => ha.1 id (ht.2 id hi), ha.2⟩
    have goOn := become rest after
    have start := Leads.refl hs
    cases first <;>
      simp only [Stmt.lines_branch, Stmt.lines, List.forall_mem_cons,
        List.forall_mem_append] at lines
    case assign name type isMutable value line =>
      refine operand start known lines.2 fun v t ht => ?_
      have ha := hI.assign ht known name type isMutable v
      exact attempt ha lines.1 fun _ => goOn _ ha
    case branch test yes no line =>
      obtain ⟨hl, ⟨htest, hyes⟩, hno⟩ := lines
      refine condition start known htest hl fun holds t ht => ?_
      refine inner ht known ?_ goOn
      cases holds
      · exact hno
      · exact hyes
    case loop test body line =>
      obtain ⟨hl, htest, hbody⟩ := lines
      refine condition start known htest hl fun holds t ht => ?_
      cases holds
      · exact goOn t ht
      · exact inner ht known hbody (become _ whole)
    case function name params returns body line =>
      exact goOn _ (hI.declare name hs known lines.2)
    case leave value line =>
      cases value with
      | none => exact ok start (by rintro _ ⟨⟩; exact lines.1)
      | some e =>
        refine Invariant.after start known lines.2 fun v t ht _ => ?_
        exact ok ht (by rintro _ ⟨⟩; exact lines.1)
    case print value line =>
      refine operand start known lines.2 fun v t ht => ?_
      have hp := ht.trans (hI.print v.text ht.1)
      exact attempt hp lines.1 fun _ => goOn _ hp
    case expression value line =>
      exact Invariant.after start known lines.2 fun _ t ht _ => goOn t ht

theorem fulfilled : I.contract.Fulfilled := by
  intro f task s hs hpre
  obtain ⟨known, lines⟩ := hpre
  cases task with
  | expression e scope => exact hI.expression hs known lines
  | block body scope => exact hI.block hs known lines
  | program body => exact outermost (.refl hs) known lines fun t ht => okSilent ht rfl
  | line body => exact ofLine known lines [] (.refl hs)

end Kept

end Invariant

end Scriptlet
