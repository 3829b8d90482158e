import Scriptlet.Machine.Finishes

namespace Scriptlet

section After

variable {f g : Form} {task : Task g} {s : Session} {next next' : g.Result → Session → Plan f}
  {a : Answer f}

/-- What a task that goes wrong makes of the plan that waits for it: the same error. -/
theorem finishes_after_iff :
    Finishes (Plan.after task s next) a ↔
      (∃ r t, Finishes (.ofTask task s) ⟨.ok r, t⟩ ∧ Finishes (next r t) a) ∨
        ∃ e t, Finishes (.ofTask task s) ⟨.error e, t⟩ ∧ a = ⟨.error e, t⟩ := by
  constructor
  · intro h
    cases h with
    | @await _ _ _ _ _ b _ awaited more =>
      obtain ⟨e | r, t⟩ := b
      · cases more
        exact .inr ⟨e, t, awaited, rfl⟩
      · exact .inl ⟨r, t, awaited, more⟩
  · intro h
    rcases h with ⟨r, t, awaited, more⟩ | ⟨e, t, awaited, rfl⟩
    · exact .await awaited more
    · exact .await awaited (.finish _)

/-- Plans that wait for the same task finish alike if they go on alike. -/
theorem finishes_after_congr
    (h : ∀ r t, Finishes (next r t) a ↔ Finishes (next' r t) a) :
    Finishes (Plan.after task s next) a ↔ Finishes (Plan.after task s next') a := by
  rw [finishes_after_iff, finishes_after_iff]
  simp only [h]

end After

/-- The session in which the statements behind a block go on, if they do. -/
def Answer.goesOn? : {f : Form} → Answer f → Option Session
  | .block, ⟨.ok .normal, s⟩ => some s
  | _, _ => none

section Extended

variable {q : List Stmt} {scope : ScopeId} {s : Session} {g : Form} {α : Type}

/-- The second plan does what the first one does and then runs `q`. -/
inductive Extended (q : List Stmt) (scope : ScopeId) : {f : Form} → Plan f → Plan f → Prop where
  | stop {f : Form} {a : Answer f} (h : a.goesOn? = none) :
      Extended q scope (.finish a) (.finish a)
  | goOn {s : Session} {p' : Plan .block} (h : p' = Plan.block q scope s) :
      Extended q scope (.finish ⟨.ok Completion.normal, s⟩) p'
  | await {f g : Form} {task : Task g} {s : Session} {next next' : Answer g → Plan f}
      (rest : ∀ a, Extended q scope (next a) (next' a)) :
      Extended q scope (.await task s next) (.await task s next')
  | become {body : List Stmt} {s : Session} :
      Extended q scope (.become (.block body scope) s) (.become (.block (body ++ q) scope) s)

namespace Extended

theorem after {task : Task g} {next next' : g.Result → Session → Plan .block}
    (h : ∀ r s, Extended q scope (next r s) (next' r s)) :
    Extended q scope (Plan.after task s next) (Plan.after task s next') := by
  refine .await fun a => ?_
  obtain ⟨e | r, s⟩ := a
  · exact .stop rfl
  · exact h r s

theorem attempt {line : Nat} {step : Except Fault α × Session}
    {next next' : α → Session → Plan .block} (h : ∀ a s, Extended q scope (next a s) (next' a s)) :
    Extended q scope (Plan.attempt line step next) (Plan.attempt line step next') := by
  obtain ⟨fault | a, s⟩ := step
  · exact .stop rfl
  · exact h a s

theorem operand {e : Expr} {id : ScopeId} {next next' : Value → Session → Plan .block}
    (h : ∀ v s, Extended q scope (next v s) (next' v s)) :
    Extended q scope (Plan.operand e id s next) (Plan.operand e id s next') := by
  refine after fun r s => ?_
  cases r with
  | none => exact .stop rfl
  | some v => exact h v s

theorem condition {e : Expr} {line : Nat} {id : ScopeId} {next next' : Bool → Session → Plan .block}
    (h : ∀ b s, Extended q scope (next b s) (next' b s)) :
    Extended q scope (Plan.condition e line id s next) (Plan.condition e line id s next') :=
  operand fun _ _ => attempt h

theorem inner {body : List Stmt} {id : ScopeId} {next next' : Session → Plan .block}
    (h : ∀ s, Extended q scope (next s) (next' s)) :
    Extended q scope (Plan.inner body id s next) (Plan.inner body id s next') := by
  refine after fun r s => ?_
  cases r with
  | normal => exact h s
  | returned => exact .stop rfl

/-- One case for each form of the first statement. -/
theorem block (p : List Stmt) (s : Session) :
    Extended q scope (Plan.block p scope s) (Plan.block (p ++ q) scope s) := by
  cases p with
  | nil => exact .goOn rfl
  | cons first rest =>
    cases first with
    | assign => exact operand fun _ _ => attempt fun _ _ => .become
    | branch => exact condition fun _ _ => inner fun _ => .become
    | loop test body line =>
      refine condition fun holds s => ?_
      cases holds with
      | false => exact .become
      | true => exact inner fun _ => @become q scope (.loop test body line :: rest) _
    | function => exact .become
    | leave value =>
      cases value with
      | none => exact .stop rfl
      | some => exact after fun _ _ => .stop rfl
    | print => exact operand fun _ _ => attempt fun _ _ => .become
    | expression => exact after fun _ _ => .become

end Extended

/-- The second answer is the first one, or that of `q` if `q` is reached. -/
inductive Continued (q : List Stmt) (scope : ScopeId) :
    {f : Form} → Answer f → Answer f → Prop where
  | stop {f : Form} {a : Answer f} (h : a.goesOn? = none) : Continued q scope a a
  | goOn {s : Session} {a : Answer .block} (h : Finishes (Plan.block q scope s) a) :
      Continued q scope (⟨.ok Completion.normal, s⟩ : Answer .block) a

theorem Extended.finishes {f : Form} {p p' : Plan f} {a' : Answer f} (hp : Extended q scope p p')
    (h : Finishes p' a') : ∃ a, Finishes p a ∧ Continued q scope a a' := by
  have reached {s : Session} {p' : Plan .block} {a' : Answer .block}
      (hp : p' = Plan.block q scope s) (h : Finishes p' a') :
      ∃ a, Finishes (.finish ⟨.ok Completion.normal, s⟩) a ∧ Continued q scope a a' := by
    subst hp
    exact ⟨_, .finish _, .goOn h⟩
  induction h with
  | finish a =>
    cases hp with
    | stop h => exact ⟨a, .finish a, .stop h⟩
    | goOn hp => exact reached hp (.finish a)
  | await awaited rest _ ih =>
    cases hp with
    | goOn hp => exact reached hp (.await awaited rest)
    | await hrest =>
      obtain ⟨a, ha, hc⟩ := ih (hrest _)
      exact ⟨a, .await awaited ha, hc⟩
  | become h ih =>
    cases hp with
    | goOn hp => exact reached hp (.become h)
    | become =>
      obtain ⟨a, ha, hc⟩ := ih (Extended.block _ _)
      exact ⟨a, .become ha, hc⟩

theorem Extended.finishes_of_continued {f : Form} {p p' : Plan f} {a a' : Answer f}
    (hp : Extended q scope p p') (h : Finishes p a) (hc : Continued q scope a a') :
    Finishes p' a' := by
  induction h with
  | finish a =>
    cases hp with
    | stop h =>
      cases hc with
      | stop _ => exact .finish a
      | goOn _ => simp [Answer.goesOn?] at h
    | goOn hp =>
      cases hc with
      | stop h => simp [Answer.goesOn?] at h
      | goOn h => exact hp ▸ h
  | await awaited rest _ ih =>
    cases hp with
    | await hrest => exact .await awaited (ih (hrest _) hc)
  | become h ih =>
    cases hp with
    | become => exact .become (ih (Extended.block _ _) hc)

end Extended

section Programs

variable {p q body : List Stmt} {s t : Session} {a : Answer .program} {b : Answer .block}

/-- What the answer of its statements makes the answer of a program. -/
def Answer.toProgram : Answer .block → Answer .program
  | ⟨.ok .normal, s⟩ => ⟨.ok (), s⟩
  | ⟨.ok (.returned _ line), s⟩ => ⟨.error ⟨.returnOutsideFunction, line⟩, s⟩
  | ⟨.error e, s⟩ => ⟨.error e, s⟩

theorem finishes_program_iff :
    Finishes (Plan.program body s) a ↔
      ∃ b, Finishes (Plan.block body Scopes.globals s) b ∧ a = b.toProgram := by
  constructor
  · intro h
    cases h with
    | @await _ _ _ _ _ b _ awaited rest =>
      refine ⟨b, awaited, ?_⟩
      obtain ⟨_ | _ | _, _⟩ := b <;> cases rest <;> rfl
  · rintro ⟨b, hb, rfl⟩
    refine .await hb ?_
    obtain ⟨_ | _ | _, _⟩ := b <;> exact .finish _

theorem Answer.toProgram_eq_ok : b.toProgram = ⟨.ok (), t⟩ ↔ b = ⟨.ok Completion.normal, t⟩ := by
  obtain ⟨_ | _ | _, _⟩ := b <;> simp [toProgram]

theorem Answer.goesOn?_eq_none : b.goesOn? = none ↔ ∃ e, b.toProgram.outcome = .error e := by
  obtain ⟨_ | _ | _, _⟩ := b <;> simp [toProgram, goesOn?]

/-- A program of two parts runs the first, and the second only if the first succeeds. -/
theorem finishes_program_append :
    Finishes (Plan.program (p ++ q) s) a ↔
      (∃ t, Finishes (Plan.program p s) ⟨.ok (), t⟩ ∧ Finishes (Plan.program q t) a) ∨
        (∃ e, a.outcome = .error e) ∧ Finishes (Plan.program p s) a := by
  constructor
  · intro h
    obtain ⟨b', hb', rfl⟩ := finishes_program_iff.1 h
    obtain ⟨b, hb, hc⟩ := (Extended.block p s).finishes hb'
    cases hc with
    | stop hstop =>
      exact .inr ⟨Answer.goesOn?_eq_none.1 hstop, finishes_program_iff.2 ⟨_, hb, rfl⟩⟩
    | @goOn t _ hq =>
      exact .inl ⟨t, finishes_program_iff.2 ⟨_, hb, rfl⟩, finishes_program_iff.2 ⟨_, hq, rfl⟩⟩
  · rintro (⟨t, hp, hq⟩ | ⟨he, hp⟩)
    · obtain ⟨b, hb, hok⟩ := finishes_program_iff.1 hp
      obtain rfl := Answer.toProgram_eq_ok.1 hok.symm
      obtain ⟨b', hb', rfl⟩ := finishes_program_iff.1 hq
      exact finishes_program_iff.2
        ⟨b', (Extended.block p s).finishes_of_continued hb (.goOn hb'), rfl⟩
    · obtain ⟨b, hb, rfl⟩ := finishes_program_iff.1 hp
      have hstop := Answer.goesOn?_eq_none.2 he
      exact finishes_program_iff.2
        ⟨b, (Extended.block p s).finishes_of_continued hb (.stop hstop), rfl⟩

end Programs

end Scriptlet
