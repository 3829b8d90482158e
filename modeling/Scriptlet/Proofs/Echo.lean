import Scriptlet.Proofs.Piecewise

namespace Scriptlet

section Plans

variable {f : Form} {body rest : List Stmt} {first : Stmt} {s : Session}

theorem Answer.toProgram_eq_error {b : Answer .block} {e : RuntimeError} {t : Session} :
    b.toProgram = ⟨.error e, t⟩ ↔
      b = ⟨.error e, t⟩ ∨
        ∃ value line, b = ⟨.ok (.returned value line), t⟩ ∧ e = ⟨.returnOutsideFunction, line⟩ := by
  obtain ⟨_ | _ | ⟨value, line⟩, _⟩ := b
  · simp [toProgram]
  · simp [toProgram]
  · constructor
    · intro h
      obtain ⟨he, rfl⟩ := Answer.mk.inj h
      exact .inr ⟨value, line, rfl, (Except.error.inj he).symm⟩
    · intro h
      rcases h with h | ⟨_, _, h, rfl⟩
      · cases h
      · cases h
        rfl

/-- Statements outside of any function are followed by others as a program is. -/
theorem finishes_outermost_iff {next : Session → Plan f} {a : Answer f} :
    Finishes (Plan.outermost body s next) a ↔
      (∃ t, Finishes (Plan.program body s) ⟨.ok (), t⟩ ∧ Finishes (next t) a) ∨
        ∃ e t, Finishes (Plan.program body s) ⟨.error e, t⟩ ∧ a = ⟨.error e, t⟩ := by
  constructor
  · intro h
    rcases finishes_after_iff.1 h with ⟨completion, t, hb, more⟩ | ⟨e, t, hb, rfl⟩
    · cases completion with
      | normal => exact .inl ⟨t, finishes_program_iff.2 ⟨_, hb, rfl⟩, more⟩
      | returned value line =>
        cases more
        exact .inr ⟨_, t, finishes_program_iff.2 ⟨_, hb, rfl⟩, rfl⟩
    · exact .inr ⟨e, t, finishes_program_iff.2 ⟨_, hb, rfl⟩, rfl⟩
  · intro h
    rcases h with ⟨t, hp, more⟩ | ⟨e, t, hp, rfl⟩
    · obtain ⟨b, hb, hok⟩ := finishes_program_iff.1 hp
      obtain rfl := Answer.toProgram_eq_ok.1 hok.symm
      exact .await hb more
    · obtain ⟨b, hb, he⟩ := finishes_program_iff.1 hp
      rcases Answer.toProgram_eq_error.1 he.symm with rfl | ⟨value, line, rfl, rfl⟩
      · exact finishes_after_iff.2 (.inr ⟨e, t, hb, rfl⟩)
      · exact finishes_after_iff.2 (.inl ⟨.returned value line, t, hb, .finish _⟩)

/-- An expression that stands alone is evaluated, and its value is dropped. -/
theorem finishes_program_expression {e : Expr} {line : Nat} {a : Answer .program} :
    Finishes (Plan.program [.expression e line] s) a ↔
      (∃ v t, Finishes (Plan.expression e Scopes.globals s) ⟨.ok v, t⟩ ∧ a = ⟨.ok (), t⟩) ∨
        ∃ err t, Finishes (Plan.expression e Scopes.globals s) ⟨.error err, t⟩ ∧
          a = ⟨.error err, t⟩ := by
  constructor
  · intro h
    obtain ⟨b, hb, rfl⟩ := finishes_program_iff.1 h
    rcases finishes_after_iff.1 hb with ⟨v, t, hv, more⟩ | ⟨err, t, hv, rfl⟩
    · cases more with
      | become done =>
        cases done
        exact .inl ⟨v, t, hv, rfl⟩
    · exact .inr ⟨err, t, hv, rfl⟩
  · intro h
    apply finishes_program_iff.2
    rcases h with ⟨v, t, hv, rfl⟩ | ⟨err, t, hv, rfl⟩
    · refine ⟨⟨.ok .normal, t⟩, ?_, rfl⟩
      exact finishes_after_iff.2 (.inl ⟨v, t, hv, .become (.finish _)⟩)
    · refine ⟨⟨.error err, t⟩, ?_, rfl⟩
      exact finishes_after_iff.2 (.inr ⟨err, t, hv, rfl⟩)

end Plans

namespace Session

/-- A statement of the global scope that runs to its end, and the value of the call if it is one
that stands alone and has a value. -/
inductive Shows (s : Session) : Stmt → List Value → Session → Prop where
  | call {fuel line : Nat} {e : Expr} {v : Option Value} {t : Session}
      (value : s.eval fuel e = some ⟨.ok v, t⟩) : Shows s (.expression e line) v.toList t
  | silent {fuel : Nat} {stmt : Stmt} {t : Session} (other : ∀ e line, stmt ≠ .expression e line)
      (run : s.execute fuel [stmt] = some ⟨.ok (), t⟩) : Shows s stmt [] t

/-- Statements of the global scope one after the other, and the values of the calls among them. -/
inductive ShowsAll : Session → List Stmt → List Value → Session → Prop where
  | nil {s : Session} : ShowsAll s [] [] s
  | cons {s t u : Session} {stmt : Stmt} {rest : List Stmt} {values more : List Value}
      (head : Shows s stmt values t) (tail : ShowsAll t rest more u) :
      ShowsAll s (stmt :: rest) (values ++ more) u

variable {s t u : Session} {body rest : List Stmt} {stmt : Stmt} {values shown : List Value}

theorem shows_expression_iff {e : Expr} {line : Nat} :
    Shows s (.expression e line) values t ↔
      ∃ v, Finishes (Plan.expression e Scopes.globals s) ⟨.ok v, t⟩ ∧ values = v.toList := by
  constructor
  · intro h
    cases h with
    | call value => exact ⟨_, finishes_of_complete value, rfl⟩
    | silent other _ => exact (other e line rfl).elim
  · intro h
    obtain ⟨v, hv, rfl⟩ := h
    have hf : ∃ fuel, s.eval fuel e = some ⟨.ok v, t⟩ := complete_eq_some_iff.2 hv
    obtain ⟨fuel, hf⟩ := hf
    exact .call hf

theorem shows_silent_iff (other : ∀ e line, stmt ≠ .expression e line) :
    Shows s stmt values t ↔ Finishes (Plan.program [stmt] s) ⟨.ok (), t⟩ ∧ values = [] := by
  constructor
  · intro h
    cases h with
    | call => exact (other _ _ rfl).elim
    | silent _ run => exact ⟨finishes_of_complete run, rfl⟩
  · intro h
    obtain ⟨hp, rfl⟩ := h
    have hf : ∃ fuel, s.execute fuel [stmt] = some ⟨.ok (), t⟩ := complete_eq_some_iff.2 hp
    obtain ⟨fuel, hf⟩ := hf
    exact .silent other hf

/-- A statement shows one value at most. -/
theorem Shows.reverse (h : Shows s stmt values t) : values.reverse = values := by
  cases h with
  | @call _ _ _ v => cases v <;> simp
  | silent => simp

/-- A program of one statement succeeds exactly if the statement shows something, be it nothing. -/
theorem finishes_program_single :
    Finishes (Plan.program [stmt] s) ⟨.ok (), t⟩ ↔ ∃ values, Shows s stmt values t := by
  by_cases hs : ∃ e line, stmt = .expression e line
  · obtain ⟨e, line, rfl⟩ := hs
    rw [finishes_program_expression]
    constructor
    · intro h
      rcases h with ⟨v, _, hv, heq⟩ | ⟨_, _, _, heq⟩
      · obtain ⟨_, rfl⟩ := Answer.mk.inj heq
        exact ⟨_, shows_expression_iff.2 ⟨v, hv, rfl⟩⟩
      · cases heq
    · intro h
      obtain ⟨values, h⟩ := h
      obtain ⟨v, hv, _⟩ := shows_expression_iff.1 h
      exact .inl ⟨v, t, hv, rfl⟩
  · have other : ∀ e line, stmt ≠ .expression e line := fun e line he => hs ⟨e, line, he⟩
    constructor
    · intro h
      exact ⟨[], (shows_silent_iff other).2 ⟨h, rfl⟩⟩
    · intro h
      obtain ⟨values, h⟩ := h
      exact ((shows_silent_iff other).1 h).1

/-- One step of a line: the first statement shows its values and the others go on, or it fails as it
does in a program. -/
theorem finishes_line_cons {a : Answer .line} :
    Finishes (Plan.line (stmt :: rest) shown s) a ↔
      (∃ values t, Shows s stmt values t ∧ Finishes (Plan.line rest (values ++ shown) t) a) ∨
        ∃ e t, Finishes (Plan.program [stmt] s) ⟨.error e, t⟩ ∧ a = ⟨.error e, t⟩ := by
  by_cases hs : ∃ e line, stmt = .expression e line
  · obtain ⟨e, line, rfl⟩ := hs
    rw [Plan.line, finishes_after_iff]
    constructor
    · intro h
      rcases h with ⟨v, t, hv, more⟩ | ⟨err, t, hv, rfl⟩
      · exact .inl ⟨_, t, shows_expression_iff.2 ⟨v, hv, rfl⟩, more⟩
      · exact .inr ⟨err, t, finishes_program_expression.2 (.inr ⟨err, t, hv, rfl⟩), rfl⟩
    · intro h
      rcases h with ⟨values, t, hshow, more⟩ | ⟨err, t, hp, rfl⟩
      · obtain ⟨v, hv, rfl⟩ := shows_expression_iff.1 hshow
        exact .inl ⟨v, t, hv, more⟩
      · rcases finishes_program_expression.1 hp with ⟨_, _, _, heq⟩ | ⟨err', _, hv, heq⟩
        · cases heq
        · obtain ⟨he, rfl⟩ := Answer.mk.inj heq
          obtain rfl := Except.error.inj he
          exact .inr ⟨err, t, hv, rfl⟩
  · have other : ∀ e line, stmt ≠ .expression e line := fun e line he => hs ⟨e, line, he⟩
    rw [Plan.line.eq_3 _ _ _ _ other, finishes_outermost_iff]
    constructor
    · intro h
      rcases h with ⟨t, hp, more⟩ | hfail
      · exact .inl ⟨[], t, (shows_silent_iff other).2 ⟨hp, rfl⟩, more⟩
      · exact .inr hfail
    · intro h
      rcases h with ⟨values, t, hshow, more⟩ | hfail
      · obtain ⟨hp, rfl⟩ := (shows_silent_iff other).1 hshow
        exact .inl ⟨t, hp, more⟩
      · exact .inr hfail

/-- A line and a program of the same statements end in the same session and with the same error. -/
inductive SameEnd : Answer .program → Answer .line → Prop where
  | ok {t : Session} {values : List Value} : SameEnd ⟨.ok (), t⟩ ⟨.ok values, t⟩
  | error {e : RuntimeError} {t : Session} : SameEnd ⟨.error e, t⟩ ⟨.error e, t⟩

/-- By induction on the statements: a line goes with the program statement by statement, and ends
with the values shown so far and those that follow. -/
theorem finishes_program_of_line {a : Answer .line} (h : Finishes (Plan.line body shown s) a) :
    ∃ b, Finishes (Plan.program body s) b ∧ SameEnd b a ∧
      ∀ values, a.outcome = .ok values →
        ∃ more, ShowsAll s body more a.session ∧ values = shown.reverse ++ more := by
  induction body generalizing s shown with
  | nil =>
    cases h
    refine ⟨⟨.ok (), s⟩, finishes_program_iff.2 ⟨_, .finish _, rfl⟩, .ok, ?_⟩
    intro values hv
    obtain rfl := Except.ok.inj hv
    exact ⟨[], .nil, by simp⟩
  | cons stmt rest ih =>
    rcases finishes_line_cons.1 h with ⟨vs, t, hshow, hrest⟩ | ⟨e, t, hfail, rfl⟩
    · obtain ⟨b, hb, hsame, hvalues⟩ := ih hrest
      have hfirst : Finishes (Plan.program [stmt] s) ⟨.ok (), t⟩ :=
        finishes_program_single.2 ⟨vs, hshow⟩
      have hboth : Finishes (Plan.program ([stmt] ++ rest) s) b :=
        finishes_program_append.2 (.inl ⟨t, hfirst, hb⟩)
      refine ⟨b, hboth, hsame, ?_⟩
      intro values hv
      obtain ⟨more, hmore, rfl⟩ := hvalues values hv
      refine ⟨vs ++ more, .cons hshow hmore, ?_⟩
      rw [List.reverse_append, hshow.reverse, List.append_assoc]
    · have hboth : Finishes (Plan.program ([stmt] ++ rest) s) ⟨.error e, t⟩ :=
        finishes_program_append.2 (.inr ⟨⟨e, rfl⟩, hfail⟩)
      refine ⟨⟨.error e, t⟩, hboth, .error, ?_⟩
      intro values hv
      cases hv

theorem finishes_line_of_program {b : Answer .program} (h : Finishes (Plan.program body s) b)
    (shown : List Value) : ∃ a, Finishes (Plan.line body shown s) a := by
  induction body generalizing s shown with
  | nil => exact ⟨_, .finish _⟩
  | cons stmt rest ih =>
    have hboth : Finishes (Plan.program ([stmt] ++ rest) s) b := h
    rcases finishes_program_append.1 hboth with ⟨t, hfirst, hrest⟩ | ⟨⟨e, he⟩, hfail⟩
    · obtain ⟨vs, hshow⟩ := finishes_program_single.1 hfirst
      obtain ⟨a, ha⟩ := ih hrest (vs ++ shown)
      exact ⟨a, finishes_line_cons.2 (.inl ⟨vs, t, hshow, ha⟩)⟩
    · obtain ⟨outcome, t⟩ := b
      obtain rfl : outcome = .error e := he
      exact ⟨_, finishes_line_cons.2 (.inr ⟨e, t, hfail, rfl⟩)⟩

/-- What a line answers to a request to evaluate it. -/
def echo : Answer .line → Except Error (List Value) × Session
  | ⟨.ok values, s⟩ => (.ok values, s)
  | ⟨.error e, s⟩ => (.error (.runtime e), s)

theorem evalLine_eq_some_iff {text : String} (h : Stmt.ofText text = .ok body)
    {y : Except Error (List Value) × Session} :
    (∃ fuel, s.evalLine fuel text = some y) ↔
      ∃ a, Finishes (Plan.line body [] s) a ∧ echo a = y := by
  have hmap (fuel : Nat) : s.evalLine fuel text = (s.complete fuel (.line body)).map echo := by
    simp only [evalLine, completeText, h]
    congr 1
    funext a
    obtain ⟨_ | _, _⟩ := a <;> rfl
  constructor
  · intro hy
    obtain ⟨fuel, hy⟩ := hy
    rw [hmap, Option.map_eq_some_iff] at hy
    obtain ⟨a, ha, rfl⟩ := hy
    exact ⟨a, finishes_of_complete ha, rfl⟩
  · intro hy
    obtain ⟨a, ha, rfl⟩ := hy
    have hf : ∃ fuel, s.complete fuel (.line body) = some a := complete_eq_some_iff.2 ha
    obtain ⟨fuel, hf⟩ := hf
    exact ⟨fuel, by rw [hmap, hf, Option.map_some]⟩

theorem completeText_unreadable {f : Form} {task : List Stmt → Task f} {text : String} {e : Error}
    (h : Stmt.ofText text = .error e) (fuel : Nat) :
    s.completeText fuel task text = some (.error e, s) := by
  simp only [completeText, h]

/-- Evaluating a text as a line does what running it does. A text that cannot be read changes
nothing either way. Otherwise one comes to an end exactly if the other does, and then they leave
the same session, fail with the same error or both succeed, and the line gives the values of the
calls that stand alone, in order. -/
theorem evalLine_agrees_with_run (s : Session) (text : String) :
    (∀ e, Stmt.ofText text = .error e → ∀ fuel,
      s.run fuel text = some (.error e, s) ∧ s.evalLine fuel text = some (.error e, s)) ∧
    ((∃ fuel x, s.run fuel text = some x) ↔ ∃ fuel y, s.evalLine fuel text = some y) ∧
    ∀ fuel fuel' x t y u, s.run fuel text = some (x, t) → s.evalLine fuel' text = some (y, u) →
      t = u ∧ (∀ e, x = .error e ↔ y = .error e) ∧
        ∀ values, y = .ok values →
          ∃ body, Stmt.ofText text = .ok body ∧ ShowsAll s body values t := by
  cases htext : Stmt.ofText text with
  | error e =>
    have hrun (fuel : Nat) : s.run fuel text = some (.error e, s) :=
      completeText_unreadable htext fuel
    have hline (fuel : Nat) : s.evalLine fuel text = some (.error e, s) :=
      completeText_unreadable htext fuel
    refine ⟨?_, ?_, ?_⟩
    · intro e' he fuel
      obtain rfl := Except.error.inj he
      exact ⟨hrun fuel, hline fuel⟩
    · exact ⟨fun _ => ⟨0, _, hline 0⟩, fun _ => ⟨0, _, hrun 0⟩⟩
    · intro fuel fuel' x t y u hx hy
      rw [hrun] at hx
      rw [hline] at hy
      obtain ⟨rfl, rfl⟩ := Prod.mk.inj (Option.some.inj hx)
      obtain ⟨rfl, rfl⟩ := Prod.mk.inj (Option.some.inj hy)
      simp
  | ok body =>
    refine ⟨by simp, ?_, ?_⟩
    · constructor
      · intro h
        obtain ⟨fuel, x, hx⟩ := h
        obtain ⟨b, hb, _⟩ := (run_eq_some_iff htext).1 ⟨fuel, hx⟩
        obtain ⟨a, ha⟩ := finishes_line_of_program hb []
        obtain ⟨fuel', hy⟩ := (evalLine_eq_some_iff htext).2 ⟨a, ha, rfl⟩
        exact ⟨fuel', _, hy⟩
      · intro h
        obtain ⟨fuel, y, hy⟩ := h
        obtain ⟨a, ha, _⟩ := (evalLine_eq_some_iff htext).1 ⟨fuel, hy⟩
        obtain ⟨b, hb, _⟩ := finishes_program_of_line ha
        obtain ⟨fuel', hx⟩ := (run_eq_some_iff htext).2 ⟨b, hb, rfl⟩
        exact ⟨fuel', _, hx⟩
    · intro fuel fuel' x t y u hx hy
      obtain ⟨b, hb, hxt⟩ := (run_eq_some_iff htext).1 ⟨fuel, hx⟩
      obtain ⟨a, ha, hyu⟩ := (evalLine_eq_some_iff htext).1 ⟨fuel', hy⟩
      obtain ⟨b', hb', hsame, hvalues⟩ := finishes_program_of_line ha
      obtain rfl := hb.unique hb'
      cases hsame with
      | ok =>
        obtain ⟨rfl, rfl⟩ := Prod.mk.inj hxt
        obtain ⟨rfl, rfl⟩ := Prod.mk.inj hyu
        refine ⟨rfl, by simp, ?_⟩
        intro values hv
        obtain rfl := Except.ok.inj hv
        obtain ⟨more, hmore, hm⟩ := hvalues _ rfl
        rw [List.reverse_nil, List.nil_append] at hm
        exact ⟨body, rfl, hm ▸ hmore⟩
      | error =>
        obtain ⟨rfl, rfl⟩ := Prod.mk.inj hxt
        obtain ⟨rfl, rfl⟩ := Prod.mk.inj hyu
        simp

theorem exists_of_toOption {α : Type} {x : Option (Except Error α × Session)} {a : α}
    (h : x.bind (·.1.toOption) = some a) : ∃ t, x = some (.ok a, t) := by
  rcases x with _ | ⟨e | b, t⟩
  · cases h
  · cases h
  · obtain rfl := Option.some.inj h
    exact ⟨t, rfl⟩

/-- For one, where a call without a value stands between two that have one, and for another, where
the text is not a program. -/
theorem evalLine_agrees_with_run_calls :
    (∃ t, run 99 "fn a(n: i32) \x7b if n > 1 \x7b return n \x7d \x7d\na(2)\na(1)\na(3)" {} =
        some (.ok (), t) ∧
      evalLine 99 "fn a(n: i32) \x7b if n > 1 \x7b return n \x7d \x7d\na(2)\na(1)\na(3)" {} =
        some (.ok [.int 2, .int 3], t)) ∧
    ∃ e, run 99 "x = 1\nx + 1" {} = some (.error e, {}) ∧
      evalLine 99 "x = 1\nx + 1" {} = some (.error e, {}) := by
  constructor
  · obtain ⟨t, ht⟩ := exists_of_toOption (x := run 99
      "fn a(n: i32) \x7b if n > 1 \x7b return n \x7d \x7d\na(2)\na(1)\na(3)" {}) (a := ())
      (by decide +kernel)
    obtain ⟨u, hu⟩ := exists_of_toOption (x := evalLine 99
      "fn a(n: i32) \x7b if n > 1 \x7b return n \x7d \x7d\na(2)\na(1)\na(3)" {})
      (a := [.int 2, .int 3]) (by decide +kernel)
    obtain rfl := ((evalLine_agrees_with_run {} _).2.2 99 99 _ t _ u ht hu).1
    exact ⟨t, ht, hu⟩
  · have hread : (Stmt.ofText "x = 1\nx + 1").toOption.isNone := by decide +kernel
    cases htext : Stmt.ofText "x = 1\nx + 1" with
    | error e => exact ⟨e, (evalLine_agrees_with_run {} _).1 e htext 99⟩
    | ok body => simp [htext, Except.toOption] at hread

end Session

end Scriptlet
