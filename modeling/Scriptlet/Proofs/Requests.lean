import Mathlib.Logic.Relation
import Scriptlet.Interpreter
import Scriptlet.Proofs.Lockstep

namespace Scriptlet.Session

variable {s t : Session} {f : Form}

/-- A request that comes to an end, whether it succeeds or fails: the session before it and the
session after it. Blocks and expressions may stand in any scope of the session. -/
inductive Step : Session → Session → Prop where
  | run {s t : Session} {fuel : Nat} {text : String} {outcome : Except Error Unit}
      (h : s.run fuel text = some (outcome, t)) : Step s t
  | evalLine {s t : Session} {fuel : Nat} {text : String} {outcome : Except Error (List Value)}
      (h : s.evalLine fuel text = some (outcome, t)) : Step s t
  | execute {s : Session} {fuel : Nat} {body : List Stmt} {answer : Answer .program}
      (h : s.execute fuel body = some answer) : Step s answer.session
  | executeBlock {s : Session} {scope : ScopeId} {fuel : Nat} {body : List Stmt}
      {answer : Answer .block} (known : scope < s.scopes.fresh)
      (h : s.executeBlockIn scope fuel body = some answer) : Step s answer.session
  | eval {s : Session} {scope : ScopeId} {fuel : Nat} {e : Expr} {answer : Answer .expression}
      (known : scope < s.scopes.fresh) (h : s.evalIn scope fuel e = some answer) :
      Step s answer.session
  | evalOperand {s t : Session} {scope : ScopeId} {fuel : Nat} {e : Expr}
      {outcome : Except RuntimeError Value} (known : scope < s.scopes.fresh)
      (h : s.evalOperandIn scope fuel e = some (outcome, t)) : Step s t

/-- Requests one after another. -/
abbrev Steps : Session → Session → Prop :=
  Relation.ReflTransGen Step

theorem complete_eq_some_iff {task : Task f} {a : Answer f} :
    (∃ fuel, s.complete fuel task = some a) ↔ Finishes (.ofTask task s) a :=
  Machine.run_start_eq_some_iff

theorem executeBlockIn_eq_some_iff {body : List Stmt} {scope : ScopeId} {a : Answer .block} :
    (∃ fuel, s.executeBlockIn scope fuel body = some a) ↔
      Finishes (Plan.block body scope s) a :=
  complete_eq_some_iff

theorem evalIn_eq_some_iff {e : Expr} {scope : ScopeId} {a : Answer .expression} :
    (∃ fuel, s.evalIn scope fuel e = some a) ↔ Finishes (Plan.expression e scope s) a :=
  complete_eq_some_iff

theorem evalOperandIn_eq_ok_iff {e : Expr} {scope : ScopeId} {v : Value} :
    (∃ fuel, s.evalOperandIn scope fuel e = some (.ok v, t)) ↔
      Finishes (Plan.expression e scope s) ⟨.ok (some v), t⟩ := by
  rw [← evalIn_eq_some_iff]
  constructor
  · intro h
    obtain ⟨fuel, h⟩ := h
    obtain ⟨⟨_ | _ | w, u⟩, ha, he⟩ := Option.map_eq_some_iff.mp h
    · cases he
    · cases he
    · cases he
      exact ⟨fuel, ha⟩
  · intro h
    obtain ⟨fuel, h⟩ := h
    exact ⟨fuel, by rw [evalOperandIn, h]; rfl⟩

theorem evalOperandIn_eq_error_iff {e : Expr} {scope : ScopeId} {error : RuntimeError} :
    (∃ fuel, s.evalOperandIn scope fuel e = some (.error error, t)) ↔
      Finishes (Plan.expression e scope s) ⟨.error error, t⟩ ∨
        Finishes (Plan.expression e scope s) ⟨.ok none, t⟩ ∧ error = ⟨.missingValue, e.line⟩ := by
  rw [← evalIn_eq_some_iff, ← evalIn_eq_some_iff]
  constructor
  · intro h
    obtain ⟨fuel, h⟩ := h
    obtain ⟨⟨_ | _ | v, w⟩, ha, he⟩ := Option.map_eq_some_iff.mp h
    · cases he
      exact .inl ⟨fuel, ha⟩
    · cases he
      exact .inr ⟨⟨fuel, ha⟩, rfl⟩
    · cases he
  · intro h
    rcases h with ⟨fuel, h⟩ | ⟨⟨fuel, h⟩, rfl⟩
    · exact ⟨fuel, by rw [evalOperandIn, h]; rfl⟩
    · exact ⟨fuel, by rw [evalOperandIn, h]; rfl⟩

theorem finishes_of_complete {fuel : Nat} {task : Task f} {a : Answer f}
    (h : s.complete fuel task = some a) : Finishes (.ofTask task s) a :=
  complete_eq_some_iff.mp ⟨fuel, h⟩

/-- More steps than needed change nothing. -/
theorem complete_mono {fuel more : Nat} {task : Task f} {a : Answer f} (hm : fuel ≤ more)
    (h : s.complete fuel task = some a) : s.complete more task = some a := by
  obtain ⟨extra, rfl⟩ := Nat.exists_eq_add_of_le hm
  unfold complete Machine.run at h ⊢
  rw [Machine.advance_add]
  cases hd : (Machine.start task s).advance fuel with
  | running m => simp [hd] at h
  | done b => simpa [hd] using h

/-- A text either cannot be read, and then nothing changes, or a task is made of it. -/
theorem completeText_cases {fuel : Nat} {task : List Stmt → Task f} {text : String}
    {outcome : Except Error f.Result} (h : s.completeText fuel task text = some (outcome, t)) :
    t = s ∨ ∃ body a, Finishes (.ofTask (task body) s) a ∧ a.session = t := by
  simp only [completeText] at h
  split at h
  · simp only [Option.some.injEq, Prod.mk.injEq] at h
    exact .inl h.2.symm
  · rename_i body _
    obtain ⟨a, ha, he⟩ := Option.map_eq_some_iff.mp h
    simp only [Prod.mk.injEq] at he
    exact .inr ⟨body, a, finishes_of_complete ha, he.2⟩

/-- What a step can do to a session: nothing, or what one task does to it. -/
theorem Step.cases (h : Step s t) :
    t = s ∨ ∃ (f : Form) (task : Task f) (a : Answer f),
      (task.scope = Scopes.globals ∨ task.scope < s.scopes.fresh) ∧
        Finishes (.ofTask task s) a ∧ a.session = t := by
  cases h with
  | run h =>
    refine (completeText_cases h).imp_right ?_
    rintro ⟨body, a, ha, he⟩
    exact ⟨_, .program body, a, .inl rfl, ha, he⟩
  | evalLine h =>
    refine (completeText_cases h).imp_right ?_
    rintro ⟨body, a, ha, he⟩
    exact ⟨_, .line body, a, .inl rfl, ha, he⟩
  | execute h => exact .inr ⟨_, .program _, _, .inl rfl, finishes_of_complete h, rfl⟩
  | @executeBlock scope _ body _ hs h =>
    exact .inr ⟨_, .block body scope, _, .inr hs, finishes_of_complete h, rfl⟩
  | @eval scope _ e _ hs h =>
    exact .inr ⟨_, .expression e scope, _, .inr hs, finishes_of_complete h, rfl⟩
  | @evalOperand _ scope _ e _ hs h =>
    obtain ⟨a, ha, he⟩ := Option.map_eq_some_iff.mp h
    refine .inr ⟨_, .expression e scope, a, .inr hs, finishes_of_complete ha, ?_⟩
    obtain ⟨(_ | (_ | _)), _⟩ := a <;> exact congrArg Prod.snd he

end Scriptlet.Session
