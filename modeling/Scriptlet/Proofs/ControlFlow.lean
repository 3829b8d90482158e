import Scriptlet.Proofs.Requests
import Scriptlet.Proofs.Sequencing

namespace Scriptlet

/-- In every session and every scope, one list of statements comes to an answer exactly if the
other does, and to the same one: how it ends, the scopes, the functions and the output. -/
def Stmt.Interchangeable (p q : List Stmt) : Prop :=
  ∀ (s : Session) (scope : ScopeId) (a : Answer .block),
    (∃ fuel, s.executeBlockIn scope fuel p = some a) ↔
      ∃ fuel, s.executeBlockIn scope fuel q = some a

section Blocks

variable {p q : List Stmt} {scope : ScopeId} {s : Session} {a : Answer .block}

/-- The second list runs only if the first one ends normally. -/
theorem finishes_block_append :
    Finishes (Plan.block (p ++ q) scope s) a ↔
      ∃ b, Finishes (Plan.block p scope s) b ∧ Continued q scope b a := by
  constructor
  · intro h
    exact (Extended.block p s).finishes h
  · intro h
    obtain ⟨b, hb, hc⟩ := h
    exact (Extended.block p s).finishes_of_continued hb hc

/-- It does not matter how the second list is written, only what it does. -/
theorem finishes_append_of_plan {q' : List Stmt}
    (same : ∀ t, Plan.block q scope t = Plan.block q' scope t)
    (h : Finishes (Plan.block (p ++ q) scope s) a) :
    Finishes (Plan.block (p ++ q') scope s) a := by
  obtain ⟨b, hb, hc⟩ := finishes_block_append.mp h
  apply finishes_block_append.mpr
  cases hc with
  | stop hs => exact ⟨_, hb, .stop hs⟩
  | @goOn t _ hq =>
    rw [same] at hq
    exact ⟨_, hb, .goOn hq⟩

/-- Statements inside a statement have no scope of their own, so they might stand in its place. -/
theorem finishes_inner_iff :
    Finishes (Plan.inner p scope s (.become (.block q scope))) a ↔
      Finishes (Plan.block (p ++ q) scope s) a := by
  rw [finishes_block_append, Plan.inner, finishes_after_iff]
  constructor
  · intro h
    rcases h with ⟨_ | ⟨value, line⟩, t, awaited, more⟩ | ⟨e, t, awaited, rfl⟩
    · cases more with
      | become hq => exact ⟨_, awaited, .goOn hq⟩
    · cases more
      exact ⟨_, awaited, .stop rfl⟩
    · exact ⟨_, awaited, .stop rfl⟩
  · intro h
    obtain ⟨b, hb, hc⟩ := h
    cases hc with
    | @goOn t _ hq => exact .inl ⟨_, t, hb, .become hq⟩
    | stop hs =>
      obtain ⟨e | _ | _, t⟩ := a
      · exact .inr ⟨e, t, hb, rfl⟩
      · cases hs
      · exact .inl ⟨_, t, hb, .finish _⟩

theorem finishes_become_iff {task : Task .block} :
    Finishes (Plan.become task s) a ↔ Finishes (Plan.ofTask task s) a := by
  constructor
  · intro h
    cases h with
    | become h => exact h
  · intro h
    exact .become h

/-- A condition is evaluated before anything depends on it. -/
theorem finishes_condition_congr {test : Expr} {line : Nat}
    {next next' : Bool → Session → Plan .block}
    (h : ∀ holds t, Finishes (next holds t) a ↔ Finishes (next' holds t) a) :
    Finishes (Plan.condition test line scope s next) a ↔
      Finishes (Plan.condition test line scope s next') a := by
  apply finishes_after_congr
  intro v t
  cases v with
  | none => rfl
  | some v =>
    cases hb : v.toBool with
    | error fault => simp only [Plan.attempt, hb]
    | ok holds => simpa only [Plan.attempt, hb] using h holds t

end Blocks

namespace Stmt

variable {p q : List Stmt}

theorem interchangeable_of_finishes
    (h : ∀ scope s a, Finishes (Plan.block p scope s) a ↔ Finishes (Plan.block q scope s) a) :
    Interchangeable p q := by
  intro s scope a
  rw [Session.executeBlockIn_eq_some_iff, Session.executeBlockIn_eq_some_iff]
  exact h scope s a

/-- The rounds of a loop are one like another. -/
theorem interchangeable_loop (test : Expr) (body : List Stmt) (line : Nat) :
    Interchangeable [.loop test body line]
      [.branch test (body ++ [.loop test body line]) none line] := by
  apply interchangeable_of_finishes
  intro scope s a
  apply finishes_condition_congr
  intro holds t
  cases holds with
  | true =>
    change Finishes (Plan.inner body scope t (.become (.block [.loop test body line] scope))) a ↔
      Finishes (Plan.inner (body ++ [.loop test body line]) scope t (.become (.block [] scope))) a
    rw [finishes_inner_iff, finishes_inner_iff, List.append_nil]
  | false =>
    change Finishes (Plan.become (.block [] scope) t) a ↔
      Finishes (Plan.inner [] scope t (.become (.block [] scope))) a
    rw [finishes_inner_iff]
    exact finishes_become_iff

/-- Whichever part is taken, what follows the branch goes on in the scope of that part. -/
theorem interchangeable_branch (test : Expr) (yes no rest : List Stmt) (line : Nat) :
    Interchangeable (.branch test yes (some no) line :: rest)
      [.branch test (yes ++ rest) (some (no ++ rest)) line] := by
  apply interchangeable_of_finishes
  intro scope s a
  apply finishes_condition_congr
  intro holds t
  rw [finishes_inner_iff, finishes_inner_iff, List.append_nil]
  cases holds with
  | true => rfl
  | false => rfl

theorem interchangeable_leave (before rest : List Stmt) (value : Option Expr) (line : Nat) :
    Interchangeable (before ++ .leave value line :: rest) (before ++ [.leave value line]) := by
  have same (scope : ScopeId) (s : Session) :
      Plan.block (.leave value line :: rest) scope s = Plan.block [.leave value line] scope s := by
    cases value with
    | none => rfl
    | some e => rfl
  apply interchangeable_of_finishes
  intro scope s a
  constructor
  · intro h
    exact finishes_append_of_plan (same scope) h
  · intro h
    exact finishes_append_of_plan (fun t => (same scope t).symm) h

/-- Blocks open no scope and a return stops everything. A loop is its first round with the loop
behind it; what follows a branch may stand in both of its parts; and what follows a return may be
left out. -/
theorem control_flow_laws (test : Expr) (value : Option Expr) (line : Nat)
    (a b c p q : List Stmt) :
    Interchangeable [.loop test a line] [.branch test (a ++ [.loop test a line]) none line] ∧
      Interchangeable (.branch test a (some b) line :: c)
        [.branch test (a ++ c) (some (b ++ c)) line] ∧
      Interchangeable (p ++ .leave value line :: q) (p ++ [.leave value line]) :=
  ⟨interchangeable_loop test a line, interchangeable_branch test a b c line,
    interchangeable_leave p q value line⟩

end Stmt

end Scriptlet
