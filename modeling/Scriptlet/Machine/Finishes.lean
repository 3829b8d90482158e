import Scriptlet.Machine

namespace Scriptlet

/-- A plan finishes with an answer if the tasks that it waits for do. -/
inductive Finishes : {f : Form} → Plan f → Answer f → Prop where
  | finish {f : Form} (a : Answer f) : Finishes (.finish a) a
  | await {f g : Form} {task : Task g} {s : Session} {next : Answer g → Plan f} {b : Answer g}
      {a : Answer f} (awaited : Finishes (.ofTask task s) b) (rest : Finishes (next b) a) :
      Finishes (.await task s next) a
  | become {f : Form} {task : Task f} {s : Session} {a : Answer f}
      (h : Finishes (.ofTask task s) a) : Finishes (.become task s) a

variable {f goal : Form}

theorem Finishes.unique {p : Plan f} {a b : Answer f} (ha : Finishes p a) (hb : Finishes p b) :
    a = b := by
  induction ha with
  | finish a => cases hb; rfl
  | await _ _ ih₁ ih₂ =>
    cases hb with
    | await awaited rest => cases ih₁ awaited; exact ih₂ rest
  | become _ ih =>
    cases hb with
    | become h => exact ih h

theorem Finishes.answer_iff {p : Plan f} {a b : Answer f} (hb : Finishes p b) :
    Finishes p a ↔ a = b := by
  constructor
  · intro ha
    exact ha.unique hb
  · intro he
    rw [he]
    exact hb

/-- The plans on a stack turn an answer into the answer of the last of them. -/
inductive Unwinds : {f : Form} → Stack goal f → Answer f → Answer goal → Prop where
  | empty (a : Answer goal) : Unwinds .empty a a
  | push {f g : Form} {next : Answer f → Plan g} {rest : Stack goal g} {a : Answer f}
      {b : Answer g} {c : Answer goal} (top : Finishes (next a) b) (below : Unwinds rest b c) :
      Unwinds (.push next rest) a c

namespace Machine

theorem advance_add (m n : Nat) (k : Machine goal) :
    k.advance (m + n) =
      match k.advance m with
      | .running k => k.advance n
      | .done a => .done a := by
  induction m generalizing k with
  | zero => simp [advance]
  | succ m ih =>
    rw [Nat.succ_add]
    simp only [advance]
    cases k.step <;> simp [ih]

/-- One step and then `n` more. -/
theorem advance_one_add (n : Nat) (k : Machine goal) :
    k.advance (1 + n) =
      match k.step with
      | .running k => k.advance n
      | .done a => .done a := by
  rw [Nat.add_comm]
  rfl

/-- A plan that waits goes on when its task has come to an answer on top of it. -/
theorem advance_await {g : Form} {task : Task g} {s : Session} {next : Answer g → Plan f}
    {b : Answer g} {stack : Stack goal f} {k : Machine goal}
    (awaited : ∃ n, (Machine.mk (.ofTask task s) (.push next stack)).advance n =
      .running ⟨.finish b, .push next stack⟩)
    (rest : ∃ n, (Machine.mk (next b) stack).advance n = .running k) :
    ∃ n, (Machine.mk (.await task s next) stack).advance n = .running k := by
  obtain ⟨m, hm⟩ := awaited
  obtain ⟨n, hn⟩ := rest
  refine ⟨1 + (m + (1 + n)), ?_⟩
  rw [advance_one_add]
  dsimp only [step]
  rw [advance_add, hm]
  dsimp only
  rw [advance_one_add]
  exact hn

theorem advance_of_finishes {p : Plan f} {a : Answer f} (h : Finishes p a) :
    ∀ {goal : Form} (stack : Stack goal f),
      ∃ n, (Machine.mk p stack).advance n = .running ⟨.finish a, stack⟩ := by
  induction h with
  | finish a => exact fun _ => ⟨0, rfl⟩
  | @await _ _ _ _ next _ _ _ _ ih₁ ih₂ =>
    intro goal stack
    exact advance_await (ih₁ (.push next stack)) (ih₂ stack)
  | become _ ih =>
    intro goal stack
    obtain ⟨n, hn⟩ := ih stack
    refine ⟨1 + n, ?_⟩
    rw [advance_one_add]
    exact hn

theorem finishes_of_advance {n : Nat} {m : Machine goal} {a : Answer goal}
    (h : m.advance n = .done a) : ∃ b, Finishes m.plan b ∧ Unwinds m.stack b a := by
  induction n generalizing m with
  | zero => simp [advance] at h
  | succ n ih =>
    simp only [advance] at h
    obtain ⟨p, stack⟩ := m
    cases p with
    | finish b =>
      cases stack with
      | empty =>
        simp only [step, Status.done.injEq] at h
        subst h
        exact ⟨b, .finish b, .empty b⟩
      | push next rest =>
        obtain ⟨c, hc, hu⟩ := ih h
        exact ⟨b, .finish b, .push hc hu⟩
    | await task s next =>
      obtain ⟨c, hc, hu⟩ := @ih ⟨.ofTask task s, .push next stack⟩ h
      dsimp only at hc hu
      cases hu with
      | push top below => exact ⟨_, .await hc top, below⟩
    | become task s =>
      obtain ⟨c, hc, hu⟩ := ih h
      exact ⟨c, .become hc, hu⟩

/-- A machine comes to an answer exactly if the plan of its task finishes with it. -/
theorem run_start_eq_some_iff {task : Task goal} {s : Session} {a : Answer goal} :
    (∃ fuel, (start task s).run fuel = some a) ↔ Finishes (.ofTask task s) a := by
  constructor
  · rintro ⟨fuel, h⟩
    cases hd : (start task s).advance fuel with
    | running m => simp [run, hd] at h
    | done b =>
      simp only [run, hd, Option.some.injEq] at h
      subst h
      obtain ⟨c, hc, hu⟩ := finishes_of_advance hd
      dsimp only [start] at hc hu
      cases hu
      cases hc with
      | become h => exact h
  · intro h
    obtain ⟨n, hn⟩ := advance_of_finishes (.become h) (.empty : Stack goal goal)
    have hd : (start task s).advance (n + 1) = .done a := by
      rw [advance_add]
      simp only [start, hn]
      rfl
    exact ⟨n + 1, by simp [run, hd]⟩

end Machine

end Scriptlet
