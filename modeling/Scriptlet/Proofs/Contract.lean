import Scriptlet.Proofs.Lockstep

namespace Scriptlet

/-- What holds of the session all the time, what a task relies on, and what its answer fulfils. -/
structure Contract where
  always : Session → Prop
  pre : {f : Form} → Task f → Session → Prop
  post : {f : Form} → Task f → Session → Answer f → Prop

/-- Plans that keep to a contract and finish with answers in `Q`, if the tasks that they wait for
keep to it. -/
inductive Meets (K : Contract) {f : Form} (Q : Answer f → Prop) : Plan f → Prop where
  | finish {a : Answer f} (always : K.always a.session) (h : Q a) : Meets K Q (.finish a)
  | await {g : Form} {task : Task g} {s : Session} {next : Answer g → Plan f}
      (always : K.always s) (pre : K.pre task s)
      (rest : ∀ b : Answer g, K.always b.session → K.post task s b → Meets K Q (next b)) :
      Meets K Q (.await task s next)
  | become {task : Task f} {s : Session} (always : K.always s) (pre : K.pre task s)
      (rest : ∀ a : Answer f, K.post task s a → Q a) : Meets K Q (.become task s)

/-- The plan of each task keeps to the contract. -/
def Contract.Fulfilled (K : Contract) : Prop :=
  ∀ ⦃f : Form⦄ (task : Task f) (s : Session), K.always s → K.pre task s →
    Meets K (K.post task s) (.ofTask task s)

variable {K : Contract} {f g goal : Form} {α : Type} {s : Session}

namespace Meets

variable {Q R : Answer f → Prop}

theorem mono {p : Plan f} (h : Meets K Q p) (hq : ∀ a, Q a → R a) : Meets K R p := by
  induction h with
  | finish always h => exact .finish always (hq _ h)
  | await always pre _ ih => exact .await always pre ih
  | become always pre rest => exact .become always pre fun a ha => hq a (rest a ha)

theorem after {task : Task g} {next : g.Result → Session → Plan f} (always : K.always s)
    (pre : K.pre task s)
    (error : ∀ e t, K.always t → K.post task s ⟨.error e, t⟩ → Q ⟨.error e, t⟩)
    (rest : ∀ r t, K.always t → K.post task s ⟨.ok r, t⟩ → Meets K Q (next r t)) :
    Meets K Q (.after task s next) := by
  refine .await always pre ?_
  rintro ⟨e | r, t⟩ ht hb
  · exact .finish ht (error e t ht hb)
  · exact rest r t ht hb

theorem attempt {line : Nat} {x : Except Fault α × Session} {next : α → Session → Plan f}
    (always : K.always x.2) (error : ∀ fault, Q ⟨.error ⟨fault, line⟩, x.2⟩)
    (rest : ∀ r, Meets K Q (next r x.2)) : Meets K Q (.attempt line x next) := by
  obtain ⟨fault | r, t⟩ := x
  · exact .finish always (error fault)
  · exact rest r

end Meets

/-- Waiting plans that lead from an answer in `Q` to one in `R`. -/
inductive Stack.Meets (K : Contract) (R : Answer goal → Prop) :
    {f : Form} → (Answer f → Prop) → Stack goal f → Prop where
  | empty : Stack.Meets K R R .empty
  | push {f g : Form} {Q : Answer f → Prop} {Q' : Answer g → Prop} {next : Answer f → Plan g}
      {rest : Stack goal g} (top : ∀ a, K.always a.session → Q a → Scriptlet.Meets K Q' (next a))
      (below : Stack.Meets K R Q' rest) : Stack.Meets K R Q (.push next rest)

def Machine.Meets (K : Contract) (R : Answer goal → Prop) : Machine goal → Prop
  | ⟨plan, stack⟩ => ∃ Q, Scriptlet.Meets K Q plan ∧ stack.Meets K R Q

def Status.Meets (K : Contract) (R : Answer goal → Prop) : Status goal → Prop
  | .running m => m.Meets K R
  | .done a => K.always a.session ∧ R a

theorem Machine.Meets.session {R : Answer goal → Prop} {m : Machine goal} (h : m.Meets K R) :
    K.always m.session := by
  obtain ⟨plan, stack⟩ := m
  obtain ⟨Q, hp, _⟩ := h
  cases hp with
  | finish always _ | await always _ _ | become always _ _ => exact always

namespace Contract.Fulfilled

variable (hK : K.Fulfilled)
include hK

theorem step {R : Answer goal → Prop} {m : Machine goal} (h : m.Meets K R) :
    m.step.Meets K R := by
  obtain ⟨plan, stack⟩ := m
  obtain ⟨Q, hp, hs⟩ := h
  cases hp with
  | finish always ha =>
    cases hs with
    | empty => exact ⟨always, ha⟩
    | push top below => exact ⟨_, top _ always ha, below⟩
  | await always pre rest => exact ⟨_, hK _ _ always pre, .push rest hs⟩
  | become always pre rest => exact ⟨Q, (hK _ _ always pre).mono rest, hs⟩

theorem advance {R : Answer goal → Prop} {m : Machine goal} (h : m.Meets K R) (steps : Nat) :
    (m.advance steps).Meets K R := by
  induction steps generalizing m with
  | zero => exact h
  | succ steps ih =>
    have hm := hK.step h
    simp only [Machine.advance]
    split <;> rename_i hs <;> rw [hs] at hm
    · exact ih hm
    · exact hm

theorem start {task : Task goal} (always : K.always s) (pre : K.pre task s) (steps : Nat) :
    ((Machine.start task s).advance steps).Meets K (K.post task s) :=
  hK.advance ⟨_, .become always pre fun _ ha => ha, .empty⟩ steps

/-- The session is in order at all times, however long the run takes. -/
theorem running {task : Task goal} {steps : Nat} {m : Machine goal} (always : K.always s)
    (pre : K.pre task s) (h : (Machine.start task s).advance steps = .running m) :
    K.always m.session := by
  have hm := hK.start always pre steps
  rw [h] at hm
  exact hm.session

theorem finishes {task : Task goal} {a : Answer goal} (always : K.always s) (pre : K.pre task s)
    (h : Finishes (.ofTask task s) a) : K.always a.session ∧ K.post task s a := by
  obtain ⟨fuel, hr⟩ := Machine.run_start_eq_some_iff.mpr h
  have hm := hK.start always pre fuel
  simp only [Machine.run] at hr
  split at hr <;> rename_i hd <;> rw [hd] at hm
  · cases hr
  · cases hr
    exact hm

end Contract.Fulfilled

end Scriptlet
