import Scriptlet.Semantics

namespace Scriptlet

/-- Plans that wait for an answer of the form `f`, down to the one that answers in the form
`goal`. -/
inductive Stack (goal : Form) : Form → Type where
  | empty : Stack goal goal
  | push {f g : Form} (next : Answer f → Plan g) (rest : Stack goal g) : Stack goal f

structure Machine (goal : Form) where
  {form : Form}
  plan : Plan form
  stack : Stack goal form

inductive Status (goal : Form) where
  | running (machine : Machine goal)
  | done (answer : Answer goal)

namespace Machine

variable {goal : Form}

def start (task : Task goal) (s : Session) : Machine goal :=
  ⟨.become task s, .empty⟩

def step : Machine goal → Status goal
  | ⟨.finish answer, .empty⟩ => .done answer
  | ⟨.finish answer, .push next rest⟩ => .running ⟨next answer, rest⟩
  | ⟨.await task s next, stack⟩ => .running ⟨.ofTask task s, .push next stack⟩
  | ⟨.become task s, stack⟩ => .running ⟨.ofTask task s, stack⟩

/-- Up to `steps` steps. -/
def advance : Nat → Machine goal → Status goal
  | 0, m => .running m
  | steps + 1, m =>
    match m.step with
    | .running m => advance steps m
    | .done answer => .done answer

/-- The answer, if it takes no more than `fuel` steps. -/
def run (fuel : Nat) (m : Machine goal) : Option (Answer goal) :=
  match m.advance fuel with
  | .running _ => none
  | .done answer => some answer

/-- The session as it is now. -/
def session (m : Machine goal) : Session :=
  match m.plan with
  | .finish answer => answer.session
  | .await _ s _ => s
  | .become _ s => s

end Machine

end Scriptlet
