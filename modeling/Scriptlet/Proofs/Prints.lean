import Scriptlet.Machine.Finishes

namespace Scriptlet

/-- A print that is carried out: its line, its text, and the session in which it begins to write. -/
structure Printing where
  line : Nat
  text : String
  session : Session

/-- The line of the print statement that a task begins with. -/
def Task.printLine? {f : Form} : Task f → Option Nat
  | .block (.print _ n :: _) _ => some n
  | _ => none

/-- What a print statement begins to write when this is the answer for its value. -/
def Answer.printing? : {f : Form} → Answer f → Option Nat → Option Printing
  | .expression, ⟨.ok (some v), s⟩, some line => some ⟨line, v.text, s⟩
  | _, _, _ => none

theorem Answer.session_of_printing {f : Form} {a : Answer f} {line? : Option Nat} {x : Printing}
    (h : a.printing? line? = some x) : x.session = a.session := by
  unfold printing? at h
  split at h
  · cases h
    rfl
  · cases h

/-- A plan finishes with an answer and carries out these prints on the way. If it is the plan of a
print statement, its line is known. -/
inductive Prints : {f : Form} → Option Nat → Plan f → List Printing → Answer f → Prop where
  | finish {f : Form} {line? : Option Nat} (a : Answer f) : Prints line? (.finish a) [] a
  | await {f g : Form} {line? : Option Nat} {task : Task g} {s : Session}
      {next : Answer g → Plan f} {b : Answer g} {a : Answer f} {ps qs : List Printing}
      (awaited : Prints task.printLine? (.ofTask task s) ps b) (rest : Prints none (next b) qs a) :
      Prints line? (.await task s next) (ps ++ (b.printing? line?).toList ++ qs) a
  | become {f : Form} {line? : Option Nat} {task : Task f} {s : Session} {a : Answer f}
      {ps : List Printing} (h : Prints task.printLine? (.ofTask task s) ps a) :
      Prints line? (.become task s) ps a

theorem Prints.finishes {f : Form} {line? : Option Nat} {p : Plan f} {ps : List Printing}
    {a : Answer f} (h : Prints line? p ps a) : Finishes p a := by
  induction h with
  | finish a => exact .finish a
  | await _ _ ih₁ ih₂ => exact .await ih₁ ih₂
  | become _ ih => exact .become ih

theorem Finishes.exists_prints {f : Form} {p : Plan f} {a : Answer f} (h : Finishes p a) :
    ∀ line?, ∃ ps, Prints line? p ps a := by
  induction h with
  | finish a => exact fun _ => ⟨[], .finish a⟩
  | @await _ _ task _ _ _ _ _ _ ih₁ ih₂ =>
    intro line?
    obtain ⟨ps, hp⟩ := ih₁ task.printLine?
    obtain ⟨qs, hq⟩ := ih₂ none
    exact ⟨_, .await hp hq⟩
  | @become _ task _ _ _ ih =>
    intro line?
    obtain ⟨ps, hp⟩ := ih task.printLine?
    exact ⟨ps, .become hp⟩

end Scriptlet
