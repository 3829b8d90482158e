import Scriptlet.Proofs.ParseJoin
import Scriptlet.Proofs.Requests
import Scriptlet.Proofs.Sequencing
import Scriptlet.Proofs.Territory

namespace Scriptlet

def Error.mapLines (f : Nat → Nat) : Error → Error
  | .scan e => .scan e
  | .parse e => .parse e
  | .runtime e => .runtime (e.mapLines f)

namespace Session

/-- Runs a text and, if it succeeds, a second one. -/
def runThen (fuel : Nat) (a b : String) (s : Session) : Option (Except Error Unit × Session) :=
  match s.run fuel a with
  | some (.ok (), t) => t.run fuel b
  | stopped => stopped

/-- The outcomes and sessions are the same but for line numbers in errors and in functions. -/
structure SameUpToLines (x y : Except Error Unit × Session) : Prop where
  outcome : x.1.mapError (Error.mapLines fun _ => 0) = y.1.mapError (Error.mapLines fun _ => 0)
  sink : x.2.sink = y.2.sink
  scopes : x.2.scopes = y.2.scopes
  functions : x.2.table (fun _ => 0) = y.2.table (fun _ => 0)

variable {s t : Session} {a b text : String} {p q body : List Stmt}
  {x y : Except Error Unit × Session}

/-- What a program answers to a request to run it. -/
def reply : Answer .program → Except Error Unit × Session
  | ⟨.ok (), s⟩ => (.ok (), s)
  | ⟨.error e, s⟩ => (.error (.runtime e), s)

theorem reply_eq_ok {answer : Answer .program} :
    reply answer = (.ok (), t) ↔ answer = ⟨.ok (), t⟩ := by
  obtain ⟨_ | _, _⟩ := answer <;> simp [reply]

theorem run_eq_map (h : Stmt.ofText text = .ok body) (fuel : Nat) :
    s.run fuel text = (s.complete fuel (.program body)).map reply := by
  simp only [run, completeText, h]
  congr 1
  funext answer
  obtain ⟨_ | _, _⟩ := answer <;> rfl

theorem run_eq_some_iff (h : Stmt.ofText text = .ok body) :
    (∃ fuel, s.run fuel text = some x) ↔
      ∃ answer, Finishes (Plan.program body s) answer ∧ reply answer = x := by
  constructor
  · rintro ⟨fuel, hx⟩
    rw [run_eq_map h, Option.map_eq_some_iff] at hx
    obtain ⟨answer, ha, rfl⟩ := hx
    exact ⟨answer, finishes_of_complete ha, rfl⟩
  · rintro ⟨answer, ha, rfl⟩
    have hf : ∃ fuel, s.complete fuel (.program body) = some answer := complete_eq_some_iff.2 ha
    obtain ⟨fuel, hf⟩ := hf
    exact ⟨fuel, by rw [run_eq_map h, hf]; rfl⟩

theorem run_mono (h : Stmt.ofText text = .ok body) {fuel more : Nat} (hm : fuel ≤ more)
    (hx : s.run fuel text = some x) : s.run more text = some x := by
  rw [run_eq_map h, Option.map_eq_some_iff] at hx ⊢
  obtain ⟨answer, ha, he⟩ := hx
  exact ⟨answer, complete_mono hm ha, he⟩

/-- Running two texts in turn is running their statements together. -/
theorem runThen_eq_some_iff (ha : Stmt.ofText a = .ok p) (hb : Stmt.ofText b = .ok q) :
    (∃ fuel, s.runThen fuel a b = some y) ↔
      ∃ answer, Finishes (Plan.program (p ++ q) s) answer ∧ reply answer = y := by
  constructor
  · rintro ⟨fuel, hy⟩
    unfold runThen at hy
    split at hy
    · next t hrun =>
      obtain ⟨first, hp, hok⟩ := (run_eq_some_iff ha).1 ⟨fuel, hrun⟩
      obtain rfl := reply_eq_ok.1 hok
      obtain ⟨answer, hq, rfl⟩ := (run_eq_some_iff hb).1 ⟨fuel, hy⟩
      exact ⟨answer, finishes_program_append.2 (.inl ⟨t, hp, hq⟩), rfl⟩
    · next hstop =>
      obtain ⟨answer, hp, rfl⟩ := (run_eq_some_iff ha).1 ⟨fuel, hy⟩
      have herror : ∃ e, answer.outcome = .error e := by
        obtain ⟨e | _, t⟩ := answer
        · exact ⟨e, rfl⟩
        · exact (hstop t hy).elim
      exact ⟨answer, finishes_program_append.2 (.inr ⟨herror, hp⟩), rfl⟩
  · rintro ⟨answer, h, rfl⟩
    rcases finishes_program_append.1 h with ⟨t, hp, hq⟩ | ⟨⟨e, he⟩, hp⟩
    · obtain ⟨fuel, hf⟩ := (run_eq_some_iff ha).2 ⟨_, hp, rfl⟩
      obtain ⟨fuel', hf'⟩ := (run_eq_some_iff hb).2 ⟨_, hq, rfl⟩
      refine ⟨max fuel fuel', ?_⟩
      unfold runThen
      rw [run_mono ha (Nat.le_max_left fuel fuel') hf]
      exact run_mono hb (Nat.le_max_right fuel fuel') hf'
    · obtain ⟨fuel, hf⟩ := (run_eq_some_iff ha).2 ⟨_, hp, rfl⟩
      refine ⟨fuel, ?_⟩
      obtain ⟨_, t⟩ := answer
      obtain rfl : _ = Except.error e := he
      unfold runThen
      rw [hf]
      rfl

/-- Line numbers have no influence on a run. -/
theorem finishes_of_lines {body' : List Stmt} {answer : Answer .program}
    (hl : body.map (Stmt.mapLines fun _ => 0) = body'.map (Stmt.mapLines fun _ => 0))
    (h : Finishes (Plan.program body s) answer) :
    ∃ answer', Finishes (Plan.program body' s) answer' ∧
      SameUpToLines (reply answer) (reply answer') := by
  let everywhere : ScopeId → Prop := fun _ => True
  have L := Agree.lockstep (fun _ => 0) everywhere
  have hs : s.Closed everywhere := ⟨fun _ _ => trivial, fun _ => trivial, fun _ => trivial⟩
  have htasks :
      (Task.program body).mapLines (fun _ => 0) = (Task.program body').mapLines fun _ => 0 := by
    simp only [Task.mapLines, hl]
  have hc := L.ofTask htasks trivial ⟨hs, Agree.refl _ _ s⟩
  obtain ⟨answer', h', halike, _, hagree⟩ := L.finishes hc h
  have hscopes : answer.session.scopes = answer'.session.scopes := by
    have hcells := Array.ext_getElem? fun id => hagree.cell id trivial
    cases hx : answer.session.scopes
    cases hy : answer'.session.scopes
    simpa [hx, hy] using hcells
  refine ⟨answer', h', ?_⟩
  obtain ⟨outcome, t⟩ := answer
  obtain ⟨outcome', t'⟩ := answer'
  cases halike with
  | ok => exact ⟨rfl, hagree.sink, hscopes, hagree.table⟩
  | error same =>
    have hsame := congrArg (fun e => (Except.error (Error.runtime e) : Except Error Unit)) same
    exact ⟨hsame, hagree.sink, hscopes, hagree.table⟩

/-- A program may be run in pieces. Of two texts that can be read, running them together with a line
feed between them comes to an end exactly if running one and then, unless it fails, the other does,
and then nothing differs but line numbers. -/
theorem run_join (ha : Stmt.ofText a = .ok p) (hb : Stmt.ofText b = .ok q) (s : Session) :
    ((∃ fuel x, s.run fuel (a ++ "\n" ++ b) = some x) ↔ ∃ fuel y, s.runThen fuel a b = some y) ∧
    ∀ fuel fuel' x y, s.run fuel (a ++ "\n" ++ b) = some x → s.runThen fuel' a b = some y →
      SameUpToLines x y := by
  let together := p ++ q.map (Stmt.mapLines (· + (a.toList.count '\n' + 1)))
  have hjoin : Stmt.ofText (a ++ "\n" ++ b) = .ok together := Stmt.ofText_join ha hb
  have hl : together.map (Stmt.mapLines fun _ => 0) = (p ++ q).map (Stmt.mapLines fun _ => 0) := by
    simp only [together, List.map_append, List.map_map]
    congr 2
    funext stmt
    exact Stmt.mapLines_mapLines _ _ stmt
  constructor
  · constructor
    · rintro ⟨fuel, x, hx⟩
      obtain ⟨answer, h, _⟩ := (run_eq_some_iff hjoin).1 ⟨fuel, hx⟩
      obtain ⟨answer', h', _⟩ := finishes_of_lines hl h
      obtain ⟨fuel', hy⟩ := (runThen_eq_some_iff ha hb).2 ⟨answer', h', rfl⟩
      exact ⟨fuel', _, hy⟩
    · rintro ⟨fuel, y, hy⟩
      obtain ⟨answer, h, _⟩ := (runThen_eq_some_iff ha hb).1 ⟨fuel, hy⟩
      obtain ⟨answer', h', _⟩ := finishes_of_lines hl.symm h
      obtain ⟨fuel', hx⟩ := (run_eq_some_iff hjoin).2 ⟨answer', h', rfl⟩
      exact ⟨fuel', _, hx⟩
  · intro fuel fuel' x y hx hy
    obtain ⟨answer, h, rfl⟩ := (run_eq_some_iff hjoin).1 ⟨fuel, hx⟩
    obtain ⟨answer', h', rfl⟩ := (runThen_eq_some_iff ha hb).1 ⟨fuel', hy⟩
    obtain ⟨answer'', h'', hsame⟩ := finishes_of_lines hl h
    obtain rfl := h'.unique h''
    exact hsame

/-- For one, where the first text ends with a branch and the second one fails, in its own second
line. -/
theorem run_join_failing :
    ∃ x y,
      Session.run 99
        ("let x = 1\nif x == 1 \x7b print(x) \x7d # no else" ++ "\n" ++ "print(x)\nx = x / 0") {} =
          some x ∧
      Session.runThen 99 "let x = 1\nif x == 1 \x7b print(x) \x7d # no else"
        "print(x)\nx = x / 0" {} = some y ∧
      SameUpToLines x y := by
  have hread (text : String) (h : (Stmt.ofText text).toOption.isSome) :
      ∃ body, Stmt.ofText text = .ok body := by
    cases ht : Stmt.ofText text with
    | error e => simp [ht, Except.toOption] at h
    | ok body => exact ⟨body, rfl⟩
  obtain ⟨p, hp⟩ := hread "let x = 1\nif x == 1 \x7b print(x) \x7d # no else" (by decide +kernel)
  obtain ⟨q, hq⟩ := hread "print(x)\nx = x / 0" (by decide +kernel)
  have hx : (Session.run 99 ("let x = 1\nif x == 1 \x7b print(x) \x7d # no else" ++ "\n" ++
      "print(x)\nx = x / 0") {}).isSome := by decide +kernel
  have hy : (Session.runThen 99 "let x = 1\nif x == 1 \x7b print(x) \x7d # no else"
      "print(x)\nx = x / 0" {}).isSome := by decide +kernel
  obtain ⟨x, hx⟩ := Option.isSome_iff_exists.mp hx
  obtain ⟨y, hy⟩ := Option.isSome_iff_exists.mp hy
  exact ⟨x, y, hx, hy, (run_join hp hq {}).2 99 99 x y hx hy⟩

end Session

end Scriptlet
