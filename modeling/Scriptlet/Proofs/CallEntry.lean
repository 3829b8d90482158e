import Scriptlet.Proofs.Assignment
import Scriptlet.Proofs.Sequencing

namespace Scriptlet

/-- A task that a plan waits for, and the session that it begins in. -/
structure Errand where
  {form : Form}
  task : Task form
  session : Session

/-- The first plan goes on to the second one after it has waited for these tasks, one after another,
and for nothing else. -/
inductive Course {f : Form} : Plan f → List Errand → Plan f → Prop where
  | here (p : Plan f) : Course p [] p
  | await {g : Form} {task : Task g} {s : Session} {next : Answer g → Plan f} {b : Answer g}
      {errands : List Errand} {q : Plan f} (awaited : Finishes (.ofTask task s) b)
      (rest : Course (next b) errands q) : Course (.await task s next) (⟨task, s⟩ :: errands) q

/-- The first name in the list that stands further in front as well. -/
def FirstRepeat (names : List String) (name : String) : Prop :=
  ∃ before behind, names = before ++ name :: behind ∧ before.Nodup ∧ name ∈ before

namespace Session

/-- The evaluation of the expression comes to this plan after these tasks, and the machine that
carries it out does so too. -/
structure Arrives (s : Session) (scope : ScopeId) (e : Expr) (errands : List Errand)
    (p : Plan .expression) : Prop where
  course : Course (Plan.expression e scope s) errands p
  running : ∃ steps, (Machine.start (.expression e scope) s).advance steps = .running ⟨p, .empty⟩

/-- The evaluation of the expression is over after these tasks, with this answer and no other. -/
structure Ends (s : Session) (scope : ScopeId) (e : Expr) (errands : List Errand)
    (a : Answer .expression) : Prop extends s.Arrives scope e errands (.finish a) where
  only : ∀ b, (∃ fuel, s.evalIn scope fuel e = some b) ↔ b = a

/-- How expressions come out that are evaluated from left to right, each in the session that the one
before it has left. The first one that goes wrong or has no value is the last one. -/
inductive ComeOut (scope : ScopeId) :
    Session → List Expr → List Errand → Except RuntimeError (List Value) → Session → Prop where
  | none (s : Session) : ComeOut scope s [] [] (.ok []) s
  | stop {s t : Session} {e : Expr} {error : RuntimeError} (es : List Expr)
      (first : ∃ fuel, s.evalOperandIn scope fuel e = some (.error error, t)) :
      ComeOut scope s (e :: es) [⟨.expression e scope, s⟩] (.error error) t
  | more {s t u : Session} {e : Expr} {v : Value} {es : List Expr} {errands : List Errand}
      {outcome : Except RuntimeError (List Value)}
      (first : ∃ fuel, s.evalOperandIn scope fuel e = some (.ok v, t))
      (rest : ComeOut scope t es errands outcome u) :
      ComeOut scope s (e :: es) (⟨.expression e scope, s⟩ :: errands) (outcome.map (v :: ·)) u

/-- The second session is the first one with a new scope inside `closure`, in which exactly these
parameters are bound, as variables that may change. -/
structure Framed (s t : Session) (closure : ScopeId) (bound : List (Param × Value)) : Prop where
  fresh : t.scopes.fresh = s.scopes.fresh + 1
  parent : t.scopes.parent? s.scopes.fresh = some closure
  binding : ∀ name b, t.scopes.local? s.scopes.fresh name = some b ↔
    ∃ p v, (p, v) ∈ bound ∧ p.name = name ∧ b = ⟨v, true⟩
  locals : ∀ id ≠ s.scopes.fresh, ∀ name, t.scopes.local? id name = s.scopes.local? id name
  parents : ∀ id ≠ s.scopes.fresh, t.scopes.parent? id = s.scopes.parent? id
  functions : t.functions = s.functions
  sink : t.sink = s.sink

end Session

/-- What becomes of a plan that has some values, the last one first, and has waited for more. -/
def Plan.resume {f : Form} (values : List Value) (next : List Value → Session → Plan f) :
    Except RuntimeError (List Value) → Session → Plan f
  | .ok more, s => next (values.reverse ++ more) s
  | .error error, s => .finish ⟨.error error, s⟩

namespace Course

variable {f : Form} {p q q' : Plan f} {errands : List Errand}

/-- The tasks alone determine where a plan goes, since each has but one answer. -/
theorem unique (h : Course p errands q) (h' : Course p errands q') : q = q' := by
  induction h with
  | here p =>
    cases h'
    rfl
  | await awaited _ ih =>
    cases h' with
    | await awaited' rest' =>
      obtain rfl := awaited.unique awaited'
      exact ih rest'

/-- What waits for the plan goes on waiting. -/
theorem advance (h : Course p errands q) {goal : Form} (stack : Stack goal f) :
    ∃ steps, (Machine.mk p stack).advance steps = .running ⟨q, stack⟩ := by
  induction h with
  | here p => exact ⟨0, rfl⟩
  | @await _ _ _ next _ _ _ awaited _ ih =>
    exact Machine.advance_await (Machine.advance_of_finishes awaited (.push next stack)) ih

theorem finishes {a : Answer f} (h : Course p errands (.finish a)) : Finishes p a := by
  generalize hq : Plan.finish a = q at h
  induction h with
  | here p =>
    subst hq
    exact .finish a
  | await awaited _ ih => exact .await awaited (ih hq)

variable {s : Session} {scope : ScopeId} {e : Expr} {a : Answer .expression}

theorem arrives {q : Plan .expression} (h : Course (Plan.expression e scope s) errands q) :
    s.Arrives scope e errands q := by
  refine ⟨h, ?_⟩
  obtain ⟨steps, hr⟩ := h.advance (.empty : Stack .expression .expression)
  refine ⟨1 + steps, ?_⟩
  rw [Machine.advance_one_add]
  exact hr

theorem ends (h : Course (Plan.expression e scope s) errands (.finish a)) :
    s.Ends scope e errands a := by
  refine ⟨h.arrives, fun b => ?_⟩
  rw [Session.evalIn_eq_some_iff]
  exact h.finishes.answer_iff

end Course

theorem FirstRepeat.not_nodup {names : List String} {name : String} (h : FirstRepeat names name) :
    ¬ names.Nodup := by
  obtain ⟨before, behind, rfl, _, hm⟩ := h
  intro hn
  exact (List.nodup_append.mp hn).2.2 name hm name List.mem_cons_self rfl

namespace Session

variable {s t u : Session} {scope closure : ScopeId}

section Arguments

variable {f : Form} {es : List Expr} {errands : List Errand} {values : List Value}
  {outcome : Except RuntimeError (List Value)} {next : List Value → Session → Plan f}

/-- By induction on the way in which the expressions come out, for all values found before. -/
theorem ComeOut.course (h : ComeOut scope s es errands outcome t) (values : List Value)
    (next : List Value → Session → Plan f) :
    Course (Plan.operands es scope values s next) errands (Plan.resume values next outcome t) := by
  induction h generalizing values with
  | none s =>
    rw [Plan.resume, List.append_nil]
    exact .here _
  | stop es first =>
    rcases evalOperandIn_eq_error_iff.mp first with wrong | ⟨empty, rfl⟩
    · exact .await wrong (.here _)
    · exact .await empty (.here _)
  | @more s t u e v es errands outcome first rest ih =>
    have step := ih (v :: values)
    have same : Plan.resume (v :: values) next outcome u =
        Plan.resume values next (outcome.map (v :: ·)) u := by
      cases outcome with
      | error error => rfl
      | ok more =>
        change next ((v :: values).reverse ++ more) u = next (values.reverse ++ v :: more) u
        rw [List.reverse_cons, List.append_assoc]
        rfl
    rw [same] at step
    exact .await (evalOperandIn_eq_ok_iff.mp first) step

theorem ComeOut.length (h : ComeOut scope s es errands outcome t) {values : List Value}
    (hv : outcome = .ok values) : values.length = es.length := by
  induction h generalizing values with
  | none s =>
    cases hv
    rfl
  | stop es first => cases hv
  | @more s t u e v es errands outcome first rest ih =>
    cases outcome with
    | error error => cases hv
    | ok more =>
      cases hv
      rw [List.length_cons, List.length_cons, ih rfl]

/-- A plan that finishes does not wait for its operands in vain. -/
theorem exists_comeOut {a : Answer f} (h : Finishes (Plan.operands es scope values s next) a) :
    ∃ errands outcome t, ComeOut scope s es errands outcome t := by
  induction es generalizing values s with
  | nil => exact ⟨[], .ok [], s, .none s⟩
  | cons e es ih =>
    rcases finishes_after_iff.mp h with ⟨_ | v, t, awaited, more⟩ | ⟨error, t, awaited, _⟩
    · exact ⟨_, _, t, .stop es (evalOperandIn_eq_error_iff.mpr (.inr ⟨awaited, rfl⟩))⟩
    · obtain ⟨errands, outcome, u, rest⟩ := ih more
      exact ⟨_, _, u, .more (evalOperandIn_eq_ok_iff.mpr awaited) rest⟩
    · exact ⟨_, _, t, .stop es (evalOperandIn_eq_error_iff.mpr (.inl awaited))⟩

end Arguments

section Parameters

variable {bound : List (Param × Value)} {p : Param}

/-- The names of parameters that have been given values. -/
def boundNames (bound : List (Param × Value)) : List String :=
  bound.map (·.1.name)

theorem exists_mem_concat {P : Param → Value → Prop} {w : Value} :
    (∃ q v, (q, v) ∈ bound ++ [(p, w)] ∧ P q v) ↔ (∃ q v, (q, v) ∈ bound ∧ P q v) ∨ P p w := by
  constructor
  · intro h
    obtain ⟨q, v, hm, hq⟩ := h
    rcases List.mem_append.mp hm with hm | hm
    · exact .inl ⟨q, v, hm, hq⟩
    · obtain ⟨rfl, rfl⟩ := Prod.mk.inj (List.mem_singleton.mp hm)
      exact .inr hq
  · intro h
    rcases h with ⟨q, v, hm, hq⟩ | hp
    · exact ⟨q, v, List.mem_append_left _ hm, hq⟩
    · exact ⟨p, w, by simp, hp⟩

namespace Framed

theorem openScope (s : Session) (closure : ScopeId) :
    s.Framed (s.openScope closure) closure [] where
  fresh := s.scopes.fresh_child closure
  parent := by simp [Scopes.parent?, Scopes.cell_child]
  binding name b := by simp [Scopes.local?, Scopes.cell_child, Scope.find?]
  locals id hi name := s.scopes.local_child closure id name hi
  parents id hi := s.scopes.parent_child closure id hi
  functions := rfl
  sink := rfl

theorem local_eq_none_iff (h : s.Framed t closure bound) (name : String) :
    t.scopes.local? s.scopes.fresh name = none ↔ name ∉ boundNames bound := by
  rw [Option.eq_none_iff_forall_ne_some]
  constructor
  · intro free hm
    obtain ⟨⟨p, v⟩, hb, rfl⟩ := List.mem_map.mp hm
    exact free _ ((h.binding _ _).mpr ⟨p, v, hb, rfl, rfl⟩)
  · intro hn b hb
    obtain ⟨p, v, hm, rfl, _⟩ := (h.binding _ _).mp hb
    exact hn (List.mem_map.mpr ⟨(p, v), hm, rfl⟩)

/-- One more parameter. -/
theorem define (h : s.Framed t closure bound) (hn : p.name ∉ boundNames bound) (v : Value) :
    s.Framed (t.define s.scopes.fresh p.name ⟨v, true⟩).2 closure (bound ++ [(p, v)]) := by
  have known : s.scopes.fresh < t.scopes.fresh := h.fresh ▸ Nat.lt_succ_self _
  have free := (h.local_eq_none_iff p.name).mpr hn
  have written := Written.define known free ⟨v, true⟩
  constructor
  · rw [written.fresh, h.fresh]
  · rw [written.parent, h.parent]
  · intro name b
    rw [written.binding, exists_mem_concat]
    by_cases he : name = p.name
    · subst he
      have others : ¬ ∃ q w, (q, w) ∈ bound ∧ q.name = p.name ∧ b = ⟨w, true⟩ := by
        intro hb
        obtain ⟨q, w, hm, hq, _⟩ := hb
        exact hn (List.mem_map.mpr ⟨(q, w), hm, hq⟩)
      rw [or_iff_right others, if_pos ⟨rfl, rfl⟩, Option.some_inj, eq_comm]
      simp
    · have hp : p.name ≠ name := fun hp => he hp.symm
      rw [if_neg fun hc => he hc.2, h.binding]
      simp [hp]
  · intro id hi name
    rw [written.binding, if_neg fun hc => hi hc.1, h.locals id hi]
  · intro id hi
    rw [written.parent, h.parents id hi]
  · rw [written.functions, h.functions]
  · rw [written.sink, h.sink]

/-- Parameters are bound one by one up to the first repeated name. The invariant is that those bound
so far are what the scope binds, and have different names. -/
theorem defineAll (h : s.Framed t closure bound) (distinct : (boundNames bound).Nodup)
    (rest : List (Param × Value)) :
    (∃ u, t.defineAll s.scopes.fresh rest = (.ok (), u) ∧ s.Framed u closure (bound ++ rest) ∧
        (boundNames (bound ++ rest)).Nodup) ∨
      ∃ name u before, t.defineAll s.scopes.fresh rest = (.error (.alreadyDefined name), u) ∧
        s.Framed u closure before ∧ FirstRepeat (boundNames (bound ++ rest)) name := by
  induction rest generalizing t bound with
  | nil =>
    rw [List.append_nil]
    exact .inl ⟨t, rfl, h, distinct⟩
  | cons entry rest ih =>
    obtain ⟨p, v⟩ := entry
    have names : boundNames (bound ++ (p, v) :: rest) =
        boundNames bound ++ p.name :: boundNames rest := by simp [boundNames]
    by_cases hm : p.name ∈ boundNames bound
    · right
      have taken : t.scopes.local? s.scopes.fresh p.name ≠ none :=
        fun free => (h.local_eq_none_iff p.name).mp free hm
      refine ⟨p.name, t, bound, ?_, h, ?_⟩
      · simp [Session.defineAll, Session.define, Scopes.define, Option.isSome_iff_ne_none, taken]
      · rw [names]
        exact ⟨boundNames bound, boundNames rest, rfl, distinct, hm⟩
    · have free := (h.local_eq_none_iff p.name).mpr hm
      have step : t.defineAll s.scopes.fresh ((p, v) :: rest) =
          (t.define s.scopes.fresh p.name ⟨v, true⟩).2.defineAll s.scopes.fresh rest := by
        simp [Session.defineAll, Session.define, Scopes.define, free]
      have distinct' : (boundNames (bound ++ [(p, v)])).Nodup := by
        rw [boundNames, List.map_append]
        refine List.nodup_append.mpr ⟨distinct, by simp, ?_⟩
        intro x hx y hy he
        obtain rfl : y = p.name := by simpa using hy
        exact hm (he ▸ hx)
      rw [step]
      simpa using ih (h.define hm v) distinct'

end Framed

theorem boundNames_zip {params : List Param} {values : List Value}
    (h : values.length = params.length) :
    boundNames (params.zip values) = params.map Param.name := by
  have hp : (params.zip values).map Prod.fst = params := List.map_fst_zip (Nat.le_of_eq h.symm)
  calc boundNames (params.zip values)
      = ((params.zip values).map Prod.fst).map Param.name := by simp [boundNames]
    _ = params.map Param.name := by rw [hp]

/-- What is left of a call when its arguments have values. -/
theorem enter_cases {f : Function} {values : List Value} (h : values.length = f.params.length)
    (line : Nat) (t : Session) :
    ((f.params.map Param.name).Nodup ∧ ∃ u, t.Framed u f.closure (f.params.zip values) ∧
        Plan.enter f values line t =
          .after (.block f.body t.scopes.fresh) u fun completion w => .ok completion.value? w) ∨
      ∃ name u before, FirstRepeat (f.params.map Param.name) name ∧
        t.Framed u f.closure before ∧
          Plan.enter f values line t = .finish ⟨.error ⟨.alreadyDefined name, line⟩, u⟩ := by
  have opened := Framed.openScope t f.closure
  have names := boundNames_zip h
  rcases opened.defineAll .nil (f.params.zip values) with
    ⟨u, hd, framed, distinct⟩ | ⟨name, u, before, hd, framed, first⟩
  · left
    rw [List.nil_append, names] at distinct
    refine ⟨distinct, u, framed, ?_⟩
    simp only [Plan.enter, hd, Plan.attempt]
  · right
    rw [List.nil_append, names] at first
    refine ⟨name, u, before, first, framed, ?_⟩
    simp only [Plan.enter, hd, Plan.attempt, Plan.fail]

end Parameters

section Calls

variable {name : String} {f : Function} {arguments : List Expr} {line : Nat}

theorem plan_of_mismatch (known : s.function? name = some f)
    (h : arguments.length ≠ f.params.length) :
    Plan.expression (.call name arguments line) scope s =
      .finish ⟨.error ⟨.argumentCountMismatch name f.params.length arguments.length, line⟩, s⟩ := by
  simp only [Plan.expression, Plan.call, known, if_neg h, Plan.fail]

theorem plan_of_match (known : s.function? name = some f)
    (h : arguments.length = f.params.length) :
    Plan.expression (.call name arguments line) scope s =
      .operands arguments scope [] s fun values t => .enter f values line t := by
  simp only [Plan.expression, Plan.call, known, if_pos h]

/-- How a call begins. If the numbers of arguments and parameters differ, it waits for nothing and
changes nothing. If they do not, the arguments come out first, and the first one without a value
ends the call. If all have values, the call waits for nothing more exactly if a parameter has the
name of an earlier one, and its error names the first such parameter. Otherwise the body begins, in
a new scope inside that of the definition which was found before the arguments. -/
theorem call_entry (known : s.function? name = some f) (scope : ScopeId) (arguments : List Expr)
    (line : Nat) :
    let call : Expr := .call name arguments line
    (arguments.length ≠ f.params.length →
      s.Ends scope call []
        ⟨.error ⟨.argumentCountMismatch name f.params.length arguments.length, line⟩, s⟩) ∧
    (arguments.length = f.params.length →
      (∀ a, (∃ fuel, s.evalIn scope fuel call = some a) →
        ∃ errands outcome t, ComeOut scope s arguments errands outcome t) ∧
      (∀ errands error t, ComeOut scope s arguments errands (.error error) t →
        s.Ends scope call errands ⟨.error error, t⟩) ∧
      ∀ errands values t, ComeOut scope s arguments errands (.ok values) t →
        values.length = f.params.length ∧
        ((∃ x u, s.Ends scope call errands ⟨.error ⟨.alreadyDefined x, line⟩, u⟩) ↔
          ¬ (f.params.map Param.name).Nodup) ∧
        (∀ x u, s.Ends scope call errands ⟨.error ⟨.alreadyDefined x, line⟩, u⟩ →
          FirstRepeat (f.params.map Param.name) x ∧ ∃ before, t.Framed u f.closure before) ∧
        ((f.params.map Param.name).Nodup →
          ∃ u, t.Framed u f.closure (f.params.zip values) ∧
            s.Arrives scope call errands
              (.after (.block f.body t.scopes.fresh) u fun completion w =>
                .ok completion.value? w))) := by
  intro call
  refine ⟨fun h => ?_, fun h => ?_⟩
  · apply Course.ends
    rw [plan_of_mismatch known h]
    exact .here _
  have plan : Plan.expression call scope s = _ := plan_of_match known h
  refine ⟨fun a ha => ?_, fun errands error t out => ?_, fun errands values t out => ?_⟩
  · rw [evalIn_eq_some_iff, plan] at ha
    exact exists_comeOut ha
  · apply Course.ends
    rw [plan]
    exact out.course [] _
  have length : values.length = f.params.length := (out.length rfl).trans h
  have course : Course (Plan.expression call scope s) errands (Plan.enter f values line t) := by
    rw [plan]
    exact out.course [] _
  refine ⟨length, ?_⟩
  rcases enter_cases length line t with
    ⟨distinct, u, framed, he⟩ | ⟨x, u, before, first, framed, he⟩
  · rw [he] at course
    have going {a : Answer .expression} (ends : s.Ends scope call errands a) : False := by
      cases ends.course.unique course
    refine ⟨⟨fun failed => ?_, fun hn => absurd distinct hn⟩, fun x w ends => (going ends).elim,
      fun _ => ⟨u, framed, course.arrives⟩⟩
    obtain ⟨x, w, ends⟩ := failed
    exact (going ends).elim
  · rw [he] at course
    refine ⟨⟨fun _ => first.not_nodup, fun _ => ⟨x, u, course.ends⟩⟩, fun y w ends => ?_,
      fun distinct => absurd distinct first.not_nodup⟩
    cases ends.course.unique course
    exact ⟨first, before, framed⟩

/-- For one, an argument that defines the function over again: the body of the old one begins. -/
theorem call_entry_redefined :
    let f : Function := ⟨[⟨"a", .int⟩], none, [.leave (some (.var "a" 1)) 1], Scopes.globals⟩
    let g : Function := ⟨[], none,
      [.function "f" [] none [] 2, .leave (some (.literal (.int 7) 2)) 2], Scopes.globals⟩
    let s : Session := (({} : Session).declare "f" f).declare "g" g
    let t : Session := (s.openScope Scopes.globals).declare "f" ⟨[], none, [], 1⟩
    s.function? "f" = some f ∧ t.function? "f" = some ⟨[], none, [], 1⟩ ∧
      ∃ errands u, ComeOut Scopes.globals s [.call "g" [] 3] errands (.ok [.int 7]) t ∧
        t.Framed u Scopes.globals [(⟨"a", .int⟩, .int 7)] ∧
          s.Arrives Scopes.globals (.call "f" [.call "g" [] 3] 3) errands
            (.after (.block f.body 2) u fun completion w => .ok completion.value? w) := by
  intro f g s t
  have known : s.function? "f" = some f := rfl
  have value : ∃ fuel,
      s.evalOperandIn Scopes.globals fuel (.call "g" [] 3) = some (.ok (.int 7), t) := ⟨9, rfl⟩
  have out : ComeOut Scopes.globals s [.call "g" [] 3] _ (.ok [.int 7]) t :=
    .more value (.none t)
  obtain ⟨_, entry⟩ := call_entry known Scopes.globals [.call "g" [] 3] 3
  obtain ⟨_, _, values⟩ := entry rfl
  obtain ⟨_, _, _, begins⟩ := values _ _ t out
  obtain ⟨u, framed, arrives⟩ := begins (by decide)
  exact ⟨known, rfl, _, u, out, framed, arrives⟩

end Calls

end Session

end Scriptlet
