import Scriptlet.Proofs.Requests
import Scriptlet.Proofs.Territory

namespace Scriptlet

/-- The scopes around a scope, itself included. -/
inductive Scopes.Around (s : Scopes) (id : ScopeId) : ScopeId → Prop where
  | self : Around s id id
  | outward {inner outer : ScopeId} (h : Around s id inner) (hp : s.parent? inner = some outer) :
      Around s id outer

/-- The scopes around those that functions remember. -/
def Session.Captured (s : Session) (id : ScopeId) : Prop :=
  ∃ name f, s.function? name = some f ∧ s.scopes.Around f.closure id

def Session.Reach (s : Session) (scope id : ScopeId) : Prop :=
  s.scopes.Around scope id ∨ s.Captured id

/-- The scopes of the first session that are not `inside` are the same in the second. -/
def Session.SameOutside (inside : ScopeId → Prop) (s t : Session) : Prop :=
  ∀ id < s.scopes.fresh, ¬ inside id → t.scopes.cells[id]? = s.scopes.cells[id]?

/-- The scopes of a set and those that are still to come. -/
def Session.OrNew (s : Session) (inside : ScopeId → Prop) (id : ScopeId) : Prop :=
  inside id ∨ s.scopes.fresh ≤ id

namespace Session

variable {s t : Session} {f : Form}

theorem Captured.outward {inner outer : ScopeId} (h : s.Captured inner)
    (hp : s.scopes.parent? inner = some outer) : s.Captured outer := by
  obtain ⟨name, g, hg, ha⟩ := h
  exact ⟨name, g, hg, .outward ha hp⟩

theorem Reach.outward {scope inner outer : ScopeId} (h : s.Reach scope inner)
    (hp : s.scopes.parent? inner = some outer) : s.Reach scope outer := by
  rcases h with ha | hc
  · exact .inl (.outward ha hp)
  · exact .inr (hc.outward hp)

/-- A set of scopes that holds the parents of its scopes and all captured scopes. -/
theorem closed_orNew {inside : ScopeId → Prop}
    (hp : ∀ {inner outer}, inside inner → s.scopes.parent? inner = some outer → inside outer)
    (hc : ∀ {id}, s.Captured id → inside id) : s.Closed (s.OrNew inside) where
  parent {id outer} hi he := by
    rcases hi with hi | hn
    · exact .inl (hp hi he)
    · simp [Scopes.parent?, s.scopes.cell_eq_none id hn] at he
  closure hf := .inl (hc ⟨_, _, hf, .self⟩)
  fresh hn := .inr hn

theorem closed_reach (scope : ScopeId) : s.Closed (s.OrNew (s.Reach scope)) :=
  closed_orNew (fun hi hp => hi.outward hp) .inr

theorem closed_captured : s.Closed (s.OrNew s.Captured) :=
  closed_orNew (fun hi hp => hi.outward hp) id

theorem Agree.orNew {view : Nat → Nat} {inside : ScopeId → Prop} (h : s.Agree view inside t) :
    s.Agree view (s.OrNew inside) t where
  table := h.table
  sink := h.sink
  fresh := h.fresh
  parent := h.parent
  cell id hi := by
    rcases hi with hi | hn
    · exact h.cell id hi
    · rw [s.scopes.cell_eq_none id hn, t.scopes.cell_eq_none id (h.fresh ▸ hn)]

/-- A plan that writes only inside changes nothing outside. -/
theorem sameOutside {inside : ScopeId → Prop} {p : Plan f} {a : Answer f}
    (hc : Coupled (.self (s.OrNew inside) fun t => t.Closed (s.OrNew inside) ∧
      ∀ id, ¬ s.OrNew inside id → t.scopes.cells[id]? = s.scopes.cells[id]?) p p)
    (h : Finishes p a) : s.SameOutside inside a.session := by
  intro id hi ho
  refine ((Closed.frame _ s).finishes_plan hc h).2 id ?_
  exact fun hin => hin.elim ho (Nat.not_le_of_lt hi)

/-- Of two plans that wait for the same tasks, the second finishes as the first does. -/
theorem sameInside {inside : ScopeId → Prop} {p q : Plan f} {a : Answer f}
    (hc : Coupled ⟨id, s.OrNew inside, s.OrNew inside,
      fun s' t' => s'.Closed (s.OrNew inside) ∧ s'.Agree id (s.OrNew inside) t'⟩ p q)
    (h : Finishes p a) :
    ∃ b, Finishes q b ∧ b.outcome = a.outcome ∧ a.session.Agree id (s.OrNew inside) b.session := by
  obtain ⟨b, hb, ho, _, hr⟩ := (Agree.lockstep id _).finishes hc h
  exact ⟨b, hb, ho.eq.symm, hr⟩

/-- What is run or evaluated in a scope neither changes nor sees a scope that it cannot reach. An
expression changes captured scopes only. The body of a function neither changes nor sees the scope
of its caller, unless that is captured. -/
theorem lexical_isolation (s : Session) :
    (∀ {f : Form} (task : Task f) (a : Answer f), (∃ fuel, s.complete fuel task = some a) →
      s.SameOutside (s.Reach task.scope) a.session ∧
        ∀ t, s.Agree id (s.Reach task.scope) t →
          ∃ b, (∃ fuel, t.complete fuel task = some b) ∧ b.outcome = a.outcome ∧
            a.session.Agree id (s.OrNew (s.Reach task.scope)) b.session) ∧
      (∀ e scope a, (∃ fuel, s.evalIn scope fuel e = some a) →
        s.SameOutside s.Captured a.session) ∧
      ∀ g values line a, Finishes (.enter g values line s) a →
        s.SameOutside (s.Reach g.closure) a.session ∧
          ∀ t, s.Agree id (s.Reach g.closure) t →
            ∃ b, Finishes (.enter g values line t) b ∧ b.outcome = a.outcome ∧
              a.session.Agree id (s.OrNew (s.Reach g.closure)) b.session := by
  refine ⟨fun task a h => ?_, fun e scope a h => ?_, fun g values line a h => ?_⟩
  · have hs := s.closed_reach task.scope
    have hin : s.OrNew (s.Reach task.scope) task.scope := .inl (.inl .self)
    have hf := complete_eq_some_iff.mp h
    refine ⟨sameOutside ((Closed.frame _ s).lockstep.ofTask rfl
      (Task.within_of_scope trivial hin) ⟨rfl, hs, fun _ _ => rfl⟩) hf, fun t ht => ?_⟩
    obtain ⟨b, hb, ho, hr⟩ := sameInside ((Agree.lockstep id _).ofTask rfl
      (Task.within_of_scope hin hin) ⟨hs, ht.orNew⟩) hf
    exact ⟨b, complete_eq_some_iff.mpr hb, ho, hr⟩
  · have within : (Task.expression e scope).Within (fun _ => True) (s.OrNew s.Captured) := trivial
    exact sameOutside ((Closed.frame _ s).lockstep.ofTask rfl within
      ⟨rfl, closed_captured, fun _ _ => rfl⟩) (complete_eq_some_iff.mp h)
  · have hs := s.closed_reach g.closure
    have hin : s.OrNew (s.Reach g.closure) g.closure := .inl (.inl .self)
    have hframe := Closed.frame (s.OrNew (s.Reach g.closure)) s
    refine ⟨sameOutside (hframe.lockstep.enter rfl hin values rfl ⟨rfl, hs, fun _ _ => rfl⟩) h,
      fun t ht => ?_⟩
    exact sameInside ((Agree.lockstep id _).enter rfl hin values rfl ⟨hs, ht.orNew⟩) h

end Session

end Scriptlet
