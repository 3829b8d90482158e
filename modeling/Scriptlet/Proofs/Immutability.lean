import Scriptlet.Proofs.Requests
import Scriptlet.Proofs.Store

namespace Scriptlet

/-- What exists in the first session is still there in the second. -/
structure Session.Keeps (s t : Session) : Prop where
  binding : ∀ id name b, s.scopes.local? id name = some b →
    ∃ b', t.scopes.local? id name = some b' ∧ b'.isMutable = b.isMutable ∧
      (b.isMutable = false → b'.value = b.value)
  scope : ∀ id < s.scopes.fresh, id < t.scopes.fresh ∧ t.scopes.parent? id = s.scopes.parent? id
  function : ∀ name, (s.function? name).isSome → (t.function? name).isSome

namespace Session.Keeps

variable {s t u : Session} {id : ScopeId} {name : String}

theorem refl (s : Session) : s.Keeps s :=
  ⟨fun _ _ b h => ⟨b, h, rfl, fun _ => rfl⟩, fun _ h => ⟨h, rfl⟩, fun _ h => h⟩

theorem trans (h : s.Keeps t) (h' : t.Keeps u) : s.Keeps u where
  binding id name b hb := by
    obtain ⟨c, hc, hm, hv⟩ := h.binding id name b hb
    obtain ⟨d, hd, hm', hv'⟩ := h'.binding id name c hc
    refine ⟨d, hd, hm'.trans hm, fun hi => ?_⟩
    rw [hv' (hm.trans hi), hv hi]
  scope id hi := by
    obtain ⟨hi', hp⟩ := h.scope id hi
    obtain ⟨hi'', hp'⟩ := h'.scope id hi'
    exact ⟨hi'', hp'.trans hp⟩
  function name hn := h'.function name (h.function name hn)

/-- If the functions stay, it is enough to look at the scopes one by one. -/
theorem of_scopes (hf : t.functions = s.functions)
    (hb : ∀ id name b, s.scopes.local? id name = some b →
      ∃ b', t.scopes.local? id name = some b' ∧ b'.isMutable = b.isMutable ∧
        (b.isMutable = false → b'.value = b.value))
    (hs : ∀ id < s.scopes.fresh, id < t.scopes.fresh ∧
      t.scopes.parent? id = s.scopes.parent? id) : s.Keeps t :=
  ⟨hb, hs, by simp [Session.function?, hf]⟩

theorem of_same (hs : t.scopes = s.scopes) (hf : t.functions = s.functions) : s.Keeps t := by
  refine of_scopes hf (fun _ _ b hb => ⟨b, hs ▸ hb, rfl, fun _ => rfl⟩) (fun _ hi => ?_)
  rw [hs]
  exact ⟨hi, rfl⟩

theorem openScope (s : Session) (id : ScopeId) : s.Keeps (s.openScope id) := by
  refine of_scopes rfl (fun i name b hb => ?_) (fun i hi => ?_)
  · have hi : i ≠ s.scopes.fresh := Nat.ne_of_lt (Scopes.local_lt_fresh hb)
    refine ⟨b, ?_, rfl, fun _ => rfl⟩
    rw [openScope_scopes, Scopes.local_child _ _ _ _ hi, hb]
  · have hi' : i ≠ s.scopes.fresh := Nat.ne_of_lt hi
    rw [openScope_scopes, Scopes.fresh_child, Scopes.parent_child _ _ _ hi']
    exact ⟨Nat.lt_succ_of_lt hi, rfl⟩

/-- A name that is bound already is refused, so no binding is hidden by a new one. -/
theorem define (s : Session) (id : ScopeId) (name : String) (b : Binding) :
    s.Keeps (s.define id name b).2 := by
  rcases s.scopes.define_cases id name b with ⟨h, _⟩ | ⟨h, hn⟩
  · exact of_same (by simp [h]) rfl
  · refine of_scopes rfl (fun i key c hc => ⟨c, ?_, rfl, fun _ => rfl⟩) (fun i hi => ?_)
    · have hne : ¬(id = i ∧ key = name) := by
        rintro ⟨rfl, rfl⟩
        simp [hn] at hc
      rw [define_scopes, h, Scopes.local_insert, if_neg hne, hc]
    · rw [define_scopes, h, Scopes.fresh_modify]
      exact ⟨hi, Scopes.parent_modify _ _ _ fun _ => rfl⟩

/-- Only a mutable binding is given another value, and it stays mutable. -/
theorem reassign (s : Session) (id : ScopeId) (name : String) (v : Value) :
    s.Keeps (s.reassign id name v).2 := by
  rcases s.scopes.assign_cases id name v with
    ⟨h, _⟩ | ⟨owner, b, hr, hm, h⟩
  · exact of_same (by simp [h]) rfl
  · refine of_scopes rfl (fun i key c hc => ?_) (fun i hi => ?_)
    · rw [reassign_scopes, h, Scopes.local_update]
      split
      · rename_i hik
        obtain ⟨rfl, rfl⟩ := hik
        obtain rfl : b = c := by simpa [Scopes.local_of_resolve hr] using hc
        exact ⟨⟨v, b.isMutable⟩, by simp [hc], rfl, fun hi => by simp [hm] at hi⟩
      · exact ⟨c, hc, rfl, fun _ => rfl⟩
    · rw [reassign_scopes, h, Scopes.fresh_modify]
      exact ⟨hi, Scopes.parent_modify _ _ _ fun _ => rfl⟩

/-- A function may be replaced but not removed. -/
theorem declare (s : Session) (name : String) (f : Function) : s.Keeps (s.declare name f) := by
  refine ⟨fun _ _ b h => ⟨b, h, rfl, fun _ => rfl⟩, fun _ h => ⟨h, rfl⟩, fun key hk => ?_⟩
  rw [function_declare]
  split
  · rfl
  · exact hk

theorem print (s : Session) (text : String) : s.Keeps (s.print text).2 := by
  rw [print_session]
  exact of_same rfl rfl

theorem preserved (s : Session) : Preserved (fun _ => True) s.Keeps where
  closure _ _ := trivial
  fresh _ := trivial
  openScope h _ := h.trans (openScope _ _)
  define name b h _ := h.trans (define _ _ name b)
  reassign name v h _ := h.trans (reassign _ _ name v)
  declare name h _ := h.trans (declare _ name _)
  print text h := h.trans (print _ text)

theorem finishes {f : Form} {task : Task f} {a : Answer f} (h : Finishes (.ofTask task s) a) :
    s.Keeps a.session :=
  (preserved s).finishes (Task.within_of_scope trivial trivial) (refl s) h

theorem step (h : s.Step t) : s.Keeps t := by
  rcases h.cases with rfl | ⟨f, task, a, _, ha, rfl⟩
  · exact refl t
  · exact finishes ha

end Session.Keeps

/-- However a session is used, it keeps all that it has. -/
theorem Session.bindings_persist {s t : Session} (h : s.Steps t) : s.Keeps t := by
  induction h with
  | refl => exact .refl s
  | tail _ hstep ih => exact ih.trans (.step hstep)

/-- For one, through a function that is refused to change `x`. -/
theorem Session.bindings_persist_refusal :
    ∃ t u : Session,
      (∃ r, Session.run 99 "let x = 1\nfn f() \x7b x = 2 \x7d" {} = some (r, t)) ∧
        (∃ r, t.evalLine 99 "f()" = some (r, u)) ∧ t.Keeps u := by
  have h : ((Session.run 99 "let x = 1\nfn f() \x7b x = 2 \x7d" {}).bind
      fun p => p.2.evalLine 99 "f()").isSome := by decide +kernel
  obtain ⟨⟨r', u⟩, hu⟩ := Option.isSome_iff_exists.mp h
  obtain ⟨⟨r, t⟩, ht, hu⟩ := Option.bind_eq_some_iff.mp hu
  exact ⟨t, u, ⟨r, ht⟩, ⟨r', hu⟩, bindings_persist (.single (.evalLine hu))⟩

end Scriptlet
