import Scriptlet.Proofs.Lockstep
import Scriptlet.Proofs.Store

namespace Scriptlet

/-- No operation leads out of `inside`. -/
structure Session.Closed (inside : ScopeId → Prop) (s : Session) : Prop where
  parent : ∀ {id outer}, inside id → s.scopes.parent? id = some outer → inside outer
  closure : ∀ {name f}, s.function? name = some f → inside f.closure
  fresh : ∀ {id}, s.scopes.fresh ≤ id → inside id

/-- The table of functions, with lines seen through `view`. -/
def Session.table (view : Nat → Nat) (s : Session) : List (String × Function) :=
  s.functions.map fun entry => (entry.1, entry.2.mapLines view)

/-- The sessions agree but for the bindings of scopes outside and for lines that look the same
through `view`. -/
structure Session.Agree (view : Nat → Nat) (inside : ScopeId → Prop) (s t : Session) : Prop where
  table : s.table view = t.table view
  sink : s.sink = t.sink
  fresh : s.scopes.fresh = t.scopes.fresh
  parent : ∀ id, s.scopes.parent? id = t.scopes.parent? id
  cell : ∀ id, inside id → s.scopes.cells[id]? = t.scopes.cells[id]?

variable {view : Nat → Nat} {inside : ScopeId → Prop} {s t : Session} {id : ScopeId}

namespace Session.Closed

/-- Operations that keep the parents, the number of scopes and the functions. -/
theorem of_parents (h : s.Closed inside) (hp : ∀ id, t.scopes.parent? id = s.scopes.parent? id)
    (hn : t.scopes.fresh = s.scopes.fresh) (hf : t.functions = s.functions) :
    t.Closed inside where
  parent hi he := h.parent hi (hp _ ▸ he)
  closure he := h.closure (by simpa [function?, hf] using he)
  fresh hi := h.fresh (hn ▸ hi)

theorem openScope (h : s.Closed inside) (hi : inside id) : (s.openScope id).Closed inside where
  parent {i outer} hi' he := by
    by_cases hf : i = s.scopes.fresh
    · have hc : (s.scopes.child id).parent? i = some id := by
        simp [Scopes.parent?, Scopes.cell_child, hf]
      obtain rfl : id = outer := by simpa [hc] using he
      exact hi
    · rw [openScope_scopes, Scopes.parent_child _ _ _ hf] at he
      exact h.parent hi' he
  closure := h.closure
  fresh {i} hi' := by
    rw [openScope_scopes, Scopes.fresh_child] at hi'
    exact h.fresh (Nat.le_of_succ_le hi')

theorem define (h : s.Closed inside) (name : String) (b : Binding) :
    (s.define id name b).2.Closed inside := by
  rcases s.scopes.define_cases id name b with ⟨hd, _⟩ | ⟨hd, _⟩
  · exact h.of_parents (by simp [hd]) (by simp [hd]) rfl
  · refine h.of_parents (fun i => ?_) (by simp [hd]) rfl
    rw [define_scopes, hd]
    exact Scopes.parent_modify _ _ _ fun _ => rfl

theorem reassign (h : s.Closed inside) (name : String) (v : Value) :
    (s.reassign id name v).2.Closed inside := by
  rcases s.scopes.assign_cases id name v with ⟨ha, _⟩ | ⟨owner, b, _, _, ha⟩
  · exact h.of_parents (by simp [ha]) (by simp [ha]) rfl
  · refine h.of_parents (fun i => ?_) (by simp [ha]) rfl
    rw [reassign_scopes, ha]
    exact Scopes.parent_modify _ _ _ fun _ => rfl

theorem declare {f : Function} (h : s.Closed inside) (name : String) (hf : inside f.closure) :
    (s.declare name f).Closed inside where
  parent := h.parent
  closure {key g} he := by
    rw [function_declare] at he
    split at he
    · cases he
      exact hf
    · exact h.closure he
  fresh := h.fresh

theorem print (h : s.Closed inside) (text : String) : (s.print text).2.Closed inside := by
  rw [print_session]
  exact h.of_parents (fun _ => rfl) rfl rfl

/-- A name is found inside, if it is looked for inside. -/
theorem resolveWithin (h : s.Closed inside) {name : String} {reach : Nat} {owner : ScopeId}
    {b : Binding} (hi : inside id) (he : s.scopes.resolveWithin name reach id = some (owner, b)) :
    inside owner := by
  induction reach generalizing id with
  | zero => simp [Scopes.resolveWithin] at he
  | succ reach ih =>
    simp only [Scopes.resolveWithin] at he
    split at he
    · cases he
      exact hi
    · obtain ⟨outer, hp, ho⟩ := Option.bind_eq_some_iff.mp he
      exact ih (h.parent hi hp) ho

/-- What lies outside is not changed. -/
theorem frame (inside : ScopeId → Prop) (s : Session) :
    Preserved inside fun t => t.Closed inside ∧
      ∀ id, ¬ inside id → t.scopes.cells[id]? = s.scopes.cells[id]? where
  closure h hf := h.1.closure hf
  fresh h := h.1.fresh (Nat.le_refl _)
  openScope {t id} h hi := by
    refine ⟨h.1.openScope hi, fun i ho => ?_⟩
    have hn : i ≠ t.scopes.fresh := fun he => ho (h.1.fresh (Nat.le_of_eq he.symm))
    rw [openScope_scopes, Scopes.cell_child, if_neg hn]
    exact h.2 i ho
  define {t id} name b h hi := by
    refine ⟨h.1.define name b, fun i ho => ?_⟩
    have hn : id ≠ i := fun he => ho (he ▸ hi)
    rcases t.scopes.define_cases id name b with ⟨hd, _⟩ | ⟨hd, _⟩
    · simpa [hd] using h.2 i ho
    · simpa [hd, Scopes.cell_modify, hn] using h.2 i ho
  reassign {t id} name v h hi := by
    refine ⟨h.1.reassign name v, fun i ho => ?_⟩
    rcases t.scopes.assign_cases id name v with ⟨ha, _⟩ | ⟨owner, b, hr, _, ha⟩
    · simpa [ha] using h.2 i ho
    · have hn : owner ≠ i := fun he => ho (he ▸ h.1.resolveWithin hi hr)
      simpa [ha, Scopes.cell_modify, hn] using h.2 i ho
  declare name h hf := ⟨h.1.declare name hf, h.2⟩
  print text h := ⟨h.1.print text, by rw [print_session]; exact h.2⟩

end Session.Closed

namespace Session.Agree

theorem refl (view : Nat → Nat) (inside : ScopeId → Prop) (s : Session) : s.Agree view inside s :=
  ⟨rfl, rfl, rfl, fun _ => rfl, fun _ _ => rfl⟩

theorem local_eq (h : s.Agree view inside t) (hi : inside id) (name : String) :
    s.scopes.local? id name = t.scopes.local? id name := by
  rw [Scopes.local?, h.cell id hi, Scopes.local?]

theorem function_eq (h : s.Agree view inside t) (name : String) :
    (s.function? name).map (Function.mapLines view) =
      (t.function? name).map (Function.mapLines view) := by
  have lookup_table (s : Session) :
      (s.function? name).map (Function.mapLines view) = (s.table view).lookup name := by
    unfold function? Session.table
    induction s.functions with
    | nil => rfl
    | cons entry rest ih =>
      obtain ⟨key, f⟩ := entry
      by_cases hk : name = key <;> simp [lookup_entry, hk, ih]
  rw [lookup_table, h.table, lookup_table]

/-- Agreement without the scopes. -/
theorem of_scopes {s' t' : Session} (h : s.Agree view inside t)
    (hs : s'.functions = s.functions) (ht : t'.functions = t.functions)
    (hk : s'.sink = s.sink) (hk' : t'.sink = t.sink)
    (hf : s'.scopes.fresh = t'.scopes.fresh)
    (hp : ∀ id, s'.scopes.parent? id = t'.scopes.parent? id)
    (hc : ∀ id, inside id → s'.scopes.cells[id]? = t'.scopes.cells[id]?) :
    s'.Agree view inside t' :=
  ⟨by simpa only [Session.table, hs, ht] using h.table, by rw [hk, hk', h.sink], hf, hp, hc⟩

theorem resolveWithin (h : s.Agree view inside t) (hs : s.Closed inside) (name : String)
    (reach : Nat) (hi : inside id) :
    s.scopes.resolveWithin name reach id = t.scopes.resolveWithin name reach id := by
  induction reach generalizing id with
  | zero => rfl
  | succ reach ih =>
    simp only [Scopes.resolveWithin, h.local_eq hi, h.parent]
    split
    · rfl
    · cases hp : t.scopes.parent? id with
      | none => rfl
      | some outer => exact ih (hs.parent hi ((h.parent id).trans hp))

theorem openScope (h : s.Agree view inside t) :
    (s.openScope id).Agree view inside (t.openScope id) := by
  have hcell (i : ScopeId) (hc : s.scopes.cells[i]? = t.scopes.cells[i]?) :
      (s.scopes.child id).cells[i]? = (t.scopes.child id).cells[i]? := by
    rw [Scopes.cell_child, Scopes.cell_child, h.fresh, hc]
  refine h.of_scopes rfl rfl rfl rfl (by simp [h.fresh]) (fun i => ?_) (fun i hi => ?_)
  · by_cases hn : i = s.scopes.fresh
    · have hn' : i = t.scopes.fresh := hn.trans h.fresh
      simp [Scopes.parent?, Scopes.cell_child, ← hn, ← hn']
    · have hn' : i ≠ t.scopes.fresh := h.fresh ▸ hn
      simpa [Scopes.parent_child, hn, hn'] using h.parent i
  · exact hcell i (h.cell i hi)

/-- The same change to a scope that is inside. -/
theorem modify (h : s.Agree view inside t) (id : ScopeId) {f : Scope → Scope}
    (hf : ∀ c, (f c).parent = c.parent) {s' t' : Session}
    (hs : s' = ⟨s.scopes.modify id f, s.functions, s.sink⟩)
    (ht : t' = ⟨t.scopes.modify id f, t.functions, t.sink⟩) : s'.Agree view inside t' := by
  subst s' t'
  refine h.of_scopes rfl rfl rfl rfl (by simp [h.fresh]) (fun i => ?_) (fun i hi => ?_)
  · simp only [Scopes.parent_modify _ _ _ hf, h.parent i]
  · simp only [Scopes.cell_modify, h.cell i hi]

theorem define (h : s.Agree view inside t) (hi : inside id) (name : String) (b : Binding) :
    (s.define id name b).1 = (t.define id name b).1 ∧
      (s.define id name b).2.Agree view inside (t.define id name b).2 := by
  have hl := h.local_eq hi name
  cases hn : t.scopes.local? id name with
  | some c => simpa [Session.define, Scopes.define, hl, hn] using h
  | none =>
    have hf (c : Scope) : (c.insert name b).parent = c.parent := rfl
    refine ⟨by simp [Scopes.define, hl, hn], h.modify id hf ?_ ?_⟩ <;>
      simp [Session.define, Scopes.define, hl, hn]

theorem reassign (h : s.Agree view inside t) (hs : s.Closed inside) (hi : inside id) (name : String)
    (v : Value) :
    (s.reassign id name v).1 = (t.reassign id name v).1 ∧
      (s.reassign id name v).2.Agree view inside (t.reassign id name v).2 := by
  have hr : s.scopes.resolve? id name = t.scopes.resolve? id name := h.resolveWithin hs name _ hi
  cases hn : t.scopes.resolve? id name with
  | none => simpa [Session.reassign, Scopes.assign_eq, Scopes.assignFound, hr, hn] using h
  | some found =>
    obtain ⟨owner, b⟩ := found
    cases hb : b.isMutable with
    | false => simpa [Session.reassign, Scopes.assign_eq, Scopes.assignFound, hr, hn, hb] using h
    | true =>
      have hf (c : Scope) : (c.update name v).parent = c.parent := rfl
      refine ⟨?_, h.modify owner hf ?_ ?_⟩ <;>
        simp [Session.reassign, Scopes.assign_eq, Scopes.assignFound, hr, hn, hb]

theorem declare {f g : Function} (h : s.Agree view inside t) (name : String)
    (hfg : f.mapLines view = g.mapLines view) :
    (s.declare name f).Agree view inside (t.declare name g) := by
  have table_declare (s : Session) (f : Function) : (s.declare name f).table view =
      (name, f.mapLines view) :: (s.table view).filter (·.1 ≠ name) := by
    simp only [Session.table, declare_functions, List.map_cons, List.filter_map]
    rfl
  refine ⟨?_, h.sink, h.fresh, h.parent, h.cell⟩
  rw [table_declare, table_declare, h.table, hfg]

theorem print (h : s.Agree view inside t) (text : String) :
    (s.print text).1 = (t.print text).1 ∧
      (s.print text).2.Agree view inside (t.print text).2 := by
  refine ⟨by simp only [print_outcome, h.sink], ?_⟩
  simp only [print_session, h.sink]
  exact ⟨h.table, rfl, h.fresh, h.parent, h.cell⟩

/-- Sessions that agree inside run alike. -/
theorem lockstep (view : Nat → Nat) (inside : ScopeId → Prop) :
    Lockstep ⟨view, inside, inside, fun s t => s.Closed inside ∧ s.Agree view inside t⟩ where
  visible h := h
  closure h hf := h.1.closure hf
  fresh h := ⟨h.2.fresh, h.1.fresh (Nat.le_refl _)⟩
  lookup name h hi := by
    rw [Scopes.lookup?, Scopes.resolve?, h.2.resolveWithin h.1 name _ hi]
    rfl
  function name h := h.2.function_eq name
  openScope h hi := ⟨h.1.openScope hi, h.2.openScope⟩
  define name b h hi := ⟨(h.2.define hi name b).1, h.1.define name b, (h.2.define hi name b).2⟩
  reassign name v h hi :=
    ⟨(h.2.reassign h.1 hi name v).1, h.1.reassign name v, (h.2.reassign h.1 hi name v).2⟩
  declare name h hf hfg := ⟨h.1.declare name hf, h.2.declare name hfg⟩
  print text h := ⟨(h.2.print text).1, h.1.print text, (h.2.print text).2⟩

end Session.Agree

end Scriptlet
