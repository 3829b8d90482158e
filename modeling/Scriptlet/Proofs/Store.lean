import Scriptlet.Session

namespace Scriptlet

theorem lookup_entry {β : Type} (key other : String) (b : β) (rest : List (String × β)) :
    ((other, b) :: rest).lookup key = if key = other then some b else rest.lookup key := by
  by_cases h : key = other
  · simp [h]
  · simp [List.lookup_cons, h, beq_eq_false_iff_ne.mpr h]

namespace Scope

variable (s : Scope) (name key : String)

theorem find?_insert (b : Binding) :
    (s.insert name b).find? key = if key = name then some b else s.find? key :=
  lookup_entry key name b s.bindings

theorem find?_update (v : Value) :
    (s.update name v).find? key =
      if key = name then (s.find? key).map (fun b => ⟨v, b.isMutable⟩) else s.find? key := by
  obtain ⟨bindings, parent⟩ := s
  simp only [update, find?]
  induction bindings with
  | nil => simp
  | cons entry rest ih =>
    obtain ⟨other, b⟩ := entry
    by_cases hn : key = name
    · by_cases ho : other = name
      · simp_all
      · have hk : name ≠ other := fun h => ho h.symm
        simp_all [lookup_entry]
    · by_cases ho : other = name <;> simp_all [lookup_entry]

end Scope

namespace Scopes

variable (s : Scopes) (id other : ScopeId) (name : String)

@[simp]
theorem fresh_modify (f : Scope → Scope) : (s.modify id f).fresh = s.fresh := by
  simp [modify, fresh]

@[simp]
theorem fresh_child : (s.child id).fresh = s.fresh + 1 := by
  simp [child, fresh]

theorem cell_modify (f : Scope → Scope) :
    (s.modify id f).cells[other]? =
      if id = other then s.cells[other]?.map f else s.cells[other]? := by
  simp [modify, Array.getElem?_modify]

theorem cell_child :
    (s.child id).cells[other]? =
      if other = s.fresh then some ⟨[], some id⟩ else s.cells[other]? := by
  exact Array.getElem?_push ..

theorem cell_eq_none (h : s.fresh ≤ id) : s.cells[id]? = none := by
  simpa [fresh] using h

theorem parent_modify {f : Scope → Scope} (hf : ∀ c, (f c).parent = c.parent) :
    (s.modify id f).parent? other = s.parent? other := by
  simp only [parent?, cell_modify]
  split
  · cases s.cells[other]? <;> simp [hf]
  · rfl

theorem local_insert (key : String) (b : Binding) :
    (s.modify id (·.insert name b)).local? other key =
      if id = other ∧ key = name then s.cells[other]?.map (fun _ => b)
      else s.local? other key := by
  simp only [local?, cell_modify]
  by_cases hi : id = other <;> by_cases hk : key = name <;> cases s.cells[other]? <;>
    simp [hi, hk, Scope.find?_insert]

theorem local_update (key : String) (v : Value) :
    (s.modify id (·.update name v)).local? other key =
      if id = other ∧ key = name then (s.local? other key).map (fun b => ⟨v, b.isMutable⟩)
      else s.local? other key := by
  simp only [local?, cell_modify]
  by_cases hi : id = other <;> by_cases hk : key = name <;> cases s.cells[other]? <;>
    simp [hi, hk, Scope.find?_update]

theorem local_child (h : other ≠ s.fresh) :
    (s.child id).local? other name = s.local? other name := by
  simp [local?, cell_child, h]

theorem parent_child (h : other ≠ s.fresh) : (s.child id).parent? other = s.parent? other := by
  simp [parent?, cell_child, h]

/-- What defining does. -/
theorem define_cases (b : Binding) :
    (s.define id name b = (.error (.alreadyDefined name), s) ∧ (s.local? id name).isSome) ∨
      (s.define id name b = (.ok (), s.modify id (·.insert name b)) ∧ s.local? id name = none) := by
  cases h : s.local? id name <;> simp [define, h]

/-- Changes the variable that a search has found. -/
def assignFound (s : Scopes) (name : String) (v : Value) :
    Option (ScopeId × Binding) → Except Fault Unit × Scopes
  | none => (.error (.unknownVariable name), s)
  | some (owner, b) =>
    if b.isMutable then (.ok (), s.modify owner (·.update name v))
    else (.error (.immutableAssignment name), s)

theorem assignWithin_eq (v : Value) (reach : Nat) :
    s.assignWithin name v reach id = s.assignFound name v (s.resolveWithin name reach id) := by
  induction reach generalizing id with
  | zero => rfl
  | succ reach ih =>
    rw [assignWithin, resolveWithin]
    cases s.local? id name with
    | some b => rfl
    | none =>
      cases s.parent? id with
      | some outer => exact ih outer
      | none => rfl

/-- Assigning picks the variable that resolving finds. -/
theorem assign_eq (v : Value) :
    s.assign id name v = s.assignFound name v (s.resolve? id name) :=
  s.assignWithin_eq id name v (id + 1)

/-- What assigning does. -/
theorem assign_cases (v : Value) :
    ((s.assign id name v).2 = s ∧ ∃ fault, (s.assign id name v).1 = .error fault) ∨
      ∃ owner b, s.resolve? id name = some (owner, b) ∧ b.isMutable = true ∧
        s.assign id name v = (.ok (), s.modify owner (·.update name v)) := by
  rw [assign_eq]
  cases s.resolve? id name with
  | none => simp [assignFound]
  | some found =>
    obtain ⟨owner, b⟩ := found
    by_cases hb : b.isMutable
    · exact .inr ⟨owner, b, rfl, hb, by simp [assignFound, hb]⟩
    · simp [assignFound, hb]

theorem fresh_define (b : Binding) : (s.define id name b).2.fresh = s.fresh := by
  rcases s.define_cases id name b with ⟨hd, _⟩ | ⟨hd, _⟩ <;> simp [hd]

theorem fresh_assign (v : Value) : (s.assign id name v).2.fresh = s.fresh := by
  rcases s.assign_cases id name v with ⟨ha, _⟩ | ⟨_, _, _, _, ha⟩ <;> simp [ha]

variable {s id name}

theorem local_lt_fresh {b : Binding} (h : s.local? id name = some b) : id < s.fresh := by
  refine Nat.lt_of_not_le fun hf => ?_
  simp [local?, s.cell_eq_none id hf] at h

theorem local_of_resolveWithin {reach : Nat} {owner : ScopeId} {b : Binding}
    (h : s.resolveWithin name reach id = some (owner, b)) : s.local? owner name = some b := by
  induction reach generalizing id with
  | zero => simp [resolveWithin] at h
  | succ reach ih =>
    simp only [resolveWithin] at h
    split at h
    · rename_i c hc
      cases h
      exact hc
    · obtain ⟨p, _, hp⟩ := Option.bind_eq_some_iff.mp h
      exact ih hp

theorem local_of_resolve {owner : ScopeId} {b : Binding}
    (h : s.resolve? id name = some (owner, b)) : s.local? owner name = some b :=
  local_of_resolveWithin h

end Scopes

namespace Sink

/-- The sink takes and confirms everything. -/
structure Free (s : Sink) : Prop where
  bytes : s.byteLimit = none
  flushes : s.flushLimit = none

variable {s : Sink}

theorem Free.print (h : s.Free) (text : String) :
    s.print text = (true, ⟨s.written ++ (text ++ "\n").toUTF8, s.flushes + 1, none, none⟩) := by
  obtain ⟨written, flushes, byteLimit, flushLimit⟩ := s
  obtain ⟨rfl, rfl⟩ := h
  rfl

end Sink

namespace Session

variable (s : Session) (id : ScopeId) (name : String)

@[simp]
theorem openScope_scopes : (s.openScope id).scopes = s.scopes.child id :=
  rfl

@[simp]
theorem define_outcome (b : Binding) : (s.define id name b).1 = (s.scopes.define id name b).1 :=
  rfl

@[simp]
theorem define_scopes (b : Binding) :
    (s.define id name b).2.scopes = (s.scopes.define id name b).2 :=
  rfl

@[simp]
theorem reassign_outcome (v : Value) :
    (s.reassign id name v).1 = (s.scopes.assign id name v).1 :=
  rfl

@[simp]
theorem reassign_scopes (v : Value) :
    (s.reassign id name v).2.scopes = (s.scopes.assign id name v).2 :=
  rfl

@[simp]
theorem declare_functions (f : Function) :
    (s.declare name f).functions = (name, f) :: s.functions.filter (·.1 ≠ name) :=
  rfl

@[simp]
theorem print_outcome (text : String) :
    (s.print text).1 = if (s.sink.print text).1 then .ok () else .error .output := by
  obtain ⟨scopes, functions, sink⟩ := s
  simp only [print]
  split <;> simp_all

@[simp]
theorem print_session (text : String) :
    (s.print text).2 = ⟨s.scopes, s.functions, (s.sink.print text).2⟩ := by
  obtain ⟨scopes, functions, sink⟩ := s
  simp only [print]
  split <;> simp_all

theorem mem_functions {s : Session} {name : String} {f : Function}
    (h : s.function? name = some f) : (name, f) ∈ s.functions := by
  obtain ⟨before, behind, hs, _⟩ := List.lookup_eq_some_iff.mp h
  simp [hs]

theorem mem_declare {s : Session} {name : String} {f : Function} {entry : String × Function}
    (h : entry ∈ (s.declare name f).functions) : entry = (name, f) ∨ entry ∈ s.functions := by
  rw [declare_functions] at h
  rcases List.mem_cons.mp h with he | hm
  · exact .inl he
  · exact .inr (List.mem_filter.mp hm).1

theorem function_declare (f : Function) (key : String) :
    (s.declare name f).function? key = if key = name then some f else s.function? key := by
  simp only [function?, declare_functions, lookup_entry]
  split
  · rfl
  · rename_i h
    induction s.functions with
    | nil => rfl
    | cons entry rest ih =>
      obtain ⟨other, g⟩ := entry
      by_cases ho : other = name <;> simp_all [lookup_entry]

end Session

end Scriptlet
