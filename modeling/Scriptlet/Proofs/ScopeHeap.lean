import Scriptlet.Proofs.Invariant
import Scriptlet.Proofs.Requests
import Scriptlet.Proofs.Store

namespace Scriptlet

/-- A scope and all scopes around it, from the inside out. -/
inductive Scopes.Chain (s : Scopes) : ScopeId → List ScopeId → Prop where
  | root {id : ScopeId} (h : s.parent? id = none) : Chain s id [id]
  | inside {id outer : ScopeId} {chain : List ScopeId} (h : s.parent? id = some outer)
      (around : Chain s outer chain) : Chain s id (id :: chain)

/-- A search for a name from the inside out: the scopes that it visits and what it finds. Nothing
bounds it. -/
inductive Scopes.Search (s : Scopes) (name : String) :
    ScopeId → List ScopeId → Option (ScopeId × Binding) → Prop where
  | found {id : ScopeId} {b : Binding} (h : s.local? id name = some b) :
      Search s name id [id] (some (id, b))
  | outward {id outer : ScopeId} {path : List ScopeId} {found : Option (ScopeId × Binding)}
      (h : s.local? id name = none) (hp : s.parent? id = some outer)
      (rest : Search s name outer path found) : Search s name id (id :: path) found
  | missing {id : ScopeId} (h : s.local? id name = none) (hp : s.parent? id = none) :
      Search s name id [id] none

/-- A search that looking up and assigning carry out, and that visits only scopes that exist, each
of them once. -/
structure Scopes.Proper (s : Scopes) (id : ScopeId) (name : String) (path : List ScopeId)
    (found : Option (ScopeId × Binding)) : Prop where
  search : s.Search name id path found
  known : ∀ i ∈ path, i < s.fresh
  once : path.Nodup
  lookup : s.lookup? id name = found.map (·.2.value)
  assign : ∀ v, s.assign id name v = s.assignFound name v found

/-- Every scope is younger than its parent, only the global scope has none, and no name is bound
twice in one scope. -/
structure Scopes.WellFormed (s : Scopes) : Prop where
  older : ∀ {id outer}, s.parent? id = some outer → outer < id
  globals : Scopes.globals < s.fresh
  root : ∀ {id}, id < s.fresh → (s.parent? id = none ↔ id = Scopes.globals)
  names : ∀ {id : ScopeId} {c : Scope}, s.cells[id]? = some c → (c.bindings.map Prod.fst).Nodup

structure Session.WellFormed (s : Session) : Prop where
  scopes : s.scopes.WellFormed
  closures : ∀ {name f}, (name, f) ∈ s.functions → f.closure < s.scopes.fresh

/-- The sessions that come about by requests, whether they succeed or fail, and by operations on
scopes that exist. A run counts before it is over too. -/
inductive Session.Reachable : Session → Prop where
  | start (sink : Sink) : Reachable ⟨.start, [], sink⟩
  | step {s t : Session} (h : Reachable s) (hs : s.Step t) : Reachable t
  | midway {s : Session} {f : Form} {task : Task f} {steps : Nat} {m : Machine f}
      (h : Reachable s) (known : task.scope < s.scopes.fresh)
      (hm : (Machine.start task s).advance steps = .running m) : Reachable m.session
  | child {s : Session} {id : ScopeId} (h : Reachable s) (known : id < s.scopes.fresh) :
      Reachable (s.openScope id)
  | define {s : Session} {id : ScopeId} (name : String) (b : Binding) (h : Reachable s)
      (known : id < s.scopes.fresh) : Reachable (s.define id name b).2
  | assign {s : Session} {id : ScopeId} (name : String) (v : Value) (h : Reachable s)
      (known : id < s.scopes.fresh) : Reachable (s.reassign id name v).2

namespace Scopes

variable {s : Scopes} {id outer : ScopeId} {name : String} {chain path : List ScopeId}
  {found : Option (ScopeId × Binding)}

namespace WellFormed

theorem start : Scopes.start.WellFormed where
  older {id outer} h := by
    cases id <;> simp [Scopes.start, parent?] at h
  globals := by decide
  root {id} h := by
    obtain rfl : id = 0 := by simpa [Scopes.start, fresh] using h
    simp [Scopes.start, parent?, Scopes.globals]
  names {id c} h := by
    cases id with
    | zero =>
      obtain rfl : c = {} := by simpa [Scopes.start, eq_comm] using h
      exact .nil
    | succ => simp [Scopes.start] at h

/-- The new scope is younger than all others. -/
theorem child (h : s.WellFormed) (known : id < s.fresh) : (s.child id).WellFormed where
  older {i outer} hp := by
    by_cases hi : i = s.fresh
    · obtain rfl : id = outer := by simpa [parent?, cell_child, hi] using hp
      exact hi ▸ known
    · exact h.older (parent_child s id i hi ▸ hp)
  globals := by
    rw [fresh_child]
    exact Nat.lt_succ_of_lt h.globals
  root {i} hi := by
    by_cases hf : i = s.fresh
    · have hg : i ≠ Scopes.globals := hf ▸ Nat.ne_of_gt h.globals
      have hp : (s.child id).parent? i = some id := by simp [parent?, cell_child, hf]
      simp [hp, hg]
    · rw [fresh_child] at hi
      rw [parent_child s id i hf]
      exact h.root (Nat.lt_of_le_of_ne (Nat.le_of_lt_succ hi) hf)
  names {i c} hc := by
    rw [cell_child] at hc
    split at hc
    · obtain rfl := Option.some.inj hc
      exact .nil
    · exact h.names hc

/-- A change to the bindings of one scope. -/
theorem modify (h : s.WellFormed) {f : Scope → Scope} (hp : ∀ c, (f c).parent = c.parent)
    (hn : ∀ c, s.cells[id]? = some c → ((f c).bindings.map Prod.fst).Nodup) :
    (s.modify id f).WellFormed where
  older ho := h.older (parent_modify s id _ hp ▸ ho)
  globals := by
    rw [fresh_modify]
    exact h.globals
  root {i} hi := by
    rw [fresh_modify] at hi
    rw [parent_modify s id i hp]
    exact h.root hi
  names {i c} hc := by
    rw [cell_modify] at hc
    split at hc
    · rename_i he
      obtain ⟨d, hd, rfl⟩ := Option.map_eq_some_iff.mp hc
      exact hn d (he ▸ hd)
    · exact h.names hc

/-- A name that is bound already is refused. -/
theorem define (h : s.WellFormed) (id : ScopeId) (name : String) (b : Binding) :
    (s.define id name b).2.WellFormed := by
  rcases s.define_cases id name b with ⟨hd, _⟩ | ⟨hd, hn⟩
  · rw [hd]
    exact h
  · rw [hd]
    refine h.modify (fun _ => rfl) fun c hc => ?_
    have hfree : c.bindings.lookup name = none := by simpa [local?, hc, Scope.find?] using hn
    refine List.nodup_cons.mpr ⟨fun hm => ?_, h.names hc⟩
    obtain ⟨entry, he, rfl⟩ := List.mem_map.mp hm
    simpa using List.lookup_eq_none_iff.mp hfree entry he

/-- Names stay when values change. -/
theorem assign (h : s.WellFormed) (id : ScopeId) (name : String) (v : Value) :
    (s.assign id name v).2.WellFormed := by
  rcases s.assign_cases id name v with ⟨ha, _⟩ | ⟨owner, b, _, _, ha⟩
  · rw [ha]
    exact h
  · rw [ha]
    refine h.modify (fun _ => rfl) fun c hc => ?_
    have hk : (c.update name v).bindings.map Prod.fst = c.bindings.map Prod.fst := by
      simp only [Scope.update, List.map_map]
      refine List.map_congr_left fun entry _ => ?_
      simp only [Function.comp]
      split <;> rfl
    rw [hk]
    exact h.names hc

/-- Every way outwards comes to an end, since scopes only get older on it. -/
theorem exists_chain (h : s.WellFormed) (known : id < s.fresh) : ∃ chain, s.Chain id chain := by
  induction id using Nat.strongRecOn with
  | ind id ih =>
    cases hp : s.parent? id with
    | none => exact ⟨[id], .root hp⟩
    | some outer =>
      have ho := h.older hp
      obtain ⟨chain, hc⟩ := ih outer ho (Nat.lt_trans ho known)
      exact ⟨id :: chain, .inside hp hc⟩

end WellFormed

namespace Chain

theorem le (hw : s.WellFormed) (h : s.Chain id chain) : ∀ i ∈ chain, i ≤ id := by
  induction h with
  | root => simp
  | inside hp _ ih =>
    intro i hi
    rcases List.mem_cons.mp hi with rfl | hi
    · exact Nat.le_refl i
    · exact Nat.le_trans (ih i hi) (Nat.le_of_lt (hw.older hp))

theorem nodup (hw : s.WellFormed) (h : s.Chain id chain) : chain.Nodup := by
  induction h with
  | root => simp
  | inside hp around ih =>
    refine List.nodup_cons.mpr ⟨fun hm => ?_, ih⟩
    exact Nat.not_le_of_lt (hw.older hp) (around.le hw _ hm)

theorem length_le (hw : s.WellFormed) (h : s.Chain id chain) : chain.length ≤ id + 1 := by
  induction h with
  | root => simp
  | inside hp _ ih =>
    have ho : _ + 1 ≤ _ := hw.older hp
    exact Nat.succ_le_succ (Nat.le_trans ih ho)

theorem getLast (hw : s.WellFormed) (known : id < s.fresh) (h : s.Chain id chain) :
    chain.getLast? = some globals := by
  induction h with
  | root hp => simpa using (hw.root known).mp hp
  | inside hp around ih =>
    have hl := ih (Nat.lt_trans (hw.older hp) known)
    rw [List.getLast?_cons, hl]
    rfl

/-- A search goes some way along the chain. -/
theorem exists_search (h : s.Chain id chain) (name : String) :
    ∃ path found, s.Search name id path found ∧ path <+: chain := by
  induction h with
  | @root id hp =>
    cases hl : s.local? id name with
    | none => exact ⟨[id], none, .missing hl hp, List.prefix_rfl⟩
    | some b => exact ⟨[id], some (id, b), .found hl, List.prefix_rfl⟩
  | @inside id _ _ hp _ ih =>
    cases hl : s.local? id name with
    | none =>
      obtain ⟨path, found, hs, hpre⟩ := ih
      exact ⟨id :: path, found, .outward hl hp hs, (List.prefix_cons_inj id).mpr hpre⟩
    | some b => exact ⟨[id], some (id, b), .found hl, by simp⟩

end Chain

/-- The bound of the running search does not matter where it is far enough. -/
theorem Search.resolveWithin (h : s.Search name id path found) {reach : Nat}
    (hr : path.length ≤ reach) : s.resolveWithin name reach id = found := by
  induction h generalizing reach with
  | found hl =>
    cases reach with
    | zero => simp at hr
    | succ reach => simp [Scopes.resolveWithin, hl]
  | outward hl hp _ ih =>
    cases reach with
    | zero => simp at hr
    | succ reach => simpa [Scopes.resolveWithin, hl, hp] using ih (Nat.le_of_succ_le_succ hr)
  | missing hl hp =>
    cases reach with
    | zero => simp at hr
    | succ reach => simp [Scopes.resolveWithin, hl, hp]

theorem WellFormed.exists_proper (h : s.WellFormed) (known : id < s.fresh) (name : String) :
    ∃ path found, s.Proper id name path found := by
  obtain ⟨chain, hc⟩ := h.exists_chain known
  obtain ⟨path, found, hs, hpre⟩ := hc.exists_search name
  have reach : path.length ≤ id + 1 := Nat.le_trans hpre.length_le (hc.length_le h)
  have hr : s.resolve? id name = found := hs.resolveWithin reach
  refine ⟨path, found, hs, fun i hi => ?_, ?_, ?_, fun v => ?_⟩
  · exact Nat.lt_of_le_of_lt (hc.le h i (hpre.subset hi)) known
  · exact (hc.nodup h).sublist hpre.sublist
  · rw [lookup?, hr]
  · rw [assign_eq, hr]

end Scopes

namespace Session

variable {s t : Session}

/-- The shape of the store as an invariant of runs: text runs in scopes that exist. -/
def shape : Invariant where
  session := WellFormed
  scope s id := id < s.scopes.fresh
  line _ := True

/-- Operations that keep the functions and all scopes. -/
theorem shape_leads (hs : s.WellFormed) (scopes : t.scopes.WellFormed)
    (functions : t.functions = s.functions) (more : s.scopes.fresh ≤ t.scopes.fresh) :
    shape.Leads s t :=
  ⟨⟨scopes, fun hm => Nat.lt_of_lt_of_le (hs.closures (functions ▸ hm)) more⟩,
    fun _ hi => Nat.lt_of_lt_of_le hi more⟩

theorem shape_kept : shape.Kept where
  function hs hf := ⟨hs.closures (mem_functions hf), fun _ _ => trivial⟩
  openScope {s id} hs known := by
    have hf : (s.openScope id).scopes.fresh = s.scopes.fresh + 1 := Scopes.fresh_child _ _
    have more : s.scopes.fresh < (s.openScope id).scopes.fresh := hf ▸ Nat.lt_succ_self _
    exact ⟨shape_leads hs (hs.scopes.child known) rfl (Nat.le_of_lt more), more⟩
  define {s id} name b hs _ :=
    shape_leads hs (hs.scopes.define id name b) rfl (Nat.le_of_eq (Scopes.fresh_define ..).symm)
  reassign {s id} name v hs _ :=
    shape_leads hs (hs.scopes.assign id name v) rfl (Nat.le_of_eq (Scopes.fresh_assign ..).symm)
  declare {s f} name hs known _ := by
    refine ⟨⟨hs.scopes, fun {key g} hm => ?_⟩, fun _ hi => hi⟩
    rcases mem_declare hm with he | hm
    · obtain ⟨rfl, rfl⟩ := Prod.mk.inj he
      exact known
    · exact hs.closures hm
  print text hs := by
    rw [print_session]
    exact shape_leads hs hs.scopes rfl (Nat.le_refl _)

theorem WellFormed.step (hs : s.WellFormed) (h : s.Step t) : t.WellFormed := by
  rcases h.cases with rfl | ⟨f, task, a, hscope, ha, rfl⟩
  · exact hs
  · have known : task.scope < s.scopes.fresh := by
      rcases hscope with hg | hk
      · exact hg ▸ hs.scopes.globals
      · exact hk
    exact (shape_kept.fulfilled.finishes hs ⟨known, fun _ _ => trivial⟩ ha).1

theorem Reachable.wellFormed (h : s.Reachable) : s.WellFormed := by
  induction h with
  | start sink => exact ⟨.start, fun hm => absurd hm List.not_mem_nil⟩
  | step _ hs ih => exact ih.step hs
  | midway _ known hm ih =>
    exact shape_kept.fulfilled.running ih ⟨known, fun _ _ => trivial⟩ hm
  | child _ known ih => exact (shape_kept.openScope ih known).1.1
  | define name b _ known ih => exact (shape_kept.define name b ih known).1
  | assign name v _ known ih => exact (shape_kept.reassign name v ih known).1

/-- However a session is used, its scopes form a tree below the global scope, functions remember
scopes of it, and every search for a name comes to an end without meeting a scope twice. -/
theorem scopes_form_tree (h : s.Reachable) :
    s.WellFormed ∧ ∀ id < s.scopes.fresh,
      (∃ chain, s.scopes.Chain id chain ∧ chain.Nodup ∧
        chain.getLast? = some Scopes.globals) ∧
      ∀ name, ∃ path found, s.scopes.Proper id name path found := by
  have hw := h.wellFormed
  refine ⟨hw, fun id known => ⟨?_, hw.scopes.exists_proper known⟩⟩
  obtain ⟨chain, hc⟩ := hw.scopes.exists_chain known
  exact ⟨chain, hc, hc.nodup hw.scopes, hc.getLast hw.scopes known⟩

/-- For one, in the scope of a call that has failed. -/
theorem scopes_form_tree_failed_call :
    ∃ t : Session,
      (∃ e, Session.run 99 "fn f(n: i32) \x7b print(x) \x7d\nf(1)" {} = some (.error e, t)) ∧
        t.scopes.parent? 1 = some Scopes.globals ∧
          ∀ name, ∃ path found, t.scopes.Proper 1 name path found := by
  have h : (Session.run 99 "fn f(n: i32) \x7b print(x) \x7d\nf(1)" {}).any fun p =>
      p.1.toOption.isNone && p.2.scopes.fresh == 2 && p.2.scopes.parent? 1 == some 0 := by
    decide +kernel
  obtain ⟨⟨r, t⟩, ht, hr⟩ := (Option.any_eq_true _ _).mp h
  simp only [Bool.and_eq_true, beq_iff_eq] at hr
  obtain ⟨⟨hr, hf⟩, hp⟩ := hr
  cases r with
  | ok _ => cases hr
  | error e =>
    have known : 1 < t.scopes.fresh := Nat.lt_of_lt_of_eq (Nat.lt_succ_self 1) hf.symm
    refine ⟨t, ⟨e, ht⟩, hp, ?_⟩
    exact ((scopes_form_tree (.step (.start {}) (.run ht))).2 1 known).2

end Session

end Scriptlet
