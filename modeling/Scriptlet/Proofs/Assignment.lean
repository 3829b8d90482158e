import Scriptlet.Proofs.Evaluation
import Scriptlet.Proofs.Immutability
import Scriptlet.Proofs.ScopeHeap

namespace Scriptlet

namespace Scopes

/-- The nearest variable of a name: none of the scopes further in binds the name. -/
def Nearest (s : Scopes) (id : ScopeId) (name : String) (owner : ScopeId) (b : Binding) : Prop :=
  ∃ inner outer, s.Chain id (inner ++ owner :: outer) ∧
    (∀ i ∈ inner, s.local? i name = none) ∧ s.local? owner name = some b

/-- No scope around this one binds the name, nor does it itself. -/
def Unbound (s : Scopes) (id : ScopeId) (name : String) : Prop :=
  ∃ chain, s.Chain id chain ∧ ∀ i ∈ chain, s.local? i name = none

end Scopes

/-- What an assignment comes to: a fault, or a binding for its name in one of the scopes. -/
inductive Verdict where
  | refuse (fault : Fault)
  | write (owner : ScopeId) (b : Binding)

/-- The rule of assignment. With an annotation it introduces a variable in the scope itself, and
without one it changes the nearest variable of its name, if there is one. -/
inductive Scopes.Rules (s : Scopes) (id : ScopeId) (name : String) (isMutable : Bool) (v : Value) :
    Option TypeTag → Verdict → Prop where
  | mismatch {tag : TypeTag} (h : tag.admits v = false) :
      Rules s id name isMutable v (some tag) (.refuse (.typeMismatch tag v.kind))
  | occupied {tag : TypeTag} {b : Binding} (h : tag.admits v = true)
      (bound : s.local? id name = some b) :
      Rules s id name isMutable v (some tag) (.refuse (.alreadyDefined name))
  | introduced {tag : TypeTag} (h : tag.admits v = true) (free : s.local? id name = none) :
      Rules s id name isMutable v (some tag) (.write id ⟨v, isMutable⟩)
  | unbound (free : s.Unbound id name) :
      Rules s id name isMutable v none (.write id ⟨v, isMutable⟩)
  | immutable {owner : ScopeId} {b : Binding} (nearest : s.Nearest id name owner b)
      (h : b.isMutable = false) :
      Rules s id name isMutable v none (.refuse (.immutableAssignment name))
  | changed {owner : ScopeId} {b : Binding} (nearest : s.Nearest id name owner b)
      (h : b.isMutable = true) :
      Rules s id name isMutable v none (.write owner ⟨v, true⟩)

/-- The second session differs from the first in this binding alone. -/
structure Session.Written (s t : Session) (owner : ScopeId) (name : String) (b : Binding) :
    Prop where
  binding : ∀ i n, t.scopes.local? i n =
    if i = owner ∧ n = name then some b else s.scopes.local? i n
  parent : ∀ i, t.scopes.parent? i = s.scopes.parent? i
  fresh : t.scopes.fresh = s.scopes.fresh
  functions : t.functions = s.functions
  sink : t.sink = s.sink

/-- How a verdict on an assignment in the scope `id` is carried out. A fault changes nothing. A
binding that is written is seen from `id`, and what another scope sees is the same as before unless
this binding is what it sees. -/
inductive Session.Obeys (s : Session) (id : ScopeId) (name : String) (v : Value) (line : Nat) :
    Verdict → Answer .block → Prop where
  | refuse {fault : Fault} (known : fault ≠ .unknownVariable name) :
      Obeys s id name v line (.refuse fault) ⟨.error ⟨fault, line⟩, s⟩
  | write {owner : ScopeId} {b : Binding} {t : Session} (written : s.Written t owner name b)
      (own : t.scopes.lookup? id name = some v)
      (others : ∀ i < s.scopes.fresh, ∀ n, t.scopes.lookup? i n = s.scopes.lookup? i n ∨
        n = name ∧ t.scopes.Nearest i name owner b) :
      Obeys s id name v line (.write owner b) ⟨.ok .normal, t⟩

namespace Scopes

variable {s : Scopes} {id owner : ScopeId} {name : String} {b : Binding} {chain : List ScopeId}

/-- The variable of this name in this very scope. -/
def found? (s : Scopes) (name : String) (id : ScopeId) : Option (ScopeId × Binding) :=
  (s.local? id name).map fun b => (id, b)

theorem found?_eq_none_iff : s.found? name id = none ↔ s.local? id name = none := by
  simp [found?]

/-- The bounded search finds what there is on the chain first. -/
theorem Chain.resolveWithin (h : s.Chain id chain) {reach : Nat} (hr : chain.length ≤ reach) :
    s.resolveWithin name reach id = chain.findSome? (s.found? name) := by
  induction h generalizing reach with
  | @root id hp =>
    cases reach with
    | zero => simp at hr
    | succ reach => cases hl : s.local? id name <;> simp [Scopes.resolveWithin, found?, hl, hp]
  | @inside id outer chain hp around ih =>
    cases reach with
    | zero => simp at hr
    | succ reach =>
      have hr := ih (Nat.le_of_succ_le_succ hr)
      cases hl : s.local? id name <;> simp [Scopes.resolveWithin, found?, hl, hp, hr]

theorem Chain.resolve (hw : s.WellFormed) (h : s.Chain id chain) :
    s.resolve? id name = chain.findSome? (s.found? name) :=
  h.resolveWithin (h.length_le hw)

theorem nearest_iff (hw : s.WellFormed) (known : id < s.fresh) :
    s.Nearest id name owner b ↔ s.resolve? id name = some (owner, b) := by
  constructor
  · intro h
    obtain ⟨inner, outer, hc, hi, ho⟩ := h
    have hn : inner.findSome? (s.found? name) = none :=
      List.findSome?_eq_none_iff.mpr fun i hm => found?_eq_none_iff.mpr (hi i hm)
    have hf : s.found? name owner = some (owner, b) := by rw [found?, ho, Option.map_some]
    rw [hc.resolve hw, List.findSome?_append, hn, List.findSome?_cons, hf]
    rfl
  · intro h
    obtain ⟨chain, hc⟩ := hw.exists_chain known
    rw [hc.resolve hw] at h
    obtain ⟨inner, i, outer, rfl, hf, hi⟩ := List.findSome?_eq_some_iff.mp h
    obtain ⟨c, ho, he⟩ := Option.map_eq_some_iff.mp hf
    obtain ⟨rfl, rfl⟩ := Prod.mk.inj he
    exact ⟨inner, outer, hc, fun i hm => found?_eq_none_iff.mp (hi i hm), ho⟩

theorem unbound_iff (hw : s.WellFormed) (known : id < s.fresh) :
    s.Unbound id name ↔ s.resolve? id name = none := by
  constructor
  · intro h
    obtain ⟨chain, hc, hn⟩ := h
    rw [hc.resolve hw]
    exact List.findSome?_eq_none_iff.mpr fun i hm => found?_eq_none_iff.mpr (hn i hm)
  · intro h
    obtain ⟨chain, hc⟩ := hw.exists_chain known
    rw [hc.resolve hw] at h
    have hn := List.findSome?_eq_none_iff.mp h
    exact ⟨chain, hc, fun i hm => found?_eq_none_iff.mp (hn i hm)⟩

theorem Nearest.unique {owner' : ScopeId} {b' : Binding} (hw : s.WellFormed) (known : id < s.fresh)
    (h : s.Nearest id name owner b) (h' : s.Nearest id name owner' b') :
    owner = owner' ∧ b = b' := by
  have hr := (nearest_iff hw known).mp h
  rw [(nearest_iff hw known).mp h'] at hr
  obtain ⟨ho, hb⟩ := Prod.mk.inj (Option.some.inj hr)
  exact ⟨ho.symm, hb.symm⟩

theorem Unbound.not_nearest (hw : s.WellFormed) (known : id < s.fresh) (h : s.Unbound id name) :
    ¬ s.Nearest id name owner b := by
  rw [nearest_iff hw known, (unbound_iff hw known).mp h]
  simp

/-- The cases of the rule exclude each other. -/
theorem Rules.unique {isMutable : Bool} {v : Value} {type : Option TypeTag} {x y : Verdict}
    (hw : s.WellFormed) (known : id < s.fresh) (hx : s.Rules id name isMutable v type x)
    (hy : s.Rules id name isMutable v type y) : x = y := by
  cases hx with
  | mismatch h =>
    cases hy with
    | mismatch => rfl
    | occupied h' | introduced h' => simp [h] at h'
  | occupied h bound =>
    cases hy with
    | mismatch h' => simp [h] at h'
    | occupied => rfl
    | introduced _ free => simp [bound] at free
  | introduced h free =>
    cases hy with
    | mismatch h' => simp [h] at h'
    | occupied _ bound => simp [bound] at free
    | introduced => rfl
  | unbound free =>
    cases hy with
    | unbound => rfl
    | immutable nearest | changed nearest => exact absurd nearest (free.not_nearest hw known)
  | immutable nearest h =>
    cases hy with
    | unbound free => exact absurd nearest (free.not_nearest hw known)
    | immutable => rfl
    | changed nearest' h' => simp [(nearest.unique hw known nearest').2, h'] at h
  | changed nearest h =>
    cases hy with
    | unbound free => exact absurd nearest (free.not_nearest hw known)
    | immutable nearest' h' => simp [(nearest.unique hw known nearest').2, h'] at h
    | changed nearest' => rw [(nearest.unique hw known nearest').1]

end Scopes

namespace Session

variable {s t : Session} {id owner : ScopeId} {name : String} {b : Binding} {v : Value}
  {chain : List ScopeId}

namespace Written

theorem keeps_chain (h : s.Written t owner name b) (hc : s.scopes.Chain id chain) :
    t.scopes.Chain id chain := by
  induction hc with
  | root hp => exact .root ((h.parent _).trans hp)
  | inside hp _ ih => exact .inside ((h.parent _).trans hp) ih

/-- Along a chain, the search for a name ends where it did before or at the new binding. -/
theorem findSome (h : s.Written t owner name b) (n : String) (chain : List ScopeId) :
    chain.findSome? (t.scopes.found? n) = chain.findSome? (s.scopes.found? n) ∨
      n = name ∧ chain.findSome? (t.scopes.found? n) = some (owner, b) := by
  induction chain with
  | nil => exact .inl rfl
  | cons i rest ih =>
    by_cases hi : i = owner ∧ n = name
    · right
      refine ⟨hi.2, ?_⟩
      rw [List.findSome?_cons, Scopes.found?, h.binding, if_pos hi, hi.1]
      rfl
    · have same : t.scopes.found? n i = s.scopes.found? n i := by
        rw [Scopes.found?, Scopes.found?, h.binding, if_neg hi]
      rw [List.findSome?_cons, List.findSome?_cons, same]
      cases s.scopes.found? n i with
      | none => exact ih
      | some found => exact .inl rfl

theorem lookup (h : s.Written t owner name b) (hs : s.scopes.WellFormed)
    (ht : t.scopes.WellFormed) (known : id < s.scopes.fresh) (n : String) :
    t.scopes.lookup? id n = s.scopes.lookup? id n ∨
      n = name ∧ t.scopes.Nearest id name owner b := by
  obtain ⟨chain, hc⟩ := hs.exists_chain known
  have hsearch : s.scopes.resolve? id n = chain.findSome? (s.scopes.found? n) := hc.resolve hs
  have hsearch' : t.scopes.resolve? id n = chain.findSome? (t.scopes.found? n) :=
    (h.keeps_chain hc).resolve ht
  rcases h.findSome n chain with same | ⟨rfl, hnew⟩
  · left
    rw [Scopes.lookup?, Scopes.lookup?, hsearch, hsearch', same]
  · right
    have known' : id < t.scopes.fresh := h.fresh ▸ known
    exact ⟨rfl, (Scopes.nearest_iff ht known').mpr (hsearch'.trans hnew)⟩

/-- A binding in the scope itself is the nearest. -/
theorem nearest_self (h : s.Written t id name b) (ht : t.scopes.WellFormed)
    (known : id < t.scopes.fresh) : t.scopes.Nearest id name id b := by
  obtain ⟨chain, hc⟩ := ht.exists_chain known
  have hb : t.scopes.local? id name = some b := by rw [h.binding, if_pos ⟨rfl, rfl⟩]
  cases hc with
  | root hp => exact ⟨[], [], .root hp, by simp, hb⟩
  | inside hp around => exact ⟨[], _, .inside hp around, by simp, hb⟩

/-- The nearest variable stays the nearest when it changes. -/
theorem nearest (h : s.Written t owner name b) {old : Binding}
    (hn : s.scopes.Nearest id name owner old) : t.scopes.Nearest id name owner b := by
  obtain ⟨inner, outer, hc, hi, ho⟩ := hn
  refine ⟨inner, outer, h.keeps_chain hc, fun i hm => ?_, ?_⟩
  · have hne : ¬ (i = owner ∧ name = name) := by
      intro he
      rw [← he.1, hi i hm] at ho
      cases ho
    rw [h.binding, if_neg hne]
    exact hi i hm
  · rw [h.binding, if_pos ⟨rfl, rfl⟩]

theorem define (known : id < s.scopes.fresh) (free : s.scopes.local? id name = none)
    (b : Binding) : s.Written (s.define id name b).2 id name b := by
  have hd : (s.scopes.define id name b).2 = s.scopes.modify id (·.insert name b) := by
    simp [Scopes.define, free]
  constructor
  · intro i n
    rw [define_scopes, hd, Scopes.local_insert]
    by_cases hi : i = id ∧ n = name
    · obtain ⟨rfl, rfl⟩ := hi
      have hc : s.scopes.cells[i]? = some s.scopes.cells[i] := Array.getElem?_eq_getElem known
      simp [hc]
    · rw [if_neg hi, if_neg fun h => hi ⟨h.1.symm, h.2⟩]
  · intro i
    rw [define_scopes, hd]
    exact Scopes.parent_modify _ _ _ fun _ => rfl
  · rw [define_scopes, hd, Scopes.fresh_modify]
  · rfl
  · rfl

theorem reassign (found : s.scopes.resolve? id name = some (owner, b))
    (h : b.isMutable = true) (v : Value) :
    s.Written (s.reassign id name v).2 owner name ⟨v, true⟩ := by
  have ha : (s.scopes.assign id name v).2 = s.scopes.modify owner (·.update name v) := by
    simp [Scopes.assign_eq, Scopes.assignFound, found, h]
  constructor
  · intro i n
    rw [reassign_scopes, ha, Scopes.local_update]
    by_cases hi : i = owner ∧ n = name
    · obtain ⟨rfl, rfl⟩ := hi
      simp [Scopes.local_of_resolve found, h]
    · rw [if_neg hi, if_neg fun h => hi ⟨h.1.symm, h.2⟩]
  · intro i
    rw [reassign_scopes, ha]
    exact Scopes.parent_modify _ _ _ fun _ => rfl
  · rw [reassign_scopes, ha, Scopes.fresh_modify]
  · rfl
  · rfl

end Written

/-- What is left of an assignment when its value is known. -/
def settle (s : Session) (id : ScopeId) (name : String) (type : Option TypeTag) (isMutable : Bool)
    (v : Value) (line : Nat) : Plan .block :=
  .attempt line (s.assign id name type isMutable v) fun _ s => .become (.block [] id) s

variable {type : Option TypeTag} {isMutable : Bool} {line : Nat} {verdict : Verdict}

theorem settle_refused {fault : Fault}
    (ha : s.assign id name type isMutable v = (.error fault, s))
    (hf : fault ≠ .unknownVariable name) :
    ∃ answer, Finishes (s.settle id name type isMutable v line) answer ∧
      s.Obeys id name v line (.refuse fault) answer := by
  unfold settle
  rw [ha]
  exact ⟨_, .finish _, .refuse hf⟩

theorem settle_written (hs : s.scopes.WellFormed) (ht : t.scopes.WellFormed)
    (known : id < s.scopes.fresh) (ha : s.assign id name type isMutable v = (.ok (), t))
    (hw : s.Written t owner name b) (hn : t.scopes.Nearest id name owner b) (hv : b.value = v) :
    ∃ answer, Finishes (s.settle id name type isMutable v line) answer ∧
      s.Obeys id name v line (.write owner b) answer := by
  have known' : id < t.scopes.fresh := hw.fresh ▸ known
  have own : t.scopes.lookup? id name = some v := by
    rw [Scopes.lookup?, (Scopes.nearest_iff ht known').mp hn, ← hv]
    rfl
  unfold settle
  rw [ha]
  exact ⟨_, .become (.finish _), .write hw own fun i hi n => hw.lookup hs ht hi n⟩

theorem settle_defined (hs : s.scopes.WellFormed) (known : id < s.scopes.fresh)
    (free : s.scopes.local? id name = none)
    (ha : s.assign id name type isMutable v = s.define id name ⟨v, isMutable⟩) :
    ∃ answer, Finishes (s.settle id name type isMutable v line) answer ∧
      s.Obeys id name v line (.write id ⟨v, isMutable⟩) answer := by
  have hd : s.define id name ⟨v, isMutable⟩ = (.ok (), (s.define id name ⟨v, isMutable⟩).2) := by
    simp [Session.define, Scopes.define, free]
  have ht : (s.define id name ⟨v, isMutable⟩).2.scopes.WellFormed :=
    hs.define id name ⟨v, isMutable⟩
  have hw := Written.define known free ⟨v, isMutable⟩
  have known' : id < (s.define id name ⟨v, isMutable⟩).2.scopes.fresh := hw.fresh ▸ known
  exact settle_written hs ht known (ha.trans hd) hw (hw.nearest_self ht known') rfl

/-- One case for each case of the rule. -/
theorem settle_obeys (hs : s.scopes.WellFormed) (known : id < s.scopes.fresh)
    (h : s.scopes.Rules id name isMutable v type verdict) :
    ∃ answer, Finishes (s.settle id name type isMutable v line) answer ∧
      s.Obeys id name v line verdict answer := by
  cases h with
  | mismatch h =>
    apply settle_refused
    · simp [assign, h]
    · simp
  | occupied h bound =>
    apply settle_refused
    · simp [assign, h, Session.define, Scopes.define, bound]
    · simp
  | introduced h free =>
    apply settle_defined hs known free
    simp [assign, h]
  | unbound free =>
    have hr := (Scopes.unbound_iff hs known).mp free
    obtain ⟨chain, hc, hn⟩ := free
    have hm : id ∈ chain := by cases hc <;> simp
    apply settle_defined hs known (hn id hm)
    simp [assign, Scopes.lookup?, hr]
  | immutable nearest hm =>
    have hr := (Scopes.nearest_iff hs known).mp nearest
    apply settle_refused
    · simp [assign, Scopes.lookup?, hr, Session.reassign, Scopes.assign_eq, Scopes.assignFound, hm]
    · simp
  | changed nearest hm =>
    have hr := (Scopes.nearest_iff hs known).mp nearest
    have ha : s.assign id name none isMutable v = (.ok (), (s.reassign id name v).2) := by
      simp [assign, Scopes.lookup?, hr, Session.reassign, Scopes.assign_eq, Scopes.assignFound, hm]
    have ht : (s.reassign id name v).2.scopes.WellFormed := hs.assign id name v
    have hw := Written.reassign hr hm v
    exact settle_written hs ht known ha hw (hw.nearest nearest) rfl

/-- The rule leaves no case open. -/
theorem exists_verdict (hs : s.scopes.WellFormed) (known : id < s.scopes.fresh) (name : String)
    (type : Option TypeTag) (isMutable : Bool) (v : Value) :
    ∃ verdict, s.scopes.Rules id name isMutable v type verdict := by
  cases type with
  | some tag =>
    cases h : tag.admits v with
    | false => exact ⟨_, .mismatch h⟩
    | true =>
      cases hb : s.scopes.local? id name with
      | none => exact ⟨_, .introduced h hb⟩
      | some b => exact ⟨_, .occupied h hb⟩
  | none =>
    cases hr : s.scopes.resolve? id name with
    | none => exact ⟨_, .unbound ((Scopes.unbound_iff hs known).mpr hr)⟩
    | some found =>
      have hn := (Scopes.nearest_iff hs known).mpr hr
      cases hm : found.2.isMutable with
      | false => exact ⟨_, .immutable hn hm⟩
      | true => exact ⟨_, .changed hn hm⟩

/-- An assignment whose value has been found comes to exactly one verdict, in the session that
finding the value has led to, and the verdict is carried out. -/
theorem assignment_rule {e : Expr} (h : s.Reachable) (known : id < s.scopes.fresh)
    (hv : ∃ fuel, s.evalOperandIn id fuel e = some (.ok v, t)) (name : String)
    (type : Option TypeTag) (isMutable : Bool) (line : Nat) :
    ∃ verdict answer,
      (∀ other, t.scopes.Rules id name isMutable v type other ↔ other = verdict) ∧
        (∀ a, (∃ fuel, s.executeBlockIn id fuel [.assign name type isMutable e line] = some a) ↔
          a = answer) ∧
        t.Obeys id name v line verdict answer := by
  have step : s.Step t := by
    obtain ⟨fuel, hv⟩ := hv
    exact .evalOperand known hv
  have ht : t.scopes.WellFormed := (h.step step).wellFormed.scopes
  have known' : id < t.scopes.fresh := ((Keeps.step step).scope id known).1
  obtain ⟨verdict, hr⟩ := exists_verdict ht known' name type isMutable v
  obtain ⟨answer, ha, ho⟩ := settle_obeys ht known' hr
  have run : Finishes (Plan.block [.assign name type isMutable e line] id s) answer :=
    finishes_operand (evalOperandIn_eq_ok_iff.mp hv) ha
  refine ⟨verdict, answer, fun other => ?_, fun a => ?_, ho⟩
  · constructor
    · intro hother
      exact hother.unique ht known' hr
    · intro he
      rw [he]
      exact hr
  · rw [executeBlockIn_eq_some_iff]
    exact run.answer_iff

/-- For one, `x = x + 1` in a scope inside that of `x`. -/
theorem assignment_rule_outer :
    let s : Session := (({} : Session).define Scopes.globals "x" ⟨.int 1, true⟩).2.openScope 0
    let e : Expr := .binary .add (.var "x" 1) (.literal (.int 1) 1) 1
    (∃ fuel, s.evalOperandIn 1 fuel e = some (.ok (.int 2), s)) ∧
      s.scopes.Nearest 1 "x" Scopes.globals ⟨.int 1, true⟩ ∧
        ∃ t, (∃ fuel, s.executeBlockIn 1 fuel [.assign "x" none false e 1] =
          some ⟨.ok .normal, t⟩) ∧ s.Written t Scopes.globals "x" ⟨.int 2, true⟩ := by
  intro s e
  have known : 1 < s.scopes.fresh := by decide
  have reachable : s.Reachable :=
    .child (.define "x" ⟨.int 1, true⟩ (.start {}) (by decide)) (by decide)
  have value : ∃ fuel, s.evalOperandIn 1 fuel e = some (.ok (.int 2), s) := ⟨9, rfl⟩
  have nearest : s.scopes.Nearest 1 "x" Scopes.globals ⟨.int 1, true⟩ :=
    (Scopes.nearest_iff reachable.wellFormed.scopes known).mpr (by decide)
  obtain ⟨verdict, answer, rules, runs, obeys⟩ :=
    assignment_rule reachable known value "x" none false 1
  obtain rfl := (rules _).mp (.changed nearest rfl)
  cases obeys with
  | write written _ _ => exact ⟨value, nearest, _, (runs _).mpr rfl, written⟩

end Session

end Scriptlet
