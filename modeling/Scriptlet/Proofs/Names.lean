import Mathlib.Logic.Function.Basic
import Scriptlet.Proofs.Following
import Scriptlet.Proofs.Requests

namespace Scriptlet

/-- The same variables under other names. -/
def Scope.rename (ν : Renaming) (s : Scope) : Scope :=
  ⟨s.bindings.map fun entry => (ν.var entry.1, entry.2), s.parent⟩

def Scopes.rename (ν : Renaming) (s : Scopes) : Scopes :=
  ⟨s.cells.map (Scope.rename ν)⟩

/-- The same variables and functions under other names, and the same output. -/
def Session.rename (ν : Renaming) (s : Session) : Session :=
  ⟨s.scopes.rename ν, s.functions.map fun entry => (ν.fn entry.1, entry.2.rename ν), s.sink⟩

/-- A table whose keys and entries have been replaced. -/
theorem lookup_map {β γ : Type} {g : String → String} (hg : Function.Injective g) (h : β → γ)
    (table : List (String × β)) (key : String) :
    (table.map fun entry => (g entry.1, h entry.2)).lookup (g key) = (table.lookup key).map h := by
  induction table with
  | nil => rfl
  | cons entry rest ih =>
    obtain ⟨other, b⟩ := entry
    by_cases hk : key = other
    · simp [hk]
    · have hg' : g key ≠ g other := fun he => hk (hg he)
      simp [lookup_entry, hk, hg', ih]

theorem eq_ok_of_toOption {ε α : Type} {x : Except ε α} {a : α} (h : x.toOption = some a) :
    x = .ok a := by
  cases x with
  | error e => cases h
  | ok b => exact congrArg Except.ok (Option.some.inj h)

/-- The error that an answer has in place of a result. -/
def Answer.error? {f : Form} : Answer f → Option RuntimeError
  | ⟨.error e, _⟩ => some e
  | ⟨.ok _, _⟩ => none

theorem Answer.outcome_of_error? {f : Form} {a : Answer f} {e : RuntimeError}
    (h : a.error? = some e) : a.outcome = .error e := by
  obtain ⟨e' | r, s⟩ := a
  · exact congrArg Except.error (Option.some.inj h)
  · cases h

variable {ν : Renaming} (hv : Function.Injective ν.var) (hf : Function.Injective ν.fn)

namespace Scope

include hv in
theorem find?_rename (s : Scope) (name : String) :
    (s.rename ν).find? (ν.var name) = s.find? name := by
  have h := lookup_map hv id s.bindings name
  rwa [Option.map_id] at h

include hv in
theorem rename_update (s : Scope) (name : String) (v : Value) :
    (s.update name v).rename ν = (s.rename ν).update (ν.var name) v := by
  simp only [rename, update, List.map_map]
  congr 1
  apply List.map_congr_left
  intro entry _
  obtain ⟨key, b⟩ := entry
  by_cases hk : key = name
  · simp [hk]
  · have hk' : ν.var key ≠ ν.var name := fun he => hk (hv he)
    simp [hk, hk']

end Scope

namespace Scopes

variable (s : Scopes) (id : ScopeId) (name : String)

theorem cell_rename : (s.rename ν).cells[id]? = s.cells[id]?.map (Scope.rename ν) := by
  simp [rename]

theorem fresh_rename : (s.rename ν).fresh = s.fresh := by
  simp [rename, fresh]

theorem parent_rename : (s.rename ν).parent? id = s.parent? id := by
  rw [parent?, cell_rename, parent?]
  cases s.cells[id]? <;> rfl

theorem rename_child : (s.child id).rename ν = (s.rename ν).child id := by
  simp [child, rename, Scope.rename]

theorem rename_modify (f g : Scope → Scope) (h : ∀ c, (f c).rename ν = g (c.rename ν)) :
    (s.modify id f).rename ν = (s.rename ν).modify id g := by
  have hcells : ((s.modify id f).rename ν).cells = ((s.rename ν).modify id g).cells := by
    apply Array.ext_getElem?
    intro i
    rw [cell_rename, cell_modify, cell_modify, cell_rename]
    split
    · cases s.cells[i]? <;> simp [h]
    · rfl
  exact congrArg Scopes.mk hcells

theorem rename_insert (b : Binding) :
    (s.modify id (·.insert name b)).rename ν =
      (s.rename ν).modify id (·.insert (ν.var name) b) := by
  apply rename_modify
  intro c
  rfl

include hv

theorem local_rename : (s.rename ν).local? id (ν.var name) = s.local? id name := by
  rw [local?, cell_rename, local?]
  cases s.cells[id]? with
  | none => rfl
  | some c => exact c.find?_rename hv name

theorem resolveWithin_rename (reach : Nat) :
    (s.rename ν).resolveWithin (ν.var name) reach id = s.resolveWithin name reach id := by
  induction reach generalizing id with
  | zero => rfl
  | succ reach ih =>
    simp only [resolveWithin, s.local_rename hv, s.parent_rename]
    split
    · rfl
    · cases s.parent? id with
      | none => rfl
      | some outer => exact ih outer

theorem resolve_rename : (s.rename ν).resolve? id (ν.var name) = s.resolve? id name :=
  s.resolveWithin_rename hv id name (id + 1)

theorem lookup_rename : (s.rename ν).lookup? id (ν.var name) = s.lookup? id name := by
  rw [lookup?, s.resolve_rename hv, lookup?]

theorem rename_update (v : Value) :
    (s.modify id (·.update name v)).rename ν =
      (s.rename ν).modify id (·.update (ν.var name) v) := by
  apply rename_modify
  intro c
  exact c.rename_update hv name v

theorem define_rename (b : Binding) :
    (s.rename ν).define id (ν.var name) b =
      ((s.define id name b).1.mapError (Fault.rename ν), (s.define id name b).2.rename ν) := by
  rw [define, s.local_rename hv, define]
  split
  · rfl
  · rw [← rename_insert]
    rfl

theorem assign_rename (v : Value) :
    (s.rename ν).assign id (ν.var name) v =
      ((s.assign id name v).1.mapError (Fault.rename ν), (s.assign id name v).2.rename ν) := by
  rw [assign_eq, s.resolve_rename hv, assign_eq]
  cases s.resolve? id name with
  | none => rfl
  | some found =>
    obtain ⟨owner, b⟩ := found
    simp only [assignFound]
    split
    · rw [← s.rename_update hv]
      rfl
    · rfl

end Scopes

namespace Session

variable (s : Session) (name : String)

include hf in
theorem function_rename :
    (s.rename ν).function? (ν.fn name) = (s.function? name).map (Function.rename ν) :=
  lookup_map hf (Function.rename ν) s.functions name

include hf in
theorem rename_declare (f : Function) :
    (s.declare name f).rename ν = (s.rename ν).declare (ν.fn name) (f.rename ν) := by
  have hothers : (s.functions.filter (·.1 ≠ name)).map (fun g => (ν.fn g.1, g.2.rename ν)) =
      (s.functions.map fun g => (ν.fn g.1, g.2.rename ν)).filter (·.1 ≠ ν.fn name) := by
    simp [List.filter_map, Function.comp_def, hf.eq_iff]
  simp only [rename, declare, List.map_cons, hothers]

theorem rename_openScope (id : ScopeId) :
    (s.openScope id).rename ν = (s.rename ν).openScope id := by
  rw [openScope, rename, Scopes.rename_child]
  rfl

end Session

/-- A run under other names, beside the run under the names of the program. -/
def Following.renamed (ν : Renaming) : Following where
  names := ν
  related _ s t := s.sink.Free ∧ t = s.rename ν

include hv hf in
theorem Following.renamed_kept : (Following.renamed ν).Kept where
  fresh h := by
    obtain ⟨_, rfl⟩ := h
    exact Scopes.fresh_rename _
  lookup id name h := by
    obtain ⟨_, rfl⟩ := h
    exact Scopes.lookup_rename hv _ id name
  function name h := by
    obtain ⟨_, rfl⟩ := h
    exact Session.function_rename hf _ name
  openScope id h := by
    obtain ⟨hs, rfl⟩ := h
    exact ⟨hs, (Session.rename_openScope _ id).symm⟩
  define {_ s _} id name b h := by
    obtain ⟨hs, rfl⟩ := h
    have hd := s.scopes.define_rename hv id name b
    exact ⟨congrArg Prod.fst hd, hs, congrArg (Session.mk · _ _) (congrArg Prod.snd hd)⟩
  reassign {_ s _} id name v h := by
    obtain ⟨hs, rfl⟩ := h
    have ha := s.scopes.assign_rename hv id name v
    exact ⟨congrArg Prod.fst ha, hs, congrArg (Session.mk · _ _) (congrArg Prod.snd ha)⟩
  declare name f h := by
    obtain ⟨hs, rfl⟩ := h
    exact ⟨hs, (Session.rename_declare hf _ name f).symm⟩
  print {_ s _} line text h _ := by
    obtain ⟨hs, rfl⟩ := h
    have hprint : (s.rename ν).print text =
        ((s.print text).1, (s.print text).2.rename ν) := by
      simp [Prod.ext_iff, Session.rename]
    rw [hprint, Session.print_session, hs.print]
    exact ⟨by simp [hs.print], ⟨rfl, rfl⟩, rfl⟩

/-- The sink under other names is the same one, so it refuses nothing either. -/
theorem Following.renamed_print {past : List Printing} {s t : Session} (text : String)
    (h : (Following.renamed ν).related past s t) : (t.print text).1 = .ok () := by
  obtain ⟨hs, rfl⟩ := h
  have ht : (s.rename ν).sink.Free := hs
  simp [ht.print]

namespace Session

variable (ν) in
theorem rename_empty : ({} : Session).rename ν = {} := by
  simp [rename, Scopes.rename, Scopes.start, Scope.rename]

variable (ν) in
theorem related_empty : (Following.renamed ν).related [] {} {} :=
  ⟨⟨rfl, rfl⟩, (rename_empty ν).symm⟩

variable {body : List Stmt}

theorem execute_eq_some_iff {s : Session} {a : Answer .program} :
    (∃ fuel, s.execute fuel body = some a) ↔ Finishes (Plan.program body s) a :=
  complete_eq_some_iff

include hv hf in
/-- If a program comes to an end in a fresh session, so it does under other names, and with the same
under those names. -/
theorem finishes_program_rename {a : Answer .program} (h : Finishes (Plan.program body {}) a) :
    Finishes (Plan.program (body.map (Stmt.rename ν)) {})
      ⟨a.outcome.mapError (RuntimeError.rename ν), a.session.rename ν⟩ := by
  let task : Task .program := .program body
  have htask : Finishes (.ofTask task {}) a := h
  obtain ⟨_, u, hr, hend⟩ :=
    (Following.renamed_kept hv hf).finishes Following.renamed_print htask (related_empty ν)
  obtain ⟨_, rfl⟩ := hr
  exact hend

include hv hf in
theorem exists_finishes_program {b : Answer .program}
    (h : Finishes (Plan.program (body.map (Stmt.rename ν)) {}) b) :
    ∃ a, Finishes (Plan.program body {}) a := by
  let task : Task .program := .program body
  have hfollows : Follows _ [] task.printLine? (.ofTask task {}) _ :=
    (Following.renamed_kept hv hf).ofTask (related_empty ν)
  obtain ⟨a, _, ha, _⟩ := (Following.renamed_kept hv hf).ended Following.renamed_print h hfollows
  exact ⟨a, ha⟩

/-- Names are inert, and those of variables have nothing to do with those of functions. Rename all
variables of a program, parameters included, and all its functions, different ones to different
names. The program comes to an end in a fresh session under the new names if and only if it does
under the old ones. It then writes the same, leaves the same under the new names, and has the same
result, where an error has the new name in it. -/
theorem execute_rename (ν : Renaming) (hv : Function.Injective ν.var)
    (hf : Function.Injective ν.fn) (body : List Stmt) :
    ((∃ fuel b, ({} : Session).execute fuel (body.map (Stmt.rename ν)) = some b) ↔
      ∃ fuel a, ({} : Session).execute fuel body = some a) ∧
    ∀ fuel fuel' a b, ({} : Session).execute fuel body = some a →
      ({} : Session).execute fuel' (body.map (Stmt.rename ν)) = some b →
      b.outcome = a.outcome.mapError (RuntimeError.rename ν) ∧
      b.session.sink.written = a.session.sink.written ∧
      (∀ name, b.session.scopes.local? Scopes.globals (ν.var name) =
        a.session.scopes.local? Scopes.globals name) ∧
      b.session = a.session.rename ν := by
  refine ⟨⟨?_, ?_⟩, ?_⟩
  · rintro ⟨fuel, b, hb⟩
    obtain ⟨a, ha⟩ := exists_finishes_program hv hf (finishes_of_complete hb)
    obtain ⟨fuel, ha⟩ := execute_eq_some_iff.mpr ha
    exact ⟨fuel, a, ha⟩
  · rintro ⟨fuel, a, ha⟩
    have hb := finishes_program_rename hv hf (finishes_of_complete ha)
    obtain ⟨fuel, hb⟩ := execute_eq_some_iff.mpr hb
    exact ⟨fuel, _, hb⟩
  · intro fuel fuel' a b ha hb
    have hb' := finishes_program_rename hv hf (finishes_of_complete ha)
    obtain rfl := (finishes_of_complete hb).unique hb'
    exact ⟨rfl, rfl, fun name => a.session.scopes.local_rename hv _ name, rfl⟩

/-- For one, where a function, its parameter and a variable share a name, and get a `v` or an `f` in
front of it. The error at the end is about a variable. -/
theorem execute_rename_shared :
    ∃ body fuel b,
      Stmt.ofText "a = 1\nfn a(a: i32) \x7b\n a = a + 1\n return a\n\x7d\nb = a(a)\nprint(c)" =
        .ok body ∧
      ({} : Session).execute fuel (body.map (Stmt.rename ⟨("v" ++ ·), ("f" ++ ·)⟩)) = some b ∧
      b.outcome = .error ⟨.unknownVariable "vc", 7⟩ ∧
      b.session.scopes.local? Scopes.globals "vb" = some ⟨.int 2, true⟩ := by
  have hread : (Stmt.ofText
      "a = 1\nfn a(a: i32) \x7b\n a = a + 1\n return a\n\x7d\nb = a(a)\nprint(c)").toOption.bind
        (fun body => (({} : Session).execute 60 body).map fun a =>
          (a.error?, a.session.scopes.local? Scopes.globals "b")) =
      some (some ⟨.unknownVariable "c", 7⟩, some ⟨.int 2, true⟩) := by decide +kernel
  have hinj (letter : String) : Function.Injective (letter ++ ·) :=
    fun _ _ h => (String.append_right_inj letter).mp h
  obtain ⟨body, hbody, ha⟩ := Option.bind_eq_some_iff.mp hread
  obtain ⟨a, ha, hshown⟩ := Option.map_eq_some_iff.mp ha
  obtain ⟨herror, hlocal⟩ := Prod.mk.inj hshown
  have hrename := execute_rename ⟨("v" ++ ·), ("f" ++ ·)⟩ (hinj "v") (hinj "f") body
  obtain ⟨fuel, b, hb⟩ := hrename.1.mpr ⟨60, a, ha⟩
  obtain ⟨houtcome, _, hglobals, _⟩ := hrename.2 60 fuel a b ha hb
  refine ⟨body, fuel, b, eq_ok_of_toOption hbody, hb, ?_, ?_⟩
  · rw [houtcome, Answer.outcome_of_error? herror]
    rfl
  · exact (hglobals "b").trans hlocal

end Session

end Scriptlet
