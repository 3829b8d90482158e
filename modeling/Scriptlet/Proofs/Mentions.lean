import Mathlib.Data.Fintype.EquivFin
import Scriptlet.Proofs.Names
import Scriptlet.Proofs.Provenance

namespace Scriptlet

/-- The name of the variable or the function that a fault is about. -/
def Fault.name? : Fault → Option String
  | .unknownVariable name | .unknownFunction name | .alreadyDefined name
  | .argumentCountMismatch name _ _ | .immutableAssignment name => some name
  | .typeMismatch _ _ | .invalidOperands _ _ _ | .expectedBoolean _ | .missingValue
  | .divisionByZero | .overflow | .precisionLoss _ | .returnOutsideFunction | .output => none

/-- One renaming for variables and functions. -/
def Renaming.both (σ : String → String) : Renaming :=
  ⟨σ, σ⟩

@[simp]
theorem Renaming.var_both (σ : String → String) (name : String) : (both σ).var name = σ name :=
  rfl

@[simp]
theorem Renaming.fn_both (σ : String → String) (name : String) : (both σ).fn name = σ name :=
  rfl

theorem Fault.name?_rename (σ : String → String) (fault : Fault) :
    (fault.rename (.both σ)).name? = fault.name?.map σ := by
  cases fault <;> rfl

section Untouched

variable {σ : String → String}

/-- A renaming that leaves the names of an expression alone leaves the expression alone. -/
theorem Expr.rename_of_names {e : Expr} (h : ∀ x ∈ e.names, σ x = x) :
    e.rename (.both σ) = e := by
  fun_induction Expr.rename (.both σ) e with
  | case1 => rfl
  | case2 name line =>
    have hn : σ name = name := h name (by simp [names])
    rw [Renaming.var_both, hn]
  | case3 op left right line hl hr =>
    rw [names, List.forall_mem_append] at h
    rw [hl h.1, hr h.2]
  | case4 name arguments line ih =>
    rw [names, List.forall_mem_cons] at h
    have harguments : arguments.map (Expr.rename (.both σ)) = arguments := by
      refine (List.map_congr_left fun e he => ?_).trans (List.map_id arguments)
      exact ih e he fun x hx => h.2 x (List.mem_flatMap.mpr ⟨e, he, hx⟩)
    rw [harguments, Renaming.fn_both, h.1]

theorem Stmt.map_rename_of_names {body : List Stmt}
    (ih : ∀ s ∈ body, (∀ x ∈ s.names, σ x = x) → s.rename (.both σ) = s)
    (h : ∀ x ∈ body.flatMap Stmt.names, σ x = x) :
    body.map (Stmt.rename (.both σ)) = body := by
  refine (List.map_congr_left fun s hs => ?_).trans (List.map_id body)
  exact ih s hs fun x hx => h x (List.mem_flatMap.mpr ⟨s, hs, hx⟩)

theorem Param.map_rename_of_names {params : List Param}
    (h : ∀ x ∈ params.map Param.name, σ x = x) : params.map (Param.rename (.both σ)) = params := by
  refine (List.map_congr_left fun p hp => ?_).trans (List.map_id params)
  have hn : σ p.name = p.name := h p.name (List.mem_map_of_mem hp)
  rw [Param.rename, Renaming.var_both, hn]
  rfl

theorem Stmt.rename_of_names {s : Stmt} (h : ∀ x ∈ s.names, σ x = x) :
    s.rename (.both σ) = s := by
  fun_induction Stmt.rename (.both σ) s with
  | case1 name type isMutable value line =>
    rw [names, List.forall_mem_cons] at h
    rw [value.rename_of_names h.2, Renaming.var_both, h.1]
  | case2 test yes line ih =>
    rw [names, List.forall_mem_append] at h
    rw [test.rename_of_names h.1, map_rename_of_names ih h.2]
  | case3 test yes no line ihy ihn =>
    rw [names, List.forall_mem_append, List.forall_mem_append] at h
    rw [test.rename_of_names h.1.1, map_rename_of_names ihy h.1.2, map_rename_of_names ihn h.2]
  | case4 test body line ih =>
    rw [names, List.forall_mem_append] at h
    rw [test.rename_of_names h.1, map_rename_of_names ih h.2]
  | case5 name params returns body line ih =>
    rw [names, List.forall_mem_cons, List.forall_mem_append] at h
    rw [Param.map_rename_of_names h.2.1, map_rename_of_names ih h.2.2, Renaming.fn_both,
      h.1]
  | case6 value line =>
    rw [names] at h
    cases value with
    | none => rfl
    | some e => rw [Option.map_some, e.rename_of_names h]
  | case7 value line | case8 value line =>
    rw [names] at h
    rw [value.rename_of_names h]

end Untouched

/-- A run under other names that writes to a sink of its own, which is the same. -/
def Following.aliased (ν : Renaming) : Following where
  names := ν
  related _ s t := t = s.rename ν

section Aliased

variable {ν : Renaming} (hv : Function.Injective ν.var) (hf : Function.Injective ν.fn)
include hv hf

theorem Following.aliased_kept : (Following.aliased ν).Kept where
  fresh h := by
    subst h
    exact Scopes.fresh_rename _
  lookup id name h := by
    subst h
    exact Scopes.lookup_rename hv _ id name
  function name h := by
    subst h
    exact Session.function_rename hf _ name
  openScope id h := by
    subst h
    exact (Session.rename_openScope _ id).symm
  define {_ s _} id name b h := by
    subst h
    have hd := s.scopes.define_rename hv id name b
    exact ⟨congrArg Prod.fst hd, congrArg (Session.mk · _ _) (congrArg Prod.snd hd)⟩
  reassign {_ s _} id name v h := by
    subst h
    have ha := s.scopes.assign_rename hv id name v
    exact ⟨congrArg Prod.fst ha, congrArg (Session.mk · _ _) (congrArg Prod.snd ha)⟩
  declare name f h := by
    subst h
    exact (Session.rename_declare hf _ name f).symm
  print {_ s _} line text h hp := by
    subst h
    have hprint : (s.rename ν).print text = ((s.print text).1, (s.print text).2.rename ν) := by
      simp [Prod.ext_iff, Session.rename]
    rw [hprint] at hp ⊢
    exact ⟨hp, rfl⟩

end Aliased

namespace Session

theorem rename_fresh (ν : Renaming) (sink : Sink) :
    (⟨.start, [], sink⟩ : Session).rename ν = ⟨.start, [], sink⟩ := by
  simp [rename, Scopes.rename, Scopes.start, Scope.rename]

/-- A name that the program does not have can change places with another such name. The program is
the same then and has the same error, so the error is not about this name. -/
theorem mem_names_of_finishes {body : List Stmt} {sink : Sink} {a : Answer .program}
    {e : RuntimeError} {x : String}
    (h : Finishes (.ofTask (.program body) ⟨.start, [], sink⟩) a) (he : a.outcome = .error e)
    (hx : e.fault.name? = some x) : x ∈ body.flatMap Stmt.names := by
  by_contra hn
  obtain ⟨z, hz⟩ := Infinite.exists_notMem_finset (x :: body.flatMap Stmt.names).toFinset
  rw [List.mem_toFinset, List.mem_cons, not_or] at hz
  let σ := Equiv.swap x z
  have stays : body.map (Stmt.rename (.both σ)) = body := by
    apply Stmt.map_rename_of_names fun s _ => Stmt.rename_of_names
    intro y hy
    apply Equiv.swap_apply_of_ne_of_ne
    · exact ne_of_mem_of_not_mem hy hn
    · exact ne_of_mem_of_not_mem hy hz.2
  have hF : (Following.aliased (.both σ)).Kept :=
    Following.aliased_kept σ.injective σ.injective
  have hr : (Following.aliased (.both σ)).related [] ⟨.start, [], sink⟩ ⟨.start, [], sink⟩ :=
    (rename_fresh _ sink).symm
  obtain ⟨ps, hp⟩ := h.exists_prints (Task.program body).printLine?
  have hsame : (Task.program body).rename (.both σ) = .program body := congrArg Task.program stays
  cases hF.ends hp (hF.ofTask hr) with
  | together hend _ =>
    rw [show (Following.aliased (.both σ)).names = .both σ from rfl, hsame] at hend
    have hout := congrArg Answer.outcome (h.unique hend)
    rw [he] at hout
    have hfault : e.fault.rename (.both σ) = e.fault :=
      (congrArg RuntimeError.fault (Except.error.inj hout)).symm
    have hname := Fault.name?_rename σ e.fault
    rw [hfault, hx, Option.map_some, Equiv.swap_apply_left] at hname
    exact hz.1 (Option.some.inj hname).symm
  | refused _ _ _ hend =>
    rw [show (Following.aliased (.both σ)).names = .both σ from rfl, hsame] at hend
    have hout := congrArg Answer.outcome (h.unique hend)
    rw [he] at hout
    rw [Except.error.inj hout] at hx
    cases hx

end Session

end Scriptlet
