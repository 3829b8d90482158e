import Scriptlet.Proofs.Lookahead

namespace Scriptlet

/-- Every expression that is a statement by itself, at any depth, is a call. -/
inductive Stmt.CallsAlone : Stmt → Prop where
  | assign {name : String} {type : Option TypeTag} {isMutable : Bool} {e : Expr} {line : Nat} :
      CallsAlone (.assign name type isMutable e line)
  | branch {e : Expr} {yes : List Stmt} {no : Option (List Stmt)} {line : Nat}
      (hy : ∀ s ∈ yes, CallsAlone s) (hn : ∀ body, no = some body → ∀ s ∈ body, CallsAlone s) :
      CallsAlone (.branch e yes no line)
  | loop {e : Expr} {body : List Stmt} {line : Nat} (hb : ∀ s ∈ body, CallsAlone s) :
      CallsAlone (.loop e body line)
  | function {name : String} {params : List Param} {returns : Option TypeTag} {body : List Stmt}
      {line : Nat} (hb : ∀ s ∈ body, CallsAlone s) :
      CallsAlone (.function name params returns body line)
  | leave {value : Option Expr} {line : Nat} : CallsAlone (.leave value line)
  | print {e : Expr} {line : Nat} : CallsAlone (.print e line)
  | call {name : String} {arguments : List Expr} {line line' : Nat} :
      CallsAlone (.expression (.call name arguments line) line')

namespace Rendering

open Grammar (Listed Separated Parameter Flag TypeBehind literal?)

/-- An expression where operations of a rank below `rank` need parentheses. The left operand needs
them around an operation that binds less tightly, the right one also around one that binds as
tightly, and there may be more parentheses around anything. -/
inductive Written : Nat → List Token → Expr → Prop where
  | literal {rank line : Nat} {t : Token} {v : Value} (hv : literal? t.kind = some v) :
      Written rank [t] (.literal v line)
  | var {rank line : Nat} {t : Token} {name : String} (hn : t.kind = .name name) :
      Written rank [t] (.var name line)
  | call {rank line : Nat} {t : Token} {name : String} {ts : List Token} {es : List Expr}
      (hn : t.kind = .name name) (arguments : Listed (Written 0) ts es) :
      Written rank (t :: ts) (.call name es line)
  | binary {rank line : Nat} {ls rs : List Token} {operator : Token} {op : Operator} {l r : Expr}
      (hr : rank ≤ op.level.rank) (left : Written op.level.rank ls l)
      (ho : operator.kind = .operator op) (right : Written (op.level.rank + 1) rs r) :
      Written rank (ls ++ operator :: rs) (.binary op l r line)
  | group {rank : Nat} {left right : Token} {ts : List Token} {e : Expr}
      (hl : left.kind = .mark .openParen) (inner : Written 0 ts e)
      (hr : right.kind = .mark .closeParen) : Written rank (left :: (ts ++ [right])) e

/-- A call without parentheses around it. -/
inductive BareCall : List Token → Expr → Prop where
  | mk {line : Nat} {t : Token} {name : String} {ts : List Token} {es : List Expr}
      (hn : t.kind = .name name) (arguments : Listed (Written 0) ts es) :
      BareCall (t :: ts) (.call name es line)

mutual

/-- The ways to write a statement; `Alone` is how an expression is written that is one by itself. -/
inductive Statement (Alone : List Token → Expr → Prop) : List Token → Stmt → Prop where
  | declaration {line : Nat} {word t assign : Token} {ms as ts : List Token} {isMutable : Bool}
      {name : String} {type : Option TypeTag} {e : Expr} (hw : word.kind = .keyword .letWord)
      (hm : Flag .mutWord ms isMutable) (hn : t.kind = .name name)
      (ht : TypeBehind .colon as type) (ha : assign.kind = .mark .assign) (value : Written 0 ts e) :
      Statement Alone (word :: (ms ++ t :: (as ++ assign :: ts)))
        (.assign name type isMutable e line)
  | reassignment {line : Nat} {t assign : Token} {ts : List Token} {name : String} {e : Expr}
      (hn : t.kind = .name name) (ha : assign.kind = .mark .assign) (value : Written 0 ts e) :
      Statement Alone (t :: assign :: ts) (.assign name none true e line)
  | branch {line : Nat} {word : Token} {ts ys ns : List Token} {e : Expr} {yes : List Stmt}
      {no : Option (List Stmt)} (hw : word.kind = .keyword .ifWord) (condition : Written 0 ts e)
      (block : Block Alone ys yes) (alternative : Alternative Alone ns no) :
      Statement Alone (word :: (ts ++ (ys ++ ns))) (.branch e yes no line)
  | loop {line : Nat} {word : Token} {ts us : List Token} {e : Expr} {body : List Stmt}
      (hw : word.kind = .keyword .whileWord) (condition : Written 0 ts e)
      (block : Block Alone us body) : Statement Alone (word :: (ts ++ us)) (.loop e body line)
  | function {line : Nat} {word t : Token} {ps as ts : List Token} {name : String}
      {params : List Param} {returns : Option TypeTag} {body : List Stmt}
      (hw : word.kind = .keyword .fnWord) (hn : t.kind = .name name)
      (hp : Listed Parameter ps params) (hr : TypeBehind .arrow as returns)
      (block : Block Alone ts body) :
      Statement Alone (word :: t :: (ps ++ (as ++ ts))) (.function name params returns body line)
  | leave {line : Nat} {word : Token} (hw : word.kind = .keyword .returnWord) :
      Statement Alone [word] (.leave none line)
  | leaveValue {line : Nat} {word : Token} {ts : List Token} {e : Expr}
      (hw : word.kind = .keyword .returnWord) (value : Written 0 ts e) :
      Statement Alone (word :: ts) (.leave (some e) line)
  | print {line : Nat} {word left right : Token} {ts : List Token} {e : Expr}
      (hw : word.kind = .keyword .printWord) (hl : left.kind = .mark .openParen)
      (value : Written 0 ts e) (hr : right.kind = .mark .closeParen) :
      Statement Alone (word :: left :: (ts ++ [right])) (.print e line)
  | expression {line : Nat} {ts : List Token} {e : Expr} (h : Alone ts e) :
      Statement Alone ts (.expression e line)

inductive Block (Alone : List Token → Expr → Prop) : List Token → List Stmt → Prop where
  | mk {left right : Token} {ts : List Token} {body : List Stmt}
      (hl : left.kind = .mark .openBrace) (lines : Lines Alone ts body)
      (hr : right.kind = .mark .closeBrace) : Block Alone (left :: (ts ++ [right])) body

/-- An `else` may stand behind newlines. -/
inductive Alternative (Alone : List Token → Expr → Prop) :
    List Token → Option (List Stmt) → Prop where
  | absent : Alternative Alone [] none
  | present {newlines ts : List Token} {word : Token} {no : List Stmt}
      (hn : ∀ t ∈ newlines, t.kind = .newline) (hw : word.kind = .keyword .elseWord)
      (block : Block Alone ts no) : Alternative Alone (newlines ++ word :: ts) (some no)

/-- Statements with at least one newline between any two of them, and any number of newlines before
the first and behind the last. -/
inductive Lines (Alone : List Token → Expr → Prop) : List Token → List Stmt → Prop where
  | none : Lines Alone [] []
  | newline {t : Token} {ts : List Token} {body : List Stmt} (hk : t.kind = .newline)
      (rest : Lines Alone ts body) : Lines Alone (t :: ts) body
  | last {ts : List Token} {s : Stmt} (h : Statement Alone ts s) : Lines Alone ts [s]
  | more {t : Token} {ts us : List Token} {s : Stmt} {body : List Stmt} (h : Statement Alone ts s)
      (hk : t.kind = .newline) (rest : Lines Alone us body) :
      Lines Alone (ts ++ t :: us) (s :: body)

end

section Existence

/-- A token of this kind, wherever it stands. -/
def token (kind : Token.Kind) : Token :=
  ⟨kind, {}⟩

theorem exists_separated {α : Type} {Item : List Token → α → Prop} {a : α} {as : List α}
    (h : ∀ b ∈ a :: as, ∃ ts, Item ts b) : ∃ ts, Separated Item ts (a :: as) := by
  induction as generalizing a with
  | nil =>
    obtain ⟨ts, ha⟩ := h a (by simp)
    exact ⟨ts, .one ha⟩
  | cons b as ih =>
    obtain ⟨ts, ha⟩ := h a (by simp)
    obtain ⟨us, hrest⟩ := ih fun c hc => h c (List.mem_cons_of_mem a hc)
    have hmore : Separated Item (ts ++ token (.mark .comma) :: us) (a :: b :: as) :=
      .more ha rfl hrest
    exact ⟨_, hmore⟩

theorem exists_listed {α : Type} {Item : List Token → α → Prop} {as : List α}
    (h : ∀ a ∈ as, ∃ ts, Item ts a) : ∃ ts, Listed Item ts as := by
  cases as with
  | nil => exact ⟨[token (.mark .openParen), token (.mark .closeParen)], .empty rfl rfl⟩
  | cons a as =>
    obtain ⟨ts, hts⟩ := exists_separated h
    exact ⟨token (.mark .openParen) :: (ts ++ [token (.mark .closeParen)]), .items rfl hts rfl⟩

theorem exists_literal (v : Value) : ∃ kind, literal? kind = some v := by
  cases v with
  | int n => exact ⟨.int n, rfl⟩
  | float x => exact ⟨.float x, rfl⟩
  | str s => exact ⟨.str s, rfl⟩
  | bool b => exact ⟨.bool b, rfl⟩

theorem exists_written (e : Expr) (rank : Nat) : ∃ ts, Written rank ts e := by
  match e with
  | .literal v line =>
    obtain ⟨kind, hv⟩ := exists_literal v
    exact ⟨[token kind], .literal hv⟩
  | .var name line => exact ⟨[token (.name name)], .var rfl⟩
  | .binary op l r line =>
    obtain ⟨ls, hl⟩ := exists_written l op.level.rank
    obtain ⟨rs, hr⟩ := exists_written r (op.level.rank + 1)
    have hwhole : Written 0 (ls ++ token (.operator op) :: rs) (.binary op l r line) :=
      .binary (Nat.zero_le _) hl rfl hr
    exact ⟨token (.mark .openParen) :: (_ ++ [token (.mark .closeParen)]), .group rfl hwhole rfl⟩
  | .call name es line =>
    have hes : ∀ e ∈ es, ∃ ts, Written 0 ts e := fun e he => exists_written e 0
    obtain ⟨ts, hts⟩ := exists_listed hes
    exact ⟨token (.name name) :: ts, .call rfl hts⟩
termination_by sizeOf e
decreasing_by
  all_goals simp_wf
  all_goals first | omega | (have h := List.sizeOf_lt_of_mem he; omega)

theorem exists_listed_params (params : List Param) : ∃ ts, Listed Parameter ts params := by
  apply exists_listed
  intro p _
  obtain ⟨name, tag⟩ := p
  exact ⟨[token (.name name), token (.mark .colon), token (.typeTag tag)], .mk rfl rfl rfl⟩

theorem exists_flag (word : Keyword) (b : Bool) : ∃ ts, Flag word ts b := by
  cases b with
  | false => exact ⟨[], .absent⟩
  | true => exact ⟨[token (.keyword word)], .present rfl⟩

theorem exists_typeBehind (mark : Mark) (type : Option TypeTag) :
    ∃ ts, TypeBehind mark ts type := by
  cases type with
  | none => exact ⟨[], .absent⟩
  | some tag => exact ⟨[token (.mark mark), token (.typeTag tag)], .present rfl rfl⟩

section Statements

variable {Alone : List Token → Expr → Prop} {body : List Stmt}

theorem exists_lines (h : ∀ s ∈ body, ∃ ts, Statement Alone ts s) : ∃ ts, Lines Alone ts body := by
  induction body with
  | nil => exact ⟨[], .none⟩
  | cons s body ih =>
    obtain ⟨ts, hs⟩ := h s (by simp)
    obtain ⟨us, hbody⟩ := ih fun t ht => h t (List.mem_cons_of_mem s ht)
    exact ⟨ts ++ token .newline :: us, .more hs rfl hbody⟩

theorem exists_block (h : ∀ s ∈ body, ∃ ts, Statement Alone ts s) : ∃ ts, Block Alone ts body := by
  obtain ⟨ts, hlines⟩ := exists_lines h
  exact ⟨token (.mark .openBrace) :: (ts ++ [token (.mark .closeBrace)]), .mk rfl hlines rfl⟩

theorem exists_alternative {no : Option (List Stmt)}
    (h : ∀ body, no = some body → ∀ s ∈ body, ∃ ts, Statement Alone ts s) :
    ∃ ts, Alternative Alone ts no := by
  cases no with
  | none => exact ⟨[], .absent⟩
  | some body =>
    obtain ⟨ts, hblock⟩ := exists_block (h body rfl)
    exact ⟨[] ++ token (.keyword .elseWord) :: ts, .present (by simp) rfl hblock⟩

/-- Calls are all that a statement must be able to write by themselves. -/
theorem exists_statement (ha : ∀ name es line, ∃ ts, Alone ts (.call name es line)) {s : Stmt}
    (h : s.CallsAlone) : ∃ ts, Statement Alone ts s := by
  induction h with
  | @assign name type isMutable e line =>
    obtain ⟨ts, he⟩ := exists_written e 0
    obtain ⟨ms, hm⟩ := exists_flag .mutWord isMutable
    obtain ⟨as, ht⟩ := exists_typeBehind .colon type
    exact ⟨token (.keyword .letWord) ::
      (ms ++ token (.name name) :: (as ++ token (.mark .assign) :: ts)),
      .declaration rfl hm rfl ht rfl he⟩
  | @branch e yes no line _ _ ihy ihn =>
    obtain ⟨ts, he⟩ := exists_written e 0
    obtain ⟨ys, hyes⟩ := exists_block ihy
    obtain ⟨ns, hno⟩ := exists_alternative ihn
    exact ⟨token (.keyword .ifWord) :: (ts ++ (ys ++ ns)), .branch rfl he hyes hno⟩
  | @loop e body line _ ih =>
    obtain ⟨ts, he⟩ := exists_written e 0
    obtain ⟨us, hbody⟩ := exists_block ih
    exact ⟨token (.keyword .whileWord) :: (ts ++ us), .loop rfl he hbody⟩
  | @function name params returns body line _ ih =>
    obtain ⟨ps, hp⟩ := exists_listed_params params
    obtain ⟨as, hr⟩ := exists_typeBehind .arrow returns
    obtain ⟨ts, hbody⟩ := exists_block ih
    exact ⟨token (.keyword .fnWord) :: token (.name name) :: (ps ++ (as ++ ts)),
      .function rfl rfl hp hr hbody⟩
  | @leave value line =>
    cases value with
    | none => exact ⟨[token (.keyword .returnWord)], .leave rfl⟩
    | some e =>
      obtain ⟨ts, he⟩ := exists_written e 0
      exact ⟨token (.keyword .returnWord) :: ts, .leaveValue rfl he⟩
  | @print e line =>
    obtain ⟨ts, he⟩ := exists_written e 0
    exact ⟨token (.keyword .printWord) :: token (.mark .openParen) ::
      (ts ++ [token (.mark .closeParen)]), .print rfl rfl he rfl⟩
  | @call name es line line' =>
    obtain ⟨ts, hts⟩ := ha name es line
    exact ⟨ts, .expression hts⟩

end Statements

theorem exists_bareCall (name : String) (es : List Expr) (line : Nat) :
    ∃ ts, BareCall ts (.call name es line) := by
  obtain ⟨ts, hts⟩ := exists_listed fun e (_ : e ∈ es) => exists_written e 0
  exact ⟨token (.name name) :: ts, .mk rfl hts⟩

end Existence

end Rendering

end Scriptlet
