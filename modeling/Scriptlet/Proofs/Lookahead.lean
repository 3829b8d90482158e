import Scriptlet.Proofs.Grammar

namespace Scriptlet

def Level.rank : Level → Nat
  | .comparison => 0
  | .additive => 1
  | .multiplicative => 2

namespace Grammar

/-- The tokens start with one of a kind in this class. -/
def Begins (K : Token.Kind → Bool) (ts : List Token) : Prop :=
  ∃ t us, ts = t :: us ∧ K t.kind = true

def startsExpression : Token.Kind → Bool
  | .int _ | .float _ | .str _ | .bool _ | .name _ => true
  | kind => kind = .mark .openParen

def startsStatement : Token.Kind → Bool
  | .keyword .letWord | .keyword .ifWord | .keyword .whileWord | .keyword .fnWord
  | .keyword .returnWord | .keyword .printWord | .name _ => true
  | _ => false

theorem ne_of_startsStatement {t : Token} {kind : Token.Kind} (ht : startsStatement t.kind = true)
    (h : startsStatement kind = false) : t.kind ≠ kind := by
  rintro rfl
  simp [h] at ht

theorem Begins.append {K : Token.Kind → Bool} {ts : List Token} (h : Begins K ts)
    (us : List Token) : Begins K (ts ++ us) := by
  obtain ⟨t, vs, rfl, ht⟩ := h
  exact ⟨t, vs ++ us, rfl, ht⟩

theorem Chain.begins {level : Level} {Operand : List Token → Expr → Prop} {K : Token.Kind → Bool}
    (ho : ∀ {ts e}, Operand ts e → Begins K ts) {ts : List Token} {e : Expr}
    (h : Chain level Operand ts e) : Begins K ts := by
  induction h with
  | operand h => exact ho h
  | operation _ _ _ _ ih => exact ih.append _

theorem ExpressionOver.begins {Primary : List Token → Expr → Prop} {K : Token.Kind → Bool}
    (hp : ∀ {ts e}, Primary ts e → Begins K ts) {ts : List Token} {e : Expr}
    (h : ExpressionOver Primary ts e) : Begins K ts :=
  Chain.begins (Chain.begins (Chain.begins hp)) h

theorem Separated.begins {α : Type} {Item : List Token → α → Prop} {K : Token.Kind → Bool}
    (hi : ∀ {ts a}, Item ts a → Begins K ts) {ts : List Token} {as : List α}
    (h : Separated Item ts as) : Begins K ts := by
  cases h with
  | one item => exact hi item
  | more item _ _ => exact (hi item).append _

theorem Listed.exists_cons {α : Type} {Item : List Token → α → Prop} {ts : List Token} {as : List α}
    (h : Listed Item ts as) : ∃ left us, ts = left :: us ∧ left.kind = .mark .openParen := by
  cases h with
  | empty hl _ | items hl _ _ => exact ⟨_, _, rfl, hl⟩

theorem PrimaryOver.begins {Inner : List Token → Expr → Prop} {ts : List Token} {e : Expr}
    (h : PrimaryOver Inner ts e) : Begins startsExpression ts := by
  cases h with
  | @literal t v hv =>
    refine ⟨t, [], rfl, ?_⟩
    cases hk : t.kind <;> simp_all [literal?, startsExpression]
  | var hn => exact ⟨_, [], rfl, by simp [hn, startsExpression]⟩
  | call h =>
    cases h with
    | mk hn _ => exact ⟨_, _, rfl, by simp [hn, startsExpression]⟩
  | group hl _ _ => exact ⟨_, _, rfl, by simp [hl, startsExpression]⟩

theorem Parameter.begins {ts : List Token} {p : Param} (h : Parameter ts p) :
    Begins startsExpression ts := by
  cases h with
  | mk hn _ _ => exact ⟨_, _, rfl, by simp [hn, startsExpression]⟩

theorem StatementOver.begins {G : List Token → Token → Stmt → Prop} {ts : List Token} {next : Token}
    {s : Stmt} (h : StatementOver G ts next s) : Begins startsStatement ts := by
  cases h with
  | declaration hw | branch hw | loop hw | function hw | leave hw | leaveValue hw | print hw =>
    exact ⟨_, _, rfl, by simp [hw, startsStatement]⟩
  | reassignment hn => exact ⟨_, _, rfl, by simp [hn, startsStatement]⟩
  | call h =>
    cases h with
    | mk hn _ => exact ⟨_, _, rfl, by simp [hn, startsStatement]⟩

/-- Whether a token of this kind goes on an expression of operations from this rank on. -/
def goesOn (rank : Nat) : Token.Kind → Bool
  | .mark .openParen => true
  | .operator op => rank ≤ op.level.rank
  | _ => false

/-- An expression of operations from this rank on ends in front of these tokens. -/
def Ends (rank : Nat) (tokens : List Token) : Prop :=
  ∀ t more, tokens = t :: more → goesOn rank t.kind = false

theorem ends_cons {rank : Nat} {t : Token} {more : List Token} :
    Ends rank (t :: more) ↔ goesOn rank t.kind = false := by
  simp [Ends]

/-- Whether a token of this kind can follow a statement and its newlines. -/
def resumes : Token.Kind → Bool
  | .mark .closeBrace | .endOfInput => true
  | kind => startsStatement kind

theorem goesOn_of_resumes {kind : Token.Kind} (h : resumes kind = true) :
    goesOn 0 kind = false := by
  cases kind with
  | mark m => cases m <;> simp_all [goesOn, resumes, startsStatement]
  | _ => simp_all [goesOn, resumes, startsStatement]

/-- A statement ends in front of these tokens. -/
def Resumes (tokens : List Token) : Prop :=
  Begins resumes (Parser.dropNewlines tokens)

section Newlines

variable {t : Token} {tokens : List Token}

@[simp]
theorem dropNewlines_newline (h : t.kind = .newline) :
    Parser.dropNewlines (t :: tokens) = Parser.dropNewlines tokens := by
  simp [Parser.dropNewlines, h]

theorem dropNewlines_cons (h : t.kind ≠ .newline) :
    Parser.dropNewlines (t :: tokens) = t :: tokens := by
  simp [Parser.dropNewlines, h]

theorem dropNewlines_append {newlines : List Token} (h : ∀ t ∈ newlines, t.kind = .newline) :
    Parser.dropNewlines (newlines ++ tokens) = Parser.dropNewlines tokens := by
  induction newlines with
  | nil => rfl
  | cons t newlines ih =>
    rw [List.cons_append, dropNewlines_newline (h t List.mem_cons_self)]
    exact ih fun u hu => h u (List.mem_cons_of_mem t hu)

theorem resumes_newline (h : t.kind = .newline) : Resumes (t :: tokens) ↔ Resumes tokens := by
  simp [Resumes, h]

theorem Begins.resumes (h : Begins Grammar.resumes tokens) : Resumes tokens := by
  obtain ⟨t, us, rfl, ht⟩ := h
  have hk : t.kind ≠ .newline := by
    intro hk
    simp [hk, Grammar.resumes, startsStatement] at ht
  exact ⟨t, us, dropNewlines_cons hk, ht⟩

theorem Resumes.ends (h : Resumes tokens) : Ends 0 tokens := by
  rintro t more rfl
  by_cases hk : t.kind = .newline
  · simp [hk, goesOn]
  · obtain ⟨u, us, hu, hr⟩ := h
    rw [dropNewlines_cons hk] at hu
    obtain ⟨rfl, rfl⟩ := List.cons.inj hu
    exact goesOn_of_resumes hr

end Newlines

/-- A body is what may follow a statement. -/
theorem Body.resumes {G : List Token → Token → Stmt → Prop}
    (hG : ∀ {ts next s}, G ts next s → Begins startsStatement ts) {closing : Token.Kind}
    (hc : Grammar.resumes closing = true) {ts : List Token} {body : List Stmt}
    (h : Body G closing ts body) (rest : List Token) : Resumes (ts ++ rest) := by
  induction h with
  | close hk => exact Begins.resumes ⟨_, _, rfl, by rw [hk, hc]⟩
  | newline hk _ ih => exact (resumes_newline hk).2 ih
  | statement head _ _ =>
    obtain ⟨t, us, rfl, ht⟩ := hG head
    refine Begins.resumes ⟨t, _, rfl, ?_⟩
    unfold Grammar.resumes
    split <;> simp_all

section Clean

variable {α : Type} {ts us : List Token} {e : Expr}

def Clean (ts : List Token) : Prop :=
  ∀ t ∈ ts, t.kind ≠ .endOfInput

@[simp]
theorem clean_nil : Clean [] := by
  simp [Clean]

@[simp]
theorem clean_cons {t : Token} : Clean (t :: ts) ↔ t.kind ≠ .endOfInput ∧ Clean ts := by
  simp [Clean]

@[simp]
theorem clean_append : Clean (ts ++ us) ↔ Clean ts ∧ Clean us := by
  simp [Clean, or_imp, forall_and]

theorem Separated.clean {Item : List Token → α → Prop} {as : List α}
    (hi : ∀ {ts a}, Item ts a → Clean ts) (h : Separated Item ts as) : Clean ts := by
  induction h with
  | one item => exact hi item
  | more item hc _ ih => simp [hi item, hc, ih]

theorem Listed.clean {Item : List Token → α → Prop} {as : List α}
    (hi : ∀ {ts a}, Item ts a → Clean ts) (h : Listed Item ts as) : Clean ts := by
  cases h with
  | empty hl hr => simp [hl, hr]
  | items hl items hr => simp [hl, items.clean hi, hr]

theorem Chain.clean {level : Level} {Operand : List Token → Expr → Prop}
    (ho : ∀ {ts e}, Operand ts e → Clean ts) (h : Chain level Operand ts e) : Clean ts := by
  induction h with
  | operand h => exact ho h
  | operation _ ht _ right ih => simp [ih, ht, ho right]

theorem Call.clean {Argument : List Token → Expr → Prop} (ha : ∀ {ts e}, Argument ts e → Clean ts)
    (h : Call Argument ts e) : Clean ts := by
  cases h with
  | mk hn arguments => simp [hn, arguments.clean ha]

theorem PrimaryOver.clean {Inner : List Token → Expr → Prop} (hi : ∀ {ts e}, Inner ts e → Clean ts)
    (h : PrimaryOver Inner ts e) : Clean ts := by
  cases h with
  | @literal t v hv =>
    have ht : t.kind ≠ .endOfInput := by
      intro ht
      simp [ht, literal?] at hv
    simp [ht]
  | var hn => simp [hn]
  | call h => exact h.clean hi
  | group hl inner hr => simp [hl, hi inner, hr]

theorem Expression.clean (h : Expression ts e) : Clean ts := by
  have hp {ts : List Token} {e : Expr} (h : Primary ts e) : Clean ts :=
    h.least (PrimaryOver.clean (Chain.clean (Chain.clean (Chain.clean id))))
  exact Chain.clean (Chain.clean (Chain.clean hp)) h

theorem Flag.clean {word : Keyword} {b : Bool} (h : Flag word ts b) : Clean ts := by
  cases h with
  | absent => simp
  | present hk => simp [hk]

theorem TypeBehind.clean {mark : Mark} {tag : Option TypeTag} (h : TypeBehind mark ts tag) :
    Clean ts := by
  cases h with
  | absent => simp
  | present hm ht => simp [hm, ht]

theorem Parameter.clean {p : Param} (h : Parameter ts p) : Clean ts := by
  cases h with
  | mk hn hc ht => simp [hn, hc, ht]

section Statements

variable {G : List Token → Token → Stmt → Prop} (hG : ∀ {ts next s}, G ts next s → Clean ts)

include hG

theorem Body.clean {closing : Token.Kind} {body : List Stmt} (h : Body G closing ts body) :
    ∃ us t, ts = us ++ [t] ∧ t.kind = closing ∧ Clean us := by
  induction h with
  | @close t hk => exact ⟨[], t, rfl, hk, clean_nil⟩
  | @newline u _ _ hk _ ih =>
    obtain ⟨us, t, rfl, ht, hus⟩ := ih
    exact ⟨u :: us, t, rfl, ht, by simp [hk, hus]⟩
  | @statement ts _ _ _ _ head _ ih =>
    obtain ⟨us, t, hus, ht, hclean⟩ := ih
    exact ⟨ts ++ us, t, by simp [hus], ht, by simp [hG head, hclean]⟩

theorem Block.clean {body : List Stmt} (h : Block G ts body) : Clean ts := by
  cases h with
  | mk hb rest =>
    obtain ⟨us, t, rfl, ht, hus⟩ := rest.clean hG
    simp [hb, ht, hus]

theorem Alternative.clean {no : Option (List Stmt)} (h : Alternative G ts no) : Clean ts := by
  cases h with
  | absent => simp
  | @present newlines _ _ _ hn hw block =>
    have hnl : Clean newlines := fun t ht => by simp [hn t ht]
    simp [hnl, hw, block.clean hG]

theorem StatementOver.clean {next : Token} {s : Stmt} (h : StatementOver G ts next s) :
    Clean ts := by
  cases h with
  | declaration hw hm hn ht ha value => simp [hw, hm.clean, hn, ht.clean, ha, value.clean]
  | reassignment hn ha value => simp [hn, ha, value.clean]
  | branch hw condition block alternative =>
    simp [hw, condition.clean, block.clean hG, alternative.clean hG]
  | loop hw condition block => simp [hw, condition.clean, block.clean hG]
  | function hw hn hp hr block =>
    simp [hw, hn, hp.clean Parameter.clean, hr.clean, block.clean hG]
  | leave hw _ => simp [hw]
  | leaveValue hw value => simp [hw, value.clean]
  | print hw hl value hr => simp [hw, hl, value.clean, hr]
  | call h => exact h.clean Expression.clean

end Statements

theorem upToEnd_append {t : Token} {rest : List Token} (hts : Clean ts)
    (ht : t.kind = .endOfInput) : upToEnd (ts ++ t :: rest) = ts ++ [t] := by
  have hpos : ∀ u ∈ ts, decide (u.kind ≠ .endOfInput) = true := fun u hu => by simpa using hts u hu
  rw [upToEnd, List.takeWhile_append_of_pos hpos, List.dropWhile_append_of_pos hpos]
  simp [ht]

/-- What stands behind the token for the end does not belong to a program. -/
theorem Program.upToEnd {body : List Stmt} (h : Program ts body) (rest : List Token) :
    upToEnd (ts ++ rest) = ts := by
  have hG {ts : List Token} {next : Token} {s : Stmt} (h : Statement ts next s) : Clean ts :=
    h.least (StatementOver.clean id)
  obtain ⟨us, t, rfl, ht, hus⟩ := Body.clean hG h
  rw [List.append_assoc]
  exact upToEnd_append hus ht

theorem exists_upToEnd (tokens : List Token) : ∃ rest, tokens = Grammar.upToEnd tokens ++ rest := by
  refine ⟨(tokens.dropWhile (·.kind ≠ .endOfInput)).drop 1, ?_⟩
  rw [Grammar.upToEnd, List.append_assoc, List.take_append_drop, List.takeWhile_append_dropWhile]

end Clean

end Grammar

end Scriptlet
