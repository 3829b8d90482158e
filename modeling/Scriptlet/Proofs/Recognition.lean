import Scriptlet.Proofs.Completeness
import Scriptlet.Proofs.Derivation

namespace Scriptlet.Parser

open Grammar

variable {tokens rest : List Token}

section Statements

variable {G : List Token → Token → Stmt → Prop} {statement : Parser Stmt} {n bound : Nat}
  {ts : List Token} {body found : List Stmt}

/-- The parser reads the statement in front of these tokens, and perhaps a newline with it. -/
def ReadsLine (p : Parser Stmt) (ts : List Token) (s : Stmt) (next : Token) (more : List Token) :
    Prop :=
  ∃ rest, p.Reads (ts ++ next :: more) s rest ∧
    (rest = next :: more ∨ next.kind = .newline ∧ rest = more)

/-- As `Complete`, for a parser of statements that takes one newline behind them. -/
def CompleteLine (p : Parser Stmt) (G : List Token → Token → Stmt → Prop) (n : Nat) : Prop :=
  ∀ ⦃ts : List Token⦄ ⦃next : Token⦄ ⦃s : Stmt⦄ ⦃more : List Token⦄,
    G ts next s → ts.length ≤ n → Resumes (next :: more) → p.ReadsLine ts s next more

theorem reads_statementsUntilBrace_newline {t : Token} (ht : t.kind = .newline) :
    (statementsUntilBrace statement bound found).Reads (t :: tokens) body rest ↔
      (statementsUntilBrace statement bound found).Reads tokens body rest := by
  cases bound with
  | zero => simp [statementsUntilBrace]
  | succ bound => simp [statementsUntilBrace, skipNewlines, dropNewlines_newline ht]

theorem reads_statementsUntilBrace_cons {t : Token} (ht : t.kind ≠ .newline) :
    (statementsUntilBrace statement (bound + 1) found).Reads (t :: tokens) body rest ↔
      t.kind = .mark .closeBrace ∧ found.reverse = body ∧ tokens = rest ∨
        t.kind ≠ .mark .closeBrace ∧ t.kind ≠ .endOfInput ∧
          ∃ s mid, statement.Reads (t :: tokens) s mid ∧
            (statementsUntilBrace statement bound (s :: found)).Reads mid body rest := by
  simp [statementsUntilBrace, skipNewlines, dropNewlines_cons ht, and_assoc, and_comm]

theorem CompleteLine.statementsUntilBrace (hs : CompleteLine statement G n)
    (hG : ∀ {ts next s}, G ts next s → Begins startsStatement ts)
    (h : Body G (.mark .closeBrace) ts body) (hn : ts.length ≤ n) (hb : ts.length ≤ bound) :
    (statementsUntilBrace statement bound found).Reads (ts ++ rest) (found.reverse ++ body)
      rest := by
  induction h generalizing bound found with
  | @close t hk =>
    obtain ⟨bound, rfl⟩ : ∃ b, bound = b + 1 := ⟨bound - 1, by simp at hb; omega⟩
    exact (reads_statementsUntilBrace_cons (by simp [hk])).2 (.inl ⟨hk, by simp, rfl⟩)
  | @newline t ts body hk _ ih =>
    simp only [List.length_cons] at hn hb
    exact (reads_statementsUntilBrace_newline hk).2 (ih (by omega) (by omega))
  | @statement ts us next s body head hrest ih =>
    simp only [List.length_append, List.length_cons] at hn hb ih
    obtain ⟨left, hread, hleft⟩ := hs head (by omega) (hrest.resumes hG rfl rest)
    obtain ⟨t, vs, rfl, ht⟩ := hG head
    simp only [List.length_cons] at hb
    obtain ⟨bound, rfl⟩ : ∃ b, bound = b + 1 := ⟨bound - 1, by omega⟩
    have hmore : (Parser.statementsUntilBrace statement bound (s :: found)).Reads
        (next :: us ++ rest) ((s :: found).reverse ++ body) rest := ih (by omega) (by omega)
    rw [List.reverse_cons, List.append_assoc] at hmore
    refine (reads_statementsUntilBrace_cons (ne_of_startsStatement ht rfl)).2 (.inr
      ⟨ne_of_startsStatement ht rfl, ne_of_startsStatement ht rfl, s, left, by simpa using hread,
        ?_⟩)
    rcases hleft with rfl | ⟨hnext, rfl⟩
    · exact hmore
    · exact (reads_statementsUntilBrace_newline hnext).1 hmore

theorem CompleteLine.blockOf (hs : CompleteLine statement G n)
    (hG : ∀ {ts next s}, G ts next s → Begins startsStatement ts) (hb : n ≤ bound) :
    Complete (blockOf statement bound) (Block G) (fun _ => True) n := by
  intro ts body rest h hn _
  cases h with
  | @mk brace ts body hbrace hbody =>
    simp only [List.length_cons] at hn
    have hread : (Parser.statementsUntilBrace statement bound []).Reads (ts ++ rest) body rest :=
      hs.statementsUntilBrace hG hbody (by omega) (by omega)
    simp only [Parser.blockOf, reads_bind, reads_discard, reads_expect]
    exact ⟨(), _, ⟨brace, rfl, hbrace⟩, hread⟩

theorem CompleteLine.alternativeOf (hs : CompleteLine statement G n)
    (hG : ∀ {ts next s}, G ts next s → Begins startsStatement ts) (hb : n ≤ bound) :
    Complete (alternativeOf statement bound) (Alternative G) Resumes n := by
  intro ts no rest h hn hr
  simp only [Parser.alternativeOf, reads_bind, reads_get]
  refine ⟨_, _, ⟨rfl, rfl⟩, ?_⟩
  cases h with
  | absent =>
    obtain ⟨t, us, hd, ht⟩ := hr
    have hk : t.kind ≠ .keyword .elseWord := by
      intro hk
      simp [hk, resumes, startsStatement] at ht
    rw [List.nil_append, hd]
    simp [hk]
  | @present newlines ts word no hnl hw block =>
    simp only [List.length_append, List.length_cons] at hn
    have hread : (Parser.blockOf statement bound).Reads (ts ++ rest) no rest :=
      hs.blockOf hG hb block (by omega) trivial
    have hword : dropNewlines (newlines ++ word :: (ts ++ rest)) = word :: (ts ++ rest) := by
      rw [dropNewlines_append hnl, dropNewlines_cons (by simp [hw])]
    rw [List.append_assoc, List.cons_append, hword]
    simpa [hw] using hread

section Forms

variable {word t : Token} {e : Expr} {name : String}

theorem complete_declaration {assign : Token} {ms as : List Token} {isMutable : Bool}
    {type : Option TypeTag} (hw : word.kind = .keyword .letWord) (hm : Flag .mutWord ms isMutable)
    (hn : t.kind = .name name) (ht : TypeBehind .colon as type) (ha : assign.kind = .mark .assign)
    (value : Expression ts e) (hb : ts.length ≤ bound) (hr : Ends 0 rest) :
    (declaration bound).Reads (word :: (ms ++ t :: (as ++ assign :: (ts ++ rest))))
      (.assign name type isMutable e word.line) rest := by
  simp only [declaration, reads_bind, reads_expect, reads_name, reads_discard, reads_pure]
  exact ⟨word, _, ⟨rfl, hw⟩, isMutable, _, complete_flag hm (by simp [hn]), name, _, ⟨t, rfl, hn⟩,
    type, _, complete_typeBehind ht (by simp [ha]), (), _, ⟨assign, rfl, ha⟩, e, rest,
    complete_expression value hb hr, rfl, rfl⟩

theorem complete_reassignment {assign : Token} (hn : t.kind = .name name)
    (ha : assign.kind = .mark .assign) (value : Expression ts e) (hb : ts.length ≤ bound)
    (hr : Ends 0 rest) :
    (reassignment bound).Reads (t :: assign :: (ts ++ rest)) (.assign name none true e t.line)
      rest := by
  simp only [reassignment, reads_bind, reads_peek, reads_name, reads_discard, reads_expect,
    reads_pure]
  exact ⟨t, _, ⟨⟨_, rfl⟩, rfl⟩, name, _, ⟨t, rfl, hn⟩, (), _, ⟨assign, rfl, ha⟩, e, rest,
    complete_expression value hb hr, rfl, rfl⟩

theorem complete_leave (hw : word.kind = .keyword .returnWord) (ht : endsReturn t.kind = true) :
    (leave bound).Reads (word :: t :: rest) (.leave none word.line) (t :: rest) := by
  simp only [leave_eq, leaveBehind, reads_bind, reads_expect, reads_peek, reads_ite, reads_pure]
  exact ⟨word, _, ⟨rfl, hw⟩, t, _, ⟨⟨_, rfl⟩, rfl⟩, .inl ⟨ht, rfl, rfl⟩⟩

theorem complete_leaveValue (hw : word.kind = .keyword .returnWord) (value : Expression ts e)
    (hb : ts.length ≤ bound) (hr : Ends 0 rest) :
    (leave bound).Reads (word :: (ts ++ rest)) (.leave (some e) word.line) rest := by
  have hread : (expression bound).Reads (ts ++ rest) e rest := complete_expression value hb hr
  obtain ⟨t, us, rfl, ht⟩ := ExpressionOver.begins primary_begins value
  have hgoes : ¬endsReturn t.kind = true := by
    intro hends
    unfold endsReturn at hends
    split at hends <;> simp_all [startsExpression]
  simp only [leave_eq, leaveBehind, reads_bind, reads_expect, reads_peek, reads_ite, reads_pure]
  exact ⟨word, _, ⟨rfl, hw⟩, t, _, ⟨⟨_, rfl⟩, rfl⟩, .inr ⟨hgoes, e, rest, hread, rfl, rfl⟩⟩

theorem complete_print {left right : Token} (hw : word.kind = .keyword .printWord)
    (hl : left.kind = .mark .openParen) (value : Expression ts e)
    (hright : right.kind = .mark .closeParen) (hb : ts.length ≤ bound) :
    (print bound).Reads (word :: left :: (ts ++ right :: rest)) (.print e word.line) rest := by
  have hends : Ends 0 (right :: rest) := by simp [ends_cons, goesOn, hright]
  simp only [print, reads_bind, reads_expect, reads_discard, reads_pure]
  exact ⟨word, _, ⟨rfl, hw⟩, (), _, ⟨left, rfl, hl⟩, e, _, complete_expression value hb hends,
    (), rest, ⟨right, rfl, hright⟩, rfl, rfl⟩

theorem block_ends (h : Block G ts body) (rest : List Token) : Ends 0 (ts ++ rest) := by
  cases h with
  | mk hb _ => simp [ends_cons, goesOn, hb]

variable (hs : CompleteLine statement G n)
  (hG : ∀ {ts next s}, G ts next s → Begins startsStatement ts) (hb : n ≤ bound)

include hs hG hb

theorem CompleteLine.branchOf {ys ns : List Token} {yes : List Stmt} {no : Option (List Stmt)}
    (hw : word.kind = .keyword .ifWord) (condition : Expression ts e) (block : Block G ys yes)
    (alternative : Alternative G ns no) (hn : ts.length + ys.length + ns.length ≤ n)
    (hr : Resumes rest) :
    (branchOf statement bound).Reads (word :: (ts ++ (ys ++ (ns ++ rest))))
      (.branch e yes no word.line) rest := by
  simp only [Parser.branchOf, reads_bind, reads_expect, reads_pure]
  exact ⟨word, _, ⟨rfl, hw⟩, e, _, complete_expression condition (by omega) (block_ends block _),
    yes, _, hs.blockOf hG hb block (by omega) trivial,
    no, rest, hs.alternativeOf hG hb alternative (by omega) hr, rfl, rfl⟩

theorem CompleteLine.loopOf {us : List Token} (hw : word.kind = .keyword .whileWord)
    (condition : Expression ts e) (block : Block G us body) (hn : ts.length + us.length ≤ n) :
    (loopOf statement bound).Reads (word :: (ts ++ (us ++ rest))) (.loop e body word.line)
      rest := by
  simp only [Parser.loopOf, reads_bind, reads_expect, reads_pure]
  exact ⟨word, _, ⟨rfl, hw⟩, e, _, complete_expression condition (by omega) (block_ends block _),
    body, rest, hs.blockOf hG hb block (by omega) trivial, rfl, rfl⟩

theorem CompleteLine.functionOf {ps as : List Token} {params : List Param}
    {returns : Option TypeTag} (hw : word.kind = .keyword .fnWord) (hname : t.kind = .name name)
    (hp : Listed Parameter ps params) (hreturns : TypeBehind .arrow as returns)
    (block : Block G ts body) (hn : ps.length + as.length + ts.length ≤ n) :
    (functionOf statement bound).Reads (word :: t :: (ps ++ (as ++ (ts ++ rest))))
      (.function name params returns body word.line) rest := by
  obtain ⟨left, us, rfl, hl⟩ := hp.exists_cons
  simp only [List.length_cons] at hn
  have hparams : (parenthesized param bound).Reads (us ++ (as ++ (ts ++ rest))) params
      (as ++ (ts ++ rest)) :=
    complete_param.parenthesized (fun _ _ _ => trivial) Parameter.begins hp (Nat.le_refl _)
      (by omega)
  have hbody : (Parser.blockOf statement bound).Reads (ts ++ rest) body rest :=
    hs.blockOf hG hb block (by omega) trivial
  cases block with
  | mk hbrace _ =>
    simp only [Parser.functionOf, reads_bind, reads_expect, reads_name, reads_discard, reads_pure]
    exact ⟨word, _, ⟨rfl, hw⟩, name, _, ⟨t, rfl, hname⟩, (), _, ⟨left, rfl, hl⟩, params, _, hparams,
      returns, _, complete_typeBehind hreturns (by simp [hbrace]), body, rest, hbody, rfl, rfl⟩

end Forms

/-- The rest of a statement that starts with this token is read if the whole is. -/
theorem CompleteLine.statementFrom (hs : CompleteLine statement G n)
    (hG : ∀ {ts next s}, G ts next s → Begins startsStatement ts) (hb : n ≤ bound)
    {first next : Token} {s : Stmt} {more : List Token} (h : StatementOver G (first :: ts) next s)
    (hn : ts.length ≤ n) (hr : Resumes (next :: more)) :
    (statementFrom first statement bound).Reads (first :: (ts ++ next :: more)) s
      (next :: more) := by
  have hends : Ends 0 (next :: more) := hr.ends
  unfold Parser.statementFrom
  cases h with
  | @declaration _ t assign _ ms as ts isMutable name type e hw hm hname ht ha value =>
    simp only [List.length_append, List.length_cons] at hn
    simpa [hw] using complete_declaration hw hm hname ht ha value (by omega) hends
  | @reassignment _ assign _ ts name e hname ha value =>
    simp only [List.length_cons] at hn
    have hread : (reassignment bound).Reads (first :: assign :: (ts ++ next :: more))
        (.assign name none true e first.line) (next :: more) :=
      complete_reassignment hname ha value (by omega) hends
    simp only [hname, reads_bind, reads_followedBy, reads_ite]
    exact ⟨false, _, ⟨by simp [ha], rfl⟩, .inr ⟨by simp, true, _, ⟨by simp [ha], rfl⟩,
      .inl ⟨rfl, hread⟩⟩⟩
  | @branch _ _ ts ys ns e yes no hw condition block alternative =>
    simp only [List.length_append] at hn
    simpa [hw] using hs.branchOf hG hb hw condition block alternative (by omega) hr
  | @loop _ _ ts us e body hw condition block =>
    simp only [List.length_append] at hn
    simpa [hw] using hs.loopOf hG hb hw condition block (by omega)
  | @function _ t _ ps as ts name params returns body hw hname hp hreturns block =>
    simp only [List.length_append, List.length_cons] at hn
    simpa [hw] using hs.functionOf hG hb hw hname hp hreturns block (by omega)
  | leave hw hnext => simpa [hw] using complete_leave hw hnext
  | @leaveValue _ _ ts e hw value => simpa [hw] using complete_leaveValue hw value (by omega) hends
  | @print _ left right _ ts e hw hl value hright =>
    simp only [List.length_append, List.length_cons] at hn
    simpa [hw] using complete_print hw hl value hright (by omega)
  | @call _ _ ts e h =>
    have hread : (Parser.call bound).Reads (first :: ts ++ next :: more) e (next :: more) :=
      complete_call h (by simp only [List.length_cons]; omega) trivial
    cases h with
    | mk hname ha =>
      obtain ⟨left, us, rfl, hl⟩ := ha.exists_cons
      simp only [hname, reads_bind, reads_followedBy, reads_ite]
      exact ⟨true, _, ⟨by simp [hl], rfl⟩, .inl ⟨rfl, _, _, hread, by simp⟩⟩

/-- What the parser for one statement leaves, by whether a newline comes next. -/
theorem reads_skipNewline {t : Token} {u : Unit} :
    skipNewline.Reads (t :: tokens) u (if t.kind = .newline then tokens else t :: tokens) := by
  obtain ⟨kind, position⟩ := t
  simp only [skipNewline, reads_modify]
  split <;> simp_all

theorem completeLine_statement : CompleteLine (Parser.statement n) Statement n := by
  let P (ts : List Token) (next : Token) (s : Stmt) : Prop :=
    Begins startsStatement ts ∧ ∀ bound more, ts.length ≤ bound → Resumes (next :: more) →
      (Parser.statement bound).ReadsLine ts s next more
  have step {ts : List Token} {next : Token} {s : Stmt} (h : StatementOver P ts next s) :
      P ts next s := by
    refine ⟨h.begins, fun bound more hn hr => ?_⟩
    obtain ⟨first, ts, rfl, _⟩ := h.begins
    cases bound with
    | zero => simp at hn
    | succ bound =>
      have hP : CompleteLine (Parser.statement bound) P bound :=
        fun _ _ _ more h hn hr => h.2 bound more hn hr
      have hread := hP.statementFrom (fun h => h.1) (Nat.le_refl bound) h
        (Nat.le_of_succ_le_succ hn) hr
      refine ⟨if next.kind = .newline then more else next :: more, ?_, ?_⟩
      · simp only [Parser.statement, reads_bind, reads_peek, reads_pure]
        exact ⟨first, _, ⟨⟨_, rfl⟩, rfl⟩, s, _, hread, (), _, reads_skipNewline, rfl, rfl⟩
      · by_cases hk : next.kind = .newline <;> simp [hk]
  intro ts next s more h hn hr
  have hPts : P ts next s := h.least step
  exact hPts.2 n more hn hr

theorem statement_begins {next : Token} {s : Stmt} (h : Statement ts next s) :
    Begins startsStatement ts := by
  cases h with
  | mk h => exact h.begins

theorem reads_statementsUntilEnd_newline {t : Token} (ht : t.kind = .newline) :
    (statementsUntilEnd bound found).Reads (t :: tokens) body rest ↔
      (statementsUntilEnd bound found).Reads tokens body rest := by
  cases bound with
  | zero => simp [statementsUntilEnd]
  | succ bound => simp [statementsUntilEnd, skipNewlines, dropNewlines_newline ht]

theorem reads_statementsUntilEnd_cons {t : Token} (ht : t.kind ≠ .newline) :
    (statementsUntilEnd (bound + 1) found).Reads (t :: tokens) body rest ↔
      t.kind = .endOfInput ∧ found.reverse = body ∧ t :: tokens = rest ∨
        t.kind ≠ .endOfInput ∧
          ∃ s mid, (Parser.statement (bound + 1)).Reads (t :: tokens) s mid ∧
            (statementsUntilEnd bound (s :: found)).Reads mid body rest := by
  simp [statementsUntilEnd, skipNewlines, dropNewlines_cons ht, and_assoc]

theorem complete_statementsUntilEnd (h : Program ts body) (hb : ts.length ≤ bound) :
    ∃ left, (statementsUntilEnd bound found).Reads (ts ++ rest) (found.reverse ++ body) left := by
  induction h generalizing bound found with
  | @close t hk =>
    obtain ⟨bound, rfl⟩ : ∃ b, bound = b + 1 := ⟨bound - 1, by simp at hb; omega⟩
    exact ⟨_, (reads_statementsUntilEnd_cons (by simp [hk])).2 (.inl ⟨hk, by simp, rfl⟩)⟩
  | @newline t ts body hk _ ih =>
    simp only [List.length_cons] at hb
    have hread : ∃ left, (statementsUntilEnd bound found).Reads (ts ++ rest)
        (found.reverse ++ body) left := ih (by omega)
    obtain ⟨left, hread⟩ := hread
    exact ⟨left, (reads_statementsUntilEnd_newline hk).2 hread⟩
  | @statement ts us next s body head hrest ih =>
    simp only [List.length_append, List.length_cons] at hb ih
    have hr : Resumes (next :: (us ++ rest)) := Body.resumes statement_begins rfl hrest rest
    have hline : (Parser.statement bound).ReadsLine ts s next (us ++ rest) :=
      completeLine_statement head (by omega) hr
    obtain ⟨mid, hread, hmid⟩ := hline
    obtain ⟨t, vs, rfl, ht⟩ := statement_begins head
    simp only [List.length_cons] at hb
    obtain ⟨bound, rfl⟩ : ∃ b, bound = b + 1 := ⟨bound - 1, by omega⟩
    have hmore : ∃ left, (statementsUntilEnd bound (s :: found)).Reads (next :: us ++ rest)
        ((s :: found).reverse ++ body) left := ih (by omega)
    obtain ⟨left, hmore⟩ := hmore
    rw [List.reverse_cons, List.append_assoc] at hmore
    refine ⟨left, (reads_statementsUntilEnd_cons (ne_of_startsStatement ht rfl)).2 (.inr
      ⟨ne_of_startsStatement ht rfl, s, mid, by simpa using hread, ?_⟩)⟩
    rcases hmid with rfl | ⟨hnext, rfl⟩
    · exact hmore
    · exact (reads_statementsUntilEnd_newline hnext).1 hmore

end Statements

end Scriptlet.Parser

namespace Scriptlet.Stmt

open Grammar

variable {tokens ts : List Token} {body : List Stmt}

theorem ofTokens_of_program (h : Program ts body) (rest : List Token) :
    ofTokens (ts ++ rest) = .ok body := by
  have hread : ∃ left, (Parser.statementsUntilEnd (ts ++ rest).length []).Reads (ts ++ rest) body
      left := Parser.complete_statementsUntilEnd h (by simp)
  obtain ⟨left, hread⟩ := hread
  unfold Parser.Reads at hread
  rw [ofTokens, hread]

theorem program_of_ofTokens (h : ofTokens tokens = .ok body) : Program (upToEnd tokens) body := by
  have hread : (Parser.statementsUntilEnd tokens.length []).Reads tokens body
      ((Parser.statementsUntilEnd tokens.length []).parse tokens).2 := by
    unfold Parser.Reads
    rw [← h]
    rfl
  obtain ⟨ts, more, body, htokens, hp, rfl⟩ := Parser.sound_statementsUntilEnd hread
  rw [htokens, hp.upToEnd more]
  exact hp

/-- The parser accepts exactly the programs of the grammar, where what stands behind the first token
for the end does not matter, and gives the tree of their derivation. So no tokens stand for two
programs. -/
theorem ofTokens_eq_ok_iff_program :
    (∀ (tokens : List Token) (body : List Stmt),
      ofTokens tokens = .ok body ↔ Program (upToEnd tokens) body) ∧
    (∀ (tokens : List Token) (p q : List Stmt), Program tokens p → Program tokens q → p = q) := by
  constructor
  · intro tokens body
    constructor
    · exact program_of_ofTokens
    · intro h
      obtain ⟨rest, htokens⟩ := exists_upToEnd tokens
      rw [htokens]
      exact ofTokens_of_program h rest
  · intro tokens p q hp hq
    have hok : (.ok p : Except ParseError (List Stmt)) = .ok q :=
      (ofTokens_of_program hp []).symm.trans (ofTokens_of_program hq [])
    exact Except.ok.inj hok

end Scriptlet.Stmt
