import Scriptlet.Proofs.Grammar
import Scriptlet.Proofs.Reads

namespace Scriptlet.Parser

open Grammar

variable {α : Type} {tokens rest : List Token}

/-- What the parser reads off the front stands in this relation to the tokens that it takes. -/
def Sound (p : Parser α) (G : List Token → α → Prop) : Prop :=
  ∀ ⦃tokens : List Token⦄ ⦃a : α⦄ ⦃rest : List Token⦄,
    p.Reads tokens a rest → ∃ ts, tokens = ts ++ rest ∧ G ts a

theorem sound_flag {word : Keyword} : Sound (take? (.keyword word)) (Flag word) := by
  intro tokens b rest h
  obtain ⟨t, more, rfl, ⟨hk, rfl, rfl⟩ | ⟨-, rfl, rfl⟩⟩ := reads_take?.1 h
  · exact ⟨[t], rfl, .present hk⟩
  · exact ⟨[], rfl, .absent⟩

theorem sound_typeBehind {mark : Mark} : Sound (typeBehind? mark) (TypeBehind mark) := by
  intro tokens tag rest h
  simp only [typeBehind?, reads_bind] at h
  obtain ⟨b, mid, hb, h⟩ := h
  obtain ⟨t, more, rfl, ⟨hk, rfl, rfl⟩ | ⟨-, rfl, rfl⟩⟩ := reads_take?.1 hb
  · simp at h
    obtain ⟨tag, ⟨u, rfl, hu⟩, rfl⟩ := h
    exact ⟨[t, u], rfl, .present hk hu⟩
  · simp at h
    obtain ⟨rfl, rfl⟩ := h
    exact ⟨[], rfl, .absent⟩

theorem sound_parameter : Sound param Parameter := by
  intro tokens p rest h
  simp only [param, reads_bind, reads_name, reads_discard, reads_expect, reads_typeTag,
    reads_pure] at h
  obtain ⟨name, _, ⟨t, rfl, hn⟩, _, _, ⟨colon, rfl, hc⟩, tag, _, ⟨u, rfl, ht⟩, rfl, rfl⟩ := h
  exact ⟨[t, colon, u], rfl, .mk hn hc ht⟩

section Lists

variable {item : Parser α} {Item : List Token → α → Prop} {bound : Nat}

theorem Sound.itemsUntil (hi : Sound item Item) {closing : Token.Kind} {items result : List α}
    (h : (itemsUntil closing item bound items).Reads tokens result rest) :
    ∃ ts t as, tokens = ts ++ t :: rest ∧ Separated Item ts as ∧ t.kind = closing ∧
      result = items.reverse ++ as := by
  induction bound generalizing tokens items with
  | zero => simp [Parser.itemsUntil] at h
  | succ bound ih =>
    simp only [Parser.itemsUntil, reads_bind, reads_next, reads_ite, reads_pure, reads_throw] at h
    obtain ⟨a, mid, hr, t, more, rfl, h⟩ := h
    obtain ⟨ts, rfl, ha⟩ := hi hr
    rcases h with ⟨hc, h⟩ | ⟨-, ⟨hc, rfl, rfl⟩ | ⟨-, h⟩⟩
    · obtain ⟨us, u, as, rfl, hs, hu, rfl⟩ := ih h
      exact ⟨ts ++ t :: us, u, a :: as, by simp, .more ha hc hs, hu, by simp⟩
    · exact ⟨ts, t, [a], rfl, .one ha, hc, by simp⟩
    · exact h.elim

theorem Sound.parenthesized (hi : Sound item Item) {left : Token}
    (hl : left.kind = .mark .openParen) :
    Sound (parenthesized item bound) (fun ts as => Listed Item (left :: ts) as) := by
  intro tokens as rest h
  simp only [Parser.parenthesized, reads_bind, reads_ite, reads_pure] at h
  obtain ⟨b, mid, hb, h⟩ := h
  obtain ⟨t, more, rfl, ⟨hk, rfl, rfl⟩ | ⟨-, rfl, rfl⟩⟩ := reads_take?.1 hb
  · obtain ⟨rfl, rfl⟩ : [] = as ∧ mid = rest := by simpa using h
    exact ⟨[t], rfl, .empty hl hk⟩
  · have h : (Parser.itemsUntil (.mark .closeParen) item bound []).Reads (t :: more) as rest := by
      simpa using h
    obtain ⟨ts, u, bs, hts, hs, hu, rfl⟩ := hi.itemsUntil h
    exact ⟨ts ++ [u], by simpa using hts, .items hl hs hu⟩

end Lists

section Expressions

variable {level : Level} {operand primary : Parser Expr}
  {Operand Primary : List Token → Expr → Prop} {bound : Nat}

/-- The operations so far go on with those that are read. -/
theorem Sound.operations (ho : Sound operand Operand) {left e : Expr} {us : List Token}
    (hl : Chain level Operand us left)
    (h : (operations level operand bound left).Reads tokens e rest) :
    ∃ ts, tokens = ts ++ rest ∧ Chain level Operand (us ++ ts) e := by
  induction bound generalizing tokens left us with
  | zero =>
    obtain ⟨rfl, rfl⟩ : left = e ∧ tokens = rest := by simpa [Parser.operations] using h
    exact ⟨[], rfl, by simpa using hl⟩
  | succ bound ih =>
    simp only [Parser.operations, reads_bind, reads_get] at h
    obtain ⟨_, _, ⟨rfl, rfl⟩, h⟩ := h
    split at h
    · next op position more =>
      simp only [reads_ite, reads_bind, reads_set, reads_pure] at h
      rcases h with ⟨hop, _, _, rfl, r, mid, hp, h⟩ | ⟨-, rfl, rfl⟩
      · obtain ⟨ts, rfl, hr⟩ := ho hp
        let t : Token := ⟨.operator op, position⟩
        have hl' : Chain level Operand (us ++ t :: ts) (.binary op left r t.line) :=
          .operation hl rfl hop hr
        obtain ⟨vs, rfl, he⟩ := ih hl' h
        exact ⟨t :: (ts ++ vs), by simp [t], by simpa using he⟩
      · exact ⟨[], rfl, by simpa using hl⟩
    · obtain ⟨rfl, rfl⟩ := reads_pure.1 h
      exact ⟨[], rfl, by simpa using hl⟩

theorem Sound.chain (ho : Sound operand Operand) :
    Sound (chain level operand bound) (Chain level Operand) := by
  intro tokens e rest h
  obtain ⟨l, mid, hp, hs⟩ := reads_bind.1 h
  obtain ⟨ts, rfl, hl⟩ := ho hp
  obtain ⟨us, rfl, he⟩ := ho.operations (.operand hl) hs
  exact ⟨ts ++ us, by simp, he⟩

theorem Sound.comparisonOver (hp : Sound primary Primary) :
    Sound (comparisonOver primary bound) (ExpressionOver Primary) :=
  hp.chain.chain.chain

theorem Sound.callOver (hp : Sound primary Primary) :
    Sound (callOver primary bound) (Call (ExpressionOver Primary)) := by
  intro tokens e rest h
  simp only [Parser.callOver, reads_bind, reads_peek, reads_name, reads_discard, reads_expect,
    reads_pure] at h
  obtain ⟨t, _, ⟨⟨_, rfl⟩, rfl⟩, name, _, ⟨u, hu, hn⟩, _, _, ⟨left, rfl, hl⟩, es, _, ha, rfl,
    rfl⟩ := h
  obtain ⟨rfl, rfl⟩ := List.cons.inj hu
  obtain ⟨ts, rfl, hes⟩ := hp.comparisonOver.parenthesized hl ha
  exact ⟨t :: left :: ts, rfl, .mk hn hes⟩

theorem sound_primary : Sound (Parser.primary bound) Grammar.Primary := by
  induction bound with
  | zero =>
    intro tokens e rest h
    simp [Parser.primary] at h
  | succ bound ih =>
    intro tokens e rest h
    simp only [Parser.primary, reads_bind, reads_peek] at h
    obtain ⟨t, _, ⟨⟨more, rfl⟩, rfl⟩, h⟩ := h
    obtain ⟨kind, position⟩ := t
    cases kind with
    | int | float | str | bool =>
      obtain ⟨_, ht, rfl⟩ := reads_literal.1 h
      obtain ⟨rfl, rfl⟩ := List.cons.inj ht
      exact ⟨[_], rfl, .mk (.literal rfl)⟩
    | name name =>
      simp only [reads_bind, reads_followedBy, reads_ite, reads_discard, reads_next,
        reads_pure] at h
      obtain ⟨_, _, ⟨-, rfl⟩, ⟨-, h⟩ | ⟨-, _, _, ⟨_, ht⟩, rfl, rfl⟩⟩ := h
      · obtain ⟨ts, hts, he⟩ := ih.callOver h
        exact ⟨ts, hts, .mk (.call he)⟩
      · obtain ⟨rfl, rfl⟩ := List.cons.inj ht
        exact ⟨[_], rfl, .mk (.var rfl)⟩
    | _ =>
      simp only [reads_ite, reads_bind, reads_discard, reads_next, reads_expect, reads_pure,
        reads_throw] at h
      obtain ⟨hk, _, _, ⟨_, ht⟩, e, _, hc, _, _, ⟨right, rfl, hr⟩, rfl, rfl⟩ | ⟨-, h⟩ := h
      · obtain ⟨rfl, rfl⟩ := List.cons.inj ht
        obtain ⟨ts, rfl, he⟩ := ih.comparisonOver hc
        exact ⟨⟨_, position⟩ :: (ts ++ [right]), by simp, .mk (.group hk he hr)⟩
      · exact h.elim

theorem sound_expression : Sound (expression bound) Expression :=
  sound_primary.comparisonOver

theorem sound_call : Sound (call bound) (Call Expression) :=
  sound_primary.callOver

end Expressions

section Statements

variable {G : List Token → Token → Stmt → Prop} {statement : Parser Stmt} {closing : Token.Kind}
  {bound : Nat} {ts : List Token} {body : List Stmt}

/-- As `Sound`, for a parser of statements that takes one newline behind them. -/
def SoundLine (p : Parser Stmt) (G : List Token → Token → Stmt → Prop) : Prop :=
  ∀ ⦃tokens : List Token⦄ ⦃s : Stmt⦄ ⦃rest : List Token⦄, p.Reads tokens s rest →
    ∃ ts after, tokens = ts ++ after ∧ (∀ next more, after = next :: more → G ts next s) ∧
      (after = rest ∨ ∃ t, t.kind = .newline ∧ after = t :: rest)

theorem exists_newlines (tokens : List Token) :
    ∃ newlines, tokens = newlines ++ dropNewlines tokens ∧ ∀ t ∈ newlines, t.kind = .newline := by
  refine ⟨tokens.takeWhile (·.kind = .newline), List.takeWhile_append_dropWhile.symm, ?_⟩
  intro t ht
  simpa using List.all_eq_true.1 List.all_takeWhile t ht

/-- Newlines in front of a body belong to it. -/
theorem body_of_dropNewlines (h : Body G closing ts body) (ht : dropNewlines tokens = ts ++ rest) :
    ∃ us, tokens = us ++ rest ∧ Body G closing us body := by
  induction tokens with
  | nil => exact ⟨ts, by simpa [dropNewlines] using ht, h⟩
  | cons t tokens ih =>
    by_cases hk : t.kind = .newline
    · obtain ⟨us, rfl, hb⟩ := ih (by simpa [dropNewlines, hk] using ht)
      exact ⟨t :: us, rfl, .newline hk hb⟩
    · exact ⟨ts, by simpa [dropNewlines, hk] using ht, h⟩

/-- A statement in front of a body belongs to it. -/
theorem SoundLine.prepend (hs : SoundLine statement G) {s : Stmt}
    (h : statement.Reads tokens s (ts ++ rest)) (hb : Body G closing ts body) :
    ∃ us, tokens = us ++ rest ∧ Body G closing us (s :: body) := by
  obtain ⟨vs, after, rfl, hG, hafter⟩ := hs h
  obtain ⟨ws, rfl, hb⟩ : ∃ ws, after = ws ++ rest ∧ Body G closing ws body := by
    rcases hafter with rfl | ⟨t, hk, rfl⟩
    · exact ⟨ts, rfl, hb⟩
    · exact ⟨t :: ts, rfl, .newline hk hb⟩
  obtain ⟨next, more, rfl⟩ := hb.exists_cons
  exact ⟨vs ++ next :: more, by simp, .statement (hG _ _ rfl) hb⟩

theorem SoundLine.statementsUntilBrace (hs : SoundLine statement G) {found result : List Stmt}
    (h : (statementsUntilBrace statement bound found).Reads tokens result rest) :
    ∃ ts body, tokens = ts ++ rest ∧ Body G (.mark .closeBrace) ts body ∧
      result = found.reverse ++ body := by
  induction bound generalizing tokens found with
  | zero => simp [Parser.statementsUntilBrace] at h
  | succ bound ih =>
    simp only [Parser.statementsUntilBrace, skipNewlines, reads_bind, reads_modify, reads_peek,
      reads_ite, reads_discard, reads_next, reads_pure, reads_throw] at h
    obtain ⟨_, _, rfl, t, _, ⟨⟨more, ht⟩, rfl⟩, h⟩ := h
    rcases h with ⟨hk, _, _, ⟨u, hd⟩, rfl, rfl⟩ | ⟨-, ⟨-, h⟩ | ⟨-, s, mid, hp, h⟩⟩
    · obtain ⟨rfl, rfl⟩ := List.cons.inj (ht.symm.trans hd)
      obtain ⟨us, rfl, hb⟩ := body_of_dropNewlines (G := G) (.close hk) ht
      exact ⟨us, [], rfl, hb, by simp⟩
    · exact h.elim
    · obtain ⟨ts, body, rfl, hb, rfl⟩ := ih h
      obtain ⟨us, hus, hb⟩ := hs.prepend hp hb
      obtain ⟨vs, rfl, hb⟩ := body_of_dropNewlines hb hus
      exact ⟨vs, s :: body, rfl, hb, by simp⟩

theorem SoundLine.blockOf (hs : SoundLine statement G) :
    Sound (blockOf statement bound) (Block G) := by
  intro tokens body rest h
  simp only [Parser.blockOf, reads_bind, reads_discard, reads_expect] at h
  obtain ⟨_, _, ⟨brace, rfl, hb⟩, h⟩ := h
  obtain ⟨ts, body, rfl, hbody, rfl⟩ := hs.statementsUntilBrace h
  exact ⟨brace :: ts, rfl, .mk hb hbody⟩

theorem SoundLine.alternativeOf (hs : SoundLine statement G) :
    Sound (alternativeOf statement bound) (Alternative G) := by
  intro tokens no rest h
  simp only [Parser.alternativeOf, reads_bind, reads_get] at h
  obtain ⟨_, _, ⟨rfl, rfl⟩, h⟩ := h
  split at h
  · exact (reads_throw h).elim
  · next word more hd =>
    simp only [reads_ite, reads_bind, reads_set, reads_pure] at h
    rcases h with ⟨hw, _, _, rfl, no, _, hb, rfl, rfl⟩ | ⟨-, rfl, rfl⟩
    · obtain ⟨ts, rfl, hno⟩ := hs.blockOf hb
      obtain ⟨newlines, htokens, hn⟩ := exists_newlines tokens
      rw [hd] at htokens
      exact ⟨newlines ++ word :: ts, by simpa using htokens, .present hn hw hno⟩
    · exact ⟨[], rfl, .absent⟩

theorem SoundLine.branchOf (hs : SoundLine statement G) :
    Sound (branchOf statement bound) (fun ts s => ∀ next, StatementOver G ts next s) := by
  intro tokens s rest h
  simp only [Parser.branchOf, reads_bind, reads_expect, reads_pure] at h
  obtain ⟨word, _, ⟨rfl, hw⟩, e, _, pe, yes, _, pyes, no, _, pno, rfl, rfl⟩ := h
  obtain ⟨ts, rfl, he⟩ := sound_expression pe
  obtain ⟨ys, rfl, hyes⟩ := hs.blockOf pyes
  obtain ⟨ns, rfl, hno⟩ := hs.alternativeOf pno
  exact ⟨word :: (ts ++ (ys ++ ns)), by simp, fun _ => .branch hw he hyes hno⟩

theorem SoundLine.loopOf (hs : SoundLine statement G) :
    Sound (loopOf statement bound) (fun ts s => ∀ next, StatementOver G ts next s) := by
  intro tokens s rest h
  simp only [Parser.loopOf, reads_bind, reads_expect, reads_pure] at h
  obtain ⟨word, _, ⟨rfl, hw⟩, e, _, pe, body, _, pbody, rfl, rfl⟩ := h
  obtain ⟨ts, rfl, he⟩ := sound_expression pe
  obtain ⟨us, rfl, hbody⟩ := hs.blockOf pbody
  exact ⟨word :: (ts ++ us), by simp, fun _ => .loop hw he hbody⟩

theorem SoundLine.functionOf (hs : SoundLine statement G) :
    Sound (functionOf statement bound) (fun ts s => ∀ next, StatementOver G ts next s) := by
  intro tokens s rest h
  simp only [Parser.functionOf, reads_bind, reads_expect, reads_name, reads_discard,
    reads_pure] at h
  obtain ⟨word, _, ⟨rfl, hw⟩, name, _, ⟨t, rfl, hn⟩, _, _, ⟨left, rfl, hl⟩, params, _, pp,
    returns, _, pr, body, _, pbody, rfl, rfl⟩ := h
  obtain ⟨ps, rfl, hp⟩ := sound_parameter.parenthesized hl pp
  obtain ⟨as, rfl, hr⟩ := sound_typeBehind pr
  obtain ⟨ts, rfl, hbody⟩ := hs.blockOf pbody
  exact ⟨word :: t :: (left :: ps ++ (as ++ ts)), by simp, fun _ => .function hw hn hp hr hbody⟩

theorem sound_declaration :
    Sound (declaration bound) (fun ts s => ∀ next, StatementOver G ts next s) := by
  intro tokens s rest h
  simp only [declaration, reads_bind, reads_expect, reads_name, reads_discard, reads_pure] at h
  obtain ⟨word, _, ⟨rfl, hw⟩, isMutable, _, pm, name, _, ⟨t, rfl, hn⟩, type, _, pt, _, _,
    ⟨assign, rfl, ha⟩, e, _, pe, rfl, rfl⟩ := h
  obtain ⟨ms, rfl, hm⟩ := sound_flag pm
  obtain ⟨as, rfl, ht⟩ := sound_typeBehind pt
  obtain ⟨ts, rfl, he⟩ := sound_expression pe
  exact ⟨word :: (ms ++ t :: (as ++ assign :: ts)), by simp,
    fun _ => .declaration hw hm hn ht ha he⟩

theorem sound_reassignment :
    Sound (reassignment bound) (fun ts s => ∀ next, StatementOver G ts next s) := by
  intro tokens s rest h
  simp only [reassignment, reads_bind, reads_peek, reads_expect, reads_name, reads_discard,
    reads_pure] at h
  obtain ⟨t, _, ⟨⟨_, rfl⟩, rfl⟩, name, _, ⟨u, hu, hn⟩, _, _, ⟨assign, rfl, ha⟩, e, _, pe, rfl,
    rfl⟩ := h
  obtain ⟨rfl, rfl⟩ := List.cons.inj hu
  obtain ⟨ts, rfl, he⟩ := sound_expression pe
  exact ⟨t :: assign :: ts, rfl, fun _ => .reassignment hn ha he⟩

theorem sound_print : Sound (print bound) (fun ts s => ∀ next, StatementOver G ts next s) := by
  intro tokens s rest h
  simp only [print, reads_bind, reads_expect, reads_discard, reads_pure] at h
  obtain ⟨word, _, ⟨rfl, hw⟩, _, _, ⟨left, rfl, hl⟩, e, _, pe, _, _, ⟨right, rfl, hr⟩, rfl,
    rfl⟩ := h
  obtain ⟨ts, rfl, he⟩ := sound_expression pe
  exact ⟨word :: left :: (ts ++ [right]), by simp, fun _ => .print hw hl he hr⟩

/-- Without a value the next token is known to be one of those that end the statement. -/
theorem sound_leave {s : Stmt} (h : (leave bound).Reads tokens s rest) :
    ∃ ts, tokens = ts ++ rest ∧ ∀ next more, rest = next :: more → StatementOver G ts next s := by
  simp only [leave_eq, leaveBehind, reads_bind, reads_expect, reads_peek, reads_ite,
    reads_pure] at h
  obtain ⟨word, _, ⟨rfl, hw⟩, t, _, ⟨⟨more, rfl⟩, rfl⟩, h⟩ := h
  rcases h with ⟨hends, rfl, rfl⟩ | ⟨_, e, _, pe, rfl, rfl⟩
  · refine ⟨[word], rfl, fun next _ hn => .leave hw ?_⟩
    obtain ⟨rfl, rfl⟩ := List.cons.inj hn
    exact hends
  · obtain ⟨ts, hts, he⟩ := sound_expression pe
    exact ⟨word :: ts, by simp [hts], fun _ _ _ => .leaveValue hw he⟩

theorem SoundLine.statementFrom (hs : SoundLine statement G) {first : Token} {more : List Token}
    {s : Stmt} (h : (statementFrom first statement bound).Reads (first :: more) s rest) :
    ∃ ts, first :: more = ts ++ rest ∧
      ∀ next more, rest = next :: more → StatementOver G ts next s := by
  have whatever {p : Parser Stmt} (hp : Sound p fun ts s => ∀ next, StatementOver G ts next s)
      (h : p.Reads (first :: more) s rest) : ∃ ts, first :: more = ts ++ rest ∧
        ∀ next more, rest = next :: more → StatementOver G ts next s := by
    obtain ⟨ts, hts, hG⟩ := hp h
    exact ⟨ts, hts, fun next _ _ => hG next⟩
  unfold Parser.statementFrom at h
  split at h
  · exact whatever sound_declaration h
  · exact whatever hs.branchOf h
  · exact whatever hs.loopOf h
  · exact whatever hs.functionOf h
  · exact sound_leave h
  · exact whatever sound_print h
  · simp only [reads_bind, reads_followedBy, reads_ite, reads_pure, reads_throw] at h
    obtain ⟨_, _, ⟨-, rfl⟩, ⟨-, e, _, pe, rfl, rfl⟩ | ⟨-, _, _, ⟨-, rfl⟩, ⟨-, h⟩ | ⟨-, h⟩⟩⟩ := h
    · obtain ⟨ts, hts, he⟩ := sound_call pe
      cases he with
      | mk hn ha =>
        obtain ⟨rfl, rfl⟩ := List.cons.inj hts
        exact ⟨_, rfl, fun _ _ _ => .call (.mk hn ha)⟩
    · exact whatever sound_reassignment h
    · exact h.elim
  · exact (reads_throw h).elim

theorem soundLine_statement : SoundLine (Parser.statement bound) Statement := by
  induction bound with
  | zero =>
    intro tokens s rest h
    simp [Parser.statement] at h
  | succ bound ih =>
    intro tokens s rest h
    simp only [Parser.statement, skipNewline, reads_bind, reads_peek, reads_modify, reads_pure] at h
    obtain ⟨first, _, ⟨⟨more, rfl⟩, rfl⟩, s, after, hp, _, _, hafter, rfl, rfl⟩ := h
    obtain ⟨ts, hts, hG⟩ := ih.statementFrom hp
    refine ⟨ts, after, hts, fun next more h => .mk (hG next more h), ?_⟩
    split at hafter
    · next position more => exact .inr ⟨⟨.newline, position⟩, rfl, by rw [hafter]⟩
    · exact .inl hafter

/-- The token for the end is left, but belongs to the program. -/
theorem sound_statementsUntilEnd {found result : List Stmt}
    (h : (statementsUntilEnd bound found).Reads tokens result rest) :
    ∃ ts more body, tokens = ts ++ more ∧ Program ts body ∧ result = found.reverse ++ body := by
  induction bound generalizing tokens found with
  | zero => simp [statementsUntilEnd] at h
  | succ bound ih =>
    simp only [statementsUntilEnd, skipNewlines, reads_bind, reads_modify, reads_peek, reads_ite,
      reads_pure] at h
    obtain ⟨_, _, rfl, t, _, ⟨⟨more, ht⟩, rfl⟩, ⟨hk, rfl, rfl⟩ | ⟨-, s, mid, hp, h⟩⟩ := h
    · obtain ⟨us, rfl, hb⟩ := body_of_dropNewlines (G := Statement) (.close hk) ht
      exact ⟨us, more, [], rfl, hb, by simp⟩
    · obtain ⟨ts, more, body, rfl, hb, rfl⟩ := ih h
      obtain ⟨us, hus, hb⟩ := soundLine_statement.prepend hp hb
      obtain ⟨vs, rfl, hb⟩ := body_of_dropNewlines hb hus
      exact ⟨vs, more, s :: body, rfl, hb, by simp⟩

end Statements

end Scriptlet.Parser
