import Scriptlet.Proofs.Lookahead
import Scriptlet.Proofs.Procedures
import Scriptlet.Proofs.Progress

namespace Scriptlet

def Level.operandParser (bound : Nat) : Level → Parser Expr
  | .comparison => Parser.additive bound
  | .additive => Parser.multiplicative bound
  | .multiplicative => Parser.primary bound

namespace Procedure

/-- The parser that runs for a procedure. A loop counts its turns down from `bound`, and what it
calls has the bound `nested`. -/
def parser (nested bound : Nat) {α : Type} : Procedure α → Parser α
  | .expression => Parser.expression nested
  | .chain .comparison => Parser.comparison nested
  | .chain .additive => Parser.additive nested
  | .chain .multiplicative => Parser.multiplicative nested
  | .operations level left => Parser.operations level (level.operandParser nested) bound left
  | .primary => Parser.primary nested
  | .arguments found =>
    Parser.itemsUntil (.mark .closeParen) (Parser.expression nested) bound found
  | .params found => Parser.itemsUntil (.mark .closeParen) Parser.param bound found
  | .statement => Parser.statement nested
  | .block => Parser.block nested
  | .statements found => Parser.statementsUntilBrace (Parser.statement nested) bound found
  | .program found => Parser.statementsUntilEnd bound found

/-- How many calls may follow each other from this one on before a token is taken. -/
def rank {α : Type} : Procedure α → Nat
  | .operations _ _ | .primary | .params _ | .statement | .block => 0
  | .chain .multiplicative | .statements _ | .program _ => 1
  | .chain .additive => 2
  | .chain .comparison => 3
  | .expression => 4
  | .arguments _ => 5

theorem rank_lt {α : Type} (c : Procedure α) : c.rank < 6 := by
  unfold rank
  split <;> decide

theorem parser_operand (nested bound : Nat) (level : Level) :
    level.operand.parser nested bound = level.operandParser nested := by
  cases level <;> rfl

theorem parser_chain (nested bound : Nat) (level : Level) :
    (chain level).parser nested bound =
      Parser.chain level (level.operandParser nested) nested := by
  cases level <;> rfl

theorem rank_operand_lt (level : Level) : level.operand.rank < (chain level).rank := by
  cases level <;> decide

end Procedure

namespace Parser

variable {α β : Type} {n : Nat}

/-- The two parsers have the same outcome on lists of tokens up to this length. -/
def Agree (n : Nat) (p q : Parser α) : Prop :=
  ∀ tokens, tokens.length ≤ n → p.parse tokens = q.parse tokens

section Agree

variable {p p' : Parser α} {q q' : α → Parser β}

theorem Agree.refl (p : Parser α) : Agree n p p :=
  fun _ _ => rfl

theorem agree_zero (hn : n ≤ 0) (h : p.parse [] = p'.parse []) : Agree n p p' := by
  intro tokens ht
  rw [List.eq_nil_of_length_eq_zero (Nat.le_zero.mp (Nat.le_trans ht hn))]
  exact h

theorem Agree.bind (hp : Agree n p p') (ht : Trails p') (hq : ∀ a, Agree n (q a) (q' a)) :
    Agree n (p >>= q) (p' >>= q') := by
  intro tokens hn
  have hs := ht tokens
  rw [parse_bind, parse_bind, hp tokens hn]
  generalize p'.parse tokens = outcome at hs
  obtain ⟨e | a, rest⟩ := outcome
  · rfl
  · exact hq a rest (Nat.le_trans hs.length_le hn)

/-- What comes behind a token taken has a shorter list. -/
theorem Agree.bindShorter (hp : Agree n p p') (ha : Advances p')
    (hq : ∀ m < n, ∀ a, Agree m (q a) (q' a)) : Agree n (p >>= q) (p' >>= q') := by
  intro tokens hn
  rw [parse_bind, parse_bind, hp tokens hn]
  cases h : p'.parse tokens with
  | mk result rest =>
    cases result with
    | error e => rfl
    | ok a =>
      have hlt : rest.length < tokens.length := ha.shorter h
      exact hq rest.length (by omega) a rest (Nat.le_refl _)

theorem Trails.agree (ht : Trails p) (hq : ∀ a, Agree n (q a) (q' a)) :
    Agree n (p >>= q) (p >>= q') :=
  (Agree.refl p).bind ht hq

theorem Advances.agree (ha : Advances p) (hq : ∀ m < n, ∀ a, Agree m (q a) (q' a)) :
    Agree n (p >>= q) (p >>= q') :=
  (Agree.refl p).bindShorter ha hq

theorem Agree.ite {c : Prop} [Decidable c] {r r' : Parser α} (hp : Agree n p p')
    (hr : Agree n r r') : Agree n (if c then p else r) (if c then p' else r') := by
  split
  · exact hp
  · exact hr

end Agree

end Parser

namespace Unbounded

open Scriptlet.Parser

variable {run : {α : Type} → Procedure α → Parser α} {n k nested bound : Nat} {α : Type}

/-- The calls have the outcomes of the running parser on lists of tokens that are shorter. -/
def Below (n : Nat) (run : {α : Type} → Procedure α → Parser α) : Prop :=
  ∀ {α : Type} (c : Procedure α) {m nested bound : Nat}, m < n → m ≤ nested → m ≤ bound →
    Agree m (run c) (c.parser nested bound)

/-- With six rounds for each token, and as many more as the procedure has for its rank, the outcome
is that of the running parser. -/
def Settled (rounds : Nat) (run : {α : Type} → Procedure α → Parser α) : Prop :=
  ∀ {α : Type} (c : Procedure α) {n nested bound : Nat}, 6 * n + c.rank < rounds → n ≤ nested →
    n ≤ bound → Agree n (run c) (c.parser nested bound)

theorem Settled.below (h : Settled k run) (hn : 6 * n ≤ k) : Below n run := by
  intro α c m nested bound hm
  have := c.rank_lt
  exact h c (by omega)

theorem advances_operand (bound : Nat) (level : Level) : Advances (level.operandParser bound) := by
  have hp := advances_primary bound
  cases level with
  | multiplicative => exact hp
  | additive => exact hp.chain _ _
  | comparison => exact (hp.chain _ _).chain _ _

theorem advances_block (bound : Nat) : Advances (Parser.block bound) :=
  Advances.blockOf (advances_statement bound).trails bound

theorem agree_items {item item' : Parser α} {more : List α → Parser (List α)} (found : List α)
    (hi : Agree n item item') (ha : Advances item')
    (hnil : item'.parse [] = (.error .unexpectedEndOfInput, [])) (hb : n ≤ bound)
    (hm : ∀ m < n, ∀ b, m ≤ b → ∀ found,
      Agree m (more found) (itemsUntil (.mark .closeParen) item' b found)) :
    Agree n (items item more found) (itemsUntil (.mark .closeParen) item' bound found) := by
  cases bound with
  | zero =>
    apply agree_zero hb
    rw [items, parse_bind, hi [] (Nat.zero_le n), hnil]
    rfl
  | succ bound =>
    refine hi.bindShorter ha fun m hlt a => ?_
    refine advances_next.trails.agree fun t => ?_
    exact (hm m hlt bound (by omega) _).ite (.refl _)

theorem agree_parenthesized {item : Parser α} {more : List α → Parser (List α)}
    (hm : Agree n (more []) (itemsUntil (.mark .closeParen) item bound [])) :
    Agree n (parenthesized more) (Parser.parenthesized item bound) := by
  refine (trails_take? _).agree fun b => ?_
  exact Agree.ite (.refl _) hm

namespace Below

variable {m : Nat} {β : Type} (h : Below n run) (hb : n ≤ bound + 1)
include h hb

theorem calls (c : Procedure α) (hm : m < n) : Agree m (run c) (c.parser bound bound) :=
  h c hm (by omega) (by omega)

theorem expression {q q' : Expr → Parser β} (hm : m < n) (hq : ∀ e, Agree m (q e) (q' e)) :
    Agree m (run .expression >>= q) (Parser.expression bound >>= q') :=
  (h.calls hb .expression hm).bind (advances_expression bound).trails hq

theorem block {q q' : List Stmt → Parser β} (hm : m < n) (hq : ∀ body, Agree m (q body) (q' body)) :
    Agree m (run .block >>= q) (Parser.block bound >>= q') :=
  (h.calls hb .block hm).bind (advances_block bound).trails hq

theorem call : Agree n (call run) (Parser.call bound) := by
  refine trails_peek.agree fun t => ?_
  refine advances_name.agree fun m hm callee => ?_
  refine (advances_expect _).discard.trails.agree fun _ => ?_
  have ha := (advances_expression bound).parenthesized bound
  refine (agree_parenthesized ?_).bind ha fun arguments => .refl _
  exact h.calls hb (.arguments []) hm

theorem declaration : Agree n (declaration run) (Parser.declaration bound) := by
  refine (advances_expect _).agree fun m hm word => ?_
  refine (trails_take? _).agree fun isMutable => ?_
  refine advances_name.trails.agree fun target => ?_
  refine (trails_typeBehind? _).agree fun type => ?_
  refine (advances_expect _).discard.trails.agree fun _ => ?_
  exact h.expression hb hm fun value => .refl _

theorem reassignment : Agree n (reassignment run) (Parser.reassignment bound) := by
  refine trails_peek.agree fun t => ?_
  refine advances_name.agree fun m hm target => ?_
  refine (advances_expect _).discard.trails.agree fun _ => ?_
  exact h.expression hb hm fun value => .refl _

theorem alternative (hm : m < n) :
    Agree m (alternative run) (alternativeOf (Parser.statement bound) bound) := by
  intro tokens hn
  have hd : dropNewlines tokens <:+ tokens := List.dropWhile_suffix _
  simp only [Unbounded.alternative, alternativeOf, parse_bind, parse_get]
  generalize dropNewlines tokens = left at hd
  cases left with
  | nil => rfl
  | cons t rest =>
    have hlt := hd.length_le
    rw [List.length_cons] at hlt
    dsimp only
    split
    · exact h.block hb (by omega) (fun no => .refl (pure (some no))) rest (Nat.le_refl _)
    · rfl

theorem branch : Agree n (branch run) (branchOf (Parser.statement bound) bound) := by
  refine (advances_expect _).agree fun m hm word => ?_
  refine h.expression hb hm fun condition => ?_
  refine h.block hb hm fun yes => ?_
  exact (h.alternative hb hm).bind ((advances_statement bound).trails.alternativeOf bound)
    fun no => .refl _

theorem loop : Agree n (loop run) (loopOf (Parser.statement bound) bound) := by
  refine (advances_expect _).agree fun m hm word => ?_
  refine h.expression hb hm fun condition => ?_
  exact h.block hb hm fun body => .refl _

theorem function : Agree n (function run) (functionOf (Parser.statement bound) bound) := by
  refine (advances_expect _).agree fun m hm word => ?_
  refine advances_name.trails.agree fun callee => ?_
  refine (advances_expect _).discard.trails.agree fun _ => ?_
  have hp := h.calls hb (.params []) hm
  refine (agree_parenthesized hp).bind (advances_param.parenthesized bound) fun params => ?_
  refine (trails_typeBehind? _).agree fun returns => ?_
  exact h.block hb hm fun body => .refl _

theorem leave : Agree n (leave run) (Parser.leave bound) := by
  refine (advances_expect _).agree fun m hm word => ?_
  refine trails_peek.agree fun t => ?_
  have hv := h.expression hb hm fun value => .refl (pure (Stmt.leave (some value) word.line))
  obtain ⟨kind, position⟩ := t
  cases kind with
  | newline | endOfInput => exact .refl _
  | mark mark =>
    cases mark with
    | closeBrace => exact .refl _
    | _ => exact hv
  | _ => exact hv

theorem print : Agree n (print run) (Parser.print bound) := by
  refine (advances_expect _).agree fun m hm word => ?_
  refine (advances_expect _).discard.trails.agree fun _ => ?_
  exact h.expression hb hm fun value => .refl _

theorem statementFrom (first : Token) :
    Agree n (statementFrom run first)
      (Parser.statementFrom first (Parser.statement bound) bound) := by
  obtain ⟨kind, position⟩ := first
  cases kind with
  | keyword word =>
    cases word with
    | letWord => exact h.declaration hb
    | ifWord => exact h.branch hb
    | whileWord => exact h.loop hb
    | fnWord => exact h.function hb
    | returnWord => exact h.leave hb
    | printWord => exact h.print hb
    | _ => exact .refl _
  | name =>
    refine (trails_followedBy _).agree fun b => ?_
    apply Agree.ite
    · exact (h.call hb).bind (advances_call bound).trails fun e => .refl _
    · refine (trails_followedBy _).agree fun b => ?_
      exact (h.reassignment hb).ite (.refl _)
  | _ => exact .refl _

theorem statement : Agree n (statement run) (Parser.statement (bound + 1)) := by
  refine trails_peek.agree fun first => ?_
  have ht := Advances.statementFrom (advances_statement bound).trails first bound
  exact (h.statementFrom hb first).bind ht.trails fun result => .refl _

theorem primary : Agree n (primary run) (Parser.primary (bound + 1)) := by
  refine trails_peek.agree fun t => ?_
  have inside : Agree n (group (run .expression)) (group (Parser.expression bound)) := by
    refine advances_next.discard.agree fun m hm _ => ?_
    exact h.expression hb hm fun e => .refl _
  obtain ⟨kind, position⟩ := t
  cases kind with
  | int | float | str | bool => exact .refl _
  | name =>
    refine (trails_followedBy _).agree fun b => ?_
    exact (h.call hb).ite (.refl _)
  | _ => exact inside.ite (.refl _)

end Below

theorem Below.operations (h : Below n run) (hd : n ≤ nested + 1) (hb : n ≤ bound) (level : Level)
    (left : Expr) :
    Agree n (operations run level left)
      (Parser.operations level (level.operandParser nested) bound left) := by
  intro tokens hn
  cases tokens with
  | nil => cases bound <;> rfl
  | cons t more =>
    rw [List.length_cons] at hn
    obtain ⟨bound, rfl⟩ : ∃ b, bound = b + 1 := ⟨bound - 1, by omega⟩
    obtain ⟨kind, position⟩ := t
    cases kind with
    | operator op =>
      by_cases hop : op.level = level
      · have ho := @h _ level.operand more.length nested nested hn (by omega) (by omega)
        rw [Procedure.parser_operand] at ho
        have rest : Agree more.length
            (run level.operand >>= fun right =>
              run (.operations level (.binary op left right position.line)))
            (level.operandParser nested >>= fun right =>
              Parser.operations level (level.operandParser nested) bound
                (.binary op left right position.line)) := by
          refine ho.bind (advances_operand nested level).trails fun right => ?_
          exact h (.operations level _) hn (by omega) (by omega)
        simpa only [Unbounded.operations, Parser.operations, parse_bind, parse_get, hop, if_true,
          parse_set] using rest more (Nat.le_refl _)
      · simp [Unbounded.operations, Parser.operations, parse_bind, hop]
    | _ => rfl

theorem Below.params (h : Below n run) (found : List Param) (hb : n ≤ bound) :
    Agree n (items param (fun found => run (.params found)) found)
      (itemsUntil (.mark .closeParen) param bound found) := by
  refine agree_items found (.refl _) advances_param rfl hb fun m hm b hb found => ?_
  exact h (.params found) hm hb hb

namespace Settled

variable (h : Settled k run)
include h

theorem chain (level : Level) (hr : 6 * n + (Procedure.chain level).rank < k + 1)
    (hd : n ≤ nested) :
    Agree n (body run (.chain level)) ((Procedure.chain level).parser nested bound) := by
  rw [Procedure.parser_chain]
  have hlt := Procedure.rank_operand_lt level
  have ho := @h _ level.operand n nested nested (by omega) hd hd
  rw [Procedure.parser_operand] at ho
  refine ho.bindShorter (advances_operand nested level) fun m hm left => ?_
  exact h.below (by omega) (.operations level left) hm (by omega) (by omega)

theorem arguments (found : List Expr) (hr : 6 * n + 5 < k + 1) (hd : n ≤ nested)
    (hb : n ≤ bound) :
    Agree n (items (run .expression) (fun found => run (.arguments found)) found)
      (itemsUntil (.mark .closeParen) (Parser.expression nested) bound found) := by
  have he : Agree n (run .expression) (Parser.expression nested) :=
    @h _ .expression n nested nested (Nat.lt_of_succ_lt_succ hr) hd hd
  have hnil : (Parser.expression nested).parse [] = (.error .unexpectedEndOfInput, []) := by
    cases nested <;> rfl
  refine agree_items found he (advances_expression nested) hnil hb fun m hm b hb found => ?_
  exact h.below (by omega) (.arguments found) hm (by omega) hb

theorem statements (found : List Stmt) (hr : 6 * n + 1 < k + 1) (hd : n ≤ nested)
    (hb : n ≤ bound) :
    Agree n (statements run found)
      (statementsUntilBrace (Parser.statement nested) bound found) := by
  cases bound with
  | zero => exact agree_zero hb rfl
  | succ bound =>
    have hs := @h _ .statement n nested nested (Nat.lt_of_succ_lt_succ hr) hd hd
    refine trails_skipNewlines.agree fun _ => ?_
    refine trails_peek.agree fun t => ?_
    refine Agree.ite (.refl _) (Agree.ite (.refl _) ?_)
    refine hs.bindShorter (advances_statement nested) fun m hm s => ?_
    exact h.below (by omega) (.statements (s :: found)) hm (by omega) (by omega)

theorem program (found : List Stmt) (hr : 6 * n + 1 < k + 1) (hb : n ≤ bound) :
    Agree n (program run found) (statementsUntilEnd bound found) := by
  cases bound with
  | zero => exact agree_zero hb rfl
  | succ bound =>
    have below : Below n run := h.below (by omega)
    have hs := @h _ .statement n _ _ (Nat.lt_of_succ_lt_succ hr) hb hb
    refine trails_skipNewlines.agree fun _ => ?_
    refine trails_peek.agree fun t => ?_
    refine Agree.ite (.refl _) ?_
    refine hs.bindShorter (advances_statement _) fun m hm s => ?_
    exact below.calls hb (.program (s :: found)) hm

theorem body : Settled (k + 1) (body run) := by
  intro α c n nested bound hr hd hb
  have hn : Below n run := h.below (by omega)
  cases c with
  | expression => exact h (.chain .comparison) (Nat.lt_of_succ_lt_succ hr) hd hb
  | chain level => exact h.chain level hr hd
  | operations level left => exact hn.operations (by omega) hb level left
  | primary =>
    cases nested with
    | zero => exact agree_zero hd rfl
    | succ nested => exact hn.primary hd
  | arguments found => exact h.arguments found hr hd hb
  | params found => exact hn.params found hb
  | statement =>
    cases nested with
    | zero => exact agree_zero hd rfl
    | succ nested => exact hn.statement hd
  | block =>
    refine (advances_expect _).discard.agree fun m hm _ => ?_
    exact hn (.statements []) hm (by omega) (by omega)
  | statements found => exact h.statements found hr hd hb
  | program found => exact h.program found hr hb

end Settled

/-- Whatever the calls that are left would do, with rounds enough they are never made. -/
theorem settled_unfolded (start : {α : Type} → Procedure α → Parser α) (rounds : Nat) :
    Settled rounds (unfolded start rounds) := by
  induction rounds with
  | zero =>
    intro α c n nested bound hr
    exact absurd hr (Nat.not_lt_zero _)
  | succ rounds ih => exact ih.body

end Unbounded

namespace Parser

variable {level : Level} {operand : Parser Expr} {n bound : Nat} {tokens rest : List Token}
  {left e : Expr}

/-- No operator of this rank or a tighter one comes next. -/
def Stopped (rank : Nat) (tokens : List Token) : Prop :=
  ∀ t more op, tokens = t :: more → t.kind = .operator op → op.level.rank < rank

/-- Where there is nothing to go on with, the operations end. -/
theorem stopped_of_not_operator (h : ∀ t more op, tokens = t :: more → t.kind = .operator op →
    op.level ≠ level) (hs : Stopped (level.rank + 1) tokens) : Stopped level.rank tokens := by
  intro t more op heq hop
  have hne := h t more op heq hop
  have hlt := hs t more op heq hop
  revert hne hlt
  cases op.level <;> cases level <;> simp [Level.rank]

/-- What the parser leaves of lists up to this length has no such operator in front. -/
def Stops (rank n : Nat) (p : Parser Expr) : Prop :=
  ∀ ⦃tokens e rest⦄, tokens.length ≤ n → p.Reads tokens e rest → Stopped rank rest

/-- Behind the operations of a level none of its operators comes next, and none is left over from
the operands either. -/
theorem Stops.operations (ho : Stops (level.rank + 1) n operand) (ha : Advances operand)
    (hn : tokens.length ≤ n) (hb : tokens.length ≤ bound) (hs : Stopped (level.rank + 1) tokens)
    (h : (operations level operand bound left).Reads tokens e rest) :
    Stopped level.rank rest := by
  induction bound generalizing tokens left with
  | zero =>
    obtain rfl := List.eq_nil_of_length_eq_zero (Nat.le_zero.mp hb)
    obtain ⟨_, rfl⟩ := reads_pure.mp h
    intro t more op heq
    cases heq
  | succ bound ih =>
    simp only [Parser.operations, reads_bind, reads_get] at h
    obtain ⟨_, _, ⟨rfl, rfl⟩, h⟩ := h
    split at h
    · rename_i op position more
      rw [List.length_cons] at hn hb
      rcases reads_ite.mp h with ⟨_, h⟩ | ⟨hop, h⟩
      · simp only [reads_bind, reads_set] at h
        obtain ⟨_, _, rfl, right, mid, hright, h⟩ := h
        have hlt := ha.shorter hright
        exact ih (by omega) (by omega) (ho (by omega) hright) h
      · obtain ⟨_, rfl⟩ := reads_pure.mp h
        apply stopped_of_not_operator _ hs
        intro t more' op' heq hop'
        cases heq
        cases hop'
        exact hop
    · rename_i hno
      obtain ⟨_, rfl⟩ := reads_pure.mp h
      apply stopped_of_not_operator _ hs
      intro t more op heq hop
      obtain ⟨kind, position⟩ := t
      cases hop
      exact absurd heq (hno op position more)

theorem Stops.chain (ho : Stops (level.rank + 1) n operand) (ha : Advances operand)
    (hb : n ≤ bound) : Stops level.rank n (chain level operand bound) := by
  intro tokens e rest hn h
  obtain ⟨left, mid, hleft, h⟩ := reads_bind.mp h
  have hlt := ha.shorter hleft
  exact ho.operations ha (by omega) (by omega) (ho hn hleft) h

theorem stops_expression (bound : Nat) : Stops 0 bound (expression bound) := by
  have ha := advances_primary bound
  have primary : Stops (Level.multiplicative.rank + 1) bound (Parser.primary bound) := by
    intro tokens e rest _ _ t more op _ _
    cases op.level <;> decide
  have multiplicative : Stops (Level.additive.rank + 1) bound (Parser.multiplicative bound) :=
    primary.chain ha (Nat.le_refl bound)
  have additive : Stops (Level.comparison.rank + 1) bound (Parser.additive bound) :=
    multiplicative.chain (ha.chain _ bound) (Nat.le_refl bound)
  exact additive.chain ((ha.chain _ bound).chain _ bound) (Nat.le_refl bound)

theorem trails_statementsUntilEnd (bound : Nat) (found : List Stmt) :
    Trails (statementsUntilEnd bound found) := by
  induction bound generalizing found with
  | zero => exact (advances_throw _).trails
  | succ bound ih =>
    refine trails_skipNewlines.bind fun _ => ?_
    refine trails_peek.bind fun t => ?_
    split
    · exact trails_pure _
    · exact (advances_statement _).trails.bind fun s => ih _

end Parser

namespace Procedure

/-- Whether a procedure has taken a token when it succeeds. There may be no more operations, and no
more statements. -/
def takes {α : Type} : Procedure α → Bool
  | .operations _ _ | .program _ => false
  | .expression | .chain _ | .primary | .arguments _ | .params _ | .statement | .block
  | .statements _ => true

open Scriptlet.Parser in
theorem parser_advances {α : Type} (c : Procedure α) (nested bound : Nat) (h : c.takes = true) :
    Advances (c.parser nested bound) := by
  cases c with
  | operations | program => cases h
  | expression => exact advances_expression nested
  | chain level =>
    rw [parser_chain]
    exact (Unbounded.advances_operand nested level).chain level nested
  | primary => exact advances_primary nested
  | arguments found => exact (advances_expression nested).itemsUntil _ bound found
  | params found => exact advances_param.itemsUntil _ bound found
  | statement => exact advances_statement nested
  | block => exact Unbounded.advances_block nested
  | statements found => exact .statementsUntilBrace (advances_statement nested).trails bound found

open Scriptlet.Parser in
theorem parser_trails {α : Type} (c : Procedure α) (nested bound : Nat) :
    Trails (c.parser nested bound) := by
  cases h : c.takes with
  | true => exact (c.parser_advances nested bound h).trails
  | false =>
    cases c with
    | operations level left =>
      exact (Unbounded.advances_operand nested level).trails.operations level bound left
    | program found => exact trails_statementsUntilEnd bound found
    | _ => cases h

end Procedure

/-- The recursion of the parser comes to an end, after six rounds for each token and six more at
most, whatever tokens they are. The outcome is that of the parsers that count down a bound. On
success and failure they leave a suffix of the tokens, on success a shorter one, and behind an
expression stands no operator. -/
theorem Unbounded.parser_progress (start : {α : Type} → Procedure α → Parser α)
    (tokens : List Token) {rounds bound : Nat} (hr : 6 * (tokens.length + 1) ≤ rounds)
    (hb : tokens.length ≤ bound) :
    ((unfolded start rounds (.program [])).parse tokens).1 = Stmt.ofTokens tokens ∧
    (∀ {α : Type} (c : Procedure α),
      (unfolded start rounds c).parse tokens = (c.parser bound bound).parse tokens ∧
      ((c.parser bound bound).parse tokens).2 <:+ tokens ∧
      (c.takes = true → ∀ a rest, (c.parser bound bound).parse tokens = (.ok a, rest) →
        rest.length < tokens.length)) ∧
    ∀ e t rest, (Parser.expression bound).parse tokens = (.ok e, t :: rest) →
      ∀ op, t.kind ≠ .operator op := by
  have settled {α : Type} (c : Procedure α) {bound : Nat} (hb : tokens.length ≤ bound) :
      (unfolded start rounds c).parse tokens = (c.parser bound bound).parse tokens := by
    have := c.rank_lt
    exact settled_unfolded start rounds c (by omega) hb hb tokens (Nat.le_refl _)
  refine ⟨?_, fun c => ⟨settled c hb, c.parser_trails bound bound tokens, ?_⟩, ?_⟩
  · rw [settled _ (Nat.le_refl _)]
    rfl
  · intro htakes a rest h
    exact (c.parser_advances bound bound htakes).shorter h
  · intro e t rest h op hop
    exact absurd (Parser.stops_expression bound hb h t rest op rfl hop) (Nat.not_lt_zero _)

/-- For one, a sum without its right operand and without a token for the end. No call is left that
would find another mistake. -/
theorem Unbounded.parser_progress_sum :
    (unfolded (fun _ => throw (.invalidStatement ⟨.newline, ⟨1, 1⟩⟩)) 18
        .expression).parse [⟨.int 1, ⟨1, 1⟩⟩, ⟨.operator .add, ⟨1, 3⟩⟩] =
      (.error .unexpectedEndOfInput, []) := by
  obtain ⟨_, outcome, _⟩ :=
    @Unbounded.parser_progress (fun _ => throw (.invalidStatement ⟨.newline, ⟨1, 1⟩⟩))
      [⟨.int 1, ⟨1, 1⟩⟩, ⟨.operator .add, ⟨1, 3⟩⟩] 18 2 (by decide) (by decide)
  rw [(outcome _).1]
  rfl

end Scriptlet
