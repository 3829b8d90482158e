import Scriptlet.Proofs.Reads

namespace Scriptlet.Parser

variable {α β : Type}

/-- What the parser leaves is a suffix of what it was given, also when it fails. -/
def Trails (p : Parser α) : Prop :=
  ∀ tokens, (p.parse tokens).2 <:+ tokens

/-- And it is a shorter one when it succeeds. -/
structure Advances (p : Parser α) : Prop where
  trails : Trails p
  shorter : ∀ {tokens a rest}, p.Reads tokens a rest → rest.length < tokens.length

theorem Trails.length_le {p : Parser α} (h : Trails p) {tokens rest : List Token} {a : α}
    (hr : p.Reads tokens a rest) : rest.length ≤ tokens.length := by
  have hs := h tokens
  rw [hr] at hs
  exact hs.length_le

section Rules

variable {p : Parser α} {q : α → Parser β}

theorem trails_pure (a : α) : Trails (pure a : Parser α) :=
  fun tokens => List.suffix_refl tokens

theorem advances_throw (e : ParseError) : Advances (throw e : Parser α) where
  trails tokens := List.suffix_refl tokens
  shorter hr := absurd hr reads_throw

theorem Trails.bind (hp : Trails p) (hq : ∀ a, Trails (q a)) : Trails (p >>= q) := by
  intro tokens
  have hs := hp tokens
  rw [parse_bind]
  generalize p.parse tokens = outcome at hs
  obtain ⟨e | a, rest⟩ := outcome
  · exact hs
  · exact (hq a rest).trans hs

theorem Advances.bind (hp : Advances p) (hq : ∀ a, Trails (q a)) : Advances (p >>= q) where
  trails := hp.trails.bind hq
  shorter hr := by
    obtain ⟨a, mid, hfirst, hsecond⟩ := reads_bind.mp hr
    exact Nat.lt_of_le_of_lt ((hq a).length_le hsecond) (hp.shorter hfirst)

theorem Trails.bindAdvances (hp : Trails p) (hq : ∀ a, Advances (q a)) : Advances (p >>= q) where
  trails := hp.bind fun a => (hq a).trails
  shorter hr := by
    obtain ⟨a, mid, hfirst, hsecond⟩ := reads_bind.mp hr
    exact Nat.lt_of_lt_of_le ((hq a).shorter hsecond) (hp.length_le hfirst)

theorem Advances.discard (hp : Advances p) : Advances (discard p) := by
  have hd : Functor.discard p = p >>= fun _ => pure () := map_eq_pure_bind _ p
  rw [hd]
  exact hp.bind fun _ => trails_pure ()

theorem Advances.ite {c : Prop} [Decidable c] {p q : Parser α} (hp : Advances p)
    (hq : Advances q) : Advances (if c then p else q) := by
  split
  · exact hp
  · exact hq

end Rules

section Tokens

theorem trails_peek : Trails peek := by
  intro tokens
  cases tokens with
  | nil => exact List.suffix_refl []
  | cons t more => exact List.suffix_refl (t :: more)

theorem advances_next : Advances next where
  trails tokens := by
    cases tokens with
    | nil => exact List.suffix_refl []
    | cons t more => exact List.suffix_cons t more
  shorter hr := by
    rw [reads_next.mp hr]
    exact Nat.lt_succ_self _

theorem advances_expect (kind : Token.Kind) : Advances (expect kind) := by
  apply advances_next.bind
  intro t
  split
  · exact trails_pure t
  · exact (advances_throw _).trails

theorem advances_name : Advances name := by
  apply advances_next.bind
  intro t
  split
  · exact trails_pure _
  · exact (advances_throw _).trails

theorem advances_typeTag : Advances typeTag := by
  apply advances_next.bind
  intro t
  split
  · exact trails_pure _
  · exact (advances_throw _).trails

theorem trails_followedBy (kind : Token.Kind) : Trails (followedBy kind) := by
  intro tokens
  rcases tokens with _ | ⟨t, _ | ⟨u, more⟩⟩
  · exact List.suffix_refl _
  · exact List.suffix_refl _
  · exact List.suffix_refl _

theorem trails_take? (kind : Token.Kind) : Trails (take? kind) := by
  apply Trails.bind (trails_peek.bind fun t => trails_pure _)
  intro b
  split
  · exact (advances_next.discard.bind fun _ => trails_pure true).trails
  · exact trails_pure false

theorem trails_typeBehind? (mark : Mark) : Trails (typeBehind? mark) := by
  apply (trails_take? _).bind
  intro b
  split
  · exact (advances_typeTag.bind fun tag => trails_pure _).trails
  · exact trails_pure none

theorem trails_skipNewlines : Trails skipNewlines :=
  fun _ => List.dropWhile_suffix _

theorem trails_skipNewline : Trails skipNewline := by
  intro tokens
  simp only [skipNewline, parse_modify]
  split
  · exact List.suffix_cons _ _
  · exact List.suffix_refl _

end Tokens

section Lists

variable {item : Parser α}

theorem Advances.itemsUntil (hi : Advances item) (closing : Token.Kind) (bound : Nat)
    (items : List α) : Advances (itemsUntil closing item bound items) := by
  induction bound generalizing items with
  | zero => exact advances_throw _
  | succ bound ih =>
    apply hi.bind
    intro a
    apply advances_next.trails.bind
    intro t
    split
    · exact (ih _).trails
    · split
      · exact trails_pure _
      · exact (advances_throw _).trails

theorem Advances.parenthesized (hi : Advances item) (bound : Nat) :
    Trails (parenthesized item bound) := by
  apply (trails_take? _).bind
  intro b
  split
  · exact trails_pure []
  · exact (hi.itemsUntil _ bound []).trails

end Lists

section Expressions

variable {operand primary : Parser Expr}

theorem Trails.operations (ho : Trails operand) (level : Level) (bound : Nat) (left : Expr) :
    Trails (operations level operand bound left) := by
  induction bound generalizing left with
  | zero => exact trails_pure left
  | succ bound ih =>
    intro tokens
    simp only [Parser.operations, parse_bind, parse_get]
    split
    · rename_i op position more
      split
      · have hright : Trails (operand >>= fun right =>
            Parser.operations level operand bound (.binary op left right position.line)) :=
          ho.bind fun right => ih _
        exact (hright more).trans (List.suffix_cons _ _)
      · exact List.suffix_refl _
    · exact List.suffix_refl _

theorem Advances.chain (ho : Advances operand) (level : Level) (bound : Nat) :
    Advances (chain level operand bound) :=
  ho.bind fun left => ho.trails.operations level bound left

theorem Advances.comparisonOver (hp : Advances primary) (bound : Nat) :
    Advances (comparisonOver primary bound) :=
  ((hp.chain _ bound).chain _ bound).chain _ bound

theorem Advances.callOver (hp : Advances primary) (bound : Nat) :
    Advances (callOver primary bound) := by
  refine trails_peek.bindAdvances fun t => ?_
  refine advances_name.bind fun callee => ?_
  refine (advances_expect _).discard.trails.bind fun _ => ?_
  exact ((hp.comparisonOver bound).parenthesized bound).bind fun arguments => trails_pure _

theorem advances_literal (value : Value) : Advances (literal value) :=
  advances_next.bind fun _ => trails_pure _

theorem advances_primary (bound : Nat) : Advances (Parser.primary bound) := by
  induction bound with
  | zero => exact advances_throw _
  | succ bound ih =>
    apply trails_peek.bindAdvances
    intro t
    obtain ⟨kind, position⟩ := t
    cases kind with
    | int | float | str | bool => exact advances_literal _
    | name s =>
      apply (trails_followedBy _).bindAdvances
      intro b
      apply Advances.ite
      · exact ih.callOver bound
      · exact advances_next.discard.bind fun _ => trails_pure _
    | _ =>
      apply Advances.ite
      · refine advances_next.discard.bind fun _ => ?_
        refine (ih.comparisonOver bound).trails.bind fun e => ?_
        exact (advances_expect _).discard.trails.bind fun _ => trails_pure e
      · exact advances_throw _

theorem advances_expression (bound : Nat) : Advances (expression bound) :=
  (advances_primary bound).comparisonOver bound

theorem advances_call (bound : Nat) : Advances (call bound) :=
  (advances_primary bound).callOver bound

end Expressions

section Statements

variable {statement : Parser Stmt}

theorem advances_declaration (bound : Nat) : Advances (declaration bound) := by
  refine (advances_expect _).bind fun word => ?_
  refine (trails_take? _).bind fun isMutable => ?_
  refine advances_name.trails.bind fun target => ?_
  refine (trails_typeBehind? _).bind fun type => ?_
  refine (advances_expect _).discard.trails.bind fun _ => ?_
  exact (advances_expression bound).trails.bind fun value => trails_pure _

theorem advances_reassignment (bound : Nat) : Advances (reassignment bound) := by
  refine trails_peek.bindAdvances fun t => ?_
  refine advances_name.bind fun target => ?_
  refine (advances_expect _).discard.trails.bind fun _ => ?_
  exact (advances_expression bound).trails.bind fun value => trails_pure _

theorem Advances.statementsUntilBrace (hs : Trails statement) (bound : Nat) (found : List Stmt) :
    Advances (statementsUntilBrace statement bound found) := by
  induction bound generalizing found with
  | zero => exact advances_throw _
  | succ bound ih =>
    refine trails_skipNewlines.bindAdvances fun _ => ?_
    refine trails_peek.bindAdvances fun t => ?_
    apply Advances.ite
    · exact advances_next.discard.bind fun _ => trails_pure _
    · apply Advances.ite
      · exact advances_throw _
      · exact hs.bindAdvances fun s => ih _

theorem Advances.blockOf (hs : Trails statement) (bound : Nat) :
    Advances (blockOf statement bound) :=
  (advances_expect _).discard.bind fun _ => (Advances.statementsUntilBrace hs bound []).trails

theorem Trails.alternativeOf (hs : Trails statement) (bound : Nat) :
    Trails (alternativeOf statement bound) := by
  intro tokens
  have hd : dropNewlines tokens <:+ tokens := List.dropWhile_suffix _
  simp only [Parser.alternativeOf, parse_bind, parse_get]
  generalize dropNewlines tokens = left at hd
  cases left with
  | nil => exact List.suffix_refl _
  | cons t rest =>
    dsimp only
    split
    · have hblock : Trails (Parser.blockOf statement bound >>= fun no => pure (some no)) :=
        (Advances.blockOf hs bound).trails.bind fun no => trails_pure _
      exact (hblock rest).trans ((List.suffix_cons t rest).trans hd)
    · exact List.suffix_refl _

theorem Advances.branchOf (hs : Trails statement) (bound : Nat) :
    Advances (branchOf statement bound) := by
  refine (advances_expect _).bind fun word => ?_
  refine (advances_expression bound).trails.bind fun condition => ?_
  refine (Advances.blockOf hs bound).trails.bind fun yes => ?_
  exact (hs.alternativeOf bound).bind fun no => trails_pure _

theorem Advances.loopOf (hs : Trails statement) (bound : Nat) :
    Advances (loopOf statement bound) := by
  refine (advances_expect _).bind fun word => ?_
  refine (advances_expression bound).trails.bind fun condition => ?_
  exact (Advances.blockOf hs bound).trails.bind fun body => trails_pure _

theorem advances_param : Advances param := by
  refine advances_name.bind fun target => ?_
  refine (advances_expect _).discard.trails.bind fun _ => ?_
  exact advances_typeTag.trails.bind fun type => trails_pure _

theorem Advances.functionOf (hs : Trails statement) (bound : Nat) :
    Advances (functionOf statement bound) := by
  refine (advances_expect _).bind fun word => ?_
  refine advances_name.trails.bind fun callee => ?_
  refine (advances_expect _).discard.trails.bind fun _ => ?_
  refine (advances_param.parenthesized bound).bind fun params => ?_
  refine (trails_typeBehind? _).bind fun returns => ?_
  exact (Advances.blockOf hs bound).trails.bind fun body => trails_pure _

theorem advances_leave (bound : Nat) : Advances (leave bound) := by
  rw [leave_eq]
  refine (advances_expect _).bind fun word => ?_
  refine trails_peek.bind fun t => ?_
  split
  · exact trails_pure _
  · exact (advances_expression bound).trails.bind fun value => trails_pure _

theorem advances_print (bound : Nat) : Advances (print bound) := by
  refine (advances_expect _).bind fun word => ?_
  refine (advances_expect _).discard.trails.bind fun _ => ?_
  refine (advances_expression bound).trails.bind fun value => ?_
  exact (advances_expect _).discard.trails.bind fun _ => trails_pure _

theorem Advances.statementFrom (hs : Trails statement) (first : Token) (bound : Nat) :
    Advances (statementFrom first statement bound) := by
  unfold Parser.statementFrom
  split
  · exact advances_declaration bound
  · exact Advances.branchOf hs bound
  · exact Advances.loopOf hs bound
  · exact Advances.functionOf hs bound
  · exact advances_leave bound
  · exact advances_print bound
  · refine (trails_followedBy _).bindAdvances fun b => ?_
    apply Advances.ite
    · exact (advances_call bound).bind fun e => trails_pure _
    · refine (trails_followedBy _).bindAdvances fun b => ?_
      exact (advances_reassignment bound).ite (advances_throw _)
  · exact advances_throw _

theorem advances_statement (bound : Nat) : Advances (Parser.statement bound) := by
  induction bound with
  | zero => exact advances_throw _
  | succ bound ih =>
    refine trails_peek.bindAdvances fun first => ?_
    refine (Advances.statementFrom ih.trails first bound).bind fun result => ?_
    exact trails_skipNewline.bind fun _ => trails_pure result

end Statements

end Scriptlet.Parser
