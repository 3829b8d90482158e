import Scriptlet.Proofs.Reads

namespace Scriptlet

/-- The names of the variables and functions in an expression. -/
def Expr.names : Expr → List String
  | .literal _ _ => []
  | .var name _ => [name]
  | .binary _ left right _ => left.names ++ right.names
  | .call name arguments _ => name :: arguments.flatMap Expr.names

/-- The names of the variables, parameters included, and of the functions in a statement. -/
def Stmt.names : Stmt → List String
  | .assign name _ _ value _ => name :: value.names
  | .branch test yes none _ => test.names ++ yes.flatMap Stmt.names
  | .branch test yes (some no) _ =>
    test.names ++ yes.flatMap Stmt.names ++ no.flatMap Stmt.names
  | .loop test body _ => test.names ++ body.flatMap Stmt.names
  | .function name params _ body _ => name :: (params.map Param.name ++ body.flatMap Stmt.names)
  | .leave value _ => value.elim [] Expr.names
  | .print value _ | .expression value _ => value.names

def Expectation.kinds : Expectation → List Token.Kind
  | .token kind => [kind]
  | .name => []
  | .commaOr closing => [.mark .comma, closing]

/-- The kinds of token that the message describes. -/
def ParseError.kinds : ParseError → List Token.Kind
  | .unexpectedToken expected found => found.kind :: expected.kinds
  | .invalidStatement found | .expectedType found | .unexpectedTokenInExpression found =>
    [found.kind]
  | .unexpectedEndOfInput => []

namespace Parser

/-- Kinds of token, all marks and keywords among them. -/
structure Vocabulary (K : Token.Kind → Prop) : Prop where
  mark : ∀ m, K (.mark m)
  keyword : ∀ k, K (.keyword k)

/-- From tokens of kinds in `K` the parser makes something in `Q`, or an error that describes kinds
in `K`. -/
def Makes {α : Type} (K : Token.Kind → Prop) (Q : α → Prop) (p : Parser α) : Prop :=
  ∀ tokens, (∀ t ∈ tokens, K t.kind) → (∀ t ∈ (p.parse tokens).2, K t.kind) ∧
    match (p.parse tokens).1 with
    | .ok a => Q a
    | .error e => ∀ kind ∈ e.kinds, K kind

variable {K : Token.Kind → Prop} {α β : Type}

section Rules

variable {Q : α → Prop} {R : β → Prop} {p : Parser α} {q : α → Parser β}

theorem makes_pure {a : α} (h : Q a) : Makes K Q (pure a) :=
  fun _ ht => ⟨ht, h⟩

theorem makes_throw {e : ParseError} (h : ∀ kind ∈ e.kinds, K kind) : Makes K Q (throw e) :=
  fun _ ht => ⟨ht, h⟩

theorem makes_get : Makes K (fun ts => ∀ t ∈ ts, K t.kind) get :=
  fun _ ht => ⟨ht, ht⟩

theorem makes_set {ts : List Token} (h : ∀ t ∈ ts, K t.kind) :
    Makes K (fun _ => True) (set ts : Parser PUnit) :=
  fun _ _ => ⟨h, trivial⟩

theorem makes_modify {change : List Token → List Token} (h : ∀ ts, change ts ⊆ ts) :
    Makes K (fun _ => True) (modify change : Parser PUnit) :=
  fun ts ht => ⟨fun t hm => ht t (h ts hm), trivial⟩

theorem Makes.bind (hp : Makes K Q p) (hq : ∀ a, Q a → Makes K R (q a)) :
    Makes K R (p >>= q) := by
  intro tokens ht
  have h := hp tokens ht
  rw [parse_bind]
  generalize p.parse tokens = outcome at h
  obtain ⟨e | a, rest⟩ := outcome
  · exact h
  · exact hq a h.2 rest h.1

/-- Where the result does not matter. -/
theorem Makes.discard (hp : Makes K Q p) : Makes K (fun _ => True) (discard p) := by
  have hd : Functor.discard p = p >>= fun _ => pure () := map_eq_pure_bind _ p
  rw [hd]
  exact hp.bind fun _ _ => makes_pure trivial

theorem Makes.ite {c : Prop} [Decidable c] {p q : Parser α} (hp : Makes K Q p)
    (hq : Makes K Q q) : Makes K Q (if c then p else q) := by
  split
  · exact hp
  · exact hq

end Rules

section Tokens

theorem makes_peek : Makes K (fun t => K t.kind) peek := by
  apply makes_get.bind
  intro ts hts
  cases ts with
  | nil => exact makes_throw fun _ hm => absurd hm List.not_mem_nil
  | cons t more => exact makes_pure (hts t List.mem_cons_self)

theorem makes_next : Makes K (fun t => K t.kind) next := by
  apply makes_get.bind
  intro ts hts
  cases ts with
  | nil => exact makes_throw fun _ hm => absurd hm List.not_mem_nil
  | cons t more =>
    have hmore : ∀ u ∈ more, K u.kind := fun u hu => hts u (List.mem_cons_of_mem t hu)
    exact (makes_set hmore).bind fun _ _ => makes_pure (hts t List.mem_cons_self)

theorem makes_expect {kind : Token.Kind} (h : K kind) :
    Makes K (fun _ => True) (expect kind) := by
  apply makes_next.bind
  intro t ht
  apply Makes.ite
  · exact makes_pure trivial
  · apply makes_throw
    simp [ParseError.kinds, Expectation.kinds, ht, h]

theorem makes_followedBy (kind : Token.Kind) : Makes K (fun _ => True) (followedBy kind) := by
  apply makes_get.bind
  intro ts _
  split
  · exact makes_pure trivial
  · exact makes_pure trivial

theorem makes_take? (kind : Token.Kind) : Makes K (fun _ => True) (take? kind) := by
  have hat : Makes K (fun _ => True) (at? kind) := makes_peek.bind fun _ _ => makes_pure trivial
  apply hat.bind
  intro b _
  apply Makes.ite
  · exact makes_next.discard.bind fun _ _ => makes_pure trivial
  · exact makes_pure trivial

theorem makes_skipNewlines : Makes K (fun _ => True) skipNewlines :=
  makes_modify fun _ => (List.dropWhile_suffix _).subset

theorem makes_skipNewline : Makes K (fun _ => True) skipNewline := by
  apply makes_modify
  intro ts
  split
  · exact List.subset_cons_self _ _
  · exact List.Subset.refl _

theorem makes_name : Makes K (fun s => K (.name s)) name := by
  apply makes_next.bind
  intro t ht
  split
  · rename_i s hs
    exact makes_pure (hs ▸ ht)
  · apply makes_throw
    simp [ParseError.kinds, Expectation.kinds, ht]

theorem makes_typeTag : Makes K (fun _ => True) typeTag := by
  apply makes_next.bind
  intro t ht
  split
  · exact makes_pure trivial
  · apply makes_throw
    simp [ParseError.kinds, ht]

theorem makes_typeBehind? (mark : Mark) : Makes K (fun _ => True) (typeBehind? mark) := by
  apply (makes_take? _).bind
  intro b _
  apply Makes.ite
  · exact makes_typeTag.bind fun _ _ => makes_pure trivial
  · exact makes_pure trivial

end Tokens

section Lists

variable {Q : α → Prop} {item : Parser α} (hK : Vocabulary K)
include hK

theorem Makes.itemsUntil (hi : Makes K Q item) {closing : Token.Kind} (hc : K closing)
    (bound : Nat) {items : List α} (h : ∀ a ∈ items, Q a) :
    Makes K (fun as => ∀ a ∈ as, Q a) (itemsUntil closing item bound items) := by
  induction bound generalizing items with
  | zero => exact makes_throw fun _ hm => absurd hm List.not_mem_nil
  | succ bound ih =>
    apply hi.bind
    intro a ha
    have hitems : ∀ b ∈ a :: items, Q b := List.forall_mem_cons.mpr ⟨ha, h⟩
    apply makes_next.bind
    intro t ht
    apply Makes.ite
    · exact ih hitems
    · apply Makes.ite
      · exact makes_pure fun b hb => hitems b (List.mem_reverse.mp hb)
      · apply makes_throw
        simp [ParseError.kinds, Expectation.kinds, ht, hc, hK.mark]

theorem Makes.parenthesized (hi : Makes K Q item) (bound : Nat) :
    Makes K (fun as => ∀ a ∈ as, Q a) (parenthesized item bound) := by
  have hnil : ∀ a ∈ ([] : List α), Q a := fun _ hm => absurd hm List.not_mem_nil
  apply (makes_take? _).bind
  intro b _
  apply Makes.ite
  · exact makes_pure hnil
  · exact Makes.itemsUntil hK hi (hK.mark _) bound hnil

end Lists

/-- All these names are in the vocabulary. -/
def Known (K : Token.Kind → Prop) (names : List String) : Prop :=
  ∀ x ∈ names, K (.name x)

abbrev KnownExpr (K : Token.Kind → Prop) (e : Expr) : Prop :=
  Known K e.names

abbrev KnownStmt (K : Token.Kind → Prop) (s : Stmt) : Prop :=
  Known K s.names

section Known

variable {names others : List String} {name : String}

@[simp]
theorem known_nil : Known K [] :=
  fun _ hx => absurd hx List.not_mem_nil

@[simp]
theorem known_cons : Known K (name :: names) ↔ K (.name name) ∧ Known K names := by
  simp [Known]

@[simp]
theorem known_append : Known K (names ++ others) ↔ Known K names ∧ Known K others := by
  simp [Known, or_imp, forall_and]

theorem known_flatMap {f : α → List String} {as : List α} :
    Known K (as.flatMap f) ↔ ∀ a ∈ as, Known K (f a) := by
  simp only [Known, List.mem_flatMap]
  constructor
  · intro h a ha x hx
    exact h x ⟨a, ha, hx⟩
  · intro h x hx
    obtain ⟨a, ha, hx⟩ := hx
    exact h a ha x hx

theorem known_map {f : α → String} {as : List α} :
    Known K (as.map f) ↔ ∀ a ∈ as, K (.name (f a)) := by
  simp [Known]

end Known

section Expressions

variable {operand primary : Parser Expr} (hK : Vocabulary K)

theorem Makes.operations (ho : Makes K (KnownExpr K) operand) (level : Level)
    (bound : Nat) {left : Expr} (h : KnownExpr K left) :
    Makes K (KnownExpr K) (operations level operand bound left) := by
  induction bound generalizing left with
  | zero => exact makes_pure h
  | succ bound ih =>
    apply makes_get.bind
    intro ts hts
    split
    · rename_i op position more
      have hmore : ∀ u ∈ more, K u.kind := fun u hu => hts u (List.mem_cons_of_mem _ hu)
      apply Makes.ite
      · refine (makes_set hmore).bind fun _ _ => ?_
        refine ho.bind fun right hr => ih ?_
        rw [KnownExpr, Expr.names, known_append]
        exact ⟨h, hr⟩
      · exact makes_pure h
    · exact makes_pure h

theorem Makes.chain (ho : Makes K (KnownExpr K) operand) (level : Level)
    (bound : Nat) : Makes K (KnownExpr K) (chain level operand bound) :=
  ho.bind fun _ hl => ho.operations level bound hl

theorem Makes.comparisonOver (hp : Makes K (KnownExpr K) primary) (bound : Nat) :
    Makes K (KnownExpr K) (comparisonOver primary bound) :=
  ((hp.chain _ bound).chain _ bound).chain _ bound

include hK

theorem Makes.callOver (hp : Makes K (KnownExpr K) primary) (bound : Nat) :
    Makes K (KnownExpr K) (callOver primary bound) := by
  refine makes_peek.bind fun t _ => ?_
  refine makes_name.bind fun callee hn => ?_
  refine (makes_expect (hK.mark _)).discard.bind fun _ _ => ?_
  refine (Makes.parenthesized hK (hp.comparisonOver bound) bound).bind fun arguments ha => ?_
  apply makes_pure
  rw [KnownExpr, Expr.names, known_cons, known_flatMap]
  exact ⟨hn, ha⟩

omit hK in
theorem makes_literal (value : Value) : Makes K (KnownExpr K) (literal value) := by
  refine makes_next.bind fun t _ => makes_pure ?_
  rw [KnownExpr, Expr.names]
  exact known_nil

theorem makes_primary (bound : Nat) : Makes K (KnownExpr K) (Parser.primary bound) := by
  induction bound with
  | zero => exact makes_throw fun _ hm => absurd hm List.not_mem_nil
  | succ bound ih =>
    apply makes_peek.bind
    intro t ht
    obtain ⟨kind, position⟩ := t
    cases kind with
    | int | float | str | bool => exact makes_literal _
    | name s =>
      apply (makes_followedBy _).bind
      intro b _
      apply Makes.ite
      · exact Makes.callOver hK ih bound
      · refine makes_next.discard.bind fun _ _ => makes_pure ?_
        rw [KnownExpr, Expr.names, known_cons]
        exact ⟨ht, known_nil⟩
    | _ =>
      apply Makes.ite
      · refine makes_next.discard.bind fun _ _ => ?_
        refine (ih.comparisonOver bound).bind fun e he => ?_
        exact (makes_expect (hK.mark _)).discard.bind fun _ _ => makes_pure he
      · apply makes_throw
        simp [ParseError.kinds, ht]

theorem makes_expression (bound : Nat) :
    Makes K (KnownExpr K) (expression bound) :=
  (makes_primary hK bound).comparisonOver bound

theorem makes_call (bound : Nat) : Makes K (KnownExpr K) (call bound) :=
  Makes.callOver hK (makes_primary hK bound) bound

end Expressions

section Statements

variable {statement : Parser Stmt} (hK : Vocabulary K)
include hK

theorem makes_declaration (bound : Nat) :
    Makes K (KnownStmt K) (declaration bound) := by
  refine (makes_expect (hK.keyword _)).bind fun word _ => ?_
  refine (makes_take? _).bind fun isMutable _ => ?_
  refine makes_name.bind fun target hn => ?_
  refine (makes_typeBehind? _).bind fun type _ => ?_
  refine (makes_expect (hK.mark _)).discard.bind fun _ _ => ?_
  refine (makes_expression hK bound).bind fun value hv => makes_pure ?_
  rw [KnownStmt, Stmt.names, known_cons]
  exact ⟨hn, hv⟩

theorem makes_reassignment (bound : Nat) :
    Makes K (KnownStmt K) (reassignment bound) := by
  refine makes_peek.bind fun t _ => ?_
  refine makes_name.bind fun target hn => ?_
  refine (makes_expect (hK.mark _)).discard.bind fun _ _ => ?_
  refine (makes_expression hK bound).bind fun value hv => makes_pure ?_
  rw [KnownStmt, Stmt.names, known_cons]
  exact ⟨hn, hv⟩

theorem Makes.statementsUntilBrace (hs : Makes K (KnownStmt K) statement)
    (bound : Nat) {found : List Stmt} (h : ∀ s ∈ found, KnownStmt K s) :
    Makes K (fun body => ∀ s ∈ body, KnownStmt K s)
      (statementsUntilBrace statement bound found) := by
  induction bound generalizing found with
  | zero => exact makes_throw fun _ hm => absurd hm List.not_mem_nil
  | succ bound ih =>
    refine makes_skipNewlines.bind fun _ _ => ?_
    refine makes_peek.bind fun t ht => ?_
    apply Makes.ite
    · refine makes_next.discard.bind fun _ _ => makes_pure fun s hm => ?_
      exact h s (List.mem_reverse.mp hm)
    · apply Makes.ite
      · apply makes_throw
        simp [ParseError.kinds, Expectation.kinds, ht, hK.mark]
      · exact hs.bind fun s hn => ih (List.forall_mem_cons.mpr ⟨hn, h⟩)

theorem Makes.blockOf (hs : Makes K (KnownStmt K) statement) (bound : Nat) :
    Makes K (fun body => ∀ s ∈ body, KnownStmt K s) (blockOf statement bound) := by
  refine (makes_expect (hK.mark _)).discard.bind fun _ _ => ?_
  exact Makes.statementsUntilBrace hK hs bound fun _ hm => absurd hm List.not_mem_nil

theorem Makes.alternativeOf (hs : Makes K (KnownStmt K) statement) (bound : Nat) :
    Makes K (fun no => ∀ s ∈ no.getD [], KnownStmt K s) (alternativeOf statement bound) := by
  apply makes_get.bind
  intro ts hts
  have hd : ∀ t ∈ dropNewlines ts, K t.kind :=
    fun t ht => hts t ((List.dropWhile_suffix _).subset ht)
  generalize dropNewlines ts = left at hd
  cases left with
  | nil => exact makes_throw fun _ hm => absurd hm List.not_mem_nil
  | cons t rest =>
    have hrest : ∀ u ∈ rest, K u.kind := fun u hu => hd u (List.mem_cons_of_mem t hu)
    apply Makes.ite
    · refine (makes_set hrest).bind fun _ _ => ?_
      exact (Makes.blockOf hK hs bound).bind fun no hn => makes_pure hn
    · exact makes_pure fun _ hm => absurd hm List.not_mem_nil

theorem Makes.branchOf (hs : Makes K (KnownStmt K) statement) (bound : Nat) :
    Makes K (KnownStmt K) (branchOf statement bound) := by
  refine (makes_expect (hK.keyword _)).bind fun word _ => ?_
  refine (makes_expression hK bound).bind fun condition hc => ?_
  refine (Makes.blockOf hK hs bound).bind fun yes hy => ?_
  refine (Makes.alternativeOf hK hs bound).bind fun no hn => makes_pure ?_
  cases no with
  | none =>
    rw [KnownStmt, Stmt.names, known_append, known_flatMap]
    exact ⟨hc, hy⟩
  | some no =>
    rw [KnownStmt, Stmt.names, known_append, known_append, known_flatMap, known_flatMap]
    exact ⟨⟨hc, hy⟩, hn⟩

theorem Makes.loopOf (hs : Makes K (KnownStmt K) statement) (bound : Nat) :
    Makes K (KnownStmt K) (loopOf statement bound) := by
  refine (makes_expect (hK.keyword _)).bind fun word _ => ?_
  refine (makes_expression hK bound).bind fun condition hc => ?_
  refine (Makes.blockOf hK hs bound).bind fun body hb => makes_pure ?_
  rw [KnownStmt, Stmt.names, known_append, known_flatMap]
  exact ⟨hc, hb⟩

theorem makes_param : Makes K (fun p => K (.name p.name)) param := by
  refine makes_name.bind fun target hn => ?_
  refine (makes_expect (hK.mark _)).discard.bind fun _ _ => ?_
  exact makes_typeTag.bind fun type _ => makes_pure hn

theorem Makes.functionOf (hs : Makes K (KnownStmt K) statement) (bound : Nat) :
    Makes K (KnownStmt K) (functionOf statement bound) := by
  refine (makes_expect (hK.keyword _)).bind fun word _ => ?_
  refine makes_name.bind fun callee hn => ?_
  refine (makes_expect (hK.mark _)).discard.bind fun _ _ => ?_
  refine (Makes.parenthesized hK (makes_param hK) bound).bind fun params hp => ?_
  refine (makes_typeBehind? _).bind fun returns _ => ?_
  refine (Makes.blockOf hK hs bound).bind fun body hb => makes_pure ?_
  rw [KnownStmt, Stmt.names, known_cons, known_append, known_map, known_flatMap]
  exact ⟨hn, hp, hb⟩

theorem makes_leave (bound : Nat) : Makes K (KnownStmt K) (leave bound) := by
  rw [leave_eq]
  refine (makes_expect (hK.keyword _)).bind fun word _ => ?_
  refine makes_peek.bind fun t _ => ?_
  apply Makes.ite
  · apply makes_pure
    rw [KnownStmt, Stmt.names]
    exact known_nil
  · refine (makes_expression hK bound).bind fun value hv => makes_pure ?_
    rw [KnownStmt, Stmt.names]
    exact hv

theorem makes_print (bound : Nat) : Makes K (KnownStmt K) (print bound) := by
  refine (makes_expect (hK.keyword _)).bind fun word _ => ?_
  refine (makes_expect (hK.mark _)).discard.bind fun _ _ => ?_
  refine (makes_expression hK bound).bind fun value hv => ?_
  refine (makes_expect (hK.mark _)).discard.bind fun _ _ => makes_pure ?_
  rw [KnownStmt, Stmt.names]
  exact hv

theorem Makes.statementFrom (hs : Makes K (KnownStmt K) statement) {first : Token}
    (hf : K first.kind) (bound : Nat) :
    Makes K (KnownStmt K) (statementFrom first statement bound) := by
  have invalid : Makes K (KnownStmt K) (throw (.invalidStatement first)) := by
    apply makes_throw
    simp [ParseError.kinds, hf]
  unfold Parser.statementFrom
  split
  · exact makes_declaration hK bound
  · exact Makes.branchOf hK hs bound
  · exact Makes.loopOf hK hs bound
  · exact Makes.functionOf hK hs bound
  · exact makes_leave hK bound
  · exact makes_print hK bound
  · refine (makes_followedBy _).bind fun b _ => ?_
    apply Makes.ite
    · refine (makes_call hK bound).bind fun e he => makes_pure ?_
      rw [KnownStmt, Stmt.names]
      exact he
    · refine (makes_followedBy _).bind fun b _ => ?_
      exact (makes_reassignment hK bound).ite invalid
  · exact invalid

theorem makes_statement (bound : Nat) :
    Makes K (KnownStmt K) (Parser.statement bound) := by
  induction bound with
  | zero => exact makes_throw fun _ hm => absurd hm List.not_mem_nil
  | succ bound ih =>
    refine makes_peek.bind fun first hf => ?_
    refine (Makes.statementFrom hK ih hf bound).bind fun result hr => ?_
    exact makes_skipNewline.bind fun _ _ => makes_pure hr

theorem makes_statementsUntilEnd (bound : Nat) {found : List Stmt}
    (h : ∀ s ∈ found, KnownStmt K s) :
    Makes K (fun body => ∀ s ∈ body, KnownStmt K s) (statementsUntilEnd bound found) := by
  induction bound generalizing found with
  | zero => exact makes_throw fun _ hm => absurd hm List.not_mem_nil
  | succ bound ih =>
    refine makes_skipNewlines.bind fun _ _ => ?_
    refine makes_peek.bind fun t _ => ?_
    apply Makes.ite
    · exact makes_pure fun s hm => h s (List.mem_reverse.mp hm)
    · exact (makes_statement hK _).bind fun s hn => ih (List.forall_mem_cons.mpr ⟨hn, h⟩)

end Statements

end Parser

namespace Stmt

open Scriptlet.Parser

variable {K : Token.Kind → Prop} {tokens : List Token}

theorem known_of_ofTokens (hK : Vocabulary K) (ht : ∀ t ∈ tokens, K t.kind) {body : List Stmt}
    (h : ofTokens tokens = .ok body) : Known K (body.flatMap Stmt.names) := by
  have hm := (makes_statementsUntilEnd hK tokens.length
    fun _ hm => absurd hm List.not_mem_nil) tokens ht
  rw [ofTokens] at h
  rw [h] at hm
  exact known_flatMap.mpr hm.2

theorem kinds_of_ofTokens (hK : Vocabulary K) (ht : ∀ t ∈ tokens, K t.kind) {e : ParseError}
    (h : ofTokens tokens = .error e) : ∀ kind ∈ e.kinds, K kind := by
  have hm := (makes_statementsUntilEnd hK tokens.length
    fun _ hm => absurd hm List.not_mem_nil) tokens ht
  rw [ofTokens] at h
  rw [h] at hm
  exact hm.2

end Stmt

end Scriptlet
