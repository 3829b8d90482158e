import Scriptlet.Proofs.Lookahead
import Scriptlet.Proofs.Reads

namespace Scriptlet.Parser

open Grammar

variable {α : Type} {tokens rest : List Token}

/-- The parser reads every phrase of at most `n` tokens, if it stands in front of tokens that may
follow. -/
def Complete (p : Parser α) (G : List Token → α → Prop) (Follow : List Token → Prop) (n : Nat) :
    Prop :=
  ∀ ⦃ts : List Token⦄ ⦃a : α⦄ ⦃rest : List Token⦄,
    G ts a → ts.length ≤ n → Follow rest → p.Reads (ts ++ rest) a rest

theorem complete_flag {word : Keyword} {ts : List Token} {b : Bool} {t : Token}
    (h : Flag word ts b) (ht : t.kind ≠ .keyword word) :
    (take? (.keyword word)).Reads (ts ++ t :: rest) b (t :: rest) := by
  cases h with
  | absent => simp [ht]
  | present hk => simp [hk]

theorem complete_typeBehind {mark : Mark} {ts : List Token} {tag : Option TypeTag} {t : Token}
    (h : TypeBehind mark ts tag) (ht : t.kind ≠ .mark mark) :
    (typeBehind? mark).Reads (ts ++ t :: rest) tag (t :: rest) := by
  cases h with
  | absent => simp [typeBehind?, ht]
  | @present u v tag hm hv =>
    simp only [typeBehind?, reads_bind]
    exact ⟨true, v :: t :: rest, by simp [hm], by simp [hv]⟩

theorem complete_param {n : Nat} : Complete param Parameter (fun _ => True) n := by
  intro ts p rest h _ _
  cases h with
  | @mk t colon u name tag hn hc ht =>
    simp only [param, reads_bind, reads_name, reads_discard, reads_expect, reads_typeTag,
      reads_pure]
    exact ⟨name, _, ⟨t, rfl, hn⟩, (), _, ⟨colon, rfl, hc⟩, tag, _, ⟨u, rfl, ht⟩, rfl, rfl⟩

section Lists

variable {item : Parser α} {Item : List Token → α → Prop} {Follow : List Token → Prop}
  {n bound : Nat} {ts : List Token} {as : List α}

theorem Complete.itemsUntil (hi : Complete item Item Follow n)
    (hf : ∀ t more, t.kind = .mark .comma ∨ t.kind = .mark .closeParen → Follow (t :: more))
    (h : Separated Item ts as) (hn : ts.length ≤ n) (hb : ts.length < bound) {t : Token}
    (ht : t.kind = .mark .closeParen) (items : List α) :
    (itemsUntil (.mark .closeParen) item bound items).Reads (ts ++ t :: rest)
      (items.reverse ++ as) rest := by
  induction h generalizing bound items with
  | @one ts a ha =>
    obtain ⟨bound, rfl⟩ : ∃ b, bound = b + 1 := ⟨bound - 1, by omega⟩
    have hr := hi ha hn (hf t rest (.inr ht))
    simp only [Parser.itemsUntil, reads_bind, reads_next]
    exact ⟨a, _, hr, t, rest, rfl, by simp [ht]⟩
  | @more ts us comma a as ha hc _ ih =>
    obtain ⟨bound, rfl⟩ : ∃ b, bound = b + 1 := ⟨bound - 1, by omega⟩
    simp only [List.length_append, List.length_cons] at hn hb
    have hr := hi ha (by omega) (hf comma (us ++ t :: rest) (.inl hc))
    have hrest : (Parser.itemsUntil (.mark .closeParen) item bound (a :: items)).Reads
        (us ++ t :: rest) ((a :: items).reverse ++ as) rest := ih (by omega) (by omega) _
    simp only [Parser.itemsUntil, reads_bind, reads_next]
    refine ⟨a, _, by simpa using hr, comma, _, rfl, ?_⟩
    simpa [hc] using hrest

theorem Complete.parenthesized (hi : Complete item Item Follow n)
    (hf : ∀ t more, t.kind = .mark .comma ∨ t.kind = .mark .closeParen → Follow (t :: more))
    (hI : ∀ {ts a}, Item ts a → Begins startsExpression ts) {left : Token}
    (h : Listed Item (left :: ts) as) (hn : ts.length ≤ n) (hb : ts.length ≤ bound) :
    (parenthesized item bound).Reads (ts ++ rest) as rest := by
  simp only [Parser.parenthesized, reads_bind]
  cases h with
  | @empty _ right _ hr => exact ⟨true, rest, by simp [hr], by simp⟩
  | @items _ right ts as _ items hr =>
    simp only [List.length_append, List.length_singleton] at hn hb
    have hread : (Parser.itemsUntil (.mark .closeParen) item bound []).Reads
        (ts ++ right :: rest) as rest := hi.itemsUntil hf items (by omega) (by omega) hr []
    obtain ⟨t, us, rfl, ht⟩ := items.begins hI
    refine ⟨false, t :: (us ++ right :: rest), ?_, by simpa using hread⟩
    have hk : t.kind ≠ .mark .closeParen := by
      intro hk
      simp [hk, startsExpression] at ht
    simp [hk]

end Lists

section Expressions

variable {level : Level} {operand primary : Parser Expr}
  {Operand Primary : List Token → Expr → Prop} {n bound : Nat} {ts : List Token} {e l : Expr}

/-- An operator of the level leads to one more operation. -/
theorem parse_operations {t : Token} {op : Operator} {us : List Token} {r : Expr}
    (ht : t.kind = .operator op) (hlevel : op.level = level)
    (hr : operand.Reads (us ++ rest) r rest) :
    (operations level operand (bound + 1) l).parse (t :: (us ++ rest)) =
      (operations level operand bound (.binary op l r t.line)).parse rest := by
  obtain ⟨kind, position⟩ := t
  subst ht
  unfold Reads at hr
  simp [operations, parse_bind, hlevel, hr, Token.line]

theorem reads_operations_of_ends (h : Ends level.rank rest) :
    (operations level operand bound l).Reads rest l rest := by
  cases bound with
  | zero => simp [operations]
  | succ bound =>
    simp only [operations, reads_bind, reads_get]
    refine ⟨rest, rest, ⟨rfl, rfl⟩, ?_⟩
    split
    · next op position more =>
      have hop : op.level ≠ level := by
        intro hop
        simp [ends_cons, goesOn, hop] at h
      simp [hop]
    · simp

/-- Behind the tokens of a chain the parser goes on with the chain as its left operand. -/
theorem Complete.parse_chain (ho : Complete operand Operand (Ends (level.rank + 1)) n)
    (hb : n ≤ bound) (h : Chain level Operand ts e) (hn : ts.length ≤ n)
    (hr : Ends (level.rank + 1) rest) :
    ∃ b, bound ≤ b + ts.length ∧
      (chain level operand bound).parse (ts ++ rest) =
        (operations level operand b e).parse rest := by
  induction h generalizing rest with
  | @operand ts e h =>
    have hp : operand.parse (ts ++ rest) = (.ok e, rest) := ho h hn hr
    exact ⟨bound, by omega, by simp [Parser.chain, parse_bind, hp]⟩
  | @operation ts us t op l r _ ht hlevel right ih =>
    simp only [List.length_append, List.length_cons] at hn
    have hends : Ends (level.rank + 1) (t :: (us ++ rest)) := by
      simp [ends_cons, ht, goesOn, hlevel]
    obtain ⟨b, hlen, hp⟩ := ih (by omega) hends
    obtain ⟨b, rfl⟩ : ∃ c, b = c + 1 := ⟨b - 1, by omega⟩
    refine ⟨b, by simp only [List.length_append, List.length_cons]; omega, ?_⟩
    have hright := ho right (by omega) hr
    rw [List.append_assoc, List.cons_append, hp, parse_operations ht hlevel hright]

theorem Complete.chain (ho : Complete operand Operand (Ends (level.rank + 1)) n) (hb : n ≤ bound) :
    Complete (chain level operand bound) (Chain level Operand) (Ends level.rank) n := by
  intro ts e rest h hn hr
  have hr' : Ends (level.rank + 1) rest := by
    intro t more ht
    have := hr t more ht
    revert this
    unfold goesOn
    split <;> simp
    omega
  obtain ⟨b, _, hp⟩ := ho.parse_chain hb h hn hr'
  unfold Reads
  rw [hp]
  exact reads_operations_of_ends hr

theorem Complete.comparisonOver (hp : Complete primary Primary (Ends 3) n) (hb : n ≤ bound) :
    Complete (comparisonOver primary bound) (ExpressionOver Primary) (Ends 0) n := by
  have hm : Complete (multiplicativeOver primary bound) (Chain .multiplicative Primary)
      (Ends 2) n := Complete.chain hp hb
  have ha : Complete (additiveOver primary bound) (Chain .additive (Chain .multiplicative Primary))
      (Ends 1) n := Complete.chain hm hb
  exact Complete.chain ha hb

theorem Complete.callOver (hp : Complete primary Primary (Ends 3) n) (hb : n ≤ bound)
    (hP : ∀ {ts e}, Primary ts e → Begins startsExpression ts) :
    Complete (callOver primary bound) (Call (ExpressionOver Primary)) (fun _ => True) (n + 1) := by
  intro ts e rest h hn _
  cases h with
  | @mk t name ts es hname ha =>
    obtain ⟨left, us, rfl, hl⟩ := ha.exists_cons
    simp only [List.length_cons] at hn
    have hfollow (u : Token) (more : List Token)
        (hu : u.kind = .mark .comma ∨ u.kind = .mark .closeParen) : Ends 0 (u :: more) := by
      rcases hu with hu | hu <;> simp [ends_cons, goesOn, hu]
    have hread : (Parser.parenthesized (Parser.comparisonOver primary bound) bound).Reads
        (us ++ rest) es rest :=
      (hp.comparisonOver hb).parenthesized hfollow (ExpressionOver.begins hP) ha (by omega)
        (by omega)
    simp only [Parser.callOver, reads_bind, reads_peek, reads_name, reads_discard, reads_expect,
      reads_pure]
    exact ⟨t, _, ⟨⟨_, rfl⟩, rfl⟩, name, _, ⟨t, rfl, hname⟩, (), _, ⟨left, rfl, hl⟩, es, _, hread,
      rfl, rfl⟩

theorem complete_literal {t : Token} {v : Value} (hv : literal? t.kind = some v) :
    (Parser.primary (bound + 1)).Reads (t :: rest) (.literal v t.line) rest := by
  simp only [Parser.primary, reads_bind, reads_peek]
  refine ⟨t, _, ⟨⟨rest, rfl⟩, rfl⟩, ?_⟩
  cases hk : t.kind <;> simp_all [literal?]

theorem complete_var {t : Token} {name : String} (hn : t.kind = .name name) (hr : Ends 3 rest) :
    (Parser.primary (bound + 1)).Reads (t :: rest) (.var name t.line) rest := by
  have hnext : (rest[0]?.any fun u => u.kind = .mark .openParen) = false := by
    cases rest with
    | nil => rfl
    | cons u us =>
      have hu : u.kind ≠ .mark .openParen := by
        intro hu
        simp [ends_cons, goesOn, hu] at hr
      simpa using hu
  simp only [Parser.primary, reads_bind, reads_peek]
  refine ⟨t, _, ⟨⟨rest, rfl⟩, rfl⟩, ?_⟩
  simp only [hn, reads_bind, reads_followedBy]
  exact ⟨false, _, ⟨by simpa using hnext, rfl⟩, by simp⟩

theorem complete_primaryOver (hp : Complete (Parser.primary bound) Primary (Ends 3) bound)
    (hP : ∀ {ts e}, Primary ts e → Begins startsExpression ts)
    (h : PrimaryOver (ExpressionOver Primary) ts e) (hn : ts.length ≤ bound + 1)
    (hr : Ends 3 rest) : (Parser.primary (bound + 1)).Reads (ts ++ rest) e rest := by
  cases h with
  | literal hv => exact complete_literal hv
  | var hname => exact complete_var hname hr
  | call h =>
    have hread : (Parser.callOver (Parser.primary bound) bound).Reads (ts ++ rest) e rest :=
      hp.callOver (Nat.le_refl bound) hP h hn trivial
    cases h with
    | @mk t name ts es hname ha =>
      obtain ⟨left, us, rfl, hl⟩ := ha.exists_cons
      simp only [Parser.primary, reads_bind, reads_peek]
      refine ⟨t, _, ⟨⟨_, rfl⟩, rfl⟩, ?_⟩
      simp only [hname, reads_bind, reads_followedBy]
      exact ⟨true, _, ⟨by simp [hl], rfl⟩, by simpa using hread⟩
  | @group left right ts e hl inner hright =>
    simp only [List.length_cons, List.length_append, List.length_nil] at hn
    have hends : Ends 0 (right :: rest) := by simp [ends_cons, goesOn, hright]
    have hread : (Parser.comparisonOver (Parser.primary bound) bound).Reads
        (ts ++ right :: rest) e (right :: rest) :=
      hp.comparisonOver (Nat.le_refl bound) inner (by omega) hends
    simp only [Parser.primary, reads_bind, reads_peek]
    refine ⟨left, _, ⟨⟨_, rfl⟩, rfl⟩, ?_⟩
    simp only [hl, if_true, reads_bind, reads_discard, reads_next, reads_expect, reads_pure]
    exact ⟨(), _, ⟨left, rfl⟩, e, _, by simpa using hread, (), rest, ⟨right, rfl, hright⟩, rfl, rfl⟩

/-- By induction on the tree, at every bound, since the parser reads the expressions inside at one
below its own. -/
theorem complete_primary : Complete (Parser.primary n) Grammar.Primary (Ends 3) n := by
  let P (ts : List Token) (e : Expr) : Prop :=
    Begins startsExpression ts ∧ ∀ bound rest, ts.length ≤ bound → Ends 3 rest →
      (Parser.primary bound).Reads (ts ++ rest) e rest
  have step {ts : List Token} {e : Expr} (h : PrimaryOver (ExpressionOver P) ts e) : P ts e := by
    refine ⟨h.begins, fun bound rest hn hr => ?_⟩
    cases bound with
    | zero =>
      obtain ⟨t, us, rfl, _⟩ := h.begins
      simp at hn
    | succ bound =>
      have hp : Complete (Parser.primary bound) P (Ends 3) bound :=
        fun _ _ rest h hn hr => h.2 bound rest hn hr
      exact complete_primaryOver hp (fun h => h.1) h hn hr
  intro ts e rest h hn hr
  have hPts : P ts e := h.least step
  exact hPts.2 n rest hn hr

theorem primary_begins (h : Grammar.Primary ts e) : Begins startsExpression ts := by
  cases h with
  | mk h => exact h.begins

theorem complete_expression : Complete (expression n) Expression (Ends 0) n :=
  complete_primary.comparisonOver (Nat.le_refl n)

theorem complete_call : Complete (call n) (Call Expression) (fun _ => True) (n + 1) :=
  complete_primary.callOver (Nat.le_refl n) primary_begins

end Expressions

end Scriptlet.Parser
