import Scriptlet.Proofs.Parallel
import Scriptlet.Proofs.Predictive.Expression

namespace Scriptlet.Parser.Parallel

open Grammar

variable {P : Parallel} {m n M N : Nat} {level : Level}
  {operand operand' primary primary' : Parser Expr}

/-- Without an operator of the level there are no more operations. -/
theorem alike_operations_other {ts us : List Token} (hb : P.Beside ts us)
    (hts : ∀ t ∈ ts.head?, ∀ op, t.kind = .operator op → op.level ≠ level) (left : Expr) :
    P.Alike P.Beside Never ((operations level operand m left).parse ts)
      ((operations level operand' n left).parse us) := by
  have hnil (operand : Parser Expr) (bound : Nat) :
      (operations level operand bound left).Reads [] left [] := by
    cases bound <;> rfl
  have hother {t : Token} (ht : ∀ op, t.kind = .operator op → op.level ≠ level)
      (operand : Parser Expr) (bound : Nat) (more : List Token) :
      (operations level operand bound left).Reads (t :: more) left (t :: more) :=
    reads_operations_other ht left more
  cases ts with
  | nil =>
    obtain rfl := P.nil hb
    have hstop : (operations level operand' n left).Reads P.stop left P.stop := by
      cases hs : P.stop with
      | nil => exact hnil operand' n
      | cons e more => exact hother (by simp [P.ends hs]) operand' n more
    rw [hnil operand m, hstop]
    exact .read hb
  | cons t ts =>
    obtain ⟨_, us, rfl, _⟩ := P.cons hb
    rw [hother (hts t rfl) operand m, hother (hts t rfl) operand' n]
    exact .read hb

theorem Paired.operations (ho : P.Paired M N operand operand') (hm : m ≤ M) (hn : n ≤ N)
    (left : Expr) :
    P.Twins P.Beside Never m n (operations level operand m left)
      (operations level operand' n left) := by
  induction m generalizing n left with
  | zero =>
    refine ⟨fun {ts us} hb hts _ => alike_operations_other hb ?_ left⟩
    obtain rfl := List.length_eq_zero_iff.mp (Nat.le_zero.mp hts)
    simp
  | succ m ih =>
    refine ⟨fun {ts us} hb hts hus => ?_⟩
    cases ts with
    | nil => exact alike_operations_other hb (by simp) left
    | cons t ts =>
      obtain ⟨_, us, rfl, hrest⟩ := P.cons hb
      by_cases hop : ∃ op, t.kind = .operator op ∧ op.level = level
      · obtain ⟨op, hop, hlevel⟩ := hop
        have hm := Nat.le_of_succ_le hm
        obtain ⟨n, rfl⟩ := Nat.exists_eq_add_one_of_ne_zero (Nat.ne_zero_of_lt hus)
        have hn := Nat.le_of_succ_le hn
        have hright : P.Twins P.Beside Never m n
            (operand >>= fun right =>
              Parser.operations level operand m (.binary op left right t.line))
            (operand' >>= fun right =>
              Parser.operations level operand' n (.binary op left right t.line)) :=
          (ho.weaken hm hn).bind fun right => ih hm hn _
        rw [parse_operations_operator hop hlevel, parse_operations_operator hop hlevel]
        exact hright.alike (hrest (by simp [hop])) (Nat.le_of_succ_le_succ hts)
          (Nat.le_of_succ_le_succ hus)
      · refine alike_operations_other hb ?_ left
        rintro _ ⟨⟩ op hk hlevel
        exact hop ⟨op, hk, hlevel⟩

theorem Paired.chain (ho : P.Paired m n operand operand') (level : Level) :
    P.Paired m n (chain level operand m) (chain level operand' n) where
  twins := ho.bind fun left => ho.operations (Nat.le_refl m) (Nat.le_refl n) left
  left := ho.left.chain level m
  right := ho.right.chain level n
  refusesNil := ho.refusesNil.bind
  refusesStop hs := (ho.refusesStop hs).bind

theorem Paired.comparisonOver (hp : P.Paired m n primary primary') :
    P.Paired m n (comparisonOver primary m) (comparisonOver primary' n) :=
  ((hp.chain .multiplicative).chain .additive).chain .comparison

/-- The name counts as a token for the arguments. -/
theorem Paired.callOver (hp : P.Paired m n primary primary') :
    P.Twins P.Beside Never (m + 1) (n + 1) (callOver primary m) (callOver primary' n) := by
  unfold Parser.callOver
  simp only [discard_bind]
  refine twins_peek.bindOver trails_peek trails_peek (fun t => ?_) ?_
  · refine paired_name.step fun callee => ?_
    refine (paired_mark .openParen).bind fun _ => ?_
    refine hp.comparisonOver.parenthesized.bind (hp.comparisonOver.left.parenthesized m)
      (hp.comparisonOver.right.parenthesized n) fun arguments => ?_
    exact twins_pure _
  · rintro t us ⟨rfl, _⟩ _
    exact refuses_name.bind.spent

/-- A name is called or not, by the token behind it. -/
theorem parse_primary_name {t : Token} {s : String} {more : List Token} {b : Bool}
    (hk : t.kind = .name s)
    (hb : (followedBy (.mark .openParen)).parse (t :: more) = (.ok b, t :: more)) :
    (Parser.primary (n + 1)).parse (t :: more) =
      if b then (Parser.callOver (Parser.primary n) n).parse (t :: more)
      else (.ok (.var s t.line), more) := by
  simp only [Parser.primary, parse_bind _ peek, parse_peek, hk, parse_bind _ (followedBy _), hb]
  cases b <;> rfl

theorem refuses_primary {stop : List Token}
    (hs : ∀ t more, stop = t :: more → t.kind = .endOfInput) (hn : stop.length ≤ n) :
    Refuses stop (Parser.primary n) := by
  cases stop with
  | nil => cases n <;> exact ⟨_, [], rfl, rfl⟩
  | cons t more =>
    cases n with
    | zero => simp at hn
    | succ n =>
      have ht : startsExpression t.kind = false := by rw [hs t more rfl]; rfl
      exact ⟨_, _, parse_primary_other ht more, rfl⟩

theorem paired_primary : P.Paired m n (Parser.primary m) (Parser.primary n) := by
  have hnil (m : Nat) : Refuses [] (Parser.primary m) := refuses_primary (by simp) (Nat.zero_le m)
  have hstop {n : Nat} (hs : P.stop.length ≤ n) : Refuses P.stop (Parser.primary n) :=
    refuses_primary (fun _ _ => P.ends) hs
  refine ⟨?_, advances_primary m, advances_primary n, hnil m, hstop⟩
  induction m generalizing n with
  | zero => exact .ofZero (.inl rfl) (hnil 0) fun hs => (hstop hs).spent
  | succ m ih =>
    cases n with
    | zero => exact .ofZero (.inr rfl) (hnil _) fun hs => (hstop hs).spent
    | succ n =>
      refine .ofCons (hnil _) (fun hs => (hstop hs).spent) ?_
      intro t ts us hb hne hrest hts hus
      have hinner : P.Paired m n (Parser.primary m) (Parser.primary n) :=
        ⟨ih, advances_primary m, advances_primary n, hnil m, hstop⟩
      cases hs : startsExpression t.kind with
      | false =>
        rw [parse_primary_other hs, parse_primary_other hs]
        exact .fail rfl hne
      | true =>
        rcases startsExpression_cases hs with ⟨v, hv⟩ | ⟨s, hk⟩ | hk
        · have ht : t.kind ≠ .newline := by
            intro hk
            simp [hk, literal?] at hv
          have hread (bound : Nat) (more : List Token) :
              (Parser.primary (bound + 1)).parse (t :: more) = (.ok (.literal v t.line), more) :=
            complete_literal hv
          rw [hread, hread]
          exact .read (hrest ht)
        · have hbehind := hrest (by simp [hk])
          obtain ⟨b, hleft, hright⟩ := exists_followedBy .openParen t hbehind
          rw [parse_primary_name hk hleft, parse_primary_name hk hright]
          cases b with
          | false => exact .read hbehind
          | true => exact hinner.callOver.alike hb hts hus
        · have hgroup : P.Twins P.Beside Never m n
              (Parser.comparisonOver (Parser.primary m) m >>= fun e =>
                expect (.mark .closeParen) >>= fun _ => pure e)
              (Parser.comparisonOver (Parser.primary n) n >>= fun e =>
                expect (.mark .closeParen) >>= fun _ => pure e) :=
            hinner.comparisonOver.bind fun e => (paired_mark .closeParen).bind fun _ => twins_pure e
          rw [parse_primary_group hk, parse_primary_group hk]
          exact hgroup.alike (hrest (by simp [hk])) (Nat.le_of_lt_succ hts)
            (Nat.le_of_lt_succ hus)

theorem paired_expression : P.Paired m n (expression m) (expression n) :=
  paired_primary.comparisonOver

end Scriptlet.Parser.Parallel
