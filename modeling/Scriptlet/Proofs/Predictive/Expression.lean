import Scriptlet.Proofs.Completeness
import Scriptlet.Proofs.Predictive

namespace Scriptlet.Parser

open Grammar

section Expressions

variable {ι : Type} {cap : ι → Nat} {m bound : Nat} {level : Level} {operand primary : Parser Expr}
  {copy : ι → Parser Expr} {Operand Primary : List Token → Expr → Prop}

theorem parse_operations_operator {t : Token} {op : Operator} (ht : t.kind = .operator op)
    (hlevel : op.level = level) (left : Expr) (more : List Token) :
    (operations level operand (bound + 1) left).parse (t :: more) =
      (operand >>= fun right =>
        operations level operand bound (.binary op left right t.line)).parse more := by
  obtain ⟨kind, position⟩ := t
  subst ht
  simp [operations, parse_bind, hlevel, Token.line]

theorem reads_operations_other {t : Token} (ht : ∀ op, t.kind = .operator op → op.level ≠ level)
    (left : Expr) (more : List Token) :
    (operations level operand bound left).Reads (t :: more) left (t :: more) := by
  cases bound with
  | zero => simp [operations]
  | succ bound =>
    simp only [operations, reads_bind, reads_get]
    refine ⟨_, _, ⟨rfl, rfl⟩, ?_⟩
    split
    · next op position more h =>
      obtain ⟨rfl, rfl⟩ := List.cons.inj h
      simp [ht op rfl]
    · simp

theorem Predictive.operations (ho : Predictive cap Next m operand copy Operand)
    (sound : Sound operand Operand) (hb : bound ≤ m) {vs : List Token} {left : Expr}
    (hl : Chain level Operand vs left) :
    Predictive (fun k : ι × Nat => min (cap k.1) k.2) Next bound
      (operations level operand bound left) (fun k => operations level (copy k.1) k.2 left)
      (fun us e => Chain level Operand (vs ++ us) e) where
  viable := ⟨[], left, by simpa using hl⟩
  settled {tokens} hend hm := by
    induction bound generalizing left vs tokens with
    | zero =>
      obtain ⟨t, more, rfl⟩ := hend.exists_cons
      simp at hm
    | succ bound ih =>
      obtain ⟨t, more, rfl⟩ := hend.exists_cons
      rw [List.length_cons] at hm
      by_cases hop : ∃ op, t.kind = .operator op ∧ op.level = level
      · obtain ⟨op, ht, hlevel⟩ := hop
        rw [parse_operations_operator ht hlevel]
        have hfront : Clean [t] := by simp [ht]
        have hoperand : Predictive (fun k : ι × Nat => min (cap k.1) k.2) Next bound operand
            (fun k => copy k.1) Operand := ho.weaken Prod.fst (by omega) fun k => by omega
        have hround : Predictive (fun k : ι × Nat => min (cap k.1) k.2) Next bound
            (operand >>= fun right =>
              Parser.operations level operand bound (.binary op left right t.line))
            (fun k => copy k.1 >>= fun right =>
              Parser.operations level (copy k.1) k.2 (.binary op left right t.line))
            (fun us e => Chain level Operand (vs ++ ([t] ++ us)) e) := by
          refine .bind id hoperand sound fun {us right} hright => ?_
          have hl' : Chain level Operand (vs ++ t :: us) (.binary op left right t.line) :=
            .operation hl ht hlevel hright
          refine ⟨⟨[], _, by simpa using hl'⟩, fun hend hm => ?_⟩
          exact (ih (by omega) hl' hend hm).mono fun _ h => ⟨_, _, by simpa using h⟩
        refine .ofSuccBound (.behind hfront (fun k _ => ⟨k, ?_, fun us => ?_⟩)
          (hround.settled (Ended.behind hend hfront) (by omega)))
        · simp only [List.length_singleton]
          omega
        · exact parse_operations_operator ht hlevel left us
      · have hother : ∀ op, t.kind = .operator op → op.level ≠ level :=
          fun op ht hlevel => hop ⟨op, ht, hlevel⟩
        rw [show (Parser.operations level operand (bound + 1) left).parse (t :: more) =
          (.ok left, t :: more) from reads_operations_other hother left more]
        exact .peek clean_nil fun k us _ => reads_operations_other hother left us

theorem Predictive.chain (level : Level) (ho : Predictive cap Next m operand copy Operand)
    (sound : Sound operand Operand) (hb : bound ≤ m) :
    Predictive (fun k : ι × Nat => min (cap k.1) k.2) Next bound (chain level operand bound)
      (fun k => chain level (copy k.1) k.2) (Chain level Operand) := by
  have hfirst : Predictive (fun k : ι × Nat => min (cap k.1) k.2) Next bound operand
      (fun k => copy k.1) Operand := ho.weaken Prod.fst hb fun k => by omega
  exact .bind id hfirst sound fun he => ho.operations sound hb (.operand he)

theorem Predictive.comparisonOver (hp : Predictive cap Next m primary copy Primary)
    (sound : Sound primary Primary) (hb : bound ≤ m) :
    Predictive (fun k : ι × Nat => min (cap k.1) k.2) Next bound (comparisonOver primary bound)
      (fun k => comparisonOver (copy k.1) k.2) (ExpressionOver Primary) := by
  have hproducts := hp.chain .multiplicative sound hb
  have hsums := hproducts.chain .additive sound.chain (Nat.le_refl bound)
  have hcomparisons := hsums.chain .comparison sound.chain.chain (Nat.le_refl bound)
  exact hcomparisons.weaken (fun k : ι × Nat => (((k.1, k.2), k.2), k.2)) (Nat.le_refl bound)
    fun k => by simp

/-- What `callOver` does behind the opening parenthesis. -/
def callBehind (primary : Parser Expr) (bound : Nat) (callee : String) (line : Nat) : Parser Expr :=
  parenthesized (comparisonOver primary bound) bound >>= fun arguments =>
    pure (.call callee arguments line)

theorem parse_callOver {t left : Token} {s : String} (hn : t.kind = .name s)
    (hl : left.kind = .mark .openParen) (more : List Token) :
    (callOver primary bound).parse (t :: left :: more) =
      (callBehind primary bound s t.line).parse more := by
  simp [callOver, callBehind, discard_bind, parse_bind, name, expect, hn, hl]

theorem Predictive.callBehind (hp : Predictive cap Next m primary copy Primary)
    (sound : Sound primary Primary) (hb : bound ≤ m) {t left : Token} {s : String}
    (hn : t.kind = .name s) (hl : left.kind = .mark .openParen) :
    Predictive (fun k : ι × Nat => min (cap k.1) k.2) Next bound
      (callBehind primary bound s t.line) (fun k => callBehind (copy k.1) k.2 s t.line)
      (fun us e => Call (ExpressionOver Primary) ([t, left] ++ us) e) := by
  have hlist := (hp.comparisonOver sound hb).parenthesized sound.comparisonOver
    (Nat.le_refl bound) hl
  exact (hlist.weaken (fun k : ι × Nat => ((k.1, k.2), k.2)) (Nat.le_refl bound)
    fun k => by simp).map _ fun hes => .mk hn hes

theorem parse_primary_call {t left : Token} {s : String} (hn : t.kind = .name s)
    (hl : left.kind = .mark .openParen) (more : List Token) :
    (Parser.primary (bound + 1)).parse (t :: left :: more) =
      (callBehind (Parser.primary bound) bound s t.line).parse more := by
  have hnext : (followedBy (.mark .openParen)).parse (t :: left :: more) =
      (.ok true, t :: left :: more) := reads_followedBy.mpr ⟨by simp [hl], rfl⟩
  simp only [Parser.primary, parse_bind, parse_peek, hn, hnext, if_true]
  exact parse_callOver hn hl more

theorem parse_primary_group {t : Token} (ht : t.kind = .mark .openParen) (more : List Token) :
    (Parser.primary (bound + 1)).parse (t :: more) =
      (comparisonOver (Parser.primary bound) bound >>= fun e =>
        expect (.mark .closeParen) >>= fun _ => pure e).parse more := by
  simp only [Parser.primary, discard_bind]
  simp [parse_bind, ht]

theorem parse_primary_other {t : Token} (ht : startsExpression t.kind = false) (more : List Token) :
    (Parser.primary (bound + 1)).parse (t :: more) =
      (.error (.unexpectedTokenInExpression t), t :: more) := by
  have hp : t.kind ≠ .mark .openParen := by
    intro hk
    simp [hk, startsExpression] at ht
  cases hk : t.kind <;> simp_all [Parser.primary, parse_bind, startsExpression]

theorem startsExpression_cases {kind : Token.Kind} (h : startsExpression kind = true) :
    (∃ v, literal? kind = some v) ∨ (∃ s, kind = .name s) ∨ kind = .mark .openParen := by
  cases kind <;> simp_all [startsExpression, literal?]

/-- A name that is not followed by an opening parenthesis is a variable, so the token behind it has
to be seen. -/
theorem settled_var {t u : Token} {s : String} {more : List Token} (hn : t.kind = .name s)
    (hu : u.kind ≠ .mark .openParen) :
    Settled (fun b => b + 1) Next (fun b => Parser.primary (b + 1)) Grammar.Primary (t :: u :: more)
      ((Parser.primary (bound + 1)).parse (t :: u :: more)) := by
  have hread (b : Nat) (us : List Token) :
      (Parser.primary (b + 1)).parse (t :: u :: us) = (.ok (.var s t.line), u :: us) := by
    refine complete_var hn (ends_cons.mpr ?_)
    cases hk : u.kind with
    | mark m => cases m <;> simp_all [goesOn]
    | operator op => cases op <;> rfl
    | _ => rfl
  have hclean : Clean [t] := by simp [hn]
  rw [hread]
  exact .peek hclean fun b us _ => hread b us

theorem settled_call (hp : Predictive id Next bound (Parser.primary bound) Parser.primary
      Grammar.Primary) {t left : Token} {s : String} {more : List Token} (hn : t.kind = .name s)
    (hl : left.kind = .mark .openParen) (hend : Ended (t :: left :: more))
    (hm : more.length ≤ bound) :
    Settled (fun b => b + 1) Next (fun b => Parser.primary (b + 1)) Grammar.Primary
      (t :: left :: more) ((Parser.primary (bound + 1)).parse (t :: left :: more)) := by
  have hfront : Clean [t, left] := by simp [hn, hl]
  have hcall := (hp.callBehind sound_primary (Nat.le_refl bound) hn hl).settled
    (Ended.behind hend hfront) hm
  rw [parse_primary_call hn hl]
  refine .behind hfront (fun b _ => ⟨(b, b), by simp, fun us => parse_primary_call hn hl us⟩)
    (hcall.mono fun _ h => ⟨_, _, .mk (.call h)⟩)

theorem settled_group (hp : Predictive id Next bound (Parser.primary bound) Parser.primary
      Grammar.Primary) {t : Token} {more : List Token} (ht : t.kind = .mark .openParen)
    (hend : Ended (t :: more)) (hm : more.length ≤ bound) :
    Settled (fun b => b + 1) Next (fun b => Parser.primary (b + 1)) Grammar.Primary (t :: more)
      ((Parser.primary (bound + 1)).parse (t :: more)) := by
  have hfront : Clean [t] := by simp [ht]
  have hgroup : Predictive (fun k : Nat × Nat => min k.1 k.2) Next bound
      (comparisonOver (Parser.primary bound) bound >>= fun e =>
        expect (.mark .closeParen) >>= fun _ => pure e)
      (fun k => comparisonOver (Parser.primary k.1) k.2 >>= fun e =>
        expect (.mark .closeParen) >>= fun _ => pure e)
      (fun us e => Grammar.Primary ([t] ++ us) e) := by
    refine .bind id (hp.comparisonOver sound_primary (Nat.le_refl bound))
      sound_primary.comparisonOver fun {ts e} he => ?_
    refine (predictive_expect (by simp)).map (fun _ => e) ?_
    rintro _ right ⟨rfl, hr⟩
    exact .mk (.group ht he hr)
  rw [parse_primary_group ht]
  exact .behind hfront (fun b _ => ⟨(b, b), by simp, fun us => parse_primary_group ht us⟩)
    (hgroup.settled (Ended.behind hend hfront) hm)

theorem predictive_primary : Predictive id Next bound (Parser.primary bound) Parser.primary
    Grammar.Primary := by
  have viable : ∃ ts e, Grammar.Primary ts e := ⟨[⟨.int 0, {}⟩], _, .mk (.literal rfl)⟩
  refine ⟨viable, ?_⟩
  induction bound with
  | zero =>
    intro tokens hend hm
    obtain ⟨t, more, rfl⟩ := hend.exists_cons
    simp at hm
  | succ bound ih =>
    intro tokens hend hm
    obtain ⟨t, more, rfl⟩ := hend.exists_cons
    rw [List.length_cons] at hm
    refine .ofSucc ?_
    cases hs : startsExpression t.kind with
    | false =>
      rw [parse_primary_other hs]
      exact .refuse rfl viable fun b us _ => ⟨_, parse_primary_other hs us⟩
    | true =>
      rcases startsExpression_cases hs with ⟨v, hv⟩ | ⟨s, hn⟩ | ht
      · have ht : t.kind ≠ .endOfInput := by
          intro hk
          simp [hk, literal?] at hv
        rw [show (Parser.primary (bound + 1)).parse (t :: more) = (.ok (.literal v t.line), more)
          from complete_literal hv]
        exact .take ht fun b us _ => complete_literal hv
      · have ht : Clean [t] := by simp [hn]
        obtain ⟨u, more, rfl⟩ := (Ended.behind hend ht).exists_cons
        rw [List.length_cons] at hm
        by_cases hu : u.kind = .mark .openParen
        · exact settled_call ⟨viable, ih⟩ hn hu hend (by omega)
        · exact settled_var hn hu
      · exact settled_group ⟨viable, ih⟩ ht hend (by omega)

theorem predictive_expression :
    Predictive id Next bound (expression bound) expression Expression :=
  (predictive_primary.comparisonOver sound_primary (Nat.le_refl bound)).weaken
    (fun n : Nat => (n, n)) (Nat.le_refl bound) fun n => by simp

end Expressions

end Scriptlet.Parser
