import Scriptlet.Proofs.Predictive.Statement

namespace Scriptlet

/-- An error shows the place and the description of the token that it is about. -/
theorem ParseError.message_of_found {e : ParseError} {t : Token} (h : e.found? = some t) :
    e.position? = some t.position ∧
      ∃ before behind, e.message = t.position.label ++ before ++ t.kind.describe ++ behind := by
  cases e with
  | unexpectedToken expected found =>
    cases h
    exact ⟨rfl, "expected " ++ expected.describe ++ ", found ", "", by
      simp [message, String.append_assoc]⟩
  | invalidStatement found =>
    cases h
    exact ⟨rfl, "invalid statement starting with ", "", by simp [message]⟩
  | expectedType found =>
    cases h
    exact ⟨rfl, "expected type annotation (i32, f64, str or bool), found ", "", by simp [message]⟩
  | unexpectedTokenInExpression found =>
    cases h
    exact ⟨rfl, "unexpected ", " in expression", rfl⟩
  | unexpectedEndOfInput => cases h

namespace Stmt

open Grammar Scriptlet.Parser

/-- Among these tokens, the error is about the first one that no program has in its place. A name at
the start of a statement is seen to be wrong only with the token behind it. -/
structure FirstMisfit (tokens : List Token) (e : ParseError) (k : Nat) (bad : Token) : Prop where
  token : tokens[k]? = some bad
  found : e.found? = some bad
  position : e.position? = some bad.position
  message : ∃ before behind,
    e.message = bad.position.label ++ before ++ bad.kind.describe ++ behind
  /-- The tokens before it begin a program. -/
  viable : ∃ us body, ofTokens (tokens.take k ++ us) = .ok body
  /-- Nothing behind it changes the error. -/
  final : ∀ us, ofTokens (tokens.take (k + (e.lookahead + 1)) ++ us) = .error e

/-- Where the parser fails, it fails at the first token that no program has in its place. -/
theorem ofTokens_error_at_first_misfit {ts : List Token} {last : Token} {e : ParseError}
    (hlast : last.kind = .endOfInput) (h : ofTokens (ts ++ [last]) = .error e) :
    ∃ k bad, FirstMisfit (ts ++ [last]) e k bad := by
  have hend : Ended (ts ++ [last]) := ⟨last, by simp, hlast⟩
  generalize ts ++ [last] = tokens at h hend ⊢
  have hsettled := (predictive_statementsUntilEnd []).settled hend (Nat.le_refl _)
  unfold ofTokens at h
  generalize (statementsUntilEnd tokens.length []).parse tokens = outcome at h hsettled
  cases hsettled with
  | read => cases h
  | @fail pre post rest bad e' found viable copies =>
    cases h
    obtain ⟨hposition, hmessage⟩ := ParseError.message_of_found found
    refine ⟨pre.length, bad, by simp, found, hposition, hmessage, ?_, ?_⟩
    · obtain ⟨us, body, hbody⟩ := viable
      have hread : ofTokens (pre ++ us ++ []) = .ok body := ofTokens_of_program hbody []
      exact ⟨us, body, by simpa using hread⟩
    · intro us
      have htake : (pre ++ bad :: post).take (pre.length + (e.lookahead + 1)) ++ us =
          pre ++ bad :: (post.take e.lookahead ++ us) := by
        rw [List.take_length_add_append, List.take_succ_cons, List.append_assoc, List.cons_append]
      rw [htake, ofTokens]
      obtain ⟨left, hfail⟩ := copies (pre ++ bad :: (post.take e.lookahead ++ us)).length us
        (by simp)
      rw [hfail]

/-- For one, in `if a {` and a line `x 1`, where the name is wrong because of the number. -/
theorem ofTokens_error_at_first_misfit_name :
    let place (column : Nat) : Position := ⟨2, column⟩
    let ts : List Token := [⟨.keyword .ifWord, {}⟩, ⟨.name "a", {}⟩, ⟨.mark .openBrace, {}⟩,
      ⟨.newline, {}⟩, ⟨.name "x", place 1⟩, ⟨.int 1, place 3⟩]
    let e : ParseError := .invalidStatement ⟨.name "x", place 1⟩
    ofTokens (ts ++ [⟨.endOfInput, place 4⟩]) = .error e ∧
      ∃ k bad, FirstMisfit (ts ++ [⟨.endOfInput, place 4⟩]) e k bad := by
  intro place ts e
  have h : ofTokens (ts ++ [⟨.endOfInput, place 4⟩]) = .error e := rfl
  exact ⟨h, ofTokens_error_at_first_misfit rfl h⟩

end Stmt

end Scriptlet
