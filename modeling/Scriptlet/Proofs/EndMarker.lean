import Scriptlet.Proofs.Parallel.Statement

namespace Scriptlet

/-- Only a list with the closing token is a body. -/
theorem Grammar.Body.exists_closing {G : List Token → Token → Stmt → Prop} {closing : Token.Kind}
    {ts : List Token} {body : List Stmt} (h : Body G closing ts body) :
    ∃ t ∈ ts, t.kind = closing := by
  induction h with
  | close hk => exact ⟨_, List.mem_cons_self, hk⟩
  | newline _ _ ih =>
    obtain ⟨t, ht, hk⟩ := ih
    exact ⟨t, List.mem_cons_of_mem _ ht, hk⟩
  | statement _ _ ih =>
    obtain ⟨t, ht, hk⟩ := ih
    exact ⟨t, List.mem_append_right _ ht, hk⟩

namespace Parser

open Grammar

theorem dropNewlines_concat {e : Token} (he : e.kind ≠ .newline) (ts : List Token) :
    dropNewlines (ts ++ [e]) = dropNewlines ts ++ [e] := by
  induction ts with
  | nil => exact dropNewlines_cons he
  | cons t ts ih =>
    rw [List.cons_append]
    by_cases ht : t.kind = .newline
    · rw [dropNewlines_newline ht, dropNewlines_newline ht, ih]
    · rw [dropNewlines_cons ht, dropNewlines_cons ht, List.cons_append]

/-- Tokens without the token for the end, and with it behind them. -/
def Parallel.closedBy (e : Token) (he : e.kind = .endOfInput) : Parallel where
  Beside ts us := Clean ts ∧ us = ts ++ [e]
  stop := [e]
  ends h := by
    cases h
    exact he
  nil := by
    rintro us ⟨_, rfl⟩
    rfl
  cons {t ts us} := by
    rintro ⟨hclean, rfl⟩
    obtain ⟨ht, hts⟩ := clean_cons.mp hclean
    refine ⟨?_, ts ++ [e], rfl, fun _ => ⟨hts, rfl⟩⟩
    intro h
    cases h
    exact ht he
  newlines {ts us} := by
    rintro ⟨hclean, rfl⟩
    exact ⟨fun t ht => hclean t ((List.dropWhile_suffix _).subset ht),
      dropNewlines_concat (by simp [he]) ts⟩

end Parser

namespace Stmt

open Grammar Scriptlet.Parser

variable {tokens : List Token}

theorem ended_of_ofTokens {body : List Stmt} (h : ofTokens tokens = .ok body) : Ended tokens := by
  obtain ⟨t, ht, hk⟩ := (program_of_ofTokens h).exists_closing
  obtain ⟨rest, htokens⟩ := exists_upToEnd tokens
  rw [htokens]
  exact ⟨t, List.mem_append_left rest ht, hk⟩

/-- What is read does not depend on what stands behind the token for the end. -/
theorem ofTokens_append_of_ended (h : Ended tokens) (us : List Token) :
    ofTokens (tokens ++ us) = ofTokens tokens := by
  have hsettled := (predictive_statementsUntilEnd []).settled h (Nat.le_refl _)
  have hn : tokens.length ≤ (tokens ++ us).length := by simp
  unfold ofTokens
  generalize (tokens ++ us).length = n at hn
  generalize (statementsUntilEnd tokens.length []).parse tokens = outcome at hsettled
  cases hsettled with
  | @read ts rest a clean copies =>
    have hrest : rest ≠ [] := by
      obtain ⟨t, more, hcons⟩ := (h.behind clean).exists_cons
      simp [hcons]
    have hlength : ts.length < n := by
      have hpos := List.length_pos_iff.mpr hrest
      rw [List.length_append] at hn
      omega
    rw [List.append_assoc, copies n rest [] us (List.append_nil rest).symm hrest hlength]
  | @fail pre post rest bad e found viable copies =>
    have htokens : pre ++ bad :: post ++ us =
        pre ++ bad :: (post.take e.lookahead ++ (post.drop e.lookahead ++ us)) := by
      rw [← List.append_assoc (post.take _), List.take_append_drop, List.append_assoc,
        List.cons_append]
    have hlength : pre.length < n := by
      rw [List.length_append, List.length_cons] at hn
      omega
    obtain ⟨left, hfail⟩ := copies n (post.drop e.lookahead ++ us) hlength
    rw [htokens, hfail]

theorem ofTokens_ne_of_ended (h : Ended tokens) :
    ofTokens tokens ≠ .error .unexpectedEndOfInput := by
  have hsettled := (predictive_statementsUntilEnd []).settled h (Nat.le_refl _)
  unfold ofTokens
  generalize (statementsUntilEnd tokens.length []).parse tokens = outcome at hsettled
  cases hsettled with
  | read => simp
  | fail found =>
    intro he
    cases he
    cases found

/-- The error without the token for the end, if with it there is this result. -/
def errorWithout (e : Token) : Except ParseError (List Stmt) → ParseError
  | .ok _ => .unexpectedEndOfInput
  | .error error => if error.found? = some e then .unexpectedEndOfInput else error

/-- The token for the end is a sentinel: nothing behind it matters, with it the tokens never run
out, and without it they do unless something else is wrong before. -/
theorem ofTokens_sentinel {ts : List Token} {e : Token} (hts : Clean ts)
    (he : e.kind = .endOfInput) :
    (∀ us, ofTokens (ts ++ [e] ++ us) = ofTokens (ts ++ [e])) ∧
      ofTokens (ts ++ [e]) ≠ .error .unexpectedEndOfInput ∧
      ofTokens ts = .error (errorWithout e (ofTokens (ts ++ [e]))) := by
  have hend : Ended (ts ++ [e]) := ⟨e, by simp, he⟩
  refine ⟨ofTokens_append_of_ended hend, ofTokens_ne_of_ended hend, ?_⟩
  let P := Parallel.closedBy e he
  have hbeside : P.Beside ts (ts ++ [e]) := ⟨hts, rfl⟩
  have halike : P.Alike P.Beside P.AtStop ((statementsUntilEnd ts.length []).parse ts)
      ((statementsUntilEnd (ts ++ [e]).length []).parse (ts ++ [e])) :=
    Parallel.alike_statementsUntilEnd (P.newlines hbeside) (Nat.le_refl _) (Nat.le_refl _)
  have hopen {body : List Stmt} : ofTokens ts ≠ .ok body := by
    intro h
    obtain ⟨t, ht, hk⟩ := ended_of_ofTokens h
    exact hts t ht hk
  unfold ofTokens at hopen ⊢
  generalize (statementsUntilEnd ts.length []).parse ts = x at halike hopen ⊢
  generalize (statementsUntilEnd (ts ++ [e]).length []).parse (ts ++ [e]) = y at halike ⊢
  cases halike with
  | read => exact absurd rfl hopen
  | @fail error t _ _ found other =>
    have hfound : error.found? ≠ some e := by
      rw [found]
      exact other
    exact congrArg Except.error (if_neg hfound).symm
  | spent h =>
    cases h with
    | refused h => exact congrArg Except.error (if_pos h).symm
    | upTo => rfl

/-- For one, behind `if a {}` and a newline, where an `else` might follow, and with a second token
for the end behind the first. -/
theorem ofTokens_sentinel_branch :
    let ts : List Token := [⟨.keyword .ifWord, {}⟩, ⟨.name "a", ⟨1, 4⟩⟩, ⟨.mark .openBrace, ⟨1, 6⟩⟩,
      ⟨.mark .closeBrace, ⟨1, 7⟩⟩, ⟨.newline, ⟨1, 8⟩⟩]
    let e : Token := ⟨.endOfInput, ⟨2, 1⟩⟩
    Clean ts ∧ e.kind = .endOfInput ∧
      ofTokens (ts ++ [e] ++ [e]) = .ok [.branch (.var "a" 1) [] none 1] ∧
      ofTokens ts = .error .unexpectedEndOfInput := by
  intro ts e
  have hts : Clean ts := by simp [ts]
  have he : e.kind = .endOfInput := rfl
  obtain ⟨hbehind, _, hwithout⟩ := ofTokens_sentinel hts he
  have hread : ofTokens (ts ++ [e]) = .ok [.branch (.var "a" 1) [] none 1] := rfl
  rw [hbehind, hwithout, hread]
  exact ⟨hts, he, rfl, rfl⟩

end Stmt

end Scriptlet
