import Scriptlet.Proofs.Parallel.Statement

namespace Scriptlet

/-- The second list has the tokens of the first and further newlines, each behind a newline of the
first or behind another further one. -/
inductive Spread : List Token → List Token → Prop where
  | nil : Spread [] []
  | cons (t : Token) {ts us : List Token} (h : Spread ts us) : Spread (t :: ts) (t :: us)
  | newline {t : Token} {ts us extra : List Token} (ht : t.kind = .newline)
      (hextra : ∀ u ∈ extra, u.kind = .newline) (h : Spread ts us) :
      Spread (t :: ts) (t :: (extra ++ us))

namespace Parser

open Grammar

theorem spread_dropNewlines {ts us : List Token} (h : Spread ts us) :
    Spread (dropNewlines ts) (dropNewlines us) := by
  induction h with
  | nil => exact .nil
  | cons t h ih =>
    by_cases ht : t.kind = .newline
    · rwa [dropNewlines_newline ht, dropNewlines_newline ht]
    · rw [dropNewlines_cons ht, dropNewlines_cons ht]
      exact .cons t h
  | newline ht hextra h ih =>
    rwa [dropNewlines_newline ht, dropNewlines_newline ht, dropNewlines_append hextra]

/-- Tokens without and with further newlines. Both have a token for the end or neither does. -/
def Parallel.spread : Parallel where
  Beside := Spread
  stop := []
  ends h := by cases h
  nil h := by
    cases h
    rfl
  cons h := by
    refine ⟨by simp, ?_⟩
    cases h with
    | cons _ h => exact ⟨_, rfl, fun _ => h⟩
    | newline ht => exact ⟨_, rfl, fun hne => absurd ht hne⟩
  newlines := spread_dropNewlines

end Parser

namespace Stmt

open Scriptlet.Parser

/-- Blank lines never matter, whether the tokens are a program or not. -/
theorem ofTokens_eq_of_spread {ts us : List Token} (h : Spread ts us) :
    ofTokens us = ofTokens ts := by
  let P := Parallel.spread
  have halike : P.Alike P.Beside P.AtStop ((statementsUntilEnd ts.length []).parse ts)
      ((statementsUntilEnd us.length []).parse us) :=
    Parallel.alike_statementsUntilEnd (P.newlines h) (Nat.le_refl _) (Nat.le_refl _)
  unfold ofTokens
  generalize (statementsUntilEnd ts.length []).parse ts = x at halike
  generalize (statementsUntilEnd us.length []).parse us = y at halike
  cases halike with
  | read => rfl
  | fail => rfl
  | spent h =>
    cases h with
    | refused h =>
      rw [Parallel.eq_unexpectedEndOfInput h]
    | upTo h => exact absurd rfl h.2

/-- For one, around an `else` with a newline behind it, which is an error about the first of the
newlines there. -/
theorem ofTokens_eq_of_spread_alternative :
    let newline (line : Nat) : Token := ⟨.newline, ⟨line, 8⟩⟩
    let front : List Token := [⟨.keyword .ifWord, {}⟩, ⟨.name "a", ⟨1, 4⟩⟩,
      ⟨.mark .openBrace, ⟨1, 6⟩⟩, ⟨.mark .closeBrace, ⟨1, 7⟩⟩]
    let word : Token := ⟨.keyword .elseWord, ⟨9, 3⟩⟩
    let ts := front ++ [newline 1, word, newline 9]
    let us := front ++
      newline 1 :: ([newline 2, newline 0] ++ word :: newline 9 :: ([newline 10] ++ []))
    Spread ts us ∧
      ofTokens us = .error (.unexpectedToken (.token (.mark .openBrace)) (newline 9)) := by
  intro newline front word ts us
  have hspread : Spread ts us :=
    .cons _ (.cons _ (.cons _ (.cons _
      (.newline rfl (by simp [newline]) (.cons word (.newline rfl (by simp [newline]) .nil))))))
  refine ⟨hspread, ?_⟩
  rw [ofTokens_eq_of_spread hspread]
  rfl

end Stmt

end Scriptlet
