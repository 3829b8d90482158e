import Scriptlet.Proofs.Positions

namespace Scriptlet

namespace Pattern

open Lexeme

variable {text : List Char} {cause : ScanError.Cause}

theorem cut_quote (quote : Quote) (rest : List Char) :
    cut quote.val rest = Lexeme.string quote.val rest := by
  obtain ⟨c, hc⟩ := quote
  simp only [isQuote, Bool.or_eq_true, decide_eq_true_eq] at hc
  rcases hc with rfl | rfl <;> rfl

/-- Why a text has no token at its front: a string is opened there and never closed, or there is a
whole run of digits that is no float and no machine integer, or nothing fits there. -/
def Reason (text : List Char) : ScanError.Cause → Prop
  | .unterminatedString =>
    ∃ (quote : Quote) (rest : List Char), text = quote.val :: rest ∧ Shielded quote.val rest
  | .integerTooLarge literal =>
    ∃ digits rest, text = digits ++ rest ∧ digits ≠ [] ∧ (∀ c ∈ digits, isDigit c = true) ∧
      (∀ c ∈ rest.head?, isDigit c = false ∧ c ≠ '.') ∧ 2 ^ 63 - 1 < decimal digits ∧
      literal = String.ofList digits
  | .unexpectedCharacter c =>
    (∃ rest, text = c :: rest) ∧
      ∀ (p : Pattern) (u v : List Char), text = u ++ v → u ∉ p.language

theorem Fails.reason (h : Fails text cause) : Reason text cause := by
  cases h with
  | @nothing c rest hnone => exact ⟨⟨rest, rfl⟩, hnone⟩
  | @refused _ piece rest p _ h hm =>
    cases hm with
    | tooLarge hn =>
      obtain ⟨hne, hdigits⟩ := mem_integer.1 h.fits
      refine ⟨piece, rest, h.split, hne, hdigits, ?_, hn, rfl⟩
      intro c hc
      obtain ⟨tail, hrest⟩ := List.head?_eq_some_iff.1 hc
      have hlonger : ∀ q : Pattern, piece ++ [c] ∉ q.language := by
        intro q hq
        have hle := h.longest q (piece ++ [c]) tail (by rw [h.split, hrest]; simp) hq
        simp at hle
      constructor
      · rw [← Bool.not_eq_true]
        intro hdigit
        apply hlonger .integer
        rw [mem_integer, List.forall_mem_append]
        exact ⟨by simp, hdigits, by simpa using hdigit⟩
      · intro hpoint
        apply hlonger .float
        rw [hpoint]
        exact mem_float.2 ⟨piece, [], rfl, h.fits, by simp⟩
    | @unclosed quote =>
      obtain ⟨inside, _, hpiece⟩ := mem_unclosed.1 h.fits
      have htext : text = quote.val :: (inside ++ rest) := by
        rw [h.split, hpiece, List.cons_append]
      subst htext
      refine ⟨quote, inside ++ rest, rfl, ?_⟩
      have hcut := cut_of_fails (.refused h .unclosed)
      rw [cut_quote, Lexeme.string] at hcut
      split at hcut
      · cases hcut
      · next hnone => exact shielded_of_quoted_eq_none hnone

theorem fails_iff_reason : Fails text cause ↔ Reason text cause := by
  refine ⟨Fails.reason, ?_⟩
  intro h
  cases cause with
  | unterminatedString =>
    obtain ⟨quote, rest, htext, hshielded⟩ := h
    rw [htext]
    exact fails_unclosed hshielded
  | integerTooLarge literal =>
    obtain ⟨digits, rest, htext, hne, hdigits, hstop, hlarge, hliteral⟩ := h
    rw [htext, hliteral]
    exact .refused (takes_integer (mem_integer.2 ⟨hne, hdigits⟩) hstop) (.tooLarge hlarge)
  | unexpectedCharacter c =>
    obtain ⟨⟨rest, htext⟩, hnone⟩ := h
    subst htext
    exact .nothing hnone

end Pattern

namespace Token

open Pattern

variable {text piece : List Char} {p : Pattern} {lexeme : Lexeme} {pieces : List Piece}
  {failure : Option ScanError.Cause}

/-- The kinds of token that pieces stand for. -/
def kinds (pieces : List Piece) : List Kind :=
  pieces.filterMap (·.lexeme.kind?)

theorem map_kind_placed (before : List Char) (pieces : List Piece) :
    (placed before pieces).map Token.kind = kinds pieces := by
  induction pieces generalizing before with
  | nil => rfl
  | cons piece pieces ih =>
    rw [placed, List.map_append, ih]
    obtain ⟨word, lexeme⟩ := piece
    cases lexeme <;> rfl

theorem kind?_ne_end (hm : Means p piece (.ok lexeme)) : lexeme.kind? ≠ some .endOfInput := by
  cases hm with
  | @fixed f => cases f <;> simp [Lexeme.kind?, Fixed.kind]
  | float | integer | string | identifier | comment | blank => simp [Lexeme.kind?]

theorem end_not_mem_kinds (h : Cutting text pieces failure) : Kind.endOfInput ∉ kinds pieces := by
  induction h with
  | done | fail => simp [kinds]
  | @piece _ word _ _ lexeme pieces _ _ hm _ ih =>
    intro hmem
    obtain ⟨piece, hpiece, hkind⟩ := List.mem_filterMap.1 hmem
    rcases List.mem_cons.1 hpiece with hpiece | hpiece
    · rw [hpiece] at hkind
      exact kind?_ne_end hm hkind
    · exact ih (List.mem_filterMap.2 ⟨piece, hpiece, hkind⟩)

/-- The scanner is longest-match over its patterns. Every text is cut in exactly one way, into
pieces that are the text again, up to its end or up to the first failure. The tokens are those of
the pieces, closed by one for the end; a failure is the scanner's failure, and each has its reason.
A string ends at the first quote like its own that is not escaped. -/
theorem scan_longest_match (text : String) :
    (∃ pieces failure rest,
      (∀ pieces' failure', Cutting text.toList pieces' failure' ↔
        pieces' = pieces ∧ failure' = failure) ∧
      text.toList = joined pieces ++ rest ∧ Leaves rest failure ∧
      (failure = none → ∃ tokens, scan text = .ok tokens ∧
        tokens.map Token.kind = kinds pieces ++ [.endOfInput] ∧ .endOfInput ∉ kinds pieces) ∧
      ∀ cause, failure = some cause → ∃ position, scan text = .error ⟨cause, position⟩) ∧
    (∀ rest cause, Fails rest cause ↔ Reason rest cause) ∧
    ∀ (quote : Quote) (inside rest : List Char),
      Takes (quote.val :: (inside ++ quote.val :: rest)) (.string quote)
          (quote.val :: (inside ++ [quote.val])) rest ↔
        escaped inside = false ∧ Shielded quote.val inside := by
  refine ⟨?_, fun _ _ => fails_iff_reason, ?_⟩
  · obtain ⟨pieces, failure, rest, h, hsplit, hleaves, hscan⟩ := exists_answer text
    refine ⟨pieces, failure, rest, ?_, hsplit, hleaves, ?_, ?_⟩
    · intro pieces' failure'
      constructor
      · exact fun h' => h'.unique h
      · intro hsame
        rw [hsame.1, hsame.2]
        exact h
    · intro hnone
      rw [hnone, answer] at hscan
      refine ⟨_, hscan, ?_, end_not_mem_kinds h⟩
      rw [List.map_append, map_kind_placed]
      rfl
    · intro cause hsome
      rw [hsome] at hscan
      exact ⟨_, hscan⟩
  · intro quote inside rest
    rw [← mem_body_iff_shielded]
    constructor
    · intro h
      obtain ⟨inside', hin, hpiece⟩ := mem_string.1 h.fits
      have hsame := List.append_cancel_right (List.cons.inj hpiece).2
      rwa [hsame]
    · exact takes_string

end Token

end Scriptlet
