import Mathlib.Data.List.TakeWhile
import Scriptlet.Proofs.Openings

namespace Scriptlet.Pattern

open Lexeme
open scoped Computability

variable {first : Char} {rest : List Char}

section Runs

variable {p : Char → Bool} {u v : List Char}

/-- A run ends where the text does, or before a character that is not of its class. -/
theorem takeWhile_run (hu : ∀ c ∈ u, p c = true) (hv : ∀ c ∈ v.head?, p c = false) :
    (u ++ v).takeWhile p = u := by
  rw [List.takeWhile_append_of_pos hu]
  cases v with
  | nil => simp
  | cons c v => simp [hv c rfl]

theorem dropWhile_run (hu : ∀ c ∈ u, p c = true) (hv : ∀ c ∈ v.head?, p c = false) :
    (u ++ v).dropWhile p = v := by
  rw [List.dropWhile_append_of_pos hu]
  cases v with
  | nil => simp
  | cons c v => simp [hv c rfl]

theorem length_le_takeWhile (hu : ∀ c ∈ u, p c = true) :
    u.length ≤ ((u ++ v).takeWhile p).length := by
  rw [List.takeWhile_append_of_pos hu, List.length_append]
  apply Nat.le_add_right

/-- The whole run of characters behind the first is longest, if everything that fits there is part
of such a run. -/
theorem longest_run
    (h : ∀ (q : Pattern) (u v : List Char), rest = u ++ v → first :: u ∈ q.language →
      q.Admits (.of first) → ∀ c ∈ u, p c = true) :
    Longest (first :: rest) (first :: rest.takeWhile p) := by
  intro q u v hs hu
  obtain ⟨⟨tail, hcons, htail⟩, hq⟩ := admits_of_fits hs hu
  subst hcons htail
  have hall := h q tail v rfl hu hq
  simpa using length_le_takeWhile hall

theorem takes_run {q : Pattern} {start : Char → Bool}
    (hq : q.language = oneOf start * (oneOf p)∗) (hfirst : start first = true)
    (hlongest : Longest (first :: rest) (first :: rest.takeWhile p))
    (hreserved : q = .identifier → ∀ f, first :: rest.takeWhile p ∉ (fixed f).language) :
    Takes (first :: rest) q (first :: rest.takeWhile p) (rest.dropWhile p) where
  split := by rw [List.cons_append, List.takeWhile_append_dropWhile]
  fits := by
    rw [hq, cons_mem_run]
    exact ⟨hfirst, fun c hc => List.mem_takeWhile_imp hc⟩
  longest := hlongest
  reserved := hreserved

end Runs

/-- What the scanner says about the front of a text is what the patterns say. -/
def Answers (text : List Char) : Result → Prop
  | .ok c => ∃ p piece rest, Takes text p piece rest ∧ Means p piece (.ok c.lexeme) ∧
      piece.length = c.more + 1
  | .error cause => Fails text cause

theorem answers_blank (h : isBlank first = true) :
    Answers (first :: rest) (.ok ⟨.gap, (rest.takeWhile isBlank).length⟩) := by
  refine ⟨.blank, _, _, takes_run rfl h ?_ (by simp), .blank, rfl⟩
  apply longest_run
  intro q u v _ hu hq
  rw [Opening.of_blank h] at hq
  have hblank : q = .blank := hq
  subst hblank
  exact (cons_mem_run.1 hu).2

theorem answers_comment :
    Answers ('#' :: rest) (.ok ⟨.gap, (rest.takeWhile (· ≠ '\n')).length⟩) := by
  refine ⟨.comment, _, _, takes_run rfl (by decide) ?_ (by simp), .comment, rfl⟩
  apply longest_run
  intro q u v _ hu hq
  have hcomment : q = .comment := hq
  subst hcomment
  exact (cons_mem_run.1 hu).2

theorem answers_newline : Answers ('\n' :: rest) (.ok ⟨.token .newline, 0⟩) := by
  refine ⟨.fixed .newline, ['\n'], rest, ⟨rfl, rfl, ?_, by simp⟩, .fixed, rfl⟩
  intro q u v hs hu
  obtain ⟨_, hq⟩ := admits_of_fits hs hu
  have hnewline : q = .fixed .newline := hq
  subst hnewline
  have hone : u = ['\n'] := hu
  rw [hone]

theorem ofDigits_eq_decimal (digits : List Char) : Number.ofDigits digits = decimal digits := by
  rw [decimal, Nat.ofDigits_eq_foldr, List.map_reverse, List.foldr_reverse, List.foldl_map,
    Number.ofDigits]
  simp only [Nat.cast_id, Nat.add_comm]

theorem maxValue_toInt : Int64.maxValue.toInt = 2 ^ 63 - 1 := by
  decide

theorem point_stops {r : List Char} : ∀ c ∈ ('.' :: r).head?, isDigit c = false := by
  intro c hc
  rw [← Option.some.inj hc]
  rfl

/-- The digits before a point are told by the text. -/
theorem point_inj {w w' r r' : List Char} (hw : ∀ c ∈ w, isDigit c = true)
    (hw' : ∀ c ∈ w', isDigit c = true) (h : w ++ '.' :: r = w' ++ '.' :: r') : w = w' ∧ r = r' := by
  have hsame : w = w' := by
    have htake := congrArg (List.takeWhile isDigit) h
    rwa [takeWhile_run hw point_stops, takeWhile_run hw' point_stops] at htake
  subst hsame
  exact ⟨rfl, by simpa using h⟩

section Digits

variable {digits u v : List Char} {q : Pattern}

theorem digit_piece (hd : digits ∈ language .integer) (hs : digits ++ rest = u ++ v)
    (hu : u ∈ q.language) : q = .float ∨ q = .integer := by
  obtain ⟨first, tail, hcons, hfirst, _⟩ := mem_run.1 hd
  subst hcons
  obtain ⟨_, hq⟩ := admits_of_fits hs hu
  rwa [Opening.of_digit hfirst] at hq

theorem length_le_digits (hd : digits ∈ language .integer)
    (hstop : ∀ c ∈ rest.head?, isDigit c = false) (hs : digits ++ rest = u ++ v)
    (hu : u ∈ language .integer) : u.length ≤ digits.length := by
  have hlen : u.length ≤ ((u ++ v).takeWhile isDigit).length :=
    length_le_takeWhile (mem_integer.1 hu).2
  rwa [← hs, takeWhile_run (mem_integer.1 hd).2 hstop] at hlen

theorem takes_float (hd : digits ∈ language .integer) :
    Takes (digits ++ '.' :: rest) .float (digits ++ '.' :: rest.takeWhile isDigit)
      (rest.dropWhile isDigit) where
  split := by simp
  fits := mem_float.2 ⟨digits, _, rfl, hd, fun c hc => List.mem_takeWhile_imp hc⟩
  longest := by
    intro q u v hs hu
    rcases digit_piece hd hs hu with hq | hq
    · subst hq
      obtain ⟨whole, fraction, hcons, hw, hf⟩ := mem_float.1 hu
      subst hcons
      rw [List.append_assoc, List.cons_append] at hs
      obtain ⟨hsame, hrest⟩ := point_inj (mem_integer.1 hd).2 (mem_integer.1 hw).2 hs
      have hlen : fraction.length ≤ (rest.takeWhile isDigit).length := by
        rw [hrest]
        exact length_le_takeWhile hf
      rw [hsame, List.length_append, List.length_append, List.length_cons, List.length_cons]
      omega
    · subst hq
      have hlen := length_le_digits hd point_stops hs hu
      rw [List.length_append]
      omega
  reserved := by simp

theorem takes_integer (hd : digits ∈ language .integer)
    (hstop : ∀ c ∈ rest.head?, isDigit c = false ∧ c ≠ '.') :
    Takes (digits ++ rest) .integer digits rest where
  split := rfl
  fits := hd
  longest := by
    have hrest : ∀ c ∈ rest.head?, isDigit c = false := fun c hc => (hstop c hc).1
    intro q u v hs hu
    rcases digit_piece hd hs hu with hq | hq
    · subst hq
      obtain ⟨whole, fraction, hcons, hw, _⟩ := mem_float.1 hu
      have hdrop := congrArg (List.dropWhile isDigit) hs
      rw [hcons, List.append_assoc, List.cons_append, dropWhile_run (mem_integer.1 hd).2 hrest,
        dropWhile_run (mem_integer.1 hw).2 point_stops] at hdrop
      exact absurd rfl (hstop '.' (by rw [hdrop]; rfl)).2
    · subst hq
      exact length_le_digits hd hrest hs hu
  reserved := by simp

end Digits

theorem answers_number (h : isDigit first = true) :
    Answers (first :: rest) (number first rest) := by
  have hdigits : first :: rest.takeWhile isDigit ∈ language .integer :=
    cons_mem_run.2 ⟨h, fun c hc => List.mem_takeWhile_imp hc⟩
  have hsplit : first :: rest = (first :: rest.takeWhile isDigit) ++ rest.dropWhile isDigit := by
    rw [List.cons_append, List.takeWhile_append_dropWhile]
  by_cases hpoint : ∃ more, rest.dropWhile isDigit = '.' :: more
  · obtain ⟨more, hmore⟩ := hpoint
    rw [number_pointed hmore, hsplit, hmore]
    refine ⟨.float, _, _, takes_float hdigits, .float (mem_integer.1 hdigits).2, ?_⟩
    simp only [List.length_append, List.length_cons]
    omega
  · have hnone : ∀ more, rest.dropWhile isDigit ≠ '.' :: more :=
      fun more hmore => hpoint ⟨more, hmore⟩
    have hstop : ∀ c ∈ (rest.dropWhile isDigit).head?, isDigit c = false ∧ c ≠ '.' := by
      intro c hc
      obtain ⟨more, hmore⟩ := List.head?_eq_some_iff.1 hc
      have hdigit := List.head?_dropWhile_not isDigit rest
      rw [hmore] at hdigit
      refine ⟨hdigit, ?_⟩
      intro hc
      exact hnone more (by rw [hmore, hc])
    have htakes := takes_integer hdigits hstop
    rw [number_whole hnone, hsplit]
    dsimp only
    split
    · next hle =>
      rw [maxValue_toInt, ofDigits_eq_decimal] at hle
      refine ⟨.integer, _, _, htakes, .integer ?_, rfl⟩
      rw [ofDigits_eq_decimal]
      apply Int64.toInt_ofNat_of_lt
      omega
    · next hlt =>
      rw [maxValue_toInt, ofDigits_eq_decimal] at hlt
      refine .refused htakes (.tooLarge ?_)
      omega

theorem answers_word (h : isWordStart first = true) :
    Answers (first :: rest) (word first rest) := by
  have hlongest : Longest (first :: rest) (first :: rest.takeWhile isWordChar) := by
    apply longest_run
    intro q u v _ hu hq
    rw [Opening.of_letter h] at hq
    rcases hq with hq | ⟨f, hf, hq⟩
    · subst hq
      exact (cons_mem_run.1 hu).2
    · subst hq
      have hspelling : first :: u = f.spelling.toList := hu
      have hall := f.spelling_word hf
      rw [← hspelling, List.all_eq_true] at hall
      exact (List.forall_mem_cons.1 hall).2
  by_cases hfixed : ∃ f : Fixed, first :: rest.takeWhile isWordChar = f.spelling.toList
  · obtain ⟨f, hf⟩ := hfixed
    have hopening : f.opening = .letter := by
      obtain ⟨c, u, hs, hc⟩ := f.exists_spelling
      obtain ⟨hc', _⟩ := List.cons.inj (hf.trans hs)
      rw [← hc, ← hc', Opening.of_letter h]
    refine ⟨.fixed f, _, rest.dropWhile isWordChar, ⟨?_, hf, hlongest, by simp⟩, ?_, rfl⟩
    · rw [List.cons_append, List.takeWhile_append_dropWhile]
    · dsimp only
      rw [hf, String.ofList_toList, f.ofWord_spelling hopening]
      exact .fixed
  · have hreserved : ∀ f : Fixed, first :: rest.takeWhile isWordChar ∉ (fixed f).language :=
      fun f hf => hfixed ⟨f, hf⟩
    refine ⟨.identifier, _, _, takes_run rfl h hlongest fun _ => hreserved, ?_, rfl⟩
    dsimp only
    rw [Fixed.ofWord_name]
    · exact .identifier
    · intro f hf
      apply hreserved f
      have hlist := congrArg String.toList hf
      rw [String.toList_ofList] at hlist
      exact hlist.symm

/-- What fits at the front of a text that begins as a symbol does is a symbol, and the scanner takes
no shorter one. -/
theorem symbol_of_piece {q : Pattern} {u v : List Char} (h : Opening.of first = .symbol)
    (hs : first :: rest = u ++ v) (hu : u ∈ q.language) :
    ∃ c, symbol first rest = .ok c ∧ u.length ≤ c.more + 1 := by
  obtain ⟨_, hq⟩ := admits_of_fits hs hu
  rw [h] at hq
  obtain ⟨f, hf, hq⟩ := hq
  subst hq
  have hspelling : u = f.spelling.toList := hu
  rw [hspelling] at hs ⊢
  rw [String.length_toList]
  exact symbol_of_fits hf ⟨v, hs.symm⟩

theorem answers_symbol (h : Opening.of first = .symbol) :
    Answers (first :: rest) (symbol first rest) := by
  cases hs : symbol first rest with
  | ok c =>
    obtain ⟨f, ⟨tail, hsplit⟩, hc⟩ := exists_of_symbol hs
    have hlen : f.spelling.toList.length = c.more + 1 := by
      obtain ⟨d, u, hcons, _⟩ := f.exists_spelling
      rw [hc, ← String.length_toList, hcons]
      rfl
    refine ⟨.fixed f, f.spelling.toList, tail, ⟨hsplit.symm, rfl, ?_, by simp⟩, ?_, hlen⟩
    · intro q u v hu hmem
      obtain ⟨c', hc', hle⟩ := symbol_of_piece h hu hmem
      rw [hs] at hc'
      rwa [hlen, Except.ok.inj hc']
    · rw [hc]
      exact .fixed
  | error cause =>
    have hcause := symbol_error hs
    subst hcause
    apply Fails.nothing
    intro q u v hu hmem
    obtain ⟨c', hc', _⟩ := symbol_of_piece h hu hmem
    rw [hs] at hc'
    simp at hc'

/-- A piece that begins with a quote is a string, or one that is not closed. -/
theorem quoted_piece {quote : Quote} {q : Pattern} {u v : List Char}
    (hs : quote.val :: rest = u ++ v) (hu : u ∈ q.language) :
    ∃ inside ∈ body quote.val, (u = quote.val :: inside ∧ rest = inside ++ v) ∨
      (u = quote.val :: (inside ++ [quote.val]) ∧ rest = inside ++ quote.val :: v) := by
  obtain ⟨⟨tail, hcons, htail⟩, hq⟩ := admits_of_fits hs hu
  subst hcons htail
  rw [Opening.of_quote quote.property] at hq
  obtain ⟨quote', hval, hq⟩ := hq
  have hquote := Subtype.ext hval
  subst hquote
  rcases hq with hq | hq
  · subst hq
    obtain ⟨inside, hin, hpiece⟩ := mem_string.1 hu
    have htail := (List.cons.inj hpiece).2
    subst htail
    exact ⟨inside, hin, .inr ⟨rfl, by simp⟩⟩
  · subst hq
    obtain ⟨inside, hin, hpiece⟩ := mem_unclosed.1 hu
    have htail := (List.cons.inj hpiece).2
    subst htail
    exact ⟨tail, hin, .inl ⟨rfl, rfl⟩⟩

/-- No quote that is not escaped stands inside a string. -/
theorem closed_not_mem_body {quote : Quote} {inside tail : List Char}
    (h : inside ∈ body quote.val) : inside ++ quote.val :: tail ∉ body quote.val := by
  intro hlong
  have hfree := (mem_body_iff_shielded.1 h).1
  have hescaped := (mem_body_iff_shielded.1 hlong).2 inside tail rfl
  rw [hfree] at hescaped
  exact Bool.false_ne_true hescaped

theorem length_le_of_body {quote : Quote} {inside u tail v : List Char}
    (hin : inside ∈ body quote.val) (hu : u ∈ body quote.val)
    (h : inside ++ quote.val :: tail = u ++ v) : u.length ≤ inside.length := by
  rcases List.append_eq_append_iff.1 h with ⟨more, hmore, hcons⟩ | ⟨less, hless, _⟩
  · cases more with
    | nil => simp [hmore]
    | cons c more =>
      obtain ⟨hc, _⟩ := List.cons.inj hcons
      subst hmore hc
      exact absurd hu (closed_not_mem_body hin)
  · simp [hless]

theorem takes_string {quote : Quote} {inside tail : List Char} (h : inside ∈ body quote.val) :
    Takes (quote.val :: (inside ++ quote.val :: tail)) (.string quote)
      (quote.val :: (inside ++ [quote.val])) tail where
  split := by simp
  fits := mem_string.2 ⟨inside, h, rfl⟩
  longest := by
    intro q u v hs hu
    obtain ⟨inside', hin, ⟨hpiece, hrest⟩ | ⟨hpiece, hrest⟩⟩ := quoted_piece hs hu
    all_goals
      have hle := length_le_of_body h hin hrest
      rw [hpiece]
      simp only [List.length_cons, List.length_append, List.length_nil]
      omega
  reserved := by simp

/-- The longest front of a text without a closing quote that may stand inside a string: all of it,
but for a backslash at its end that escapes nothing. -/
theorem exists_longest_body {quote : Quote} (h : Shielded quote.val rest) :
    ∃ front tail, rest = front ++ tail ∧ front ∈ body quote.val ∧
      ∀ u v, rest = u ++ v → u ∈ body quote.val → u.length ≤ front.length := by
  cases he : escaped rest with
  | false =>
    refine ⟨rest, [], by simp, mem_body_iff_shielded.2 ⟨he, h⟩, ?_⟩
    intro u v hs _
    simp [hs]
  | true =>
    rcases List.eq_nil_or_concat rest with hnil | ⟨front, c, hconcat⟩
    · simp [hnil] at he
    · rw [List.concat_eq_append] at hconcat
      subst hconcat
      have hfront : escaped front = false := by
        rw [escaped_concat, Bool.and_eq_true, Bool.not_eq_true'] at he
        exact he.2
      refine ⟨front, [c], rfl, mem_body_iff_shielded.2 ⟨hfront, ?_⟩, ?_⟩
      · intro u v hs
        exact h u (v ++ [c]) (by simp [hs])
      · intro u v hs hu
        cases v with
        | nil =>
          rw [List.append_nil] at hs
          have hfree := (mem_body_iff_shielded.1 hu).1
          rw [← hs, he] at hfree
          exact Bool.noConfusion hfree
        | cons d v =>
          have hlen := congrArg List.length hs
          simp only [List.length_append, List.length_cons, List.length_nil] at hlen
          omega

theorem fails_unclosed {quote : Quote} (h : Shielded quote.val rest) :
    Fails (quote.val :: rest) .unterminatedString := by
  obtain ⟨front, tail, hsplit, hfront, hlongest⟩ := exists_longest_body h
  have htakes : Takes (quote.val :: rest) (.unclosed quote) (quote.val :: front) tail := by
    refine ⟨by rw [hsplit, List.cons_append], mem_unclosed.2 ⟨front, hfront, rfl⟩, ?_, by simp⟩
    intro q u v hs hu
    obtain ⟨inside, hin, ⟨hpiece, hrest⟩ | ⟨hpiece, hrest⟩⟩ := quoted_piece hs hu
    · rw [hpiece]
      exact Nat.succ_le_succ (hlongest inside v hrest hin)
    · have hfree := (mem_body_iff_shielded.1 hin).1
      rw [h inside v hrest] at hfree
      exact Bool.noConfusion hfree
  exact .refused htakes .unclosed

theorem answers_string (quote : Quote) :
    Answers (quote.val :: rest) (Lexeme.string quote.val rest) := by
  unfold Lexeme.string
  split
  · next text count hq =>
    obtain ⟨inside, tail, hrest, hin, htext, hcount⟩ := quoted_eq_some hq
    subst hrest htext hcount
    refine ⟨.string quote, _, tail, takes_string hin, ?_, by simp⟩
    simp only [List.append_nil, List.reverse_reverse]
    exact .string
  · next hq => exact fails_unclosed (shielded_of_quoted_eq_none hq)

theorem answers_cut (first : Char) (rest : List Char) :
    Answers (first :: rest) (cut first rest) := by
  unfold cut
  split
  · next h => exact answers_blank h
  · split
    · next h => exact h ▸ answers_comment
    · split
      · next h => exact h ▸ answers_newline
      · split
        · next h => exact answers_number h
        · split
          · next h => exact answers_string ⟨first, h⟩
          · split
            · next h => exact answers_word h
            · apply answers_symbol
              simp [Opening.of, *]

end Scriptlet.Pattern
