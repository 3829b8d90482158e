import Scriptlet.Proofs.Quotes

namespace Scriptlet

open Lexeme

inductive Opening where
  | blank
  | hash
  | lineFeed
  | digit
  | quote (c : Char)
  | letter
  | symbol
  deriving DecidableEq

namespace Opening

def of (c : Char) : Opening :=
  if isBlank c then .blank
  else if c = '#' then .hash
  else if c = '\n' then .lineFeed
  else if isDigit c then .digit
  else if isQuote c then .quote c
  else if isWordStart c then .letter
  else .symbol

variable {c : Char}

theorem of_blank (h : isBlank c = true) : of c = .blank := by
  simp [of, h]

theorem of_quote (h : isQuote c = true) : of c = .quote c := by
  simp only [isQuote, Bool.or_eq_true, decide_eq_true_eq] at h
  rcases h with rfl | rfl <;> decide

/-- No digit or letter is one of these few characters. -/
theorem ne_of_le {low d : Char} (hl : low ≤ c) (hd : d < low) : c ≠ d := by
  rintro rfl
  exact absurd hl (Char.not_le.2 hd)

theorem of_digit (h : isDigit c = true) : of c = .digit := by
  have hl : '0' ≤ c := by
    simp only [isDigit, Bool.and_eq_true, decide_eq_true_eq] at h
    exact h.1
  have hb : isBlank c = false := by
    simp [isBlank, ne_of_le hl]
  simp [of, h, hb, ne_of_le hl]

theorem of_letter (h : isWordStart c = true) : of c = .letter := by
  have hl : 'A' ≤ c := by
    simp only [isWordStart, Bool.or_eq_true, Bool.and_eq_true, decide_eq_true_eq] at h
    rcases h with (h | h) | rfl
    · exact Char.le_trans (by decide) h.1
    · exact h.1
    · decide
  have hd : isDigit c = false := by
    have hc : ¬c ≤ '9' := fun hc => absurd (Char.le_trans hl hc) (by decide)
    simp [isDigit, hc]
  have hb : isBlank c = false := by
    simp [isBlank, ne_of_le hl]
  have hq : isQuote c = false := by
    simp [isQuote, ne_of_le hl]
  simp [of, h, hb, hd, hq, ne_of_le hl]

end Opening

theorem Token.Kind.ofWord_of_not_mem {s : String} (h : s ∉ words.map Prod.fst) :
    ofWord s = .name s := by
  have hnone : words.lookup s = none := by
    rw [List.lookup_eq_none_iff]
    intro entry he
    rw [bne_iff_ne]
    intro hs
    rw [hs] at h
    exact h (List.mem_map_of_mem he)
  rw [ofWord, hnone]
  rfl

namespace Fixed

def opening : Fixed → Opening
  | keyword _ | bool _ | typeTag _ => .letter
  | operator _ | mark _ => .symbol
  | newline => .lineFeed

theorem exists_spelling (f : Fixed) :
    ∃ c u, f.spelling.toList = c :: u ∧ Opening.of c = f.opening := by
  cases f with
  | keyword k => cases k <;> exact ⟨_, _, rfl, by decide⟩
  | bool b => cases b <;> exact ⟨_, _, rfl, by decide⟩
  | typeTag t => cases t <;> exact ⟨_, _, rfl, by decide⟩
  | operator op => cases op <;> exact ⟨_, _, rfl, by decide⟩
  | mark m => cases m <;> exact ⟨_, _, rfl, by decide⟩
  | newline => exact ⟨_, _, rfl, by decide⟩

/-- The reserved words, among the words of letters and digits. -/
theorem spelling_word {f : Fixed} (h : f.opening = .letter) :
    f.spelling.toList.all isWordChar = true := by
  cases f with
  | keyword k => cases k <;> rfl
  | bool b => cases b <;> rfl
  | typeTag t => cases t <;> rfl
  | operator | mark | newline => cases h

theorem ofWord_spelling {f : Fixed} (h : f.opening = .letter) :
    Token.Kind.ofWord f.spelling = f.kind := by
  cases f with
  | keyword k => cases k <;> decide
  | bool b => cases b <;> decide
  | typeTag t => cases t <;> decide
  | operator | mark | newline => cases h

theorem ofWord_name {word : String} (h : ∀ f : Fixed, f.spelling ≠ word) :
    Token.Kind.ofWord word = .name word := by
  apply Token.Kind.ofWord_of_not_mem
  intro hm
  obtain ⟨entry, he, rfl⟩ := List.mem_map.1 hm
  simp only [Token.Kind.words, List.mem_append, List.mem_map] at he
  rcases he with (⟨k, _, rfl⟩ | ⟨b, _, rfl⟩) | ⟨t, _, rfl⟩
  · exact h (.keyword k) rfl
  · exact h (.bool b) rfl
  · exact h (.typeTag t) rfl

end Fixed

namespace Lexeme

variable {first : Char} {rest : List Char} {c : Cut}

/-- A symbol is an operator or a mark that stands at the front of the text. -/
theorem symbol_cases (first : Char) (rest : List Char) :
    (∃ f : Fixed, f.spelling.toList <+: first :: rest ∧
      symbol first rest = .ok ⟨.token f.kind, f.spelling.length - 1⟩) ∨
    (symbol first rest = .error (.unexpectedCharacter first) ∧
      first ∉ ['=', '<', '>', '+', '-', '*', '/', '(', ')', '\x7b', '\x7d', ':', ',']) := by
  unfold symbol
  split
  any_goals exact .inl ⟨.operator _, List.prefix_append _ _, rfl⟩
  any_goals exact .inl ⟨.mark _, List.prefix_append _ _, rfl⟩
  exact .inr ⟨rfl, by simp_all⟩

theorem symbol_error {cause : ScanError.Cause} (h : symbol first rest = .error cause) :
    cause = .unexpectedCharacter first := by
  rcases symbol_cases first rest with ⟨f, _, hs⟩ | ⟨hs, _⟩
  · rw [h] at hs
    cases hs
  · exact Except.error.inj (h.symm.trans hs)

theorem exists_of_symbol (h : symbol first rest = .ok c) :
    ∃ f : Fixed, f.spelling.toList <+: first :: rest ∧
      c = ⟨.token f.kind, f.spelling.length - 1⟩ := by
  rcases symbol_cases first rest with ⟨f, hf, hs⟩ | ⟨hs, _⟩
  · exact ⟨f, hf, Except.ok.inj (h.symm.trans hs)⟩
  · rw [h] at hs
    cases hs

theorem exists_symbol
    (h : first ∈ ['=', '<', '>', '+', '-', '*', '/', '(', ')', '\x7b', '\x7d', ':', ',']) :
    ∃ c, symbol first rest = .ok c := by
  rcases symbol_cases first rest with ⟨f, _, hs⟩ | ⟨_, hn⟩
  · exact ⟨_, hs⟩
  · exact absurd h hn

/-- A symbol at the front of a text is taken, or a longer one. -/
theorem symbol_of_fits {f : Fixed} (hf : f.opening = .symbol)
    (h : f.spelling.toList <+: first :: rest) :
    ∃ c, symbol first rest = .ok c ∧ f.spelling.length ≤ c.more + 1 := by
  obtain ⟨tail, h⟩ := h
  cases f with
  | keyword | bool | typeTag | newline => cases hf
  | operator op =>
    cases op with
    | equal | notEqual | lessEqual | greaterEqual =>
      obtain ⟨rfl, rfl⟩ := List.cons.inj h
      exact ⟨_, rfl, by decide⟩
    | add | sub | mul | div | less | greater =>
      refine (exists_symbol ?_).imp fun c hc => ⟨hc, Nat.le_add_left 1 c.more⟩
      rw [← (List.cons.inj h).1]
      decide
  | mark m =>
    cases m with
    | arrow =>
      obtain ⟨rfl, rfl⟩ := List.cons.inj h
      exact ⟨_, rfl, by decide⟩
    | assign | openParen | closeParen | openBrace | closeBrace | colon | comma =>
      refine (exists_symbol ?_).imp fun c hc => ⟨hc, Nat.le_add_left 1 c.more⟩
      rw [← (List.cons.inj h).1]
      decide

theorem cut_spelling {f : Fixed} (h : f.spelling.toList = first :: rest) :
    cut first rest = .ok ⟨.token f.kind, rest.length⟩ := by
  cases f with
  | keyword k => cases k <;> obtain ⟨rfl, rfl⟩ := List.cons.inj h <;> rfl
  | bool b => cases b <;> obtain ⟨rfl, rfl⟩ := List.cons.inj h <;> rfl
  | typeTag t => cases t <;> obtain ⟨rfl, rfl⟩ := List.cons.inj h <;> rfl
  | operator op => cases op <;> obtain ⟨rfl, rfl⟩ := List.cons.inj h <;> rfl
  | mark m => cases m <;> obtain ⟨rfl, rfl⟩ := List.cons.inj h <;> rfl
  | newline => obtain ⟨rfl, rfl⟩ := List.cons.inj h; rfl

end Lexeme

theorem Fixed.kind_eq_of_spelling {f g : Fixed} (h : f.spelling = g.spelling) :
    f.kind = g.kind := by
  obtain ⟨c, u, hf, _⟩ := f.exists_spelling
  have hg := cut_spelling (h ▸ hf)
  rw [cut_spelling hf] at hg
  simpa using hg

namespace Pattern

def opening : Pattern → Opening
  | float | integer => .digit
  | string quote | unclosed quote => .quote quote.val
  | identifier => .letter
  | fixed f => f.opening
  | comment => .hash
  | blank => .blank

/-- The patterns that a piece may fit which begins so. -/
def Admits (p : Pattern) : Opening → Prop
  | .blank => p = .blank
  | .hash => p = .comment
  | .lineFeed => p = .fixed .newline
  | .digit => p = .float ∨ p = .integer
  | .quote c => ∃ quote : Quote, quote.val = c ∧ (p = .string quote ∨ p = .unclosed quote)
  | .letter => p = .identifier ∨ ∃ f : Fixed, f.opening = .letter ∧ p = .fixed f
  | .symbol => ∃ f : Fixed, f.opening = .symbol ∧ p = .fixed f

theorem admits_opening (p : Pattern) : p.Admits p.opening := by
  cases p with
  | float => exact .inl rfl
  | integer => exact .inr rfl
  | string quote => exact ⟨quote, rfl, .inl rfl⟩
  | unclosed quote => exact ⟨quote, rfl, .inr rfl⟩
  | identifier => exact .inl rfl
  | fixed f =>
    cases f with
    | keyword | bool | typeTag => exact .inr ⟨_, rfl, rfl⟩
    | operator | mark => exact ⟨_, rfl, rfl⟩
    | newline => rfl
  | comment | blank => rfl

variable {p : Pattern} {u : List Char}

theorem opening_of_mem (h : u ∈ p.language) :
    ∃ c tail, u = c :: tail ∧ Opening.of c = p.opening := by
  cases p with
  | float =>
    obtain ⟨whole, fraction, rfl, hw, _⟩ := mem_float.1 h
    obtain ⟨c, tail, rfl, hc, _⟩ := mem_run.1 hw
    exact ⟨c, _, rfl, Opening.of_digit hc⟩
  | integer =>
    obtain ⟨c, tail, rfl, hc, _⟩ := mem_run.1 h
    exact ⟨c, tail, rfl, Opening.of_digit hc⟩
  | string quote =>
    obtain ⟨inside, _, rfl⟩ := mem_string.1 h
    exact ⟨quote.val, _, rfl, Opening.of_quote quote.property⟩
  | unclosed quote =>
    obtain ⟨inside, _, rfl⟩ := mem_unclosed.1 h
    exact ⟨quote.val, inside, rfl, Opening.of_quote quote.property⟩
  | identifier =>
    obtain ⟨c, tail, rfl, hc, _⟩ := mem_run.1 h
    exact ⟨c, tail, rfl, Opening.of_letter hc⟩
  | fixed f =>
    obtain ⟨c, tail, hf, hc⟩ := f.exists_spelling
    exact ⟨c, tail, h.trans hf, hc⟩
  | comment =>
    obtain ⟨c, tail, rfl, hc, _⟩ := mem_run.1 h
    obtain rfl := of_decide_eq_true hc
    exact ⟨'#', tail, rfl, rfl⟩
  | blank =>
    obtain ⟨c, tail, rfl, hc, _⟩ := mem_run.1 h
    exact ⟨c, tail, rfl, Opening.of_blank hc⟩

/-- A piece at the front of a text begins as the text does, and so does its pattern. -/
theorem admits_of_fits {first : Char} {rest v : List Char} (h : first :: rest = u ++ v)
    (hu : u ∈ p.language) :
    (∃ tail, u = first :: tail ∧ rest = tail ++ v) ∧ p.Admits (.of first) := by
  obtain ⟨c, tail, rfl, hc⟩ := opening_of_mem hu
  obtain ⟨rfl, rfl⟩ := List.cons.inj h
  refine ⟨⟨tail, rfl, rfl⟩, ?_⟩
  rw [hc]
  exact p.admits_opening

end Pattern

end Scriptlet
