import Scriptlet.Proofs.Cuttings
import Scriptlet.Proofs.Slices

namespace Scriptlet

open Pattern

namespace Position

/-- The place behind a text: one line further for each line feed in it, and one column further for
each character behind the last of them. -/
def behind (before : List Char) : Position :=
  ⟨1 + before.count '\n', 1 + (before.reverse.takeWhile (· ≠ '\n')).length⟩

/-- The text up to its last line feed, and with it. -/
def above (before : List Char) : List Char :=
  (before.reverse.dropWhile (· ≠ '\n')).reverse

theorem above_append_takeWhile (before : List Char) :
    above before ++ (before.reverse.takeWhile (· ≠ '\n')).reverse = before := by
  rw [above, ← List.reverse_append, List.takeWhile_append_dropWhile, List.reverse_reverse]

theorem above_append (before : List Char) {piece : List Char} (h : '\n' ∉ piece) :
    above (before ++ piece) = above before := by
  have hpiece : ∀ c ∈ piece.reverse, decide (c ≠ '\n') = true := by
    intro c hc
    have hm : c ∈ piece := List.mem_reverse.mp hc
    exact decide_eq_true fun he => h (he ▸ hm)
  rw [above, List.reverse_append, List.dropWhile_append_of_pos hpiece, above]

theorem above_lineFeed (before : List Char) : above (before ++ ['\n']) = before ++ ['\n'] := by
  rw [above, List.reverse_append, List.reverse_singleton, List.singleton_append,
    List.dropWhile_cons_of_neg (by simp), List.reverse_cons, List.reverse_reverse]

end Position

namespace LineMark

variable {l : LineMark} {before piece rest : List Char} {text : String}

/-- The mark is that of the line on which a text ends. -/
structure Marks (l : LineMark) (before : List Char) : Prop where
  number : l.number = 1 + before.count '\n'
  start : l.start = Text.size (Position.above before)

theorem Marks.empty : ({} : LineMark).Marks [] :=
  ⟨rfl, rfl⟩

theorem Marks.append (h : l.Marks before) (hp : '\n' ∉ piece) : l.Marks (before ++ piece) := by
  constructor
  · rw [h.number, List.count_append, List.count_eq_zero.mpr hp, Nat.add_zero]
  · rw [h.start, Position.above_append before hp]

/-- Bytes are counted from the start of the text and columns in characters from the start of the
line, which the mark brings together. -/
theorem Marks.place (h : l.Marks before) (ht : text.toList = before ++ rest) :
    l.place text (Text.size before) = .behind before := by
  have split := Position.above_append_takeWhile before
  have slice : Text.slice? text l.start (Text.size before) =
      some (String.ofList (before.reverse.takeWhile (· ≠ '\n')).reverse) := by
    rw [← split] at ht
    have hs := Text.slice?_size ht
    rwa [split, ← h.start] at hs
  rw [LineMark.place, slice, h.number, Option.map_some, Option.getD_some, String.length_ofList,
    List.length_reverse, Nat.add_comm _ 1]
  rfl

theorem Marks.place_end (h : l.Marks text.toList) :
    l.place text text.utf8ByteSize = .behind text.toList := by
  rw [Text.utf8ByteSize_eq]
  exact h.place (List.append_nil _).symm

theorem Marks.newline (h : l.Marks before) :
    (l.past (Text.size before) ['\n'] .newline).Marks (before ++ ['\n']) := by
  constructor
  · rw [past, h.number, List.count_append, List.count_singleton_self, Nat.add_assoc]
  · rw [past, Position.above_lineFeed, Text.size_append]

/-- A string leads to the line behind its last line feed, if it has one. -/
theorem Marks.string (h : l.Marks before) (s : String) :
    (l.past (Text.size before) piece (.str s)).Marks (before ++ piece) := by
  by_cases hp : '\n' ∈ piece
  · obtain ⟨front, tail, hsplit, htail⟩ := Text.exists_last_lineFeed hp
    have hpast : l.past (Text.size before) piece (.str s) =
        ⟨l.number + piece.count '\n', Text.size before + Text.size front + 1⟩ := by
      rw [past, hsplit, Text.lastLineFeed?_append htail]
    rw [hpast]
    constructor
    · rw [h.number, List.count_append, Nat.add_assoc]
    · have hlines : before ++ piece = (before ++ front ++ ['\n']) ++ tail := by simp [hsplit]
      rw [hlines, Position.above_append _ htail, Position.above_lineFeed, Text.size_append,
        Text.size_append]
      rfl
  · rw [past, Text.lastLineFeed?_of_not_mem hp]
    exact h.append hp

theorem past_of_not_mem {kind : Token.Kind} (hp : '\n' ∉ piece) (hk : kind ≠ .newline)
    (start : Nat) : l.past start piece kind = l := by
  cases kind with
  | newline => exact absurd rfl hk
  | str s => rw [past, Text.lastLineFeed?_of_not_mem hp]
  | _ => rfl

end LineMark

namespace Pattern

variable {p : Pattern} {piece : List Char} {lexeme : Lexeme}

theorem lineFeed_not_mem_spelling {f : Fixed} (h : f ≠ .newline) : '\n' ∉ f.spelling.toList := by
  cases f with
  | keyword k => cases k <;> decide
  | bool b => cases b <;> decide
  | typeTag t => cases t <;> decide
  | operator op => cases op <;> decide
  | mark m => cases m <;> decide
  | newline => exact absurd rfl h

theorem not_mem_run {q r : Char → Bool} (hq : q '\n' = false) (hr : r '\n' = false)
    (h : piece ∈ oneOf q * KStar.kstar (oneOf r)) : '\n' ∉ piece := by
  obtain ⟨c, tail, rfl, hc, htail⟩ := mem_run.mp h
  intro hm
  rcases List.mem_cons.mp hm with he | hm
  · rw [← he, hq] at hc
    cases hc
  · rw [htail _ hm] at hr
    cases hr

/-- The only pieces with line feeds in them are newlines and strings. -/
theorem Means.lineFeeds (hm : Means p piece (.ok lexeme)) (fits : piece ∈ p.language) :
    (lexeme = .token .newline ∧ piece = ['\n']) ∨ (∃ s, lexeme = .token (.str s)) ∨
      ('\n' ∉ piece ∧ lexeme ≠ .token .newline) := by
  cases hm with
  | float =>
    obtain ⟨whole, fraction, split, hwhole, hfraction⟩ := mem_float.mp fits
    have before : '\n' ∉ whole := not_mem_run rfl rfl hwhole
    have behind : '\n' ∉ fraction := fun hm => absurd (hfraction _ hm) (by decide)
    exact .inr (.inr ⟨by simp [split, before, behind], by simp⟩)
  | integer => exact .inr (.inr ⟨not_mem_run rfl rfl fits, by simp⟩)
  | string => exact .inr (.inl ⟨_, rfl⟩)
  | identifier => exact .inr (.inr ⟨not_mem_run rfl rfl fits, by simp⟩)
  | @fixed f =>
    by_cases hf : f = .newline
    · rw [hf] at fits ⊢
      exact .inl ⟨rfl, fits⟩
    · have hpiece : piece = f.spelling.toList := fits
      refine .inr (.inr ⟨hpiece ▸ lineFeed_not_mem_spelling hf, ?_⟩)
      cases f with
      | newline => exact absurd rfl hf
      | keyword | bool | typeTag | operator | mark => simp [Fixed.kind]
  | comment => exact .inr (.inr ⟨not_mem_run rfl rfl fits, by simp⟩)
  | blank => exact .inr (.inr ⟨not_mem_run rfl rfl fits, by simp⟩)

theorem Means.not_mem_gap (hm : Means p piece (.ok .gap)) (fits : piece ∈ p.language) :
    '\n' ∉ piece := by
  rcases hm.lineFeeds fits with ⟨he, _⟩ | ⟨s, he⟩ | ⟨hn, _⟩
  · cases he
  · cases he
  · exact hn

/-- What one token does to the mark. -/
theorem Means.marks {l : LineMark} {before : List Char} {kind : Token.Kind} (h : l.Marks before)
    (hm : Means p piece (.ok (.token kind))) (fits : piece ∈ p.language) :
    (l.past (Text.size before) piece kind).Marks (before ++ piece) := by
  rcases hm.lineFeeds fits with ⟨he, rfl⟩ | ⟨s, he⟩ | ⟨hn, hk⟩
  · cases he
    exact h.newline
  · cases he
    exact h.string s
  · rw [LineMark.past_of_not_mem hn fun he => hk (he ▸ rfl)]
    exact h.append hn

end Pattern

namespace Scanner

variable {line : LineMark} {offset : Nat} {text piece rest : List Char} {p : Pattern}

theorem nextFrom_pass (line : LineMark) (word rest : List Char) (offset : Nat) :
    nextFrom line word.length offset (word ++ rest) =
      nextFrom line 0 (offset + Text.size word) rest := by
  induction word generalizing offset with
  | nil => rfl
  | cons c word ih =>
    rw [List.length_cons, List.cons_append, nextFrom, ih, Text.size_cons, Nat.add_assoc]

theorem nextFrom_gap (h : Takes text p piece rest) (hm : Means p piece (.ok .gap)) :
    nextFrom line 0 offset text = nextFrom line 0 (offset + Text.size piece) rest := by
  obtain ⟨first, tail, rfl, rfl⟩ := h.exists_cons
  rw [nextFrom, cut_of_takes h hm]
  dsimp only
  rw [nextFrom_pass, Text.size_cons, Nat.add_assoc]

theorem nextFrom_token {kind : Token.Kind} (h : Takes text p piece rest)
    (hm : Means p piece (.ok (.token kind))) :
    nextFrom line 0 offset text =
      .token kind offset ⟨line.past offset piece kind, offset + Text.size piece, rest⟩ := by
  obtain ⟨first, tail, rfl, rfl⟩ := h.exists_cons
  rw [nextFrom, cut_of_takes h hm]
  dsimp only
  rw [List.take_left, List.drop_left]

theorem nextFrom_fails {cause : ScanError.Cause} (h : Fails text cause) :
    nextFrom line 0 offset text = .failure cause offset := by
  obtain ⟨first, rest, rfl⟩ := h.exists_cons
  rw [nextFrom, cut_of_fails h]

/-- The scanner stands between the two parts of a text. -/
structure Stands (s : Scanner) (before rest : List Char) : Prop where
  line : s.line.Marks before
  offset : s.offset = Text.size before
  rest : s.rest = rest

variable {s : Scanner} {before : List Char}

theorem Stands.start (text : List Char) : Stands { rest := text } [] text :=
  ⟨.empty, rfl, rfl⟩

theorem Stands.place {source : String} (hs : s.Stands before rest)
    (ht : source.toList = before ++ rest) : s.line.place source s.offset = .behind before := by
  rw [hs.offset]
  exact hs.line.place ht

/-- The mark made before a token is looked for is still right where the token begins, since gaps
lead to no other line. -/
theorem Stands.gap (hs : s.Stands before text) (h : Takes text p piece rest)
    (hm : Means p piece (.ok .gap)) :
    Stands ⟨s.line, s.offset + Text.size piece, rest⟩ (before ++ piece) rest :=
  ⟨hs.line.append (hm.not_mem_gap h.fits), by rw [hs.offset, Text.size_append], rfl⟩

theorem Stands.token {kind : Token.Kind} (hs : s.Stands before text) (h : Takes text p piece rest)
    (hm : Means p piece (.ok (.token kind))) :
    Stands ⟨s.line.past s.offset piece kind, s.offset + Text.size piece, rest⟩ (before ++ piece)
      rest := by
  refine ⟨?_, by rw [hs.offset, Text.size_append], rfl⟩
  rw [hs.offset]
  exact hm.marks hs.line h.fits

end Scanner

namespace Token

/-- The tokens of pieces that follow on a text, each at the place where its piece begins. -/
def placed (before : List Char) : List Piece → List Token
  | [] => []
  | piece :: pieces =>
    (piece.lexeme.kind?.map (⟨·, .behind before⟩)).toList ++ placed (before ++ piece.text) pieces

/-- The scanner's answer, once it has found these tokens and stops. -/
def answer (tokens : List Token) (position : Position) :
    Option ScanError.Cause → Except ScanError (List Token)
  | none => .ok (tokens ++ [⟨.endOfInput, position⟩])
  | some cause => .error ⟨cause, position⟩

section Steps

variable {text : String} {before rest piece more : List Char} {p : Pattern} {s : Scanner}
  {bound : Nat} {found : List Token}

theorem scanWithin_done (hs : s.Stands text.toList []) :
    scanWithin text bound s found = answer found.reverse (.behind text.toList) none := by
  have last := hs.line.place_end
  have close : Except.ok (⟨.endOfInput, .behind text.toList⟩ :: found).reverse =
      answer found.reverse (.behind text.toList) none := by
    rw [List.reverse_cons, answer]
  cases bound with
  | zero => rw [scanWithin, last, close]
  | succ bound => rw [scanWithin, Scanner.next, hs.rest, Scanner.nextFrom, last, close]

theorem scanWithin_gap (hs : s.Stands before rest) (h : Takes rest p piece more)
    (hm : Means p piece (.ok .gap)) :
    scanWithin text (bound + 1) s found =
      scanWithin text (bound + 1) ⟨s.line, s.offset + Text.size piece, more⟩ found := by
  rw [scanWithin, scanWithin, Scanner.next, Scanner.next, hs.rest, Scanner.nextFrom_gap h hm]

theorem scanWithin_token {kind : Kind} (ht : text.toList = before ++ rest)
    (hs : s.Stands before rest) (h : Takes rest p piece more)
    (hm : Means p piece (.ok (.token kind))) :
    scanWithin text (bound + 1) s found =
      scanWithin text bound ⟨s.line.past s.offset piece kind, s.offset + Text.size piece, more⟩
        (⟨kind, .behind before⟩ :: found) := by
  rw [scanWithin, Scanner.next, hs.rest, Scanner.nextFrom_token h hm]
  dsimp only
  rw [hs.place ht]

theorem scanWithin_fails {cause : ScanError.Cause} (ht : text.toList = before ++ rest)
    (hs : s.Stands before rest) (h : Fails rest cause) :
    scanWithin text (bound + 1) s found = answer found.reverse (.behind before) (some cause) := by
  rw [scanWithin, Scanner.next, hs.rest, Scanner.nextFrom_fails h]
  dsimp only
  rw [hs.place ht, answer]

end Steps

variable {text : String} {pieces : List Piece} {failure : Option ScanError.Cause}

/-- A whole run from some point of the text on. Every token takes a character at least, so the bound
is never reached before the end. -/
theorem scanWithin_cutting {before rest : List Char} (h : Cutting rest pieces failure)
    {s : Scanner} {bound : Nat} (ht : text.toList = before ++ rest) (hs : s.Stands before rest)
    (hb : rest.length ≤ bound) (found : List Token) :
    scanWithin text bound s found =
      answer (found.reverse ++ placed before pieces) (.behind (before ++ joined pieces))
        failure := by
  induction h generalizing before s bound found with
  | done =>
    rw [List.append_nil] at ht
    subst ht
    rw [scanWithin_done hs, placed, joined_nil, List.append_nil, List.append_nil]
  | @piece rest word more p lexeme pieces failure h hm _ ih =>
    have ht' : text.toList = before ++ word ++ more := by
      rw [ht, h.split, List.append_assoc]
    obtain ⟨first, tail, _, hcons⟩ := h.exists_cons
    have hlength : more.length + 1 ≤ rest.length := by
      rw [hcons, List.length_cons, List.length_append]
      omega
    obtain ⟨bound, rfl⟩ : ∃ n, bound = n + 1 := ⟨bound - 1, by omega⟩
    rw [joined_cons, ← List.append_assoc]
    cases lexeme with
    | gap =>
      rw [scanWithin_gap hs h hm, ih ht' (hs.gap h hm) (by omega)]
      rfl
    | token kind =>
      rw [scanWithin_token ht hs h hm, ih ht' (hs.token h hm) (by omega), List.reverse_cons,
        List.append_assoc]
      rfl
  | @fail rest cause h =>
    obtain ⟨first, tail, hcons⟩ := h.exists_cons
    obtain ⟨bound, rfl⟩ : ∃ n, bound = n + 1 := by
      rw [hcons, List.length_cons] at hb
      exact ⟨bound - 1, by omega⟩
    rw [scanWithin_fails ht hs h, placed, joined_nil, List.append_nil, List.append_nil]

theorem scan_cutting (h : Cutting text.toList pieces failure) :
    scan text = answer (placed [] pieces) (.behind (joined pieces)) failure :=
  scanWithin_cutting h rfl (.start _) (Nat.le_of_eq String.length_toList) []

/-- The scanner's answer, with places told by the text before them. -/
theorem exists_answer (text : String) :
    ∃ pieces failure rest, Cutting text.toList pieces failure ∧
      text.toList = joined pieces ++ rest ∧ Leaves rest failure ∧
      scan text = answer (placed [] pieces) (.behind (joined pieces)) failure := by
  obtain ⟨pieces, failure, h⟩ := exists_cutting text.toList
  obtain ⟨rest, hsplit, hleaves⟩ := h.split
  exact ⟨pieces, failure, rest, h, hsplit, hleaves, scan_cutting h⟩

/-- A text with tokens is cut to its end. -/
theorem exists_cutting_of_scan {tokens : List Token} (h : scan text = .ok tokens) :
    ∃ pieces, Cutting text.toList pieces none ∧ joined pieces = text.toList ∧
      tokens = placed [] pieces ++ [⟨.endOfInput, .behind text.toList⟩] := by
  obtain ⟨pieces, failure, _, hcut, _, _, hscan⟩ := exists_answer text
  rw [h] at hscan
  cases failure with
  | some cause => cases hscan
  | none =>
    rw [hcut.joined_eq] at hscan
    exact ⟨pieces, hcut, hcut.joined_eq, Except.ok.inj hscan⟩

/-- Positions are exact. Every token stands where its piece begins, the token for the end stands
behind the text, and a failure stands where no piece could be cut off. -/
theorem scan_positions (text : String) :
    ∃ pieces failure, Cutting text.toList pieces failure ∧
      (failure = none →
        scan text = .ok (placed [] pieces ++ [⟨.endOfInput, .behind text.toList⟩])) ∧
      ∀ cause, failure = some cause → ∃ rest, text.toList = joined pieces ++ rest ∧
        Fails rest cause ∧ scan text = .error ⟨cause, .behind (joined pieces)⟩ := by
  obtain ⟨pieces, failure, rest, h, hsplit, hleaves, hscan⟩ := exists_answer text
  refine ⟨pieces, failure, h, ?_, ?_⟩
  · intro hnone
    subst hnone
    rw [hscan, h.joined_eq, answer]
  · intro cause hsome
    subst hsome
    exact ⟨rest, hsplit, hleaves, hscan⟩

end Token

end Scriptlet
