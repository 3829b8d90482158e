import Scriptlet.Proofs.LongestMatch

namespace Scriptlet.Writing

open Lexeme Pattern

/-- The inside of a string that stands for a text. Backslashes and quotes are escaped; a line feed
or a tab may be, each time it occurs. -/
inductive Encoding (quote : Char) : List Char → List Char → Prop where
  | nil : Encoding quote [] []
  | escaped {c : Char} {s w : List Char} (hc : c = '\\' ∨ c = quote) (rest : Encoding quote s w) :
      Encoding quote (c :: s) ('\\' :: c :: w)
  | raw {c : Char} {s w : List Char} (hc : c ≠ '\\') (hq : c ≠ quote) (rest : Encoding quote s w) :
      Encoding quote (c :: s) (c :: w)
  | lineFeed {s w : List Char} (rest : Encoding quote s w) :
      Encoding quote ('\n' :: s) ('\\' :: 'n' :: w)
  | tab {s w : List Char} (rest : Encoding quote s w) :
      Encoding quote ('\t' :: s) ('\\' :: 't' :: w)

/-- The texts that a token is written as. -/
inductive Spelling : Token.Kind → List Char → Prop where
  | int {n : Int64} (zeros : Nat) (hn : 0 ≤ n.toInt) :
      Spelling (.int n) (List.replicate zeros '0' ++ Nat.toDigits 10 n.toInt.toNat)
  | str {s : String} {quote : Quote} {inside : List Char} (h : Encoding quote.val s.toList inside) :
      Spelling (.str s) (quote.val :: (inside ++ [quote.val]))
  | name {s : String} (hs : s.toList ∈ Pattern.identifier.language)
      (hr : s ∉ Token.Kind.words.map Prod.fst) : Spelling (.name s) s.toList
  | fixed (f : Fixed) : Spelling f.kind f.spelling.toList

/-- The texts of a token, where a comment may stand before the end of a line. -/
inductive Item : Token.Kind → List Char → Prop where
  | plain {kind : Token.Kind} {text : List Char} (h : Spelling kind text) : Item kind text
  | commented {comment : List Char} (h : ∀ c ∈ comment, c ≠ '\n') :
      Item .newline ('#' :: (comment ++ ['\n']))

/-- The texts of tokens with blanks between them. -/
inductive Source : List Token.Kind → List Char → Prop where
  | nil : Source [] []
  | last {kind : Token.Kind} {text : List Char} (item : Item kind text) : Source [kind] text
  | cons {kind next : Token.Kind} {kinds : List Token.Kind} {text blanks more : List Char}
      (item : Item kind text) (hne : blanks ≠ []) (hb : ∀ c ∈ blanks, isBlank c = true)
      (rest : Source (next :: kinds) more) :
      Source (kind :: next :: kinds) (text ++ (blanks ++ more))

/-- The kinds of token that can be written: not floats, no negative numbers, and names that are
words but not reserved ones. -/
def Plain : Token.Kind → Prop
  | .int n => 0 ≤ n.toInt
  | .name s => s.toList ∈ Pattern.identifier.language ∧ s ∉ Token.Kind.words.map Prod.fst
  | .float _ | .comment | .blank | .endOfInput => False
  | .str _ | .bool _ | .keyword _ | .typeTag _ | .operator _ | .mark _ | .newline => True

section Strings

variable {quote : Quote} {s w : List Char}

theorem unescape_of_escaped {c : Char} (h : c = '\\' ∨ c = quote.val) : unescape c = c := by
  rcases h with rfl | rfl
  · rfl
  · have hq := quote.property
    simp only [isQuote, Bool.or_eq_true, decide_eq_true_eq] at hq
    rcases hq with hq | hq <;> rw [hq] <;> rfl

theorem Encoding.mem_body (h : Encoding quote.val s w) : w ∈ body quote.val := by
  induction h with
  | nil => exact nil_mem_body
  | escaped _ _ ih | lineFeed _ ih | tab _ ih =>
    exact mem_body_iff.2 (.inr (.inr ⟨_, _, rfl, ih⟩))
  | raw hc hq _ ih => exact mem_body_iff.2 (.inr (.inl ⟨_, _, rfl, hq, hc, ih⟩))

theorem Encoding.decode_eq (h : Encoding quote.val s w) : decode w = s := by
  induction h with
  | nil => rfl
  | escaped hc _ ih => rw [decode, ih, unescape_of_escaped hc]
  | raw hc _ _ ih => rw [decode.eq_2 _ _ fun _ _ he _ => hc he, ih]
  | lineFeed _ ih | tab _ ih =>
    rw [decode, ih]
    rfl

theorem exists_encoding (quote : Char) (s : List Char) : ∃ w, Encoding quote s w := by
  induction s with
  | nil => exact ⟨[], .nil⟩
  | cons c s ih =>
    obtain ⟨w, hw⟩ := ih
    by_cases hc : c = '\\' ∨ c = quote
    · exact ⟨_, .escaped hc hw⟩
    · rw [not_or] at hc
      exact ⟨_, .raw hc.1 hc.2 hw⟩

end Strings

section Digits

theorem isDigit_of_mem_toDigits {n : Nat} {c : Char} (h : c ∈ Nat.toDigits 10 n) :
    isDigit c = true := by
  have hc := Nat.isDigit_of_mem_toDigits (by decide) (by decide) h
  simpa [Char.isDigit, isDigit, Char.le_def] using hc

theorem decimal_toDigits (zeros n : Nat) :
    decimal (List.replicate zeros '0' ++ Nat.toDigits 10 n) = n := by
  have hzeros : (List.replicate zeros '0').foldl
      (fun n c => 10 * n + Number.digitValue c) 0 = 0 := by
    induction zeros with
    | zero => rfl
    | succ zeros ih => exact ih
  rw [← ofDigits_eq_decimal, Number.ofDigits, List.foldl_append, hzeros]
  exact Nat.ofDigitChars_toDigits (by decide) (by decide)

theorem mem_integer_toDigits (zeros n : Nat) :
    List.replicate zeros '0' ++ Nat.toDigits 10 n ∈ language .integer := by
  refine mem_integer.2 ⟨by simp [Nat.toDigits_ne_nil], ?_⟩
  intro c hc
  rcases List.mem_append.1 hc with hc | hc
  · rw [List.eq_of_mem_replicate hc]
    rfl
  · exact isDigit_of_mem_toDigits hc

end Digits

/-- A text that does not go on the piece before it. -/
def Apart (rest : List Char) : Prop :=
  ∀ c ∈ rest.head?, isBlank c = true

section Cuts

variable {first : Char} {tail rest : List Char}

theorem isBlank_cases {c : Char} (h : isBlank c = true) : c = ' ' ∨ c = '\t' ∨ c = '\r' := by
  simpa [isBlank, or_assoc] using h

theorem Apart.stops (h : Apart rest) {p : Char → Bool}
    (hp : p ' ' = false ∧ p '\t' = false ∧ p '\r' = false) : ∀ c ∈ rest.head?, p c = false := by
  intro c hc
  rcases isBlank_cases (h c hc) with rfl | rfl | rfl
  · exact hp.1
  · exact hp.2.1
  · exact hp.2.2

theorem cut_word (hfirst : isWordStart first = true) (htail : ∀ c ∈ tail, isWordChar c = true)
    (hrest : Apart rest) :
    cut first (tail ++ rest) =
      .ok ⟨.token (.ofWord (String.ofList (first :: tail))), tail.length⟩ := by
  have hword : cut first (tail ++ rest) = word first (tail ++ rest) := by
    have hopening := Opening.of_letter hfirst
    simp only [Opening.of] at hopening
    unfold cut
    split_ifs at hopening ⊢
    rfl
  rw [hword, word, takeWhile_run htail (hrest.stops (by decide))]

theorem cut_symbol {f : Fixed} (hf : f.opening = .symbol) (hs : f.spelling.toList = first :: tail)
    (hrest : Apart rest) : cut first (tail ++ rest) = .ok ⟨.token f.kind, tail.length⟩ := by
  cases f with
  | keyword | bool | typeTag | newline => cases hf
  | operator op =>
    cases rest with
    | nil =>
      rw [List.append_nil]
      exact cut_spelling hs
    | cons c rest =>
      rcases isBlank_cases (hrest c rfl) with rfl | rfl | rfl <;> cases op <;>
        obtain ⟨rfl, rfl⟩ := List.cons.inj hs <;> rfl
  | mark m =>
    cases rest with
    | nil =>
      rw [List.append_nil]
      exact cut_spelling hs
    | cons c rest =>
      rcases isBlank_cases (hrest c rfl) with rfl | rfl | rfl <;> cases m <;>
        obtain ⟨rfl, rfl⟩ := List.cons.inj hs <;> rfl

theorem not_blank_of_opening {c : Char} (h : Opening.of c ≠ .blank) : isBlank c = false := by
  rw [← Bool.not_eq_true]
  intro hc
  exact h (Opening.of_blank hc)

theorem cut_fixed {f : Fixed} (hs : f.spelling.toList = first :: tail) (hrest : Apart rest) :
    cut first (tail ++ rest) = .ok ⟨.token f.kind, tail.length⟩ := by
  obtain ⟨c, u, hcons, hopening⟩ := f.exists_spelling
  obtain ⟨rfl, rfl⟩ := List.cons.inj (hs.symm.trans hcons)
  cases ho : f.opening with
  | letter =>
    have hall := f.spelling_word ho
    rw [hs, List.all_eq_true] at hall
    have hfirst : isWordStart first = true := by
      rw [ho] at hopening
      simp only [Opening.of] at hopening
      split_ifs at hopening
      assumption
    rw [cut_word hfirst (List.forall_mem_cons.1 hall).2 hrest, ← hs, String.ofList_toList,
      f.ofWord_spelling ho]
  | symbol => exact cut_symbol ho hs hrest
  | lineFeed =>
    obtain rfl : f = .newline := by
      cases f <;> first | rfl | cases ho
    obtain ⟨rfl, rfl⟩ := List.cons.inj hs
    rfl
  | blank | hash | digit | quote => cases f <;> cases ho

/-- The scanner cuts off the whole spelling of a token, wherever a blank or nothing follows. -/
theorem Spelling.cut {kind : Token.Kind} {text : List Char} (h : Spelling kind text) :
    ∃ first tail, text = first :: tail ∧ isBlank first = false ∧
      ∀ rest, Apart rest → cut first (tail ++ rest) = .ok ⟨.token kind, tail.length⟩ := by
  cases h with
  | @int n zeros hn =>
    have hdigits := mem_integer_toDigits zeros n.toInt.toNat
    have hvalue := decimal_toDigits zeros n.toInt.toNat
    generalize List.replicate zeros '0' ++ Nat.toDigits 10 n.toInt.toNat = text at hdigits hvalue ⊢
    obtain ⟨first, tail, rfl, hfirst, _⟩ := mem_run.1 hdigits
    refine ⟨first, tail, rfl, not_blank_of_opening (by rw [Opening.of_digit hfirst]; decide), ?_⟩
    intro rest hrest
    have hstop : ∀ c ∈ rest.head?, isDigit c = false ∧ c ≠ '.' := by
      intro c hc
      rcases isBlank_cases (hrest c hc) with rfl | rfl | rfl <;> decide
    have hmeans : Means .integer (first :: tail) (.ok (.token (.int n))) := .integer (by omega)
    exact cut_of_takes (takes_integer hdigits hstop) hmeans
  | @str s quote inside h =>
    refine ⟨quote.val, inside ++ [quote.val], rfl,
      not_blank_of_opening (by rw [Opening.of_quote quote.property]; simp), ?_⟩
    intro rest _
    have hmeans : Means (.string quote) (quote.val :: (inside ++ [quote.val]))
        (.ok (.token (.str (String.ofList (decode inside))))) := .string
    rw [h.decode_eq, String.ofList_toList] at hmeans
    rw [List.append_assoc, List.singleton_append]
    exact cut_of_takes (takes_string h.mem_body) hmeans
  | @name s hs hr =>
    obtain ⟨first, tail, hword, hfirst, htail⟩ := mem_run.1 hs
    refine ⟨first, tail, hword, not_blank_of_opening (by rw [Opening.of_letter hfirst]; decide), ?_⟩
    intro rest hrest
    rw [cut_word hfirst htail hrest, ← hword, String.ofList_toList, Token.Kind.ofWord_of_not_mem hr]
  | fixed f =>
    obtain ⟨first, tail, hs, hopening⟩ := f.exists_spelling
    refine ⟨first, tail, hs, not_blank_of_opening ?_, fun rest hrest => cut_fixed hs hrest⟩
    rw [hopening]
    cases f <;> simp [Fixed.opening]

end Cuts

section Sources

variable {kind : Token.Kind} {kinds : List Token.Kind} {text rest : List Char}
  {pieces : List Piece}

/-- What the scanner cuts off is the first piece. -/
theorem cutting_of_cut {first : Char} {tail : List Char} {lexeme : Lexeme}
    (h : cut first (tail ++ rest) = .ok ⟨lexeme, tail.length⟩) (more : Cutting rest pieces none) :
    Cutting (first :: tail ++ rest) (⟨first :: tail, lexeme⟩ :: pieces) none := by
  have hcut := answers_cut first (tail ++ rest)
  rw [h] at hcut
  obtain ⟨p, piece, after, htakes, hmeans, hlength⟩ := hcut
  have hsplit : (first :: tail) ++ rest = piece ++ after := htakes.split
  obtain ⟨rfl, rfl⟩ := List.append_inj hsplit (by simp [hlength])
  exact .piece htakes hmeans more

theorem Item.exists_cons (h : Item kind text) :
    ∃ first tail, text = first :: tail ∧ isBlank first = false := by
  cases h with
  | plain h =>
    obtain ⟨first, tail, htext, hfirst, _⟩ := h.cut
    exact ⟨first, tail, htext, hfirst⟩
  | commented => exact ⟨'#', _, rfl, rfl⟩

theorem Item.cutting (h : Item kind text) (hrest : Apart rest) (more : Cutting rest pieces none) :
    ∃ front, Cutting (text ++ rest) (front ++ pieces) none ∧ Token.kinds front = [kind] := by
  cases h with
  | plain h =>
    obtain ⟨first, tail, rfl, _, hcut⟩ := h.cut
    exact ⟨[_], cutting_of_cut (hcut rest hrest) more, rfl⟩
  | @commented comment hc =>
    have hnewline : cut '\n' ([] ++ rest) =
        .ok ⟨.token .newline, ([] : List Char).length⟩ := rfl
    have hcomment : cut '#' (comment ++ ('\n' :: rest)) = .ok ⟨.gap, comment.length⟩ := by
      have hrun : (comment ++ '\n' :: rest).takeWhile (· ≠ '\n') = comment :=
        takeWhile_run (fun c hmem => decide_eq_true (hc c hmem)) (by simp)
      have hcut : cut '#' (comment ++ ('\n' :: rest)) =
          .ok ⟨.gap, ((comment ++ '\n' :: rest).takeWhile (· ≠ '\n')).length⟩ := rfl
      rw [hcut, hrun]
    refine ⟨[⟨'#' :: comment, .gap⟩, ⟨['\n'], .token .newline⟩], ?_, rfl⟩
    have hcutting := cutting_of_cut hcomment (cutting_of_cut hnewline more)
    simpa using hcutting

theorem Source.exists_cons (h : Source (kind :: kinds) text) :
    ∃ first tail, text = first :: tail ∧ isBlank first = false := by
  cases h with
  | last item => exact item.exists_cons
  | cons item _ _ _ =>
    obtain ⟨first, tail, rfl, hfirst⟩ := item.exists_cons
    exact ⟨first, _, rfl, hfirst⟩

theorem cutting_blanks {blanks : List Char} (hne : blanks ≠ [])
    (hb : ∀ c ∈ blanks, isBlank c = true) {first : Char} (hfirst : isBlank first = false)
    (more : Cutting (first :: rest) pieces none) :
    Cutting (blanks ++ first :: rest) (⟨blanks, .gap⟩ :: pieces) none := by
  obtain ⟨b, tail, rfl⟩ := List.exists_cons_of_ne_nil hne
  rw [List.forall_mem_cons] at hb
  refine cutting_of_cut ?_ more
  have hrun : (tail ++ first :: rest).takeWhile isBlank = tail :=
    takeWhile_run hb.2 (by simpa using hfirst)
  rw [cut, if_pos hb.1, hrun]

/-- The scanner cuts a text that is written from tokens into their spellings and gaps. -/
theorem Source.cutting (h : Source kinds text) :
    ∃ pieces, Cutting text pieces none ∧ Token.kinds pieces = kinds := by
  induction h with
  | nil => exact ⟨[], .done, rfl⟩
  | last item =>
    obtain ⟨front, hcutting, hkinds⟩ := item.cutting (by simp [Apart]) .done
    rw [List.append_nil, List.append_nil] at hcutting
    exact ⟨front, hcutting, hkinds⟩
  | @cons kind next kinds text blanks more item hne hb rest ih =>
    obtain ⟨pieces, hpieces, hkinds⟩ := ih
    obtain ⟨first, tail, rfl, hfirst⟩ := rest.exists_cons
    have happart : Apart (blanks ++ first :: tail) := by
      obtain ⟨b, bs, rfl⟩ := List.exists_cons_of_ne_nil hne
      simpa [Apart] using hb b List.mem_cons_self
    obtain ⟨front, hcutting, hfront⟩ :=
      item.cutting happart (cutting_blanks hne hb hfirst hpieces)
    refine ⟨_, hcutting, ?_⟩
    rw [Token.kinds, List.filterMap_append]
    change Token.kinds front ++ Token.kinds pieces = kind :: next :: kinds
    rw [hfront, hkinds]
    rfl

theorem exists_spelling (h : Plain kind) : ∃ text, Spelling kind text := by
  cases kind with
  | int n => exact ⟨_, .int 0 h⟩
  | str s =>
    let quote : Quote := ⟨'"', rfl⟩
    obtain ⟨inside, hinside⟩ := exists_encoding quote.val s.toList
    exact ⟨_, .str hinside⟩
  | name s => exact ⟨_, .name h.1 h.2⟩
  | bool b => exact ⟨_, .fixed (.bool b)⟩
  | keyword k => exact ⟨_, .fixed (.keyword k)⟩
  | typeTag t => exact ⟨_, .fixed (.typeTag t)⟩
  | operator op => exact ⟨_, .fixed (.operator op)⟩
  | mark m => exact ⟨_, .fixed (.mark m)⟩
  | newline => exact ⟨_, .fixed .newline⟩
  | float | comment | blank | endOfInput => exact h.elim

theorem exists_source (h : ∀ kind ∈ kinds, Plain kind) : ∃ text, Source kinds text := by
  induction kinds with
  | nil => exact ⟨[], .nil⟩
  | cons kind kinds ih =>
    rw [List.forall_mem_cons] at h
    obtain ⟨text, htext⟩ := exists_spelling h.1
    obtain ⟨more, hmore⟩ := ih h.2
    cases kinds with
    | nil => exact ⟨text, .last (.plain htext)⟩
    | cons next kinds =>
      exact ⟨text ++ ([' '] ++ more), .cons (.plain htext) (by simp) (by simp [isBlank]) hmore⟩

end Sources

end Scriptlet.Writing

namespace Scriptlet.Token

open Writing

/-- Scanning undoes writing. Every sequence of kinds that can be written has a text, and each of its
texts is scanned as tokens of these kinds and the token for the end. -/
theorem scan_source (kinds : List Kind) (h : ∀ kind ∈ kinds, Plain kind) :
    (∃ text : String, Source kinds text.toList) ∧
    ∀ text : String, Source kinds text.toList →
      ∃ tokens, scan text = .ok tokens ∧ tokens.map Token.kind = kinds ++ [.endOfInput] := by
  constructor
  · obtain ⟨text, htext⟩ := exists_source h
    exact ⟨String.ofList text, by rwa [String.toList_ofList]⟩
  · intro text hsource
    obtain ⟨pieces, hcutting, hkinds⟩ := hsource.cutting
    refine ⟨_, scan_cutting hcutting, ?_⟩
    rw [List.map_append, map_kind_placed, hkinds]
    rfl

/-- For one, `007` and a comment, and in the next line a string with a tab and an escaped quote. -/
theorem scan_source_commented :
    let kinds : List Kind := [.int 7, .newline, .str "\t'"]
    let text : String := "007 #8\n \t'\t\\''"
    (∀ kind ∈ kinds, Plain kind) ∧ Source kinds text.toList ∧
      ∃ tokens, scan text = .ok tokens ∧ tokens.map Token.kind = kinds ++ [.endOfInput] := by
  intro kinds text
  have hplain : ∀ kind ∈ kinds, Plain kind := by
    intro kind hkind
    simp only [kinds, List.mem_cons, List.not_mem_nil, or_false] at hkind
    rcases hkind with rfl | rfl | rfl
    · exact (by decide : (0 : Int) ≤ (7 : Int64).toInt)
    · trivial
    · trivial
  let quote : Quote := ⟨'\'', rfl⟩
  have hinside : Encoding quote.val "\t'".toList ['\t', '\\', '\''] :=
    .raw (by decide) (by decide) (.escaped (.inr rfl) .nil)
  have hnumber : Item (.int 7) "007".toList := .plain (.int 2 (hplain (.int 7) (by simp [kinds])))
  have hcomment : ∀ c ∈ ['8'], c ≠ '\n' := by simp
  have hline : Item .newline "#8\n".toList := .commented hcomment
  have hstring : Item (.str "\t'") "'\t\\''".toList := .plain (.str hinside)
  have htext : text.toList =
      "007".toList ++ ([' '] ++ ("#8\n".toList ++ ([' ', '\t'] ++ "'\t\\''".toList))) := by decide
  have hsource : Source kinds text.toList := by
    rw [htext]
    exact .cons hnumber (by simp) (by simp [Lexeme.isBlank])
      (.cons hline (by simp) (by simp [Lexeme.isBlank]) (.last hstring))
  exact ⟨hplain, hsource, (scan_source kinds hplain).2 text hsource⟩

end Scriptlet.Token
