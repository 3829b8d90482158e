import Scriptlet.Console
import Scriptlet.Proofs.LongestMatch
import Scriptlet.Proofs.Mentions
import Scriptlet.Proofs.ParseJoin

namespace Scriptlet

/-- A text without line feeds. -/
def Text.OneLine (s : String) : Prop :=
  '\n' ∉ s.toList

instance : DecidablePred Text.OneLine :=
  fun s => inferInstanceAs (Decidable ('\n' ∉ s.toList))

open Text

namespace Text

theorem oneLine_append {s t : String} : OneLine (s ++ t) ↔ OneLine s ∧ OneLine t := by
  simp [OneLine]

theorem oneLine_ofList {cs : List Char} : OneLine (String.ofList cs) ↔ '\n' ∉ cs := by
  simp [OneLine]

/-- A literal is checked as a list of characters, which takes no decoding. -/
theorem oneLine_literal {cs : List Char} (h : '\n' ∉ cs := by decide) :
    OneLine (String.ofList cs) :=
  oneLine_ofList.mpr h

theorem not_mem_digitsOf (n : Nat) : '\n' ∉ Number.digitsOf n := by
  intro h
  have hd := Nat.isDigit_of_mem_toDigits (by decide) (by decide) h
  revert hd
  decide

theorem oneLine_nat (n : Nat) : OneLine (toString n) :=
  oneLine_ofList.mpr (not_mem_digitsOf n)

theorem oneLine_int (n : Int) : OneLine (toString n) := by
  cases n with
  | ofNat n => exact oneLine_nat n
  | negSucc n => exact oneLine_append.mpr ⟨by decide, oneLine_nat (n + 1)⟩

end Text

namespace Number

theorem oneLine_positional (d : Decimal) : OneLine d.positional := by
  unfold Decimal.positional
  split
  · exact oneLine_ofList.mpr (not_mem_digitsOf _)
  · have kept (n k : Nat) :
        '\n' ∉ ((List.replicate k '0' ++ digitsOf n).reverse.dropWhile (· = '0')).reverse := by
      intro h
      have h := (List.dropWhile_suffix _).subset (List.mem_reverse.mp h)
      rw [List.mem_reverse, List.mem_append] at h
      rcases h with hzero | hdigit
      · exact absurd (List.eq_of_mem_replicate hzero) (by decide)
      · exact not_mem_digitsOf n hdigit
    dsimp only
    split
    · exact oneLine_ofList.mpr (not_mem_digitsOf _)
    · rw [oneLine_ofList, List.mem_append, List.mem_cons, not_or, not_or]
      exact ⟨not_mem_digitsOf _, by decide, kept _ _⟩

theorem oneLine_signed (negative : Bool) {text : String} (h : OneLine text) :
    OneLine (signed negative text) := by
  cases negative
  · exact h
  · exact oneLine_append.mpr ⟨by decide, h⟩

theorem oneLine_plainText (x : Float) : OneLine (plainText x) := by
  unfold plainText textWith
  split
  · exact oneLine_signed _ (oneLine_positional _)
  · exact oneLine_signed _ (by decide)
  · decide

end Number

theorem TypeTag.oneLine_spelling (t : TypeTag) : OneLine t.spelling := by
  cases t <;> decide

theorem Operator.oneLine_spelling (op : Operator) : OneLine op.spelling := by
  cases op <;> decide

theorem Position.oneLine_label (p : Position) : OneLine p.label := by
  have hl : p.label =
      "line " ++ toString p.line ++ ", column " ++ toString p.column ++ ": " := rfl
  simp only [hl, oneLine_append, oneLine_nat, and_true]
  exact ⟨⟨oneLine_literal, oneLine_literal⟩, oneLine_literal⟩

namespace Token.Kind

theorem oneLine_quote {s : String} : OneLine (describe.quote s) ↔ OneLine s := by
  simp only [describe.quote, oneLine_append]
  constructor
  · intro h
    exact h.1.2
  · intro h
    exact ⟨⟨by decide, h⟩, by decide⟩

theorem oneLine_describe_name {s : String} : OneLine (describe (.name s)) ↔ OneLine s := by
  simp only [describe, oneLine_append, oneLine_quote]
  constructor
  · intro h
    exact h.2
  · intro h
    exact ⟨by decide, h⟩

theorem oneLine_describe {kind : Token.Kind} (h : ∀ s, kind = .name s → OneLine s) :
    OneLine kind.describe := by
  cases kind with
  | int n => exact oneLine_append.mpr ⟨by decide, oneLine_quote.mpr (oneLine_int _)⟩
  | float x => exact oneLine_append.mpr ⟨by decide, oneLine_quote.mpr (Number.oneLine_plainText x)⟩
  | name s => exact oneLine_describe_name.mpr (h s rfl)
  | bool b => cases b <;> decide
  | keyword k => cases k <;> decide
  | typeTag t => exact oneLine_quote.mpr t.oneLine_spelling
  | operator op => exact oneLine_quote.mpr op.oneLine_spelling
  | mark m => cases m <;> decide
  | str s => exact oneLine_literal
  | newline | comment | blank | endOfInput => decide

/-- The kinds that can be described on one line. -/
def Describable (kind : Token.Kind) : Prop :=
  OneLine kind.describe

theorem vocabulary_describable : Parser.Vocabulary Describable where
  mark _ := oneLine_describe fun _ h => by cases h
  keyword _ := oneLine_describe fun _ h => by cases h

end Token.Kind

open Token.Kind

theorem ParseError.oneLine_message {e : ParseError} (h : ∀ kind ∈ e.kinds, Describable kind) :
    OneLine e.message := by
  cases e with
  | unexpectedToken expected found =>
    simp only [kinds, List.forall_mem_cons, Describable] at h
    have he : OneLine expected.describe := by
      cases expected with
      | token kind => exact h.2 kind List.mem_cons_self
      | name => decide
      | commaOr closing =>
        have hc : OneLine closing.describe := h.2 closing (by simp [Expectation.kinds])
        simp only [Expectation.describe, oneLine_append, hc, and_true]
        exact ⟨vocabulary_describable.mark .comma, oneLine_literal⟩
    simp only [message, oneLine_append, found.position.oneLine_label, he, h.1, and_true, true_and]
    exact ⟨oneLine_literal, oneLine_literal⟩
  | invalidStatement found | expectedType found =>
    have hf : OneLine found.kind.describe := h _ (List.mem_singleton_self _)
    simp only [message, oneLine_append, found.position.oneLine_label, hf, and_true, true_and]
    exact oneLine_literal
  | unexpectedTokenInExpression found =>
    have hf : OneLine found.kind.describe := h _ (List.mem_singleton_self _)
    simp only [message, oneLine_append, found.position.oneLine_label, hf, and_true, true_and]
    exact ⟨oneLine_literal, oneLine_literal⟩
  | unexpectedEndOfInput => exact oneLine_literal

theorem Fault.oneLine_message {fault : Fault} (h : ∀ x, fault.name? = some x → OneLine x) :
    OneLine fault.message := by
  unfold message
  cases fault with
  | unknownVariable name | unknownFunction name | alreadyDefined name
  | immutableAssignment name =>
    simp only [oneLine_append, h name rfl, and_true]
    exact ⟨oneLine_literal, oneLine_literal⟩
  | argumentCountMismatch name expected found =>
    have counts : OneLine s!"' expects {expected} arguments, got {found}" := by
      simp only [oneLine_append, oneLine_nat, and_true]
      exact ⟨oneLine_literal, oneLine_literal⟩
    exact oneLine_append.mpr
      ⟨oneLine_append.mpr ⟨oneLine_literal, h name rfl⟩, counts⟩
  | typeMismatch expected found =>
    simp only [oneLine_append, TypeTag.oneLine_spelling, and_true]
    exact ⟨oneLine_literal, oneLine_literal⟩
  | invalidOperands op left right =>
    simp only [oneLine_append, TypeTag.oneLine_spelling, Operator.oneLine_spelling, and_true]
    exact ⟨⟨oneLine_literal, oneLine_literal⟩, oneLine_literal⟩
  | expectedBoolean found =>
    exact oneLine_append.mpr ⟨oneLine_literal, found.oneLine_spelling⟩
  | precisionLoss value =>
    simp only [oneLine_append, oneLine_int, and_true]
    exact ⟨oneLine_literal, oneLine_literal⟩
  | missingValue | divisionByZero | overflow | returnOutsideFunction | output =>
    exact oneLine_literal

theorem RuntimeError.oneLine_message {e : RuntimeError}
    (h : ∀ x, e.fault.name? = some x → OneLine x) : OneLine e.message := by
  have place : OneLine s!"line {e.line}: " := by
    simp only [oneLine_append, oneLine_nat, and_true]
    exact ⟨oneLine_literal, oneLine_literal⟩
  exact oneLine_append.mpr ⟨place, Fault.oneLine_message h⟩

namespace Pattern

variable {p : Pattern} {text word : List Char} {kind : Token.Kind} {cause : ScanError.Cause}
  {pieces : List Piece} {failure : Option ScanError.Cause}

/-- Names are words, and line feeds are no part of a word. -/
theorem describable_of_means (hw : word ∈ p.language)
    (hm : Means p word (.ok (.token kind))) : Describable kind := by
  apply oneLine_describe
  intro s hs
  cases hm with
  | identifier =>
    cases hs
    obtain ⟨c, u, rfl, hc, hu⟩ := mem_run.mp hw
    rw [oneLine_ofList, List.mem_cons, not_or]
    constructor
    · rintro rfl
      exact absurd hc (by decide)
    · intro hm
      exact absurd (hu _ hm) (by decide)
  | @fixed f => cases f <;> cases hs
  | float | integer | string => cases hs

/-- A line feed is a token, so it is never the character that none begins with. -/
theorem oneLine_of_fails (h : Fails text cause) (position : Position) :
    OneLine (ScanError.message ⟨cause, position⟩) := by
  cases h with
  | @refused _ word _ _ _ h hm =>
    cases hm with
    | tooLarge =>
      have literal : OneLine (String.ofList word) := by
        rw [oneLine_ofList]
        intro hm
        exact absurd ((mem_integer.mp h.fits).2 _ hm) (by decide)
      simp only [ScanError.message, oneLine_append, position.oneLine_label, literal, and_true,
        true_and]
      exact ⟨oneLine_literal, oneLine_literal⟩
    | unclosed =>
      exact oneLine_append.mpr ⟨position.oneLine_label, oneLine_literal⟩
  | @nothing c rest h =>
    have hc : OneLine c.toString := by
      rw [OneLine, Char.toString, String.toList_singleton, List.mem_singleton]
      rintro rfl
      exact h (.fixed .newline) ['\n'] rest rfl rfl
    simp only [ScanError.message, oneLine_append, position.oneLine_label, hc, and_true, true_and]
    exact ⟨oneLine_literal, oneLine_literal⟩

theorem Cutting.describable (h : Cutting text pieces failure) :
    ∀ kind ∈ Token.kinds pieces, Describable kind := by
  induction h with
  | done | fail => exact fun _ hm => absurd hm List.not_mem_nil
  | @piece _ word _ _ lexeme _ _ h hm _ ih =>
    cases lexeme with
    | gap => exact ih
    | token kind => exact List.forall_mem_cons.mpr ⟨describable_of_means h.fits hm, ih⟩

theorem Cutting.exists_fails (h : Cutting text pieces (some cause)) :
    ∃ rest, Fails rest cause := by
  generalize hf : some cause = failure at h
  induction h with
  | done => cases hf
  | piece _ _ _ ih => exact ih hf
  | fail h =>
    cases hf
    exact ⟨_, h⟩

end Pattern

namespace Token

theorem describable_of_scan {text : String} {tokens : List Token} (h : scan text = .ok tokens) :
    ∀ t ∈ tokens, Describable t.kind := by
  obtain ⟨pieces, hc, _, rfl⟩ := exists_cutting_of_scan h
  intro t ht
  rcases List.mem_append.mp ht with ht | ht
  · apply hc.describable
    rw [← map_kind_placed [] pieces]
    exact List.mem_map_of_mem ht
  · rw [List.mem_singleton.mp ht]
    exact oneLine_describe fun _ h => by cases h

theorem oneLine_of_scan {text : String} {e : ScanError} (h : scan text = .error e) :
    OneLine e.message := by
  obtain ⟨pieces, failure, hc⟩ := Pattern.exists_cutting text.toList
  rw [scan_cutting hc] at h
  cases failure with
  | none => cases h
  | some cause =>
    cases h
    obtain ⟨rest, hf⟩ := hc.exists_fails
    exact Pattern.oneLine_of_fails hf _

end Token

namespace Stmt

variable {text : String}

theorem oneLine_of_ofText {e : Error} (h : ofText text = .error e) : OneLine e.message := by
  unfold ofText at h
  split at h
  · rename_i e' hscan
    cases h
    exact Token.oneLine_of_scan hscan
  · rename_i tokens hscan
    split at h
    · rename_i e' hparse
      cases h
      have ht := Token.describable_of_scan hscan
      exact ParseError.oneLine_message (kinds_of_ofTokens vocabulary_describable ht hparse)
    · cases h

theorem oneLine_names {body : List Stmt} (h : ofText text = .ok body) :
    ∀ x ∈ body.flatMap Stmt.names, OneLine x := by
  obtain ⟨tokens, hscan, hparse⟩ := ofText_eq_ok_iff.mp h
  have ht := Token.describable_of_scan hscan
  intro x hx
  exact oneLine_describe_name.mp (known_of_ofTokens vocabulary_describable ht hparse x hx)

end Stmt

namespace Session

variable {fuel : Nat} {text : String} {e : Error} {t : Session}

theorem oneLine_of_run {sink : Sink}
    (h : Session.run fuel text ⟨.start, [], sink⟩ = some (.error e, t)) : OneLine e.message := by
  simp only [run, completeText] at h
  split at h
  · rename_i e' hread
    cases h
    exact Stmt.oneLine_of_ofText hread
  · rename_i body hread
    obtain ⟨⟨outcome, t⟩, ha, he⟩ := Option.map_eq_some_iff.mp h
    cases outcome with
    | ok r => cases he
    | error e' =>
      cases he
      apply RuntimeError.oneLine_message
      intro x hx
      exact Stmt.oneLine_names hread x (mem_names_of_finishes (finishes_of_complete ha) rfl hx)

end Session

namespace Console

theorem text_contents (text : String) : (File.contents text.toUTF8).text = .ok text := by
  have hread : String.fromUTF8? text.toUTF8 = some text := dif_pos text.isValidUTF8
  rw [File.text, hread]

theorem complain_empty (s : Session) (message : String) :
    (⟨s, ""⟩ : Console).complain message = ⟨s, "Error: " ++ message ++ "\n"⟩ := by
  rw [complain, String.empty_append]

/-- A program that fails is reported by one complaint. -/
theorem runFile_error {fuel : Nat} {text : String} {e : Error} {t : Session} (path : String)
    (h : Session.run fuel text {} = some (.error e, t)) :
    runFile fuel path (.contents text.toUTF8) =
      some ⟨t.sink.written, "Error: " ++ e.message ++ "\n", 1⟩ := by
  simp only [Session.run, Session.completeText] at h
  simp only [runFile, load, text_contents]
  cases hread : Stmt.ofText text with
  | error e' =>
    rw [hread] at h
    cases h
    exact congrArg (fun c : Console => some (c.close 1)) (complain_empty {} e.message)
  | ok body =>
    rw [hread] at h
    obtain ⟨⟨outcome, t⟩, ha, he⟩ := Option.map_eq_some_iff.mp h
    cases outcome with
    | ok r => cases he
    | error e' =>
      cases he
      have hexecute : ({} : Session).execute fuel body = some ⟨.error e', t⟩ := ha
      simp only [hexecute, Option.map_some, report, complain_empty]
      rfl

end Console

/-- Errors are reported on one line. Whatever the text of a program is, the message of its error has
no line feed in it, so the program that runs a file writes one line to the error output. -/
theorem Session.run_error_one_line (fuel : Nat) (text : String) :
    (∀ sink e t, Session.run fuel text ⟨.start, [], sink⟩ = some (.error e, t) →
      '\n' ∉ e.message.toList) ∧
    ∀ path e t, Session.run fuel text {} = some (.error e, t) →
      ∃ transcript, Console.runFile fuel path (.contents text.toUTF8) = some transcript ∧
        transcript.errors = "Error: " ++ e.message ++ "\n" ∧
        transcript.errors.toList.count '\n' = 1 := by
  constructor
  · intro sink e t h
    exact oneLine_of_run h
  · intro path e t h
    refine ⟨_, Console.runFile_error path h, rfl, ?_⟩
    have before : ("Error: " ++ e.message).toList.count '\n' = 0 :=
      List.count_eq_zero.mpr (oneLine_append.mpr ⟨by decide, oneLine_of_run h⟩)
    rw [String.toList_append, List.count_append, before]
    decide

/-- For one, where a string with a line feed in it is multiplied. -/
theorem Session.run_error_one_line_string :
    ∃ e t, Session.run 99 "x = \"a\nb\" * 2" {} = some (.error e, t) ∧
      '\n' ∉ e.message.toList := by
  have h : (Session.run 99 "x = \"a\nb\" * 2" {}).any (·.1.toOption.isNone) := by
    decide +kernel
  obtain ⟨⟨r, t⟩, ht, hr⟩ := (Option.any_eq_true _ _).mp h
  cases r with
  | ok _ => cases hr
  | error e => exact ⟨e, t, ht, (run_error_one_line 99 _).1 _ e t ht⟩

end Scriptlet
