import Scriptlet.Proofs.Dialogue

namespace Scriptlet

namespace Text

theorem toList_loop (bytes : ByteArray) (i : Nat) (acc : List UInt8) :
    ByteArray.toList.loop bytes i acc = acc.reverse ++ bytes.data.toList.drop i := by
  fun_induction ByteArray.toList.loop bytes i acc with
  | case1 i acc hi ih =>
    have hlen : i < bytes.data.toList.length := hi
    have hget : bytes.get! i = bytes.data.toList.get ⟨i, hlen⟩ := getElem!_pos bytes.data i hi
    rw [ih, List.drop_eq_getElem_cons hlen, hget]
    simp
  | case2 i acc hi =>
    have hlen : bytes.data.toList.length ≤ i := Nat.le_of_not_lt hi
    rw [List.drop_eq_nil_of_le hlen, List.append_nil]

theorem toList_append (a b : ByteArray) : (a ++ b).toList = a.toList ++ b.toList := by
  simp [ByteArray.toList, toList_loop]

/-- Nothing, or lines that all have their line feed. -/
def WholeLines (bytes : ByteArray) : Prop :=
  ∀ b ∈ bytes.toList.getLast?, b = lineFeed

instance (bytes : ByteArray) : Decidable (WholeLines bytes) :=
  inferInstanceAs (Decidable (∀ b ∈ bytes.toList.getLast?, b = lineFeed))

theorem linesFrom_append {line xs : List UInt8} (ys : List UInt8)
    (hx : ∀ b ∈ xs.getLast?, b = lineFeed) (hl : xs = [] → line = []) :
    linesFrom line (xs ++ ys) = linesFrom line xs ++ linesFrom [] ys := by
  induction xs generalizing line with
  | nil =>
    rw [hl rfl]
    rfl
  | cons b xs ih =>
    have hrest : ∀ b ∈ xs.getLast?, b = lineFeed := by
      intro b hb
      apply hx
      rw [List.getLast?_cons, hb]
      rfl
    simp only [List.cons_append, linesFrom]
    split
    · rw [ih hrest fun _ => rfl, List.cons_append]
    · rename_i hb
      apply ih hrest
      intro hnil
      subst hnil
      exact absurd (hx b rfl) hb

theorem lines_empty : lines .empty = [] := by
  simp [lines, linesFrom]

theorem lines_append {a : ByteArray} (ha : WholeLines a) (b : ByteArray) :
    lines (a ++ b) = lines a ++ lines b := by
  rw [lines, toList_append, linesFrom_append _ ha fun _ => rfl]
  rfl

end Text

namespace Console

/-- The line asks to end the dialogue. -/
def Quits (line : ByteArray) : Prop :=
  (String.fromUTF8? line).map Text.trim = some "exit"

instance (line : ByteArray) : Decidable (Quits line) :=
  inferInstanceAs (Decidable (_ = _))

/-- A line that does nothing, with the message about it, which is empty for a blank line. -/
inductive Idle (line : ByteArray) : String → Prop where
  | blank {text : String} (h : String.fromUTF8? line = some text) (hb : Text.trim text = "") :
      Idle line ""
  | unreadable {text : String} {e : Error} (h : String.fromUTF8? line = some text)
      (hn : Text.trim text ≠ "exit") (he : Stmt.ofText (Text.trim text) = .error e) :
      Idle line ("Error: " ++ e.message ++ "\n")

variable {c : Console} {line : ByteArray} {message : String} {before after : List ByteArray}
  {t : Transcript}

theorem Quits.respond (h : Quits line) (c : Console) : c.respond line = .stop (c.close 0) := by
  obtain ⟨text, htext, hexit⟩ := Option.map_eq_some_iff.mp h
  simp [Console.respond, htext, hexit]

theorem Idle.respond (h : Idle line message) (c : Console) :
    c.respond line = .again ⟨c.session, c.errors ++ message⟩ := by
  cases h with
  | blank h hb => simp [Console.respond, h, hb]
  | @unreadable text e h hn he =>
    have hblank : Text.trim text ≠ "" := by
      intro hb
      have hempty : Stmt.ofText "" = .ok [] := rfl
      rw [hb, hempty] at he
      cases he
    simp [Console.respond, h, hn, hblank, he, complain, String.append_assoc]

/-- Only `exit` and what is not text end a dialogue. -/
theorem respond_stop (h : c.respond line = .stop t) (valid : (String.fromUTF8? line).isSome) :
    Quits line ∧ t = c.close 0 := by
  obtain ⟨text, htext⟩ := Option.isSome_iff_exists.mp valid
  simp only [respond, htext] at h
  split at h
  · cases h
  · split at h
    · rename_i hexit
      cases h
      exact ⟨Option.map_eq_some_iff.mpr ⟨text, htext, hexit⟩, rfl⟩
    · split at h <;> cases h

theorem Ends.code (h : Ends c before t) (valid : ∀ x ∈ before, (String.fromUTF8? x).isSome) :
    t.code = 0 := by
  induction h with
  | quit c => rfl
  | stop h =>
    obtain ⟨_, rfl⟩ := respond_stop h (valid _ List.mem_cons_self)
    rfl
  | goOn _ _ ih => exact ih fun x hx => valid x (List.mem_cons_of_mem _ hx)

/-- What comes after a line that quits is not read. -/
theorem converse_quits (h : Quits line) (fuel : Nat) (c : Console) (before after : List ByteArray) :
    c.converse fuel (before ++ line :: after) = c.converse fuel (before ++ [line]) := by
  induction before generalizing c with
  | nil => simp only [List.nil_append, converse, h.respond]
  | cons first before ih => simp only [List.cons_append, converse, ih]

/-- A console that takes a line that does nothing has another prompt written and another message
told. -/
theorem Takes.of_idle {d : Console} (hi : Idle line message) (h : Takes c line d) :
    d = ⟨(c.say prompt).session, c.errors ++ message⟩ := by
  cases h with
  | again h =>
    rw [hi.respond] at h
    cases h
    rfl
  | evaluate h _ =>
    rw [hi.respond] at h
    cases h

/-- A dialogue with a line that does nothing, and the dialogue without it. -/
theorem Ends.skip (h : Ends greet (before ++ line :: after) t) (hi : Idle line message)
    (valid : ∀ x ∈ before ++ line :: after, (String.fromUTF8? x).isSome)
    (going : ∀ x ∈ before, ¬ Quits x) :
    ∃ out out' err err',
      t = ⟨out ++ prompt.toUTF8 ++ out', err ++ message ++ err', 0⟩ ∧
      Ends greet (before ++ after) ⟨out ++ out', err ++ err', 0⟩ ∧
      Ends greet before ⟨out ++ prompt.toUTF8 ++ farewell.toUTF8, err, 0⟩ := by
  have hcode := h.code valid
  have hgoing : ∀ x ∈ before, ∀ (c : Console) t, c.respond x ≠ .stop t := fun x hx c t hstop =>
    going x hx (respond_stop hstop (valid x (List.mem_append_left _ hx))).1
  obtain ⟨c, hbefore, hc⟩ := h.takesAll hgoing
  have hgreet : greet.Beside .empty .empty "" "" greet := .mk (.mk ..) ""
  obtain ⟨_, hb, _⟩ := hbefore.beside hgreet
  obtain ⟨⟨scopes, functions, out, flushes⟩, err⟩ := hb
  simp only [ByteArray.empty_append, String.empty_append] at hbefore hc
  have hline : Beside (out ++ prompt.toUTF8) out (err ++ message) err
      ⟨⟨scopes, functions, ⟨out ++ prompt.toUTF8 ++ .empty, flushes, none, none⟩⟩,
        err ++ message ++ ""⟩
      ⟨⟨scopes, functions, ⟨out ++ .empty, flushes, none, none⟩⟩, err ++ ""⟩ := .mk (.mk ..) ""
  simp only [ByteArray.append_empty, String.append_empty] at hline
  cases hc with
  | stop hstop =>
    rw [hi.respond] at hstop
    cases hstop
  | goOn first more =>
    obtain rfl := first.of_idle hi
    obtain ⟨_, ht, hskip⟩ := more.beside hline
    obtain ⟨out', err', code⟩ := ht
    obtain rfl : code = 0 := hcode
    have hquit := hbefore.ends (.quit _)
    rw [List.append_nil] at hquit
    exact ⟨out, out', err, err', rfl, hbefore.ends hskip, hquit⟩

/-- Let `l` be one line of the input, with the line feed that ends it unless it is the last one. If
it asks to end the dialogue, what comes after it makes no difference. If it does nothing, and the
dialogue reads it and comes to an end, then the dialogue without it comes to an end too. The only
difference is one prompt and the message about the line, at the point that the dialogue had reached
when it read the line. -/
theorem interact_ignores (a l b line : ByteArray) (ha : Text.WholeLines a)
    (hl : Text.lines l = [line]) (hb : Text.WholeLines l ∨ b = .empty) :
    (Quits line → ∀ fuel, interact fuel (a ++ l ++ b) = interact fuel (a ++ l)) ∧
    ∀ message fuel t, Idle line message →
      (∀ x ∈ Text.lines (a ++ l ++ b), (String.fromUTF8? x).isSome) →
      (∀ x ∈ Text.lines a, ¬ Quits x) →
      interact fuel (a ++ l ++ b) = some t →
      ∃ out out' err err',
        t = ⟨out ++ prompt.toUTF8 ++ out', err ++ message ++ err', 0⟩ ∧
        (∃ fuel, interact fuel (a ++ b) = some ⟨out ++ out', err ++ err', 0⟩) ∧
        ∃ fuel, interact fuel a = some ⟨out ++ prompt.toUTF8 ++ farewell.toUTF8, err, 0⟩ := by
  have hwith : Text.lines (a ++ l ++ b) = Text.lines a ++ line :: Text.lines b := by
    rw [ByteArray.append_assoc, Text.lines_append ha]
    rcases hb with hl' | rfl
    · rw [Text.lines_append hl', hl, List.singleton_append]
    · rw [ByteArray.append_empty, hl, Text.lines_empty]
  have hlast : Text.lines (a ++ l) = Text.lines a ++ [line] := by
    rw [Text.lines_append ha, hl]
  refine ⟨?_, ?_⟩
  · intro hq fuel
    rw [interact, interact, hwith, hlast]
    exact converse_quits hq fuel greet _ _
  · intro message fuel t hi valid going h
    rw [hwith] at valid
    rw [interact, hwith] at h
    obtain ⟨out, out', err, err', ht, hskip, hbegun⟩ := (ends_of_converse h).skip hi valid going
    refine ⟨out, out', err, err', ht, ?_, converse_eq_some_iff.mpr hbegun⟩
    rw [← Text.lines_append ha] at hskip
    exact converse_eq_some_iff.mpr hskip

/-- For one, where the line cannot be read, and for another, where it is `exit`. -/
theorem interact_ignores_unreadable :
    (∃ e out out' err err',
      Stmt.ofText "let =" = .error e ∧
      interact 60 ("x = 'a'\n".toUTF8 ++ " let = \r\n".toUTF8 ++ "print(x)\nexit\nx".toUTF8) =
        some ⟨out ++ prompt.toUTF8 ++ out', err ++ ("Error: " ++ e.message ++ "\n") ++ err', 0⟩ ∧
      ∃ fuel, interact fuel ("x = 'a'\n".toUTF8 ++ "print(x)\nexit\nx".toUTF8) =
        some ⟨out ++ out', err ++ err', 0⟩) ∧
    interact 60 ("x = 'a'\n".toUTF8 ++ " exit\n".toUTF8 ++ "print(x)".toUTF8) =
      interact 60 ("x = 'a'\n".toUTF8 ++ " exit\n".toUTF8) := by
  have hread : (Stmt.ofText "let =").toOption.isNone := by decide +kernel
  obtain ⟨e, he⟩ : ∃ e, Stmt.ofText "let =" = .error e := by
    cases htext : Stmt.ofText "let =" with
    | error e => exact ⟨e, rfl⟩
    | ok body => simp [htext, Except.toOption] at hread
  have htrim : Text.trim " let = " = "let =" := by decide +kernel
  have htext : String.fromUTF8? " let = ".toUTF8 = some " let = " := by decide +kernel
  have hidle : Idle " let = ".toUTF8 ("Error: " ++ e.message ++ "\n") :=
    .unreadable htext (by rw [htrim]; decide) (by rwa [htrim])
  have hend : (interact 60
      ("x = 'a'\n".toUTF8 ++ " let = \r\n".toUTF8 ++ "print(x)\nexit\nx".toUTF8)).isSome := by
    decide +kernel
  obtain ⟨t, ht⟩ := Option.isSome_iff_exists.mp hend
  have hfirst : Text.WholeLines "x = 'a'\n".toUTF8 := by decide +kernel
  have hunread := interact_ignores _ " let = \r\n".toUTF8 "print(x)\nexit\nx".toUTF8
    " let = ".toUTF8 hfirst (by decide +kernel) (.inl (by decide +kernel))
  obtain ⟨out, out', err, err', rfl, hskip, _⟩ :=
    hunread.2 _ 60 t hidle (by decide +kernel) (by decide +kernel) ht
  have hexit := interact_ignores _ " exit\n".toUTF8 "print(x)".toUTF8 " exit".toUTF8 hfirst
    (by decide +kernel) (.inl (by decide +kernel))
  exact ⟨⟨e, out, out', err, err', he, ht, hskip⟩, hexit.1 (by decide +kernel) 60⟩

end Console

end Scriptlet
