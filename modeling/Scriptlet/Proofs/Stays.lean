import Scriptlet.Token.Scan

namespace Scriptlet

namespace Lexeme

variable {first : Char} {rest ds : List Char} {c : Cut}

theorem takeWhile_append_lineFeed {p : Char → Bool} (hp : p '\n' = false) (cs ds : List Char) :
    (cs ++ '\n' :: ds).takeWhile p = cs.takeWhile p := by
  induction cs with
  | nil => simp [hp]
  | cons c cs ih => simp [List.takeWhile_cons, ih]

theorem dropWhile_append_lineFeed {p : Char → Bool} (hp : p '\n' = false) (cs ds : List Char) :
    (cs ++ '\n' :: ds).dropWhile p = cs.dropWhile p ++ '\n' :: ds := by
  induction cs with
  | nil => simp [hp]
  | cons c cs ih =>
    by_cases hc : p c
    · simp [hc, ih]
    · simp [hc]

/-- A lexeme is cut off the front of a text the same way if a line feed and more text follow. -/
def Stays (cutOff : List Char → Result) : Prop :=
  ∀ ⦃rest : List Char⦄ ⦃c : Cut⦄ (ds : List Char), cutOff rest = .ok c →
    cutOff (rest ++ '\n' :: ds) = .ok c

theorem stays_takeWhile {p : Char → Bool} (hp : p '\n' = false) (lexeme : List Char → Lexeme) :
    Stays fun rest => .ok ⟨lexeme (rest.takeWhile p), (rest.takeWhile p).length⟩ := by
  intro rest c ds h
  dsimp only at h ⊢
  rw [takeWhile_append_lineFeed hp]
  exact h

theorem stays_ite {p : Prop} [Decidable p] {f g : List Char → Result} (hf : Stays f)
    (hg : Stays g) : Stays fun rest => if p then f rest else g rest := by
  by_cases hp : p
  · simpa [hp] using hf
  · simpa [hp] using hg

theorem number_pointed {more : List Char} (h : rest.dropWhile isDigit = '.' :: more) :
    number first rest =
      let whole := first :: rest.takeWhile isDigit
      let fraction := more.takeWhile isDigit
      .ok ⟨.token (.float (Number.ofPointed whole fraction)),
        (rest.takeWhile isDigit).length + 1 + fraction.length⟩ := by
  simp [number, h]

theorem number_whole (h : ∀ more, rest.dropWhile isDigit ≠ '.' :: more) :
    number first rest =
      let whole := first :: rest.takeWhile isDigit
      if (Number.ofDigits whole : Int) ≤ Int64.maxValue.toInt then
        .ok ⟨.token (.int (Int64.ofNat (Number.ofDigits whole))), (rest.takeWhile isDigit).length⟩
      else .error (.integerTooLarge (String.ofList whole)) := by
  unfold number
  dsimp only
  split
  · next more hd => exact (h more hd).elim
  · rfl

theorem stays_number : Stays (number first) := by
  intro rest c ds h
  have htake : (rest ++ '\n' :: ds).takeWhile isDigit = rest.takeWhile isDigit :=
    takeWhile_append_lineFeed rfl rest ds
  have hdrop : (rest ++ '\n' :: ds).dropWhile isDigit = rest.dropWhile isDigit ++ '\n' :: ds :=
    dropWhile_append_lineFeed rfl rest ds
  by_cases hpoint : ∃ more, rest.dropWhile isDigit = '.' :: more
  · obtain ⟨more, hd⟩ := hpoint
    have hd' : (rest ++ '\n' :: ds).dropWhile isDigit = '.' :: (more ++ '\n' :: ds) := by
      rw [hdrop, hd, List.cons_append]
    have hmore : (more ++ '\n' :: ds).takeWhile isDigit = more.takeWhile isDigit :=
      takeWhile_append_lineFeed rfl more ds
    rw [number_pointed hd] at h
    rw [number_pointed hd', htake, hmore]
    exact h
  · have hd : ∀ more, rest.dropWhile isDigit ≠ '.' :: more := fun more hd => hpoint ⟨more, hd⟩
    have hd' : ∀ more, (rest ++ '\n' :: ds).dropWhile isDigit ≠ '.' :: more := by
      intro more
      rw [hdrop]
      cases hr : rest.dropWhile isDigit with
      | nil => simp
      | cons d r =>
        intro he
        exact hd r (by rw [hr, (List.cons.inj he).1])
    rw [number_whole hd] at h
    rw [number_whole hd', htake]
    exact h

theorem quoted_cons {quote d : Char} {text : List Char} {count : Nat} (hd : d ≠ '\\') :
    quoted quote text count (d :: rest) =
      if d = quote then some (text, count + 1) else quoted quote (d :: text) (count + 1) rest := by
  cases rest <;> simp [quoted, hd]

/-- What `quoted` reads by itself opens no escape. -/
theorem ne_backslash {d : Char} (hlast : d = '\\' → rest = [] → False)
    (hmore : ∀ c more, d = '\\' → rest = c :: more → False) : d ≠ '\\' := by
  intro hd
  cases rest with
  | nil => exact hlast hd rfl
  | cons c more => exact hmore c more hd rfl

theorem quoted_append {quote : Char} {text text' : List Char} {count count' : Nat} (ds : List Char)
    (h : quoted quote text count rest = some (text', count')) :
    quoted quote text count (rest ++ ds) = some (text', count') := by
  fun_induction quoted quote text count rest with
  | case1 => simp at h
  | case2 => simp at h
  | case3 text count d rest ih => simpa [quoted] using ih h
  | case4 text count rest h₁ h₂ =>
    have hd := ne_backslash h₁ h₂
    rw [List.cons_append, quoted_cons hd, if_pos rfl]
    exact h
  | case5 text count d rest h₁ h₂ hne ih =>
    have hd := ne_backslash h₁ h₂
    rw [List.cons_append, quoted_cons hd, if_neg hne]
    exact ih h

theorem stays_string {quote : Char} : Stays (string quote) := by
  intro rest c ds h
  unfold string at h ⊢
  cases hq : quoted quote [] 0 rest with
  | none => simp [hq] at h
  | some found =>
    obtain ⟨text, count⟩ := found
    rw [hq] at h
    rw [quoted_append ('\n' :: ds) hq]
    exact h

theorem symbol_append : symbol first (rest ++ '\n' :: ds) = symbol first rest := by
  cases rest with
  | nil =>
    unfold symbol
    split <;> simp_all
  | cons d rest =>
    by_cases hd : d = '='
    · subst hd
      unfold symbol
      split <;> simp_all
    by_cases hd' : d = '>'
    · subst hd'
      unfold symbol
      split <;> simp_all
    · unfold symbol
      split <;> simp_all

theorem stays_cut : Stays (cut first) := by
  have hgap {p : Char → Bool} (hp : p '\n' = false) :
      Stays fun rest => .ok ⟨.gap, (rest.takeWhile p).length⟩ :=
    stays_takeWhile hp fun _ => .gap
  have hword : Stays (word first) :=
    stays_takeWhile rfl fun more => .token (.ofWord (String.ofList (first :: more)))
  refine stays_ite (hgap rfl) (stays_ite (hgap rfl)
    (stays_ite ?_ (stays_ite stays_number (stays_ite stays_string (stays_ite hword ?_)))))
  · intro rest c ds h
    exact h
  · intro rest c ds h
    rw [symbol_append]
    exact h

end Lexeme

end Scriptlet
