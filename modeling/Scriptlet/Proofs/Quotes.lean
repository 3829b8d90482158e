import Scriptlet.Proofs.Patterns
import Scriptlet.Proofs.Stays

namespace Scriptlet.Pattern

open Lexeme
open scoped Computability

variable {quote : Char} {w : List Char}

theorem mem_body_iff :
    w ∈ body quote ↔ w = [] ∨ (∃ c u, w = c :: u ∧ c ≠ quote ∧ c ≠ '\\' ∧ u ∈ body quote) ∨
      ∃ c u, w = '\\' :: c :: u ∧ u ∈ body quote := by
  conv_lhs => rw [body, mem_kstar_unfold, add_mul, Language.mem_add, mul_assoc]
  simp only [mem_oneOf_mul]
  simp [body, and_assoc]

theorem nil_mem_body : [] ∈ body quote :=
  mem_body_iff.2 (.inl rfl)

/-- Whether the character behind a text is escaped: by a backslash that is not escaped itself. -/
def escaped (before : List Char) : Bool :=
  before.foldl (fun e c => c = '\\' && !e) false

@[simp]
theorem escaped_nil : escaped [] = false :=
  rfl

@[simp]
theorem escaped_escape (c : Char) (w : List Char) : escaped ('\\' :: c :: w) = escaped w := by
  simp [escaped]

theorem escaped_cons {c : Char} (hc : c ≠ '\\') (w : List Char) : escaped (c :: w) = escaped w := by
  simp [escaped, hc]

theorem escaped_concat (w : List Char) (c : Char) :
    escaped (w ++ [c]) = (c = '\\' && !escaped w) := by
  simp [escaped]

theorem quote_ne_backslash (quote : Quote) : quote.val ≠ '\\' := by
  intro h
  have hq := quote.property
  rw [h] at hq
  exact absurd hq (by decide)

/-- All quotes in a text are escaped. -/
def Shielded (quote : Char) (w : List Char) : Prop :=
  ∀ u v, w = u ++ quote :: v → escaped u = true

theorem shielded_nil : Shielded quote [] := by
  intro u v h
  simp at h

theorem shielded_cons {c : Char} (hc : c ≠ '\\') :
    Shielded quote (c :: w) ↔ c ≠ quote ∧ Shielded quote w := by
  constructor
  · intro h
    refine ⟨?_, ?_⟩
    · intro hq
      have he := h [] w (by rw [hq, List.nil_append])
      simp at he
    · intro u v hw
      have he := h (c :: u) v (by rw [hw, List.cons_append])
      rwa [escaped_cons hc] at he
  · intro h u v hw
    cases u with
    | nil => exact absurd (List.cons.inj hw).1 h.1
    | cons d u =>
      obtain ⟨rfl, htail⟩ := List.cons.inj hw
      rw [escaped_cons hc]
      exact h.2 u v htail

theorem shielded_escape (hq : quote ≠ '\\') (c : Char) :
    Shielded quote ('\\' :: c :: w) ↔ Shielded quote w := by
  constructor
  · intro h u v hw
    have he := h ('\\' :: c :: u) v (by rw [hw, List.cons_append, List.cons_append])
    rwa [escaped_escape] at he
  · intro h u v hw
    match u with
    | [] => exact absurd (List.cons.inj hw).1.symm hq
    | [d] =>
      obtain ⟨rfl, _⟩ := List.cons.inj hw
      rfl
    | d :: e :: u =>
      simp only [List.cons_append, List.cons.injEq] at hw
      obtain ⟨rfl, rfl, hw⟩ := hw
      rw [escaped_escape]
      exact h u v hw

/-- The inside of a string, told by what is escaped: every quote in it is, and the quote behind it
is not. -/
theorem mem_body_iff_shielded {quote : Quote} :
    w ∈ body quote.val ↔ escaped w = false ∧ Shielded quote.val w := by
  fun_induction decode w with
  | case1 c rest ih =>
    rw [escaped_escape, shielded_escape (quote_ne_backslash quote), ← ih, mem_body_iff]
    simp
  | case2 c rest hne ih =>
    by_cases hc : c = '\\'
    · obtain rfl : rest = [] := by
        cases rest with
        | nil => rfl
        | cons d rest => exact (hne d rest hc rfl).elim
      subst hc
      rw [mem_body_iff]
      simp [escaped]
    · rw [escaped_cons hc, shielded_cons hc, mem_body_iff]
      simp only [List.cons.injEq]
      grind
  | case3 => simp [nil_mem_body, shielded_nil]

/-- The quote that closes a string is found: the first that is not escaped. -/
theorem quoted_eq_some {text text' rest : List Char} {count count' : Nat}
    (h : quoted quote text count rest = some (text', count')) :
    ∃ inside tail, rest = inside ++ quote :: tail ∧ inside ∈ body quote ∧
      text' = (decode inside).reverse ++ text ∧ count' = count + inside.length + 1 := by
  fun_induction quoted quote text count rest with
  | case1 => simp at h
  | case2 => simp at h
  | case3 text count c rest ih =>
    obtain ⟨inside, tail, rfl, hin, rfl, rfl⟩ := ih h
    have hmore : '\\' :: c :: inside ∈ body quote :=
      mem_body_iff.2 (.inr (.inr ⟨c, inside, rfl, hin⟩))
    refine ⟨'\\' :: c :: inside, tail, rfl, hmore, ?_, ?_⟩
    · simp [decode]
    · simp only [List.length_cons]
      omega
  | case4 text count rest h₁ h₂ =>
    obtain ⟨rfl, rfl⟩ := Prod.mk.inj (Option.some.inj h)
    exact ⟨[], rest, rfl, nil_mem_body, rfl, by simp⟩
  | case5 text count c rest h₁ h₂ hne ih =>
    have hc := ne_backslash h₁ h₂
    obtain ⟨inside, tail, rfl, hin, rfl, rfl⟩ := ih h
    have hmore : c :: inside ∈ body quote :=
      mem_body_iff.2 (.inr (.inl ⟨c, inside, rfl, hne, hc, hin⟩))
    refine ⟨c :: inside, tail, rfl, hmore, ?_, ?_⟩
    · rw [decode.eq_2 _ _ fun _ _ he _ => hc he]
      simp
    · simp only [List.length_cons]
      omega

/-- Where no quote closes the string, all are escaped. -/
theorem shielded_of_quoted_eq_none {quote : Quote} {text rest : List Char} {count : Nat}
    (h : quoted quote.val text count rest = none) : Shielded quote.val rest := by
  have hq := quote_ne_backslash quote
  fun_induction quoted quote.val text count rest with
  | case1 => exact shielded_nil
  | case2 =>
    intro u v hw
    cases u with
    | nil => exact absurd (List.cons.inj hw).1.symm hq
    | cons d u => simp at hw
  | case3 text count c rest ih => exact (shielded_escape hq c).2 (ih h)
  | case4 => simp at h
  | case5 text count c rest h₁ h₂ hne ih =>
    exact (shielded_cons (ne_backslash h₁ h₂)).2 ⟨hne, ih h⟩

end Scriptlet.Pattern
