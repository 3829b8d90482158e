import Scriptlet.Proofs.ByteOrder
import Scriptlet.Proofs.Evaluation

namespace Scriptlet

/-- What the comparisons say of two values. All of them answer, or none does. -/
inductive Compared (line : Nat) (l r : Value) : Prop where
  | refused (h : ∀ op : Operator, op.isComparison = true →
      located line (op.apply l r) = .error ⟨.invalidOperands op l.kind r.kind, line⟩)
  | answered (answer : Operator → Bool)
      (h : ∀ op : Operator, op.isComparison = true →
        located line (op.apply l r) = .ok (some (.bool (answer op))))
      (notEqual : answer .notEqual = !answer .equal)
      (lessEqual : answer .lessEqual = (answer .less || answer .equal))
      (greaterEqual : answer .greaterEqual = (answer .greater || answer .equal))
      (exclusive : [answer .less, answer .equal, answer .greater].count true ≤ 1)

/-- The comparison is true of the two values. -/
def Operator.Holds (op : Operator) (l r : Value) : Prop :=
  op.apply l r = .ok (.bool true)

/-- The laws of a total order. -/
structure Aligned (l r u : Value) : Prop where
  /-- Exactly one of the three is true. -/
  one : ∃ op ∈ [Operator.less, .equal, .greater],
    ∀ other ∈ [Operator.less, .equal, .greater], other.Holds l r ↔ other = op
  converse : Operator.apply .less l r = Operator.apply .greater r l
  trans : Operator.Holds .less l r → Operator.Holds .less r u → Operator.Holds .less l u
  equal : Operator.Holds .equal l r ↔ l = r

namespace Operator

variable {op : Operator} {l r : Value}

theorem apply_of_isComparison (h : op.isComparison = true) (l r : Value) :
    op.apply l r = op.compared l r := by
  cases op with
  | add | sub | mul | div => cases h
  | less | greater | lessEqual | greaterEqual | equal | notEqual => rfl

/-- Which operator asks does not matter to the order of two values. -/
theorem order_cases (l r : Value) :
    (∃ o, ∀ op : Operator, op.order l r = .ok o) ∨
      ∀ op : Operator, op.order l r = op.refuse l r := by
  cases l with
  | int m =>
    cases r with
    | int n => exact .inl ⟨some (compare m n), fun _ => rfl⟩
    | float y => exact .inl ⟨Number.order (Number.nearest m) y, fun _ => rfl⟩
    | str | bool => exact .inr fun _ => rfl
  | float x =>
    cases r with
    | int n => exact .inl ⟨Number.order x (Number.nearest n), fun _ => rfl⟩
    | float y => exact .inl ⟨Number.order x y, fun _ => rfl⟩
    | str | bool => exact .inr fun _ => rfl
  | str s =>
    cases r with
    | str t => exact .inl ⟨some (compare s t), fun _ => rfl⟩
    | int | float | bool => exact .inr fun _ => rfl
  | bool p =>
    cases r with
    | bool q => exact .inl ⟨some (compare p q), fun _ => rfl⟩
    | int | float | str => exact .inr fun _ => rfl

theorem apply_of_order {o : Option Ordering} (ho : ∀ op : Operator, op.order l r = .ok o)
    (h : op.isComparison = true) : op.apply l r = .ok (.bool (op.accepts o)) := by
  rw [apply_of_isComparison h, compared, ho]
  rfl

theorem compared_all (line : Nat) (l r : Value) : Compared line l r := by
  rcases order_cases l r with ⟨o, ho⟩ | ho
  · apply Compared.answered fun op => op.accepts o
    · intro op h
      rw [apply_of_order ho h]
      rfl
    all_goals
      cases o with
      | none => decide
      | some o => cases o <;> decide
  · apply Compared.refused
    intro op h
    rw [apply_of_isComparison h, compared, ho]
    rfl

theorem holds_iff_accepts {o : Option Ordering} (ho : ∀ op : Operator, op.order l r = .ok o)
    (h : op.isComparison = true) : op.Holds l r ↔ op.accepts o = true := by
  rw [Holds, apply_of_order ho h]
  simp

/-- Of the three, the one that fits the order is true. -/
theorem holds_iff_order {o : Ordering} (ho : ∀ op : Operator, op.order l r = .ok (some o)) :
    (Holds .less l r ↔ o = .lt) ∧ (Holds .equal l r ↔ o = .eq) ∧
      (Holds .greater l r ↔ o = .gt) := by
  simp [holds_iff_accepts ho, isComparison, level, accepts]

section Line

variable {α : Type} [Ord α] [Std.TransOrd α] [Std.LawfulEqOrd α] {value : α → Value}

/-- Values that are compared as what they hold. -/
theorem aligned_of_compare (injective : ∀ {a b}, value a = value b → a = b)
    (ho : ∀ a b (op : Operator), op.order (value a) (value b) = .ok (some (compare a b)))
    (a b c : α) : Aligned (value a) (value b) (value c) := by
  obtain ⟨less, equal, greater⟩ := holds_iff_order (ho a b)
  constructor
  · cases h : compare a b with
    | lt => exact ⟨.less, by simp, by simp [less, equal, greater, h]⟩
    | eq => exact ⟨.equal, by simp, by simp [less, equal, greater, h]⟩
    | gt => exact ⟨.greater, by simp, by simp [less, equal, greater, h]⟩
  · rw [apply_of_order (ho a b) rfl, apply_of_order (ho b a) rfl, Std.OrientedOrd.eq_swap]
    cases compare b a <;> rfl
  · intro hab hbc
    rw [(holds_iff_order (ho _ _)).1] at hab hbc ⊢
    exact Std.TransCmp.lt_trans hab hbc
  · rw [equal, Std.compare_eq_iff_eq]
    constructor
    · intro h
      rw [h]
    · exact injective

theorem aligned_of_kind {l r u : Value} (h : l.kind ≠ .float) (hr : r.kind = l.kind)
    (hu : u.kind = l.kind) : Aligned l r u := by
  cases l with
  | float => exact absurd rfl h
  | int m =>
    cases r <;> cases hr
    cases u <;> cases hu
    exact aligned_of_compare Value.int.inj (fun _ _ _ => rfl) _ _ _
  | str s =>
    cases r <;> cases hr
    cases u <;> cases hu
    exact aligned_of_compare Value.str.inj (fun _ _ _ => rfl) _ _ _
  | bool p =>
    cases r <;> cases hr
    cases u <;> cases hu
    exact aligned_of_compare Value.bool.inj (fun _ _ _ => rfl) _ _ _

end Line

theorem holds_less_int (m n : Int64) : Holds .less (.int m) (.int n) ↔ m.toInt < n.toInt := by
  have hlt : compare m n = .lt ↔ m < n := compareOfLessAndEq_eq_lt
  rw [(holds_iff_order fun _ => rfl).1, hlt, Int64.lt_iff_toInt_lt]

theorem holds_less_bool (p q : Bool) : Holds .less (.bool p) (.bool q) ↔ p < q := by
  have hlt : compare p q = .lt ↔ p < q := by
    cases p <;> cases q <;> decide
  rw [(holds_iff_order fun _ => rfl).1, hlt]

theorem holds_less_str (s t : String) : Holds .less (.str s) (.str t) ↔ s < t := by
  have hlt : compare s t = .lt ↔ s < t := compareOfLessAndEq_eq_lt
  rw [(holds_iff_order fun _ => rfl).1, hlt]

/-- The comparisons are one ordering. All six answer, or all six refuse and name the operator and
both kinds; their answers fit together. Integers, texts and truth values stand in a line each, where
only the same value is equal: integers by their value, `false` before `true`, and texts by their
bytes, which is by the numbers of their characters. -/
theorem comparisons_one_ordering :
    (∀ line l r, Compared line l r) ∧
    (∀ l r u : Value, l.kind ≠ .float → r.kind = l.kind → u.kind = l.kind → Aligned l r u) ∧
    (∀ m n : Int64, Holds .less (.int m) (.int n) ↔ m.toInt < n.toInt) ∧
    (∀ p q : Bool, Holds .less (.bool p) (.bool q) ↔ p < q) ∧
    ∀ s t : String, (Holds .less (.str s) (.str t) ↔ Text.bytes s < Text.bytes t) ∧
      (Text.bytes s < Text.bytes t ↔ Text.scalars s < Text.scalars t) := by
  refine ⟨compared_all, fun l r u => aligned_of_kind, holds_less_int, holds_less_bool,
    fun s t => ⟨?_, ?_⟩⟩
  · rw [holds_less_str, Text.bytes_lt_iff]
  · rw [Text.bytes_lt_iff, Text.scalars_lt_iff]

/-- For one, of texts whose characters have one, two and four bytes. -/
theorem comparisons_one_ordering_texts :
    Aligned (.str "z") (.str "é") (.str "😀") ∧ Holds .less (.str "é") (.str "😀") := by
  obtain ⟨_, aligned, _, _, texts⟩ := comparisons_one_ordering
  refine ⟨aligned _ _ _ (by decide) rfl rfl, (texts "é" "😀").1.mpr ?_⟩
  decide

end Operator

end Scriptlet
