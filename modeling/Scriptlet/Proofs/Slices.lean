import Mathlib.Data.String.Basic
import Scriptlet.Text.Slice

namespace Scriptlet.Text

variable {text : String} {before piece rest : List Char}

theorem size_eq_utf8Len (text : List Char) : size text = String.utf8Len text := by
  have shift : ∀ bytes, text.foldl (fun bytes c => bytes + c.utf8Size) bytes =
      bytes + String.utf8Len text := by
    induction text with
    | nil => exact fun _ => rfl
    | cons c rest ih =>
      intro bytes
      rw [List.foldl_cons, ih, String.utf8Len_cons]
      omega
  rw [size, shift, Nat.zero_add]

@[simp]
theorem size_nil : size [] = 0 :=
  rfl

@[simp]
theorem size_cons (c : Char) (rest : List Char) : size (c :: rest) = c.utf8Size + size rest := by
  rw [size_eq_utf8Len, size_eq_utf8Len, String.utf8Len_cons, Nat.add_comm]

@[simp]
theorem size_append (before piece : List Char) :
    size (before ++ piece) = size before + size piece := by
  simp only [size_eq_utf8Len, String.utf8Len_append]

theorem utf8ByteSize_eq (text : String) : text.utf8ByteSize = size text.toList := by
  rw [size_eq_utf8Len, ← String.utf8ByteSize_ofList, String.ofList_toList]

/-- The bytes behind the front of a text stand between characters. -/
theorem isValid_size (h : text.toList = before ++ rest) :
    String.Pos.Raw.isValid text ⟨size before⟩ = true := by
  rw [String.Pos.Raw.isValid_eq_true_iff, String.Pos.Raw.isValid_iff_exists_append]
  refine ⟨String.ofList before, String.ofList rest, ?_, ?_⟩
  · rw [← String.ofList_append, ← h, String.ofList_toList]
  · rw [String.rawEndPos_ofList, size_eq_utf8Len]

theorem slice?_size (h : text.toList = before ++ piece ++ rest) :
    slice? text (size before) (size (before ++ piece)) = some (String.ofList piece) := by
  have start : String.Pos.Raw.isValid text ⟨size before⟩ = true :=
    isValid_size (h.trans (List.append_assoc ..))
  have stop : String.Pos.Raw.isValid text ⟨size (before ++ piece)⟩ = true := isValid_size h
  have order : size before ≤ size (before ++ piece) := by simp
  rw [slice?, if_pos ⟨order, start, stop⟩, ← text.ofList_toList, h, size_append]
  simp only [size_eq_utf8Len]
  rw [String.extract_of_valid]

theorem exists_last_lineFeed (h : '\n' ∈ piece) :
    ∃ front tail, piece = front ++ '\n' :: tail ∧ '\n' ∉ tail := by
  obtain ⟨tail, front, hsplit, htail⟩ := List.eq_append_cons_of_mem (List.mem_reverse.mpr h)
  refine ⟨front.reverse, tail.reverse, ?_, fun hm => htail (List.mem_reverse.mp hm)⟩
  rw [← piece.reverse_reverse, hsplit]
  simp

theorem lastLineFeedFrom_of_not_mem (h : '\n' ∉ rest) (offset : Nat) (found : Option Nat) :
    lastLineFeedFrom offset found rest = found := by
  induction rest generalizing offset found with
  | nil => rfl
  | cons c rest ih =>
    obtain ⟨hc, hrest⟩ := List.ne_and_not_mem_of_not_mem_cons h
    rw [lastLineFeedFrom, if_neg hc.symm, ih hrest]

theorem lastLineFeed?_of_not_mem (h : '\n' ∉ piece) : lastLineFeed? piece = none :=
  lastLineFeedFrom_of_not_mem h 0 none

theorem lastLineFeedFrom_append (h : '\n' ∉ rest) (offset : Nat) (found : Option Nat) :
    lastLineFeedFrom offset found (before ++ '\n' :: rest) = some (offset + size before) := by
  induction before generalizing offset found with
  | nil =>
    rw [List.nil_append, lastLineFeedFrom, if_pos rfl, lastLineFeedFrom_of_not_mem h]
    rfl
  | cons c before ih =>
    rw [List.cons_append, lastLineFeedFrom, ih, size_cons, Nat.add_assoc]

theorem lastLineFeed?_append (h : '\n' ∉ rest) :
    lastLineFeed? (before ++ '\n' :: rest) = some (size before) := by
  rw [lastLineFeed?, lastLineFeedFrom_append h, Nat.zero_add]

end Scriptlet.Text
