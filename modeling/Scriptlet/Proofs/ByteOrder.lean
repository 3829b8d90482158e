namespace Scriptlet.Text

/-- The bytes of a text in UTF-8. -/
def bytes (text : String) : List UInt8 :=
  text.toUTF8.data.toList

/-- The numbers of its characters. -/
def scalars (text : String) : List Nat :=
  text.toList.map Char.toNat

theorem bytes_eq (text : String) : bytes text = text.toList.flatMap String.utf8EncodeChar := by
  have h : text.toUTF8 = text.toList.utf8Encode := by
    rw [← String.toByteArray_ofList, String.ofList_toList]
    rfl
  rw [bytes, h, List.utf8Encode, List.data_toByteArray]

/-- The first list is less than the second one at the first place where they differ, which is inside
both of them. -/
inductive Before : List UInt8 → List UInt8 → Prop where
  | here {x y : UInt8} {us vs : List UInt8} (h : x < y) : Before (x :: us) (y :: vs)
  | behind {x : UInt8} {us vs : List UInt8} (h : Before us vs) : Before (x :: us) (x :: vs)

/-- So it stays whatever follows on them. -/
theorem Before.append {us vs : List UInt8} (h : Before us vs) (us' vs' : List UInt8) :
    us ++ us' < vs ++ vs' := by
  induction h with
  | here h => exact List.cons_lt_cons_iff.mpr (.inl h)
  | behind _ ih => exact List.cons_lt_cons_iff.mpr (.inr ⟨rfl, ih⟩)

/-- A byte that is not greater leaves it to the bytes behind it only if it is the same. -/
theorem Before.byte {a b : Nat} {us vs : List UInt8} (hb : b < 256) (h : a ≤ b)
    (rest : a = b → Before us vs) : Before (.ofNat a :: us) (.ofNat b :: vs) := by
  by_cases he : a = b
  · have hrest := rest he
    subst he
    exact .behind hrest
  · have hlt : a < b := Nat.lt_of_le_of_ne h he
    apply Before.here
    rw [UInt8.lt_iff_toNat_lt, UInt8.toNat_ofNat_of_lt' hb,
      UInt8.toNat_ofNat_of_lt' (Nat.lt_trans hlt hb)]
    exact hlt

/-- A byte that is less decides by itself. -/
theorem Before.first {a b : Nat} (us vs : List UInt8) (hb : b < 256) (h : a < b) :
    Before (.ofNat a :: us) (.ofNat b :: vs) :=
  .byte hb (Nat.le_of_lt h) fun he => absurd he (Nat.ne_of_lt h)

theorem toNat_lt (c : Char) : c.val.toNat < 0x110000 := by
  have h := c.valid
  simp only [UInt32.isValidChar, Nat.isValidChar] at h
  omega

/-- More bytes have a greater byte in front. Of characters with as many bytes, the bytes are the
digits of their numbers. -/
theorem before_utf8EncodeChar {c d : Char} (h : c < d) :
    Before (String.utf8EncodeChar c) (String.utf8EncodeChar d) := by
  have hlt : c.val.toNat < d.val.toNat := h
  have hc := toNat_lt c
  have hd := toNat_lt d
  unfold String.utf8EncodeChar
  generalize c.val.toNat = v at hlt hc
  generalize d.val.toNat = w at hlt hd
  dsimp only
  by_cases h₁ : w ≤ 127
  · rw [if_pos h₁, if_pos (Nat.le_trans (Nat.le_of_lt hlt) h₁)]
    exact .first _ _ (by omega) hlt
  · rw [if_neg h₁]
    by_cases h₂ : w ≤ 2047
    · rw [if_pos h₂]
      split
      · exact .first _ _ (by omega) (by omega)
      · rw [if_pos (by omega)]
        exact .byte (by omega) (by omega) fun _ => .first _ _ (by omega) (by omega)
    · rw [if_neg h₂]
      by_cases h₃ : w ≤ 65535
      · rw [if_pos h₃]
        split
        · exact .first _ _ (by omega) (by omega)
        · split
          · exact .first _ _ (by omega) (by omega)
          · rw [if_pos (by omega)]
            exact .byte (by omega) (by omega) fun _ => .byte (by omega) (by omega) fun _ =>
              .first _ _ (by omega) (by omega)
      · rw [if_neg h₃]
        split
        · exact .first _ _ (by omega) (by omega)
        · split
          · exact .first _ _ (by omega) (by omega)
          · split
            · exact .first _ _ (by omega) (by omega)
            · exact .byte (by omega) (by omega) fun _ => .byte (by omega) (by omega) fun _ =>
                .byte (by omega) (by omega) fun _ => .first _ _ (by omega) (by omega)

theorem flatMap_utf8EncodeChar_lt {cs ds : List Char} (h : cs < ds) :
    cs.flatMap String.utf8EncodeChar < ds.flatMap String.utf8EncodeChar := by
  induction h with
  | @nil d ds =>
    obtain ⟨b, more, hb⟩ : ∃ b more, String.utf8EncodeChar d = b :: more :=
      List.exists_cons_of_ne_nil (by simp)
    rw [List.flatMap_cons, hb]
    exact List.nil_lt_cons b _
  | rel h =>
    rw [List.flatMap_cons, List.flatMap_cons]
    exact (before_utf8EncodeChar h).append _ _
  | cons _ ih =>
    rw [List.flatMap_cons, List.flatMap_cons]
    exact List.append_left_lt ih

/-- A view of texts that keeps their order shows it. -/
theorem lt_iff_of_mono {β : Type} [LT β] [Std.Asymm fun x y : β => x < y]
    [Std.Irrefl fun x y : β => x < y] {view : List Char → List β}
    (mono : ∀ {cs ds}, cs < ds → view cs < view ds) (s t : String) :
    view s.toList < view t.toList ↔ s < t := by
  constructor
  · intro h
    apply Decidable.byContradiction
    intro hn
    rcases List.le_iff_lt_or_eq.mp (List.not_lt.mp hn) with hlt | heq
    · exact List.lt_asymm h (mono hlt)
    · rw [heq] at h
      exact List.lt_irrefl _ h
  · intro h
    exact mono h

theorem bytes_lt_iff (s t : String) : bytes s < bytes t ↔ s < t := by
  rw [bytes_eq, bytes_eq]
  exact lt_iff_of_mono flatMap_utf8EncodeChar_lt s t

theorem scalars_lt_iff (s t : String) : scalars s < scalars t ↔ s < t := by
  have mono {cs ds : List Char} (h : cs < ds) : cs.map Char.toNat < ds.map Char.toNat :=
    List.map_lt (fun _ _ h => h) h
  exact lt_iff_of_mono mono s t

end Scriptlet.Text
