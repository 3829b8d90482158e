import Scriptlet.Proofs.LongestMatch

namespace Scriptlet

/-- The same column in another line. -/
def Position.mapLine (f : Nat → Nat) (p : Position) : Position :=
  ⟨f p.line, p.column⟩

def Token.mapLine (f : Nat → Nat) (t : Token) : Token :=
  ⟨t.kind, t.position.mapLine f⟩

/-- Text above a line counts for its number, and not for the columns in it. -/
theorem Position.behind_append (above before : List Char) :
    behind (above ++ '\n' :: before) = (behind before).mapLine (· + (above.count '\n' + 1)) := by
  have line : 1 + (above ++ '\n' :: before).count '\n' =
      1 + before.count '\n' + (above.count '\n' + 1) := by
    rw [List.count_append, List.count_cons_self]
    omega
  have column : (above ++ '\n' :: before).reverse.takeWhile (· ≠ '\n') =
      before.reverse.takeWhile (· ≠ '\n') := by
    rw [List.reverse_append, List.reverse_cons, List.append_assoc, List.singleton_append]
    exact Lexeme.takeWhile_append_lineFeed (by simp) _ _
  rw [behind, line, column]
  rfl

namespace Pattern

variable {first : Char} {tail rest as bs : List Char} {lexeme : Lexeme}
  {pieces pieces' : List Piece} {failure : Option ScanError.Cause}

theorem exists_takes_of_cut
    (h : Lexeme.cut first (tail ++ rest) = .ok ⟨lexeme, tail.length⟩) :
    ∃ p, Takes (first :: tail ++ rest) p (first :: tail) rest ∧
      Means p (first :: tail) (.ok lexeme) := by
  have hcut := answers_cut first (tail ++ rest)
  rw [h] at hcut
  obtain ⟨p, piece, rest', ht, hm, hlength⟩ := hcut
  obtain ⟨rfl, rfl⟩ : first :: tail = piece ∧ rest = rest' :=
    List.append_inj ht.split hlength.symm
  exact ⟨p, ht, hm⟩

/-- No piece runs across a line feed that stands behind a text cut to its end. -/
theorem Cutting.join (h : Cutting as pieces none) (h' : Cutting bs pieces' failure) :
    Cutting (as ++ '\n' :: bs) (pieces ++ ⟨['\n'], .token .newline⟩ :: pieces') failure := by
  generalize hf : none = stop at h
  induction h with
  | done =>
    have hcut : Lexeme.cut '\n' ([] ++ bs) = .ok ⟨.token .newline, 0⟩ := rfl
    obtain ⟨p, ht, hm⟩ := exists_takes_of_cut hcut
    exact .piece ht hm h'
  | @piece text word rest p lexeme pieces _ ht hm _ ih =>
    obtain ⟨first, tail, rfl, rfl⟩ := ht.exists_cons
    have hcut := Lexeme.stays_cut bs (cut_of_takes ht hm)
    rw [List.append_assoc] at hcut
    obtain ⟨q, ht', hm'⟩ := exists_takes_of_cut hcut
    have hmore := Cutting.piece ht' hm' (ih hf)
    simpa using hmore
  | fail => cases hf

end Pattern

namespace Token

open Pattern

theorem placed_append (before : List Char) (pieces pieces' : List Piece) :
    placed before (pieces ++ pieces') =
      placed before pieces ++ placed (before ++ joined pieces) pieces' := by
  induction pieces generalizing before with
  | nil => rw [joined_nil, List.append_nil, List.nil_append, placed, List.nil_append]
  | cons piece pieces ih =>
    rw [List.cons_append, placed, ih, placed, joined_cons, List.append_assoc, List.append_assoc]

/-- Pieces further down stand for the same tokens, further down. -/
theorem placed_mapLine (above before : List Char) (pieces : List Piece) :
    placed (above ++ '\n' :: before) pieces =
      (placed before pieces).map (Token.mapLine (· + (above.count '\n' + 1))) := by
  induction pieces generalizing before with
  | nil => rfl
  | cons piece pieces ih =>
    have here : (piece.lexeme.kind?.map (⟨·, .behind (above ++ '\n' :: before)⟩)).toList =
        (piece.lexeme.kind?.map (⟨·, .behind before⟩)).toList.map
          (Token.mapLine (· + (above.count '\n' + 1))) := by
      rw [Position.behind_append]
      cases piece.lexeme.kind? with
      | none => rfl
      | some kind => rfl
    rw [placed, placed, here, List.append_assoc, List.cons_append, ih, List.map_append]

/-- The tokens of two texts with a line feed between them: those of the first, a newline in place
of its end, and those of the second, further down by the lines of the first. -/
theorem scan_join {a b : String} {as bs : List Token} (ha : scan a = .ok as)
    (hb : scan b = .ok bs) :
    ∃ before last newline, as = before ++ [last] ∧ last.kind = .endOfInput ∧
      (∀ t ∈ before, t.kind ≠ .endOfInput) ∧ newline.kind = .newline ∧
      scan (a ++ "\n" ++ b) =
        .ok (before ++ newline :: bs.map (Token.mapLine (· + (a.toList.count '\n' + 1)))) := by
  obtain ⟨pieces, hcut, hjoined, rfl⟩ := exists_cutting_of_scan ha
  obtain ⟨pieces', hcut', hjoined', rfl⟩ := exists_cutting_of_scan hb
  have text : (a ++ "\n" ++ b).toList = a.toList ++ '\n' :: b.toList := by
    simp [String.toList_append]
  have hscan := scan_cutting (text.symm ▸ hcut.join hcut')
  refine ⟨placed [] pieces, _, ⟨.newline, .behind a.toList⟩, rfl, rfl, ?_, rfl, ?_⟩
  · intro t ht hend
    apply end_not_mem_kinds hcut
    rw [← map_kind_placed [] pieces, ← hend]
    exact List.mem_map_of_mem ht
  · have join : joined (pieces ++ ⟨['\n'], .token .newline⟩ :: pieces') =
        a.toList ++ '\n' :: b.toList := by
      rw [← hjoined, ← hjoined', joined_append, joined_cons, List.singleton_append]
    have below := placed_mapLine a.toList [] pieces'
    have last : Token.mk .endOfInput (.behind (a.toList ++ '\n' :: b.toList)) =
        Token.mapLine (· + (a.toList.count '\n' + 1)) ⟨.endOfInput, .behind b.toList⟩ := by
      rw [Position.behind_append]
      rfl
    rw [hscan, join, placed_append, hjoined, List.nil_append, placed, below, answer, last,
      List.map_append]
    simp [Lexeme.kind?]

end Token

end Scriptlet
