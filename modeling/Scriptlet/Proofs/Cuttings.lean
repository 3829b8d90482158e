import Scriptlet.Proofs.FirstPiece

namespace Scriptlet

namespace Pattern

open Lexeme

variable {text piece piece' rest rest' : List Char} {p q : Pattern}

section Unique

theorem not_mem_integer_of_float (h : piece ∈ language .float) : piece ∉ language .integer := by
  intro hinteger
  obtain ⟨whole, fraction, hsplit, _⟩ := mem_float.1 h
  have hpoint := (mem_integer.1 hinteger).2 '.' (by simp [hsplit])
  exact absurd hpoint (by decide)

theorem not_mem_unclosed_of_string {quote : Quote} (h : piece ∈ language (.string quote)) :
    piece ∉ language (.unclosed quote) := by
  intro hunclosed
  obtain ⟨inside, hin, hsplit⟩ := mem_string.1 h
  obtain ⟨inside', hin', hsplit'⟩ := mem_unclosed.1 hunclosed
  have hsame := (List.cons.inj (hsplit.symm.trans hsplit')).2
  rw [← hsame] at hin'
  exact closed_not_mem_body hin hin'

theorem Takes.exists_cons (h : Takes text p piece rest) :
    ∃ first tail, piece = first :: tail ∧ text = first :: (tail ++ rest) := by
  obtain ⟨first, tail, hcons, _⟩ := opening_of_mem h.fits
  exact ⟨first, tail, hcons, by rw [h.split, hcons, List.cons_append]⟩

theorem Takes.piece_unique (h : Takes text p piece rest) (h' : Takes text q piece' rest') :
    piece = piece' ∧ rest = rest' := by
  have hle := h.longest q piece' rest' h'.split h'.fits
  have hge := h'.longest p piece rest h.split h.fits
  apply List.append_inj (h.split.symm.trans h'.split)
  exact Nat.le_antisymm hge hle

/-- A piece is taken by one pattern, as far as its meaning goes. -/
theorem Takes.pattern_unique (h : Takes text p piece rest) (h' : Takes text q piece rest') :
    p = q ∨ ∃ f g : Fixed, p = .fixed f ∧ q = .fixed g ∧ f.kind = g.kind := by
  obtain ⟨c, tail, hpiece, hc⟩ := opening_of_mem h.fits
  obtain ⟨c', tail', hpiece', hc'⟩ := opening_of_mem h'.fits
  obtain ⟨hsame, _⟩ := List.cons.inj (hpiece.symm.trans hpiece')
  have hp := p.admits_opening
  have hq := q.admits_opening
  rw [← hc'] at hq
  rw [← hc, hsame] at hp
  have hfixed {f g : Fixed} (hf : p = .fixed f) (hg : q = .fixed g) : f.kind = g.kind := by
    subst hf hg
    have hspelling : f.spelling.toList = g.spelling.toList := h.fits.symm.trans h'.fits
    exact Fixed.kind_eq_of_spelling (String.toList_inj.1 hspelling)
  cases ho : Opening.of c' with
  | blank | hash | lineFeed =>
    rw [ho] at hp hq
    exact .inl (Eq.trans hp hq.symm)
  | digit =>
    rw [ho] at hp hq
    rcases hp with hp | hp <;> rcases hq with hq | hq <;> subst hp hq
    · exact .inl rfl
    · exact absurd h'.fits (not_mem_integer_of_float h.fits)
    · exact absurd h.fits (not_mem_integer_of_float h'.fits)
    · exact .inl rfl
  | quote c =>
    rw [ho] at hp hq
    obtain ⟨quote, hval, hp⟩ := hp
    obtain ⟨quote', hval', hq⟩ := hq
    have hquote := Subtype.ext (hval.trans hval'.symm)
    subst hquote
    rcases hp with hp | hp <;> rcases hq with hq | hq <;> subst hp hq
    · exact .inl rfl
    · exact absurd h'.fits (not_mem_unclosed_of_string h.fits)
    · exact absurd h.fits (not_mem_unclosed_of_string h'.fits)
    · exact .inl rfl
  | letter =>
    rw [ho] at hp hq
    rcases hp with hp | ⟨f, _, hp⟩ <;> rcases hq with hq | ⟨g, _, hq⟩
    · exact .inl (hp.trans hq.symm)
    · subst hq
      exact absurd h'.fits (h.reserved hp g)
    · subst hp
      exact absurd h.fits (h'.reserved hq f)
    · exact .inr ⟨f, g, hp, hq, hfixed hp hq⟩
  | symbol =>
    rw [ho] at hp hq
    obtain ⟨f, _, hp⟩ := hp
    obtain ⟨g, _, hq⟩ := hq
    exact .inr ⟨f, g, hp, hq, hfixed hp hq⟩

theorem decimal_le {n : Int64} {digits : List Char} (h : n.toInt = decimal digits) :
    ¬2 ^ 63 - 1 < decimal digits := by
  have hmax := n.toInt_le
  rw [maxValue_toInt] at hmax
  omega

theorem Means.unique {r r' : Except ScanError.Cause Lexeme} (h : Means p piece r)
    (h' : Means p piece r') : r = r' := by
  cases h with
  | @float whole fraction hw =>
    generalize hpiece : whole ++ '.' :: fraction = piece at h'
    cases h' with
    | float hw' =>
      obtain ⟨hwhole, hfraction⟩ := point_inj hw hw' hpiece
      rw [hwhole, hfraction]
  | integer hn =>
    cases h' with
    | integer hn' => rw [Int64.toInt_inj.1 (hn.trans hn'.symm)]
    | tooLarge hn' => exact absurd hn' (decimal_le hn)
  | tooLarge hn =>
    cases h' with
    | integer hn' => exact absurd hn (decimal_le hn')
    | tooLarge => rfl
  | @string quote inside =>
    generalize hpiece : quote.val :: (inside ++ [quote.val]) = piece at h'
    cases h' with
    | string =>
      have hinside := (List.cons.inj hpiece).2
      rw [List.append_cancel_right hinside]
  | unclosed | identifier | fixed | comment | blank =>
    cases h'
    rfl

theorem Takes.outcome_unique {r r' : Except ScanError.Cause Lexeme} (h : Takes text p piece rest)
    (hm : Means p piece r) (h' : Takes text q piece' rest') (hm' : Means q piece' r') :
    piece = piece' ∧ r = r' := by
  obtain ⟨hpiece, _⟩ := h.piece_unique h'
  subst hpiece
  refine ⟨rfl, ?_⟩
  rcases h.pattern_unique h' with hp | ⟨f, g, hf, hg, hkind⟩
  · subst hp
    exact hm.unique hm'
  · subst hf hg
    cases hm
    cases hm'
    rw [hkind]

variable {lexeme : Lexeme} {cause cause' : ScanError.Cause}

/-- Where the patterns fail, none takes a piece that means something. -/
theorem Fails.refuses (hf : Fails text cause) (h : Takes text p piece rest) :
    ¬Means p piece (.ok lexeme) := by
  intro hm
  cases hf with
  | refused h' hm' =>
    have hresult := (h.outcome_unique hm h' hm').2
    cases hresult
  | nothing hnone => exact hnone p piece rest h.split h.fits

theorem Fails.unique (h : Fails text cause) (h' : Fails text cause') : cause = cause' := by
  cases h with
  | refused h hm =>
    cases h' with
    | refused h' hm' => exact Except.error.inj (h.outcome_unique hm h' hm').2
    | nothing hnone => exact absurd h.fits (hnone _ _ _ h.split)
  | nothing hnone =>
    cases h' with
    | refused h' hm' => exact absurd h'.fits (hnone _ _ _ h'.split)
    | nothing => rfl

theorem Fails.exists_cons (h : Fails text cause) : ∃ first rest, text = first :: rest := by
  cases h with
  | refused h _ =>
    obtain ⟨first, tail, _, hcons⟩ := h.exists_cons
    exact ⟨first, _, hcons⟩
  | nothing => exact ⟨_, _, rfl⟩

end Unique

section Cut

variable {first : Char} {lexeme : Lexeme} {cause : ScanError.Cause}

theorem cut_of_takes {tail : List Char} (h : Takes (first :: rest) p (first :: tail) rest')
    (hm : Means p (first :: tail) (.ok lexeme)) :
    cut first rest = .ok ⟨lexeme, tail.length⟩ := by
  have hcut := answers_cut first rest
  cases hc : cut first rest with
  | ok c =>
    rw [hc] at hcut
    obtain ⟨q, piece, _, h', hm', hlen⟩ := hcut
    obtain ⟨hpiece, hlexeme⟩ := h.outcome_unique hm h' hm'
    rw [← hpiece] at hlen
    rw [Except.ok.inj hlexeme, Nat.succ.inj hlen]
  | error cause =>
    rw [hc] at hcut
    exact absurd hm (Fails.refuses hcut h)

theorem cut_of_fails (h : Fails (first :: rest) cause) : cut first rest = .error cause := by
  have hcut := answers_cut first rest
  cases hc : cut first rest with
  | ok c =>
    rw [hc] at hcut
    obtain ⟨q, piece, _, h', hm', _⟩ := hcut
    exact absurd hm' (h.refuses h')
  | error cause' =>
    rw [hc] at hcut
    rw [h.unique hcut]

end Cut

section Cuttings

variable {pieces pieces' : List Piece} {failure failure' : Option ScanError.Cause}

theorem exists_cutting (text : List Char) : ∃ pieces failure, Cutting text pieces failure := by
  induction hn : text.length using Nat.strongRecOn generalizing text with
  | ind n ih =>
    cases text with
    | nil => exact ⟨[], none, .done⟩
    | cons first rest =>
      have hcut := answers_cut first rest
      cases hc : cut first rest with
      | ok c =>
        rw [hc] at hcut
        obtain ⟨p, piece, rest', h, hm, hlen⟩ := hcut
        have hshort : rest'.length < n := by
          rw [← hn, h.split, List.length_append]
          omega
        obtain ⟨pieces, failure, hmore⟩ := ih rest'.length hshort rest' rfl
        exact ⟨_, failure, .piece h hm hmore⟩
      | error cause =>
        rw [hc] at hcut
        exact ⟨[], some cause, .fail hcut⟩

theorem Cutting.unique (h : Cutting text pieces failure) (h' : Cutting text pieces' failure') :
    pieces = pieces' ∧ failure = failure' := by
  induction h generalizing pieces' with
  | done =>
    cases h' with
    | done => exact ⟨rfl, rfl⟩
    | piece h' =>
      obtain ⟨_, _, _, hcons⟩ := h'.exists_cons
      cases hcons
    | fail h' =>
      obtain ⟨_, _, hcons⟩ := h'.exists_cons
      cases hcons
  | piece h hm more ih =>
    cases h' with
    | done =>
      obtain ⟨_, _, _, hcons⟩ := h.exists_cons
      cases hcons
    | piece h' hm' more' =>
      obtain ⟨hpiece, hresult⟩ := h.outcome_unique hm h' hm'
      obtain ⟨_, hrest⟩ := h.piece_unique h'
      subst hpiece hrest
      obtain ⟨hpieces, hfailure⟩ := ih more'
      rw [Except.ok.inj hresult, hpieces]
      exact ⟨rfl, hfailure⟩
    | fail h' => exact absurd hm (h'.refuses h)
  | fail h =>
    cases h' with
    | done =>
      obtain ⟨_, _, hcons⟩ := h.exists_cons
      cases hcons
    | piece h' hm' => exact absurd hm' (h.refuses h')
    | fail h' => exact ⟨rfl, by rw [h.unique h']⟩

/-- The text that pieces are cut from. -/
def joined (pieces : List Piece) : List Char :=
  pieces.flatMap Piece.text

@[simp]
theorem joined_nil : joined [] = [] :=
  rfl

@[simp]
theorem joined_cons (piece : Piece) (pieces : List Piece) :
    joined (piece :: pieces) = piece.text ++ joined pieces :=
  List.flatMap_cons

@[simp]
theorem joined_append (pieces pieces' : List Piece) :
    joined (pieces ++ pieces') = joined pieces ++ joined pieces' :=
  List.flatMap_append

/-- What is left of a text behind its pieces. -/
def Leaves (rest : List Char) : Option ScanError.Cause → Prop
  | none => rest = []
  | some cause => Fails rest cause

theorem Cutting.split (h : Cutting text pieces failure) :
    ∃ rest, text = joined pieces ++ rest ∧ Leaves rest failure := by
  induction h with
  | done => exact ⟨[], rfl, rfl⟩
  | piece h _ _ ih =>
    obtain ⟨rest, hrest, hend⟩ := ih
    refine ⟨rest, ?_, hend⟩
    rw [h.split, hrest, joined_cons, List.append_assoc]
  | fail h => exact ⟨_, rfl, h⟩

theorem Cutting.joined_eq (h : Cutting text pieces none) : joined pieces = text := by
  obtain ⟨rest, hsplit, hleaves⟩ := h.split
  have hrest : rest = [] := hleaves
  rw [hsplit, hrest, List.append_nil]

end Cuttings

end Pattern

end Scriptlet
