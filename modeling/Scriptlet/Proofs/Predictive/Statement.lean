import Scriptlet.Proofs.ParseJoin
import Scriptlet.Proofs.Predictive.Expression

namespace Scriptlet

theorem Grammar.Body.newlines {G : List Token → Token → Stmt → Prop} {closing : Token.Kind}
    {newlines ts : List Token} (hn : ∀ t ∈ newlines, t.kind = .newline) {body : List Stmt}
    (h : Body G closing ts body) : Body G closing (newlines ++ ts) body := by
  induction newlines with
  | nil => exact h
  | cons t newlines ih =>
    exact .newline (hn t List.mem_cons_self) (ih fun u hu => hn u (List.mem_cons_of_mem t hu))

namespace Parser

open Grammar

section Newlines

variable {newlines more z y : List Token} {t : Token}

/-- The tokens show one that is not a newline. An `if` without an `else` is known to be complete
only then. -/
def Telling (z : List Token) : Prop :=
  ∃ t ∈ z, t.kind ≠ .newline

theorem Telling.ne_nil (h : Telling z) : z ≠ [] := by
  obtain ⟨t, ht, _⟩ := h
  exact List.ne_nil_of_mem ht

theorem clean_newlines (hn : ∀ t ∈ newlines, t.kind = .newline) : Clean newlines := by
  intro t ht
  simp [hn t ht]

theorem Ended.exists_newlines {tokens : List Token} (h : Ended tokens) :
    ∃ newlines t more, tokens = newlines ++ t :: more ∧ (∀ u ∈ newlines, u.kind = .newline) ∧
      t.kind ≠ .newline := by
  obtain ⟨newlines, htokens, hn⟩ := Parser.exists_newlines tokens
  rw [htokens] at h
  obtain ⟨t, more, hd⟩ := (h.behind (clean_newlines hn)).exists_cons
  refine ⟨newlines, t, more, by rw [← hd]; exact htokens, hn, ?_⟩
  intro ht
  have hhead := List.head?_dropWhile_not (fun u : Token => u.kind = .newline) tokens
  rw [show tokens.dropWhile _ = t :: more from hd] at hhead
  simp [ht] at hhead

theorem Telling.of_append (hn : ∀ u ∈ newlines, u.kind = .newline)
    (h : newlines ++ t :: more = z ++ y) (hz : Telling z) : ∃ z', z = newlines ++ t :: z' := by
  obtain ⟨u, hu, hk⟩ := hz
  rcases List.append_eq_append_iff.mp h with ⟨vs, rfl, hvs⟩ | ⟨vs, rfl, _⟩
  · cases vs with
    | nil =>
      rw [List.append_nil] at hu
      exact absurd (hn u hu) hk
    | cons v vs =>
      obtain ⟨rfl, _⟩ := List.cons.inj hvs
      exact ⟨vs, rfl⟩
  · exact absurd (hn u (List.mem_append_left _ hu)) hk

end Newlines

/-- A statement, wherever the line, the block or the text ends behind it. -/
def Stated (ts : List Token) (s : Stmt) : Prop :=
  ∀ next : Token, endsReturn next.kind = true → Statement ts next s

section Simple

variable {ι α : Type} {cap : ι → Nat} {Shown : List Token → Prop} {bound m : Nat} {t : Token}
  {more : List Token}

theorem parse_expect_bind {kind : Token.Kind} (ht : t.kind = kind) (q : Token → Parser α) :
    (expect kind >>= q).parse (t :: more) = (q t).parse more := by
  simp [expect, parse_bind, ht]

/-- A phrase that starts with a token of a given kind. The token counts as room for the rest. -/
theorem Predictive.headed {kind : Token.Kind} (ht : t.kind = kind) (hkind : kind ≠ .endOfInput)
    {q : Token → Parser α} {copy : ι → Token → Parser α} {H : List Token → α → Prop}
    (hq : Predictive cap Shown m (q t) (fun j => copy j t) (fun us a => H ([t] ++ us) a))
    (hend : Ended (t :: more)) (hm : more.length ≤ m) :
    Settled (fun j => cap j + 1) Shown (fun j => expect kind >>= copy j) H (t :: more)
      ((expect kind >>= q).parse (t :: more)) := by
  have hfront : Clean [t] := by
    rw [← ht] at hkind
    simp [hkind]
  rw [parse_expect_bind ht]
  exact .behind hfront (fun j _ => ⟨j, Nat.le_refl _, fun us => parse_expect_bind ht _⟩)
    (hq.settled (Ended.behind hend hfront) hm)

theorem settled_declaration (hw : t.kind = .keyword .letWord) (hend : Ended (t :: more))
    (hm : more.length ≤ bound) :
    Settled (fun n => n + 1) Next (fun n => declaration n) Stated (t :: more)
      ((declaration bound).parse (t :: more)) := by
  unfold declaration
  simp only [discard_bind]
  refine Predictive.headed hw (by simp) ?_ hend hm
  refine .bind id (predictive_flag _) sound_flag fun hmut => ?_
  refine .bind id predictive_name sound_name ?_
  rintro _ name ⟨u, rfl, hn⟩
  refine .bind id (predictive_typeBehind _) sound_typeBehind fun htype => ?_
  refine .bind id (predictive_expect (by simp)) sound_expect ?_
  rintro _ assign ⟨rfl, ha⟩
  refine predictive_expression.map _ fun he => ?_
  intro next _
  exact .mk (.declaration hw hmut hn htype ha he)

theorem settled_print (hw : t.kind = .keyword .printWord) (hend : Ended (t :: more))
    (hm : more.length ≤ bound) :
    Settled (fun n => n + 1) Next (fun n => print n) Stated (t :: more)
      ((print bound).parse (t :: more)) := by
  unfold print
  simp only [discard_bind]
  refine Predictive.headed hw (by simp) ?_ hend hm
  refine .bind id (predictive_expect (by simp)) sound_expect ?_
  rintro _ left ⟨rfl, hl⟩
  refine .bind id predictive_expression sound_expression fun {ts e} he => ?_
  refine (predictive_expect (by simp)).map (fun _ => Stmt.print e t.line) ?_
  rintro _ right ⟨rfl, hr⟩ next _
  exact .mk (.print hw hl he hr)

theorem parse_leaveBehind (line : Nat) :
    (leaveBehind bound line).parse (t :: more) =
      if endsReturn t.kind then (.ok (.leave none line), t :: more)
      else (expression bound >>= fun e => pure (Stmt.leave (some e) line)).parse (t :: more) := by
  simp only [leaveBehind, parse_bind (t :: more) peek, parse_peek]
  split <;> rfl

theorem settled_leave (hw : t.kind = .keyword .returnWord) (hend : Ended (t :: more))
    (hm : more.length ≤ bound) :
    Settled (fun n => n + 1) Next (fun n => leave n) Stated (t :: more)
      ((leave bound).parse (t :: more)) := by
  simp only [leave_eq]
  refine Predictive.headed hw (by simp) ⟨?_, ?_⟩ hend hm
  · exact ⟨[], _, fun _ hnext => .mk (.leave hw hnext)⟩
  intro tokens hend hm
  obtain ⟨u, us, rfl⟩ := hend.exists_cons
  rw [parse_leaveBehind]
  split
  · next hu => exact .peek clean_nil fun _ vs _ => (parse_leaveBehind _).trans (if_pos hu)
  · next hu =>
    have hvalue : Predictive id Next bound
        (expression bound >>= fun e => pure (Stmt.leave (some e) t.line))
        (fun n => expression n >>= fun e => pure (Stmt.leave (some e) t.line))
        (fun us s => Stated ([t] ++ us) s) :=
      predictive_expression.map _ fun he _ _ => .mk (.leaveValue hw he)
    refine .led id (fun n _ => ⟨n, Nat.le_refl _, fun vs => ?_⟩) (hvalue.settled hend hm)
    rw [parse_leaveBehind, if_neg hu]
    exact .refl _

end Simple

section Bodies

variable {κ : Type} {cap : κ → Nat} {m bound : Nat} {p : Parser Stmt} {copy : κ → Parser Stmt}
  {closing : Token.Kind} {tokens ts mid : List Token} {s : Stmt}

/-- A statement and all newlines behind it. -/
def line (statement : Parser Stmt) : Parser Stmt := do
  let s ← statement
  skipNewlines
  return s

theorem parse_line :
    (line p).parse tokens =
      match p.parse tokens with
      | (.ok s, rest) => (.ok s, dropNewlines rest)
      | (.error e, rest) => (.error e, rest) := by
  simp only [line, parse_bind]
  split <;> simp_all [skipNewlines]

/-- Behind all the newlines one more token is enough to see. -/
theorem Settled.line {G : List Token → Stmt → Prop} (hend : Ended tokens)
    (h : Settled cap Telling copy G tokens (p.parse tokens)) :
    Settled cap Next (fun k => line (copy k)) G tokens ((line p).parse tokens) := by
  rw [parse_line]
  generalize p.parse tokens = outcome at h
  cases h with
  | fail found viable copies =>
    refine .fail found viable fun k us hk => ?_
    obtain ⟨rest, hfail⟩ := copies k us hk
    exact ⟨rest, by rw [parse_line, hfail]⟩
  | @read ts rest s clean copies =>
    obtain ⟨newlines, t, more, rfl, hn, ht⟩ := (hend.behind clean).exists_newlines
    have hdrop (us : List Token) : dropNewlines (newlines ++ t :: us) = t :: us := by
      rw [dropNewlines_append hn, dropNewlines_cons ht]
    dsimp only
    rw [hdrop, ← List.append_assoc]
    refine .read (clean_append.mpr ⟨clean, clean_newlines hn⟩) ?_
    intro k z y y' hz hs hk
    obtain ⟨u, z, rfl⟩ := List.exists_cons_of_ne_nil hs
    obtain ⟨rfl, rfl⟩ := List.cons.inj hz
    rw [List.length_append] at hk
    have htelling : Telling (newlines ++ t :: z) := ⟨t, by simp, ht⟩
    have hread : (copy k).parse (ts ++ (newlines ++ t :: (z ++ y'))) =
        (.ok s, newlines ++ t :: (z ++ y')) := by
      simpa [Reads] using copies k (newlines ++ t :: z) y y' (by simp) htelling (by omega)
    unfold Reads
    rw [parse_line, List.append_assoc, List.cons_append, hread]
    simp [hdrop]

theorem SoundLine.line (sound : SoundLine p Statement) (h : (line p).Reads (ts ++ mid) s mid) :
    ∃ vs newlines, ts = vs ++ newlines ∧ (∀ t ∈ newlines, t.kind = .newline) ∧
      ∀ next more, newlines ++ mid = next :: more → Statement vs next s := by
  simp only [Parser.line, reads_bind, reads_pure, skipNewlines, reads_modify] at h
  obtain ⟨s, rest, hread, _, _, hrest, rfl, rfl⟩ := h
  obtain ⟨vs, after, htokens, hstatement, hafter⟩ := sound hread
  obtain ⟨newlines, hnewlines, hn⟩ := exists_newlines rest
  rw [hrest] at hnewlines
  rcases hafter with rfl | ⟨t, ht, rfl⟩
  · refine ⟨vs, newlines, ?_, hn, ?_⟩
    · rw [hnewlines, ← List.append_assoc] at htokens
      exact List.append_cancel_right htokens
    · rw [← hnewlines]
      exact hstatement
  · refine ⟨vs, t :: newlines, ?_, ?_, ?_⟩
    · rw [hnewlines, ← List.cons_append, ← List.append_assoc] at htokens
      exact List.append_cancel_right htokens
    · simpa [ht] using hn
    · rw [List.cons_append, ← hnewlines]
      exact hstatement

theorem SoundLine.length_pos (sound : SoundLine p Statement) (hmid : mid ≠ [])
    (h : (Parser.line p).Reads (ts ++ mid) s mid) : 0 < ts.length := by
  obtain ⟨vs, newlines, rfl, _, hstatement⟩ := sound.line h
  have hafter : newlines ++ mid ≠ [] := by simp [hmid]
  obtain ⟨next, after, hnext⟩ := List.exists_cons_of_ne_nil hafter
  obtain ⟨t, us, rfl, _⟩ := statement_begins (hstatement next after hnext)
  simp

/-- What begins a body also begins one behind a statement that was read in front of it. -/
theorem SoundLine.viable (hclosing : endsReturn closing = true) (sound : SoundLine p Statement)
    (hmid : mid ≠ []) (h : (Parser.line p).Reads (ts ++ mid) s mid) {pre post us : List Token}
    {body : List Stmt} (hpre : mid = pre ++ post)
    (hbody : Body Statement closing (pre ++ us) body) :
    ∃ vs body, Body Statement closing (ts ++ (pre ++ vs)) body := by
  obtain ⟨vs, newlines, rfl, hn, hstatement⟩ := sound.line h
  cases hfront : newlines ++ pre with
  | nil =>
    obtain ⟨rfl, rfl⟩ := List.append_eq_nil_iff.mp hfront
    obtain ⟨next, more, rfl⟩ := List.exists_cons_of_ne_nil hmid
    have hhead : Statement vs ⟨closing, {}⟩ s := (hstatement next more rfl).follow hclosing
    exact ⟨[⟨closing, {}⟩], [s], by simpa using .statement hhead (.close rfl)⟩
  | cons next front =>
    have hrest : Body Statement closing (next :: (front ++ us)) body := by
      rw [← List.cons_append, ← hfront, List.append_assoc]
      exact hbody.newlines hn
    have hhead : Statement vs next s := by
      refine hstatement next (front ++ post) ?_
      rw [hpre, ← List.append_assoc, hfront, List.cons_append]
    refine ⟨us, s :: body, ?_⟩
    have htokens : vs ++ newlines ++ (pre ++ us) = vs ++ next :: (front ++ us) := by
      rw [List.append_assoc, ← List.append_assoc newlines, hfront, List.cons_append]
    rw [htokens]
    exact .statement hhead hrest

/-- For a loop that skips newlines it does not matter whether they are skipped before. -/
theorem sameResult_line {q : Stmt → Parser (List Stmt)}
    (hq : ∀ s rest, SameResult ((q s).parse rest) ((q s).parse (dropNewlines rest)))
    (tokens : List Token) :
    SameResult ((p >>= q).parse tokens) ((Parser.line p >>= q).parse tokens) := by
  rw [parse_bind, parse_bind, parse_line]
  rcases p.parse tokens with ⟨e | s, rest⟩
  · exact .refl _
  · exact hq s rest

/-- One round of a loop over statements that skips the newlines in front of each of them. -/
theorem Settled.round (hclosing : endsReturn closing = true) (room : κ → Nat)
    {next : Stmt → Parser (List Stmt)} {copy' : κ → Stmt → Parser (List Stmt)}
    (hp : Predictive cap Telling m p copy Stated) (sound : SoundLine p Statement)
    (hskip : ∀ s rest, SameResult ((next s).parse rest) ((next s).parse (dropNewlines rest)))
    (hskip' : ∀ k s rest,
      SameResult ((copy' k s).parse rest) ((copy' k s).parse (dropNewlines rest)))
    (hroom : ∀ k, cap k ≤ room k + 1) {t : Token} {more : List Token} (hend : Ended (t :: more))
    (hm : more.length < m)
    (hnext : ∀ s {mid}, Ended mid → mid.length ≤ more.length →
      Settled room Next (fun k => copy' k s) (Body Statement closing) mid ((next s).parse mid)) :
    Settled cap Next (fun k => copy k >>= copy' k) (Body Statement closing) (t :: more)
      ((p >>= next).parse (t :: more)) := by
  have hround : Settled cap Next (fun k => Parser.line (copy k) >>= copy' k)
      (Body Statement closing) (t :: more) ((Parser.line p >>= next).parse (t :: more)) := by
    refine .bind id (.line hend (hp.settled hend hm)) ?_ ?_
    · intro ts s hs
      have hhead : Statement ts ⟨closing, {}⟩ s := hs _ hclosing
      exact ⟨[⟨closing, {}⟩], [s], .statement hhead (.close rfl)⟩
    · intro ts s mid htokens hclean hread
      rw [htokens] at hend hread
      have hmid : Ended mid := hend.behind hclean
      obtain ⟨u, rest, hcons⟩ := hmid.exists_cons
      have hne : mid ≠ [] := by simp [hcons]
      have hts : 0 < ts.length := sound.length_pos hne hread
      have hlength : more.length + 1 = ts.length + mid.length := by
        simpa using congrArg List.length htokens
      refine ⟨room, fun k => ?_, (hnext s hmid (by omega)).mono ?_⟩
      · have hk := hroom k
        omega
      · exact fun hpre hbody => sound.viable hclosing hne hread hpre hbody
  refine .ofSame (sameResult_line hskip _)
    (.led id (fun k _ => ⟨k, Nat.le_refl _, fun us => ?_⟩) hround)
  exact sameResult_line (hskip' k) _

theorem Settled.newlines {newlines more : List Token}
    {outcome : Except ParseError (List Stmt) × List Token}
    {loop : κ → Parser (List Stmt)} (hn : ∀ t ∈ newlines, t.kind = .newline)
    (hskip : ∀ k, 0 < cap k → ∀ us, (loop k).parse (newlines ++ us) = (loop k).parse us)
    (h : Settled cap Next loop (Body Statement closing) more outcome) :
    Settled cap Next loop (Body Statement closing) (newlines ++ more) outcome := by
  have hbody : Settled cap Next loop (fun us body => Body Statement closing (newlines ++ us) body)
      more outcome := h.mono fun _ hbody => ⟨_, _, hbody.newlines hn⟩
  exact .behind (clean_newlines hn)
    (fun k hk => ⟨k, Nat.le_add_right _ _, hskip k (Nat.zero_lt_of_lt hk)⟩) hbody

end Bodies

section Loops

variable {κ : Type} {cap : κ → Nat} {m bound : Nat} {p : Parser Stmt} {copy : κ → Parser Stmt}
  {t : Token} {newlines more tokens : List Token} {found : List Stmt}

theorem dropNewlines_idem : dropNewlines (dropNewlines tokens) = dropNewlines tokens := by
  induction tokens with
  | nil => rfl
  | cons t tokens ih =>
    by_cases ht : t.kind = .newline
    · rw [dropNewlines_newline ht, ih]
    · rw [dropNewlines_cons ht, dropNewlines_cons ht]

theorem sameResult_statementsUntilBrace (tokens : List Token) :
    SameResult ((statementsUntilBrace p bound found).parse tokens)
      ((statementsUntilBrace p bound found).parse (dropNewlines tokens)) := by
  cases bound with
  | zero => exact .inr ⟨_, rfl, rfl⟩
  | succ bound =>
    simp only [statementsUntilBrace, skipNewlines, parse_bind, parse_modify, dropNewlines_idem]
    exact .refl _

theorem parse_statementsUntilBrace_newlines (hn : ∀ t ∈ newlines, t.kind = .newline) :
    (statementsUntilBrace p (bound + 1) found).parse (newlines ++ tokens) =
      (statementsUntilBrace p (bound + 1) found).parse tokens := by
  simp only [statementsUntilBrace, skipNewlines, parse_bind, parse_modify, dropNewlines_append hn]

theorem parse_statementsUntilBrace_cons (ht : t.kind ≠ .newline) :
    (statementsUntilBrace p (bound + 1) found).parse (t :: more) =
      if t.kind = .mark .closeBrace then (.ok found.reverse, more)
      else if t.kind = .endOfInput then
        (.error (.unexpectedToken (.token (.mark .closeBrace)) t), t :: more)
      else (p >>= fun s => statementsUntilBrace p bound (s :: found)).parse (t :: more) := by
  simp only [statementsUntilBrace, skipNewlines, parse_bind, parse_modify, dropNewlines_cons ht,
    parse_peek, discard_bind]
  split
  · rfl
  · split
    · rfl
    · exact parse_bind ..

theorem Predictive.statementsUntilBrace (hp : Predictive cap Telling m p copy Stated)
    (sound : SoundLine p Statement) (hb : bound ≤ m) (found : List Stmt) :
    Predictive (fun k : κ × Nat => min (cap k.1) k.2) Next bound
      (statementsUntilBrace p bound found) (fun k => statementsUntilBrace (copy k.1) k.2 found)
      (Body Statement (.mark .closeBrace)) := by
  have viable : ∃ ts body, Body Statement (.mark .closeBrace) ts body :=
    ⟨[⟨.mark .closeBrace, {}⟩], [], .close rfl⟩
  refine ⟨viable, ?_⟩
  induction bound generalizing found with
  | zero =>
    intro tokens hend hm
    obtain ⟨t, more, rfl⟩ := hend.exists_cons
    simp at hm
  | succ bound ih =>
    intro tokens hend hm
    obtain ⟨newlines, t, more, rfl, hn, ht⟩ := hend.exists_newlines
    have hend : Ended (t :: more) := hend.behind (clean_newlines hn)
    simp only [List.length_append, List.length_cons] at hm
    rw [parse_statementsUntilBrace_newlines hn]
    refine .ofSuccBound (.newlines hn (fun k _ us => parse_statementsUntilBrace_newlines hn) ?_)
    rw [parse_statementsUntilBrace_cons ht]
    split
    · next hk =>
      exact .take (by simp [hk]) fun _ us _ =>
        (parse_statementsUntilBrace_cons ht).trans (if_pos hk)
    · next hk =>
      split
      · next he =>
        exact .refuse rfl viable fun k us _ =>
          ⟨_, (parse_statementsUntilBrace_cons ht).trans ((if_neg hk).trans (if_pos he))⟩
      · next he =>
        have hround : Settled (fun k : κ × Nat => min (cap k.1) (k.2 + 1)) Next
            (fun k => copy k.1 >>= fun s =>
              Parser.statementsUntilBrace (copy k.1) k.2 (s :: found))
            (Body Statement (.mark .closeBrace)) (t :: more)
            ((p >>= fun s => Parser.statementsUntilBrace p bound (s :: found)).parse
              (t :: more)) := by
          refine .round rfl (fun k => min (cap k.1) k.2)
            (hp.weaken Prod.fst hb fun k => Nat.min_le_left _ _) sound
            (fun s => sameResult_statementsUntilBrace) (fun k s => sameResult_statementsUntilBrace)
            (fun k => by omega) hend (by omega) fun s {mid} hmid hlen => ?_
          exact ih (by omega) (s :: found) hmid (by omega)
        refine .led id (fun k _ => ⟨k, Nat.le_refl _, fun us => ?_⟩) hround
        rw [parse_statementsUntilBrace_cons ht, if_neg hk, if_neg he]
        exact .refl _

theorem parse_alternativeOf {newlines : List Token} (hn : ∀ u ∈ newlines, u.kind = .newline)
    (ht : t.kind ≠ .newline) :
    (alternativeOf p bound).parse (newlines ++ t :: more) =
      if t.kind = .keyword .elseWord then
        (blockOf p bound >>= fun no => pure (some no)).parse more
      else (.ok none, newlines ++ t :: more) := by
  simp only [alternativeOf, parse_bind, parse_get, dropNewlines_append hn, dropNewlines_cons ht]
  split
  · simp only [parse_bind, parse_set]
  · rfl

end Loops

section Blocks

variable {κ : Type} {cap : κ → Nat} {m bound : Nat} {p : Parser Stmt} {copy : κ → Parser Stmt}
  {t : Token} {more : List Token} (hp : Predictive cap Telling m p copy Stated)
  (sound : SoundLine p Statement) (hb : bound ≤ m)

include hp sound hb

theorem Predictive.blockOf :
    Predictive (fun k : κ × Nat => min (cap k.1) k.2) Next bound (blockOf p bound)
      (fun k => blockOf (copy k.1) k.2) (Block Statement) := by
  unfold Parser.blockOf
  simp only [discard_bind]
  refine .bind id (predictive_expect (by simp)) sound_expect ?_
  rintro _ brace ⟨rfl, hbrace⟩
  have hloop := hp.statementsUntilBrace sound hb []
  obtain ⟨ts, body, hbody⟩ := hloop.viable
  refine ⟨⟨ts, body, .mk hbrace hbody⟩, fun hend hm => ?_⟩
  exact (hloop.settled hend hm).mono fun _ hbody => ⟨_, _, .mk hbrace hbody⟩

theorem Predictive.alternativeOf :
    Predictive (fun k : κ × Nat => min (cap k.1) k.2) Telling bound (alternativeOf p bound)
      (fun k => alternativeOf (copy k.1) k.2) (Alternative Statement) where
  viable := ⟨[], none, .absent⟩
  settled {tokens} hend hm := by
    obtain ⟨newlines, t, more, rfl, hn, ht⟩ := hend.exists_newlines
    rw [parse_alternativeOf hn ht]
    split
    · next hw =>
      have hfront : Clean (newlines ++ [t]) := by simp [clean_newlines hn, hw]
      have htokens (us : List Token) : newlines ++ t :: us = (newlines ++ [t]) ++ us := by simp
      have hblock : Predictive (fun k : κ × Nat => min (cap k.1) k.2) Next bound
          (Parser.blockOf p bound >>= fun no => Pure.pure (some no))
          (fun k => Parser.blockOf (copy k.1) k.2 >>= fun no => Pure.pure (some no))
          (fun us no => Alternative Statement ((newlines ++ [t]) ++ us) no) := by
        refine (hp.blockOf sound hb).map some fun hno => ?_
        rw [← htokens]
        exact .present hn hw hno
      rw [htokens] at hend hm ⊢
      rw [List.length_append] at hm
      refine .behind hfront (fun k _ => ⟨k, Nat.le_add_right _ _, fun us => ?_⟩)
        (.shown Telling.ne_nil (hblock.settled (hend.behind hfront) (by omega)))
      rw [← htokens]
      exact (parse_alternativeOf hn ht).trans (if_pos hw)
    · next hw =>
      have hread : Settled (fun k : κ × Nat => min (cap k.1) k.2) Telling
          (fun k => Parser.alternativeOf (copy k.1) k.2) (Alternative Statement)
          ([] ++ (newlines ++ t :: more)) (.ok none, newlines ++ t :: more) := by
        refine .read clean_nil fun k z y y' hz hs _ => ?_
        obtain ⟨z, rfl⟩ := hs.of_append hn hz
        rw [List.append_assoc, List.cons_append]
        exact (parse_alternativeOf hn ht).trans (if_neg hw)
      exact hread

omit hp sound hb in
theorem predictive_condition :
    Predictive (fun k : κ × Nat => min (cap k.1) k.2) Next bound (expression bound)
      (fun k => expression k.2) Expression :=
  predictive_expression.weaken Prod.snd (Nat.le_refl bound) fun _ => Nat.min_le_right _ _

theorem settled_branchOf (hw : t.kind = .keyword .ifWord) (hend : Ended (t :: more))
    (hm : more.length ≤ bound) :
    Settled (fun k : κ × Nat => min (cap k.1) k.2 + 1) Telling (fun k => branchOf (copy k.1) k.2)
      Stated (t :: more) ((branchOf p bound).parse (t :: more)) := by
  unfold branchOf
  refine Predictive.headed hw (by simp) ?_ hend hm
  refine .bind Telling.ne_nil predictive_condition sound_expression fun he => ?_
  refine .bind Telling.ne_nil (hp.blockOf sound hb) sound.blockOf fun hyes => ?_
  refine (hp.alternativeOf sound hb).map _ fun hno => ?_
  exact fun _ _ => .mk (StatementOver.branch hw he hyes hno :)

theorem settled_loopOf (hw : t.kind = .keyword .whileWord) (hend : Ended (t :: more))
    (hm : more.length ≤ bound) :
    Settled (fun k : κ × Nat => min (cap k.1) k.2 + 1) Next (fun k => loopOf (copy k.1) k.2) Stated
      (t :: more) ((loopOf p bound).parse (t :: more)) := by
  unfold loopOf
  refine Predictive.headed hw (by simp) ?_ hend hm
  refine .bind id predictive_condition sound_expression fun he => ?_
  refine (hp.blockOf sound hb).map _ fun hbody => ?_
  exact fun _ _ => .mk (StatementOver.loop hw he hbody :)

theorem settled_functionOf (hw : t.kind = .keyword .fnWord) (hend : Ended (t :: more))
    (hm : more.length ≤ bound) :
    Settled (fun k : κ × Nat => min (cap k.1) k.2 + 1) Next (fun k => functionOf (copy k.1) k.2)
      Stated (t :: more) ((functionOf p bound).parse (t :: more)) := by
  unfold functionOf
  simp only [discard_bind]
  refine Predictive.headed hw (by simp) ?_ hend hm
  refine .bind id predictive_name sound_name ?_
  rintro _ name ⟨u, rfl, hn⟩
  refine .bind id (predictive_expect (by simp)) sound_expect ?_
  rintro _ left ⟨rfl, hl⟩
  refine .bind id (predictive_param.parenthesized sound_parameter (Nat.le_refl bound) hl)
    (sound_parameter.parenthesized hl) fun hps => ?_
  refine .bind id (predictive_typeBehind _) sound_typeBehind fun hreturns => ?_
  refine (hp.blockOf sound hb).map _ fun hbody => ?_
  exact fun _ _ => .mk (StatementOver.function hw hn hps hreturns hbody :)

end Blocks

section Statements

variable {κ : Type} {cap : κ → Nat} {bound : Nat} {p : Parser Stmt} {copy : κ → Parser Stmt}
  {G : List Token → Stmt → Prop} {t u : Token} {tokens more : List Token} {s : String}

/-- A statement that starts with a name, by the token behind the name. -/
theorem parse_statementFrom_call (hn : t.kind = .name s) (hu : u.kind = .mark .openParen) :
    (statementFrom t p bound).parse (t :: u :: more) =
      (callBehind (primary bound) bound s t.line >>= fun e =>
        pure (Stmt.expression e t.line)).parse more := by
  have hnext : (followedBy (.mark .openParen)).parse (t :: u :: more) =
      (.ok true, t :: u :: more) := reads_followedBy.mpr ⟨by simp [hu], rfl⟩
  have hcall : (call bound).parse (t :: u :: more) =
      (callBehind (primary bound) bound s t.line).parse more := parse_callOver hn hu more
  simp only [statementFrom, hn, parse_bind, hnext, if_true, hcall]

theorem parse_statementFrom_reassignment (hn : t.kind = .name s) (hu : u.kind = .mark .assign) :
    (statementFrom t p bound).parse (t :: u :: more) =
      (expression bound >>= fun e => pure (Stmt.assign s none true e t.line)).parse more := by
  have hcall : (followedBy (.mark .openParen)).parse (t :: u :: more) =
      (.ok false, t :: u :: more) := reads_followedBy.mpr ⟨by simp [hu], rfl⟩
  have hnext : (followedBy (.mark .assign)).parse (t :: u :: more) =
      (.ok true, t :: u :: more) := reads_followedBy.mpr ⟨by simp [hu], rfl⟩
  have hparse : (reassignment bound).parse (t :: u :: more) =
      (expression bound >>= fun e => pure (Stmt.assign s none true e t.line)).parse more := by
    simp [reassignment, discard_bind, parse_bind, name, expect, hn, hu]
  rw [← hparse]
  simp only [statementFrom, hn, parse_bind, hcall, hnext, Bool.false_eq_true, if_false, if_true]

theorem parse_statementFrom_name (hn : t.kind = .name s) (hp : u.kind ≠ .mark .openParen)
    (ha : u.kind ≠ .mark .assign) :
    (statementFrom t p bound).parse (t :: u :: more) =
      (.error (.invalidStatement t), t :: u :: more) := by
  have hcall : (followedBy (.mark .openParen)).parse (t :: u :: more) =
      (.ok false, t :: u :: more) := reads_followedBy.mpr ⟨by simp [hp], rfl⟩
  have hnext : (followedBy (.mark .assign)).parse (t :: u :: more) =
      (.ok false, t :: u :: more) := reads_followedBy.mpr ⟨by simp [ha], rfl⟩
  simp [statementFrom, hn, parse_bind, hcall, hnext]

theorem exists_stated : ∃ ts s, Stated ts s :=
  ⟨[⟨.keyword .returnWord, {}⟩], _, fun _ hnext => .mk (.leave rfl hnext)⟩

theorem settled_statementFrom_name (hn : t.kind = .name s) (hend : Ended (t :: u :: more))
    (hm : more.length ≤ bound) :
    Settled (fun n => n + 1) Next (fun n => statementFrom t (statement n) n) Stated (t :: u :: more)
      ((statementFrom t (statement bound) bound).parse (t :: u :: more)) := by
  by_cases hp : u.kind = .mark .openParen
  · have hfront : Clean [t, u] := by simp [hn, hp]
    have hcall := (predictive_primary.callBehind sound_primary (Nat.le_refl bound) hn hp).map
      (fun e => Stmt.expression e t.line) (H := fun us s => Stated ([t, u] ++ us) s)
      fun he _ _ => .mk (.call he)
    rw [parse_statementFrom_call hn hp]
    exact .behind hfront (fun n _ => ⟨(n, n), by simp, fun us => parse_statementFrom_call hn hp⟩)
      (hcall.settled (Ended.behind hend hfront) hm)
  · by_cases ha : u.kind = .mark .assign
    · have hfront : Clean [t, u] := by simp [hn, ha]
      have hvalue : Predictive id Next bound _ _ (fun us s => Stated ([t, u] ++ us) s) :=
        predictive_expression.map (fun e => Stmt.assign s none true e t.line)
          fun he _ _ => .mk (.reassignment hn ha he)
      rw [parse_statementFrom_reassignment hn ha]
      exact .behind hfront
        (fun n _ => ⟨n, by simp, fun us => parse_statementFrom_reassignment hn ha⟩)
        (hvalue.settled (Ended.behind hend hfront) hm)
    · have hahead : (ParseError.invalidStatement t).lookahead = 1 := by
        obtain ⟨kind, position⟩ := t
        cases hn
        rfl
      rw [parse_statementFrom_name hn hp ha]
      refine .refuse rfl exists_stated fun n us _ => ?_
      rw [hahead]
      exact ⟨_, parse_statementFrom_name hn hp ha⟩

theorem startsStatement_cases {kind : Token.Kind} (h : startsStatement kind = true) :
    (∃ s, kind = .name s) ∨ kind = .keyword .letWord ∨ kind = .keyword .ifWord ∨
      kind = .keyword .whileWord ∨ kind = .keyword .fnWord ∨ kind = .keyword .returnWord ∨
      kind = .keyword .printWord := by
  cases kind with
  | name s => exact .inl ⟨s, rfl⟩
  | keyword word => cases word <;> simp_all [startsStatement]
  | _ => simp_all [startsStatement]

theorem parse_statementFrom_other (ht : startsStatement t.kind = false) :
    (statementFrom t p bound).parse (t :: more) = (.error (.invalidStatement t), t :: more) := by
  unfold statementFrom
  split <;> simp_all [startsStatement]

theorem settled_statementFrom
    (hp : Predictive id Telling bound (statement bound) statement Stated) (hend : Ended (t :: more))
    (hm : more.length ≤ bound) :
    Settled (fun n => n + 1) Telling (fun n => statementFrom t (statement n) n) Stated (t :: more)
      ((statementFrom t (statement bound) bound).parse (t :: more)) := by
  cases hs : startsStatement t.kind with
  | false =>
    rw [parse_statementFrom_other hs]
    exact .refuse rfl exists_stated fun n us _ => ⟨_, parse_statementFrom_other hs⟩
  | true =>
    have hle := Nat.le_refl bound
    have hdiagonal (n : Nat) : n + 1 ≤ min (id n) n + 1 := by simp
    rcases startsStatement_cases hs with ⟨s, hn⟩ | hk | hk | hk | hk | hk | hk
    · have ht : Clean [t] := by simp [hn]
      obtain ⟨u, more, rfl⟩ := (Ended.behind hend ht).exists_cons
      rw [List.length_cons] at hm
      exact .shown Telling.ne_nil (settled_statementFrom_name hn hend (by omega))
    all_goals simp only [statementFrom, hk]
    · exact .shown Telling.ne_nil (settled_declaration hk hend hm)
    · exact (settled_branchOf hp soundLine_statement hle hk hend hm).weaken (fun n => (n, n))
        hdiagonal
    · exact .shown Telling.ne_nil
        ((settled_loopOf hp soundLine_statement hle hk hend hm).weaken (fun n => (n, n)) hdiagonal)
    · exact .shown Telling.ne_nil
        ((settled_functionOf hp soundLine_statement hle hk hend hm).weaken (fun n => (n, n))
          hdiagonal)
    · exact .shown Telling.ne_nil (settled_leave hk hend hm)
    · exact .shown Telling.ne_nil (settled_print hk hend hm)

/-- A newline behind a statement belongs to it, and then more has to be seen. -/
theorem Settled.skipNewline (hend : Ended tokens)
    (h : Settled cap Telling copy G tokens (p.parse tokens)) :
    Settled cap Telling (fun k => copy k >>= fun s => skipNewline >>= fun _ => pure s) G tokens
      ((p >>= fun s => skipNewline >>= fun _ => pure s).parse tokens) := by
  rw [parse_bind]
  generalize p.parse tokens = outcome at h
  cases h with
  | fail found viable copies =>
    refine .fail found viable fun k us hk => ?_
    obtain ⟨rest, hfail⟩ := copies k us hk
    exact ⟨rest, by rw [parse_bind, hfail]⟩
  | @read ts rest s clean copies =>
    obtain ⟨u, more, rfl⟩ := (hend.behind clean).exists_cons
    have hskip (us : List Token) : Parser.skipNewline.parse (u :: us) =
        (.ok (), if u.kind = .newline then us else u :: us) := reads_skipNewline
    simp only [parse_bind, hskip, parse_pure]
    have hcopy (k : κ) (us : List Token) (h : (copy k).Reads (ts ++ u :: us) s (u :: us)) :
        (copy k >>= fun s => Parser.skipNewline >>= fun _ => pure s).Reads (ts ++ u :: us) s
          (if u.kind = .newline then us else u :: us) := by
      unfold Reads at h ⊢
      simp only [parse_bind, h, hskip, parse_pure]
    split
    · next hu =>
      have hclean : Clean (ts ++ [u]) := by simp [clean, hu]
      rw [show ts ++ u :: more = (ts ++ [u]) ++ more by simp]
      refine .read hclean fun k z y y' hz hs hk => ?_
      have htelling : Telling (u :: z) := by
        obtain ⟨t, ht, hkind⟩ := hs
        exact ⟨t, List.mem_cons_of_mem u ht, hkind⟩
      rw [List.length_append] at hk
      have hread := hcopy k (z ++ y') (copies k (u :: z) y y' (by rw [hz]; rfl) htelling (by omega))
      rw [if_pos hu] at hread
      simpa using hread
    · next hu =>
      refine .read clean fun k z y y' hz hs hk => ?_
      obtain ⟨v, z, rfl⟩ := List.exists_cons_of_ne_nil hs.ne_nil
      obtain ⟨rfl, rfl⟩ := List.cons.inj hz
      have hread := hcopy k (z ++ y') (copies k (u :: z) y y' rfl hs hk)
      rw [if_neg hu] at hread
      exact hread

theorem statement_succ (t : Token) (more : List Token) :
    (statement (bound + 1)).parse (t :: more) =
      (statementFrom t (statement bound) bound >>= fun s =>
        skipNewline >>= fun _ => pure s).parse (t :: more) := by
  rw [statement, parse_bind, parse_peek]

theorem predictive_statement :
    Predictive id Telling bound (statement bound) statement Stated := by
  refine ⟨exists_stated, ?_⟩
  induction bound with
  | zero =>
    intro tokens hend hm
    obtain ⟨t, more, rfl⟩ := hend.exists_cons
    simp at hm
  | succ bound ih =>
    intro tokens hend hm
    obtain ⟨t, more, rfl⟩ := hend.exists_cons
    rw [List.length_cons] at hm
    have hfrom := settled_statementFrom ⟨exists_stated, ih⟩ hend (by omega)
    rw [statement_succ]
    refine .ofSucc (.led Telling.ne_nil (fun n _ => ⟨n, Nat.le_refl _, fun us => ?_⟩)
      (.skipNewline hend hfrom))
    rw [statement_succ]
    exact .refl _

theorem parse_statementsUntilEnd_newlines {newlines : List Token}
    (hn : ∀ t ∈ newlines, t.kind = .newline) {found : List Stmt} :
    (statementsUntilEnd (bound + 1) found).parse (newlines ++ tokens) =
      (statementsUntilEnd (bound + 1) found).parse tokens := by
  simp only [statementsUntilEnd, skipNewlines, parse_bind, parse_modify, dropNewlines_append hn]

theorem parse_statementsUntilEnd_cons (ht : t.kind ≠ .newline) {found : List Stmt} :
    (statementsUntilEnd (bound + 1) found).parse (t :: more) =
      if t.kind = .endOfInput then (.ok found.reverse, t :: more)
      else (statement (bound + 1) >>= fun s =>
        statementsUntilEnd bound (s :: found)).parse (t :: more) := by
  simp only [statementsUntilEnd, skipNewlines, parse_bind, parse_modify, dropNewlines_cons ht,
    parse_peek]
  split
  · rfl
  · exact parse_bind ..

theorem sameResult_statementsUntilEnd {found : List Stmt} (tokens : List Token) :
    SameResult ((statementsUntilEnd bound found).parse tokens)
      ((statementsUntilEnd bound found).parse (dropNewlines tokens)) := by
  cases bound with
  | zero => exact .inr ⟨_, rfl, rfl⟩
  | succ bound =>
    simp only [statementsUntilEnd, skipNewlines, parse_bind, parse_modify, dropNewlines_idem]
    exact .refl _

theorem predictive_statementsUntilEnd (found : List Stmt) :
    Predictive id Next bound (statementsUntilEnd bound found)
      (fun n => statementsUntilEnd n found) Program := by
  have viable : ∃ ts body, Program ts body := ⟨[⟨.endOfInput, {}⟩], [], .close rfl⟩
  refine ⟨viable, ?_⟩
  induction bound generalizing found with
  | zero =>
    intro tokens hend hm
    obtain ⟨t, more, rfl⟩ := hend.exists_cons
    simp at hm
  | succ bound ih =>
    intro tokens hend hm
    obtain ⟨newlines, t, more, rfl, hn, ht⟩ := hend.exists_newlines
    have hend : Ended (t :: more) := hend.behind (clean_newlines hn)
    simp only [List.length_append, List.length_cons] at hm
    rw [parse_statementsUntilEnd_newlines hn]
    refine .ofSucc (.newlines hn (fun n _ us => parse_statementsUntilEnd_newlines hn) ?_)
    rw [parse_statementsUntilEnd_cons ht]
    split
    · next hk =>
      exact .peek clean_nil fun n us _ => (parse_statementsUntilEnd_cons ht).trans (if_pos hk)
    · next hk =>
      have hround : Settled (fun n => n + 1) Next
          (fun n => statement (n + 1) >>= fun s => statementsUntilEnd n (s :: found)) Program
          (t :: more) ((statement (bound + 1) >>= fun s =>
            statementsUntilEnd bound (s :: found)).parse (t :: more)) := by
        refine .round rfl id
          (predictive_statement.weaken (fun n => n + 1) (Nat.le_refl (bound + 1))
            fun n => Nat.le_refl _)
          soundLine_statement (fun s => sameResult_statementsUntilEnd)
          (fun n s => sameResult_statementsUntilEnd) (fun n => Nat.le_refl _) hend (by omega)
          fun s {mid} hmid hlen => ?_
        exact ih (s :: found) hmid (by omega)
      refine .led id (fun n _ => ⟨n, Nat.le_refl _, fun us => ?_⟩) hround
      rw [parse_statementsUntilEnd_cons ht, if_neg hk]
      exact .refl _

end Statements

end Parser

end Scriptlet
