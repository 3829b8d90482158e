import Scriptlet.Proofs.Parallel.Expression
import Scriptlet.Proofs.Predictive.Statement

namespace Scriptlet.Parser.Parallel

open Grammar

section Simple

variable {P : Parallel} {Over : List Token → Prop} {m n : Nat}

theorem twins_declaration :
    P.Twins P.Beside Over (m + 1) (n + 1) (declaration m) (declaration n) := by
  unfold declaration
  simp only [discard_bind]
  refine (paired_keyword .letWord).step fun word => ?_
  refine (twins_take? (by simp) (by simp)).bindOver (trails_take? _) (trails_take? _) ?_ ?_
  · intro isMutable
    refine paired_name.bind fun target => ?_
    refine (twins_typeBehind? .colon).bindOver (trails_typeBehind? _) (trails_typeBehind? _) ?_ ?_
    · intro type
      refine (paired_mark .assign).bind fun _ => ?_
      exact paired_expression.bind fun value => twins_pure _
    · rintro type us ⟨rfl, _⟩ _
      exact (refuses_mark .assign).bind.spent
  · rintro isMutable us ⟨rfl, _⟩ _
    exact refuses_name.bind.spent

theorem twins_reassignment :
    P.Twins P.Beside Over (m + 1) (n + 1) (reassignment m) (reassignment n) := by
  unfold reassignment
  simp only [discard_bind]
  refine twins_peek.bindOver trails_peek trails_peek ?_ ?_
  · intro t
    refine paired_name.step fun target => ?_
    refine (paired_mark .assign).bind fun _ => ?_
    exact paired_expression.bind fun value => twins_pure _
  · rintro t us ⟨rfl, _⟩ _
    exact refuses_name.bind.spent

theorem twins_print : P.Twins P.Beside Over (m + 1) (n + 1) (print m) (print n) := by
  unfold print
  simp only [discard_bind]
  refine (paired_keyword .printWord).step fun word => ?_
  refine (paired_mark .openParen).bind fun _ => ?_
  refine paired_expression.bind fun value => ?_
  exact (paired_mark .closeParen).bind fun _ => twins_pure _

/-- A `return` in front of the token for the end has no value. Without that token it is cut off. -/
theorem twins_leave : P.Twins P.Beside P.AtStop (m + 1) (n + 1) (leave m) (leave n) := by
  rw [leave_eq, leave_eq]
  refine (paired_keyword .returnWord).step fun word => ?_
  have hvalue : P.Twins P.Beside P.AtStop m n
      (expression m >>= fun e => pure (Stmt.leave (some e) word.line))
      (expression n >>= fun e => pure (Stmt.leave (some e) word.line)) :=
    paired_expression.bind fun value => twins_pure _
  have hnil (bound : Nat) : Refuses [] (leaveBehind bound word.line) := ⟨_, [], rfl, rfl⟩
  refine .ofCons (hnil m) (fun _ => spent_atStop (hnil n) fun t more ht => ?_) ?_
  · exact ⟨_, (parse_leaveBehind _).trans (if_pos (by rw [ht]; rfl))⟩
  · intro t ts us hb _ _ hts hus
    rw [parse_leaveBehind, parse_leaveBehind]
    split
    · exact .read hb
    · exact hvalue.alike hb hts hus

theorem paired_param : P.Paired m n param param where
  twins := by
    unfold param
    simp only [discard_bind]
    refine paired_name.bind fun target => ?_
    refine (paired_mark .colon).bind fun _ => ?_
    exact paired_typeTag.bind fun type => twins_pure _
  left := advances_param
  right := advances_param
  refusesNil := ⟨_, [], rfl, rfl⟩
  refusesStop _ := refuses_name.bind

end Simple

section Loops

variable {P : Parallel} {Over : List Token → Prop} {m n : Nat} {t : Token} {ts us : List Token}

/-- Both inputs go on with this token behind their newlines. -/
structure Ahead (P : Parallel) (ts us : List Token) (t : Token) (ts' us' : List Token) : Prop where
  left : dropNewlines ts = t :: ts'
  right : dropNewlines us = t :: us'
  solid : t.kind ≠ .newline
  other : some t ≠ P.stop.head?
  beside : P.Beside (t :: ts') (t :: us')
  behind : P.Beside ts' us'

/-- The first input has nothing but newlines left, or both go on alike. -/
theorem Loose.cases (hb : P.Loose ts us) :
    (dropNewlines ts = [] ∧ dropNewlines us = P.stop) ∨ ∃ t ts' us', P.Ahead ts us t ts' us' := by
  unfold Loose at hb
  cases hts : dropNewlines ts with
  | nil =>
    rw [hts] at hb
    exact .inl ⟨rfl, P.nil hb⟩
  | cons t ts' =>
    have ht : t.kind ≠ .newline := by
      intro ht
      have hhead := List.head?_dropWhile_not (fun u : Token => u.kind = .newline) ts
      rw [show ts.dropWhile _ = t :: ts' from hts] at hhead
      simp [ht] at hhead
    rw [hts] at hb
    obtain ⟨hne, us', hus, hrest⟩ := P.cons hb
    rw [hus] at hb
    exact .inr ⟨t, ts', us', hts, hus, ht, hne, hb, hrest ht⟩

theorem length_lt_of_dropNewlines {tokens : List Token} (h : dropNewlines tokens = t :: ts) :
    ts.length < tokens.length := by
  have hle : (dropNewlines tokens).length ≤ tokens.length := (List.dropWhile_suffix _).length_le
  rwa [h] at hle

theorem Ahead.length_left {ts' us' : List Token} (h : P.Ahead ts us t ts' us') :
    ts'.length < ts.length :=
  length_lt_of_dropNewlines h.left

theorem Ahead.length_right {ts' us' : List Token} (h : P.Ahead ts us t ts' us') :
    us'.length < us.length :=
  length_lt_of_dropNewlines h.right

/-- One round of a loop over statements. -/
theorem Alike.round {α : Type} {Left : List Token → List Token → Prop} {p q : Parser Stmt}
    {p' q' : Stmt → Parser α} (hs : P.Twins P.Loose P.NearStop (m + 1) (n + 1) p q)
    (ap : Advances p) (aq : Advances q) (hb : P.Beside ts us) (hts : ts.length ≤ m + 1)
    (hus : us.length ≤ n + 1)
    (next : ∀ s vs ws, P.Loose vs ws → vs.length ≤ m → ws.length ≤ n →
      P.Alike Left Over ((p' s).parse vs) ((q' s).parse ws))
    (beyond : ∀ s ws, P.NearStop ws → ws.length ≤ n → P.Spent Over ((q' s).parse ws)) :
    P.Alike Left Over ((p >>= p').parse ts) ((q >>= q').parse us) := by
  apply (hs.alike hb hts hus).bind
  · intro s vs ws hv hw left
    have hvs := ap.shorter hv
    have hws := aq.shorter hw
    exact next s vs ws left (by omega) (by omega)
  · intro s ws hw ho
    have hws := aq.shorter hw
    exact beyond s ws ho (by omega)

end Loops

section Blocks

variable {P : Parallel} {Over : List Token → Prop} {m n : Nat} {p q : Parser Stmt}
  {ts us : List Token} {found : List Stmt}

theorem parse_statementsUntilBrace_dropNewlines {bound : Nat} :
    (statementsUntilBrace p (bound + 1) found).parse ts =
      (statementsUntilBrace p (bound + 1) found).parse (dropNewlines ts) := by
  simp only [statementsUntilBrace, skipNewlines, parse_bind, parse_modify, dropNewlines_idem]

/-- A block is not closed where nothing but newlines is left of it. -/
theorem spent_statementsUntilBrace (hus : dropNewlines us = P.stop) (hn : us.length ≤ n) :
    P.Spent Never ((statementsUntilBrace q n found).parse us) := by
  cases n with
  | zero =>
    obtain rfl := List.length_eq_zero_iff.mp (Nat.le_zero.mp hn)
    exact .refused (by rw [← hus]; rfl)
  | succ n =>
    rw [parse_statementsUntilBrace_dropNewlines, hus]
    cases hs : P.stop with
    | nil => exact .refused (by rw [hs]; rfl)
    | cons t more =>
      have ht := P.ends hs
      rw [parse_statementsUntilBrace_cons (by simp [ht]), if_neg (by simp [ht]), if_pos ht]
      exact .refused (by rw [hs]; rfl)

/-- The inputs get shorter by different numbers of newlines, so neither bound follows the other. -/
theorem alike_statementsUntilBrace {M N : Nat} (hs : P.Twins P.Loose P.NearStop M N p q)
    (ap : Advances p) (aq : Advances q) (hm : m ≤ M) (hn : n ≤ N) (hb : P.Loose ts us)
    (hts : ts.length ≤ m) (hus : us.length ≤ n) :
    P.Alike P.Beside Never ((statementsUntilBrace p m found).parse ts)
      ((statementsUntilBrace q n found).parse us) := by
  induction m generalizing n ts us found with
  | zero =>
    obtain rfl := List.length_eq_zero_iff.mp (Nat.le_zero.mp hts)
    exact .spent (spent_statementsUntilBrace (P.nil hb) hus)
  | succ m ih =>
    rcases hb.cases with ⟨hleft, hright⟩ | ⟨t, ts', us', ahead⟩
    · rw [parse_statementsUntilBrace_dropNewlines, hleft]
      exact .spent (spent_statementsUntilBrace hright hus)
    · have hts' := Nat.le_trans ahead.length_left hts
      have hus' := Nat.le_trans ahead.length_right hus
      obtain ⟨n, rfl⟩ := Nat.exists_eq_add_one_of_ne_zero (Nat.ne_zero_of_lt hus')
      rw [parse_statementsUntilBrace_dropNewlines, ahead.left,
        parse_statementsUntilBrace_cons ahead.solid, parse_statementsUntilBrace_dropNewlines,
        ahead.right, parse_statementsUntilBrace_cons ahead.solid]
      split
      · exact .read ahead.behind
      · split
        · exact .fail rfl ahead.other
        · refine .round (hs.weaken hm hn) ap aq ahead.beside hts' hus' ?_ ?_
          · intro s vs ws hloose hvs hws
            exact ih (Nat.le_of_succ_le hm) (Nat.le_of_succ_le hn) hloose hvs hws
          · intro s ws hnear hws
            exact spent_statementsUntilBrace hnear.1 hws

theorem parse_alternativeOf_nil (h : dropNewlines ts = []) :
    (alternativeOf p m).parse ts = (.error .unexpectedEndOfInput, ts) := by
  simp only [alternativeOf, parse_bind, parse_get, h, parse_throw]

theorem parse_alternativeOf_ahead {t : Token} {rest : List Token}
    (h : dropNewlines ts = t :: rest) :
    (alternativeOf p m).parse ts =
      if t.kind = .keyword .elseWord then (blockOf p m >>= fun no => pure (some no)).parse rest
      else (.ok none, ts) := by
  simp only [alternativeOf, parse_bind _ get, parse_get, h]
  split
  · simp only [parse_bind _ (set _), parse_set]
  · rfl

variable (hs : P.Twins P.Loose P.NearStop m n p q) (ap : Advances p) (aq : Advances q)

include hs ap aq

theorem paired_blockOf : P.Paired m n (blockOf p m) (blockOf q n) where
  twins := by
    unfold blockOf
    simp only [discard_bind]
    refine (paired_mark .openBrace).bind fun _ => ⟨fun hb hts hus => ?_⟩
    have hloose : P.Loose _ _ := P.newlines hb
    exact alike_statementsUntilBrace hs ap aq (Nat.le_refl m) (Nat.le_refl n) hloose hts hus
  left := .blockOf ap.trails m
  right := .blockOf aq.trails n
  refusesNil := ⟨_, [], rfl, rfl⟩
  refusesStop _ := by
    unfold blockOf
    rw [discard_bind]
    exact (refuses_mark .openBrace).bind

/-- An `else` may be missing in front of the token for the end. Without that token it is not known
whether there is one. -/
theorem twins_alternativeOf :
    P.Twins P.Beside P.NearStop m n (alternativeOf p m) (alternativeOf q n) where
  alike {ts us} hb hts hus := by
    have hblock : P.Twins P.Beside P.NearStop m n (blockOf p m >>= fun no => pure (some no))
        (blockOf q n >>= fun no => pure (some no)) :=
      (paired_blockOf hs ap aq).bind fun no => twins_pure _
    have hloose : P.Loose ts us := P.newlines hb
    rcases hloose.cases with ⟨hleft, hright⟩ | ⟨t, ts', us', ahead⟩
    · rw [parse_alternativeOf_nil hleft]
      cases hs : P.stop with
      | nil =>
        rw [parse_alternativeOf_nil (hright.trans hs)]
        exact .spent (.refused (by rw [hs]; rfl))
      | cons e more =>
        have he : e.kind ≠ .keyword .elseWord := ne_of_stop hs (by simp)
        rw [parse_alternativeOf_ahead (hright.trans hs), if_neg he]
        exact .spent (.upTo ⟨hright, by simp [hs]⟩)
    · rw [parse_alternativeOf_ahead ahead.left, parse_alternativeOf_ahead ahead.right]
      split
      · have hts' := Nat.le_of_lt ahead.length_left
        have hus' := Nat.le_of_lt ahead.length_right
        exact hblock.alike ahead.behind (Nat.le_trans hts' hts) (Nat.le_trans hus' hus)
      · exact .read hb

theorem twins_branchOf :
    P.Twins P.Beside P.NearStop (m + 1) (n + 1) (branchOf p m) (branchOf q n) := by
  refine (paired_keyword .ifWord).step fun word => ?_
  refine paired_expression.bind fun condition => ?_
  refine (paired_blockOf hs ap aq).bind fun yes => ?_
  refine (twins_alternativeOf hs ap aq).bindOver (ap.trails.alternativeOf m)
    (aq.trails.alternativeOf n) (fun no => twins_pure _) ?_
  intro no us hnear _
  exact .upTo hnear

theorem twins_loopOf : P.Twins P.Beside Over (m + 1) (n + 1) (loopOf p m) (loopOf q n) := by
  refine (paired_keyword .whileWord).step fun word => ?_
  refine paired_expression.bind fun condition => ?_
  exact (paired_blockOf hs ap aq).bind fun body => twins_pure _

theorem twins_functionOf :
    P.Twins P.Beside Over (m + 1) (n + 1) (functionOf p m) (functionOf q n) := by
  unfold functionOf
  simp only [discard_bind]
  refine (paired_keyword .fnWord).step fun word => ?_
  refine paired_name.bind fun callee => ?_
  refine (paired_mark .openParen).bind fun _ => ?_
  refine paired_param.parenthesized.bind (advances_param.parenthesized m)
    (advances_param.parenthesized n) fun params => ?_
  refine (twins_typeBehind? .arrow).bindOver (trails_typeBehind? _) (trails_typeBehind? _) ?_ ?_
  · intro returns
    exact (paired_blockOf hs ap aq).bind fun body => twins_pure _
  · rintro returns us ⟨rfl, _⟩ hus
    exact ((paired_blockOf hs ap aq).refusesStop hus).bind.spent

end Blocks

section Statements

variable {P : Parallel} {m n : Nat} {t : Token} {ts us : List Token}

theorem refuses_statement {stop : List Token}
    (hs : ∀ t more, stop = t :: more → t.kind = .endOfInput) (hn : stop.length ≤ n) :
    Refuses stop (statement n) := by
  cases stop with
  | nil => cases n <;> exact ⟨_, [], rfl, rfl⟩
  | cons t more =>
    cases n with
    | zero => simp at hn
    | succ n =>
      have ht : startsStatement t.kind = false := by rw [hs t more rfl]; rfl
      refine ⟨.invalidStatement t, t :: more, ?_, rfl⟩
      rw [statement_succ, parse_bind, parse_statementFrom_other ht]

/-- A name begins a call or a reassignment, by the token behind it. -/
theorem parse_statementFrom_followed {p : Parser Stmt} {s : String} {call assign : Bool}
    (hk : t.kind = .name s)
    (hcall : (followedBy (.mark .openParen)).parse (t :: ts) = (.ok call, t :: ts))
    (hassign : (followedBy (.mark .assign)).parse (t :: ts) = (.ok assign, t :: ts)) :
    (statementFrom t p n).parse (t :: ts) =
      if call then (Parser.call n >>= fun e => pure (Stmt.expression e t.line)).parse (t :: ts)
      else if assign then (reassignment n).parse (t :: ts)
      else (.error (.invalidStatement t), t :: ts) := by
  simp only [statementFrom, hk, parse_bind _ (followedBy _), hcall]
  cases call with
  | true => rfl
  | false =>
    simp only [Bool.false_eq_true, if_false, parse_bind _ (followedBy _), hassign]
    cases assign <;> rfl

theorem alike_statementFrom (hs : P.Twins P.Loose P.NearStop m n (statement m) (statement n))
    (hb : P.Beside (t :: ts) (t :: us)) (hne : some t ≠ P.stop.head?)
    (hrest : t.kind ≠ .newline → P.Beside ts us) (hts : ts.length ≤ m) (hus : us.length ≤ n) :
    P.Alike P.Beside P.NearStop ((statementFrom t (statement m) m).parse (t :: ts))
      ((statementFrom t (statement n) n).parse (t :: us)) := by
  have hm := Nat.succ_le_succ hts
  have hn := Nat.succ_le_succ hus
  cases hstarts : startsStatement t.kind with
  | false =>
    rw [parse_statementFrom_other hstarts, parse_statementFrom_other hstarts]
    exact .fail rfl hne
  | true =>
    rcases startsStatement_cases hstarts with ⟨s, hk⟩ | hk | hk | hk | hk | hk | hk
    · have hbehind := hrest (by simp [hk])
      obtain ⟨call, hcall, hcall'⟩ := exists_followedBy .openParen t hbehind
      obtain ⟨assign, hassign, hassign'⟩ := exists_followedBy .assign t hbehind
      rw [parse_statementFrom_followed hk hcall hassign,
        parse_statementFrom_followed hk hcall' hassign']
      split
      · have htwins : P.Twins P.Beside P.NearStop (m + 1) (n + 1)
            (Parser.call m >>= fun e => pure (Stmt.expression e t.line))
            (Parser.call n >>= fun e => pure (Stmt.expression e t.line)) :=
          paired_primary.callOver.bind (advances_call m).trails (advances_call n).trails
            fun e => twins_pure _
        exact htwins.alike hb hm hn
      · split
        · exact twins_reassignment.alike hb hm hn
        · exact .fail rfl hne
    all_goals simp only [statementFrom, hk]
    · exact twins_declaration.alike hb hm hn
    · exact (twins_branchOf hs (advances_statement m) (advances_statement n)).alike hb hm hn
    · exact (twins_loopOf hs (advances_statement m) (advances_statement n)).alike hb hm hn
    · exact (twins_functionOf hs (advances_statement m) (advances_statement n)).alike hb hm hn
    · exact (twins_leave.mono fun _ => AtStop.near).alike hb hm hn
    · exact twins_print.alike hb hm hn

/-- The newline that belongs to a statement does not matter to what comes behind all newlines. -/
theorem exists_skipNewline (tokens : List Token) :
    ∃ rest, skipNewline.Reads tokens () rest ∧ dropNewlines rest = dropNewlines tokens := by
  cases tokens with
  | nil => exact ⟨[], rfl, rfl⟩
  | cons t more =>
    refine ⟨_, reads_skipNewline, ?_⟩
    split
    · next ht => exact (dropNewlines_newline ht).symm
    · rfl

theorem twins_statement : P.Twins P.Loose P.NearStop m n (statement m) (statement n) := by
  have hnil (m : Nat) : Refuses [] (statement m) := refuses_statement (by simp) (Nat.zero_le m)
  have hstop {n : Nat} (hs : P.stop.length ≤ n) : Refuses P.stop (statement n) :=
    refuses_statement (fun _ _ => P.ends) hs
  induction m generalizing n with
  | zero => exact .ofZero (.inl rfl) (hnil 0) fun hs => (hstop hs).spent
  | succ m ih =>
    cases n with
    | zero => exact .ofZero (.inr rfl) (hnil _) fun hs => (hstop hs).spent
    | succ n =>
      refine .ofCons (hnil _) (fun hs => (hstop hs).spent) ?_
      intro t ts us hb hne hrest hts hus
      rw [statement_succ, statement_succ]
      apply (alike_statementFrom ih hb hne hrest (Nat.le_of_lt_succ hts)
        (Nat.le_of_lt_succ hus)).bind
      · intro s vs ws _ _ left
        obtain ⟨vs', hvs, hv⟩ := exists_skipNewline vs
        obtain ⟨ws', hws, hw⟩ := exists_skipNewline ws
        rw [parse_bind, parse_bind, hvs, hws]
        refine .read ?_
        unfold Loose
        rw [hv, hw]
        exact P.newlines left
      · intro s ws _ hnear
        obtain ⟨ws', hws, hw⟩ := exists_skipNewline ws
        rw [parse_bind, hws]
        exact .upTo ⟨hw.trans hnear.1, hnear.2⟩

theorem parse_statementsUntilEnd_dropNewlines {found : List Stmt} :
    (statementsUntilEnd (n + 1) found).parse ts =
      (statementsUntilEnd (n + 1) found).parse (dropNewlines ts) := by
  simp only [statementsUntilEnd, skipNewlines, parse_bind, parse_modify, dropNewlines_idem]

/-- Where nothing but newlines is left, the statements end if the token for the end is there. -/
theorem spent_statementsUntilEnd {found : List Stmt} (hus : dropNewlines us = P.stop)
    (hn : us.length ≤ n) : P.Spent P.AtStop ((statementsUntilEnd n found).parse us) := by
  cases n with
  | zero =>
    obtain rfl := List.length_eq_zero_iff.mp (Nat.le_zero.mp hn)
    exact .refused (by rw [← hus]; rfl)
  | succ n =>
    rw [parse_statementsUntilEnd_dropNewlines, hus]
    cases hs : P.stop with
    | nil => exact .refused (by rw [hs]; rfl)
    | cons t more =>
      have ht := P.ends hs
      rw [parse_statementsUntilEnd_cons (by simp [ht]), if_pos ht]
      exact .upTo ⟨hs.symm, by simp [hs]⟩

theorem alike_statementsUntilEnd {found : List Stmt} (hb : P.Loose ts us) (hts : ts.length ≤ m)
    (hus : us.length ≤ n) :
    P.Alike P.Beside P.AtStop ((statementsUntilEnd m found).parse ts)
      ((statementsUntilEnd n found).parse us) := by
  induction m generalizing n ts us found with
  | zero =>
    obtain rfl := List.length_eq_zero_iff.mp (Nat.le_zero.mp hts)
    exact .spent (spent_statementsUntilEnd (P.nil hb) hus)
  | succ m ih =>
    rcases hb.cases with ⟨hleft, hright⟩ | ⟨t, ts', us', ahead⟩
    · rw [parse_statementsUntilEnd_dropNewlines, hleft]
      exact .spent (spent_statementsUntilEnd hright hus)
    · have hts' := Nat.le_trans ahead.length_left hts
      have hus' := Nat.le_trans ahead.length_right hus
      obtain ⟨n, rfl⟩ := Nat.exists_eq_add_one_of_ne_zero (Nat.ne_zero_of_lt hus')
      rw [parse_statementsUntilEnd_dropNewlines, ahead.left,
        parse_statementsUntilEnd_cons ahead.solid, parse_statementsUntilEnd_dropNewlines,
        ahead.right, parse_statementsUntilEnd_cons ahead.solid]
      split
      · exact .read ahead.beside
      · refine .round twins_statement (advances_statement _) (advances_statement _) ahead.beside
          hts' hus' ?_ ?_
        · intro s vs ws hloose hvs hws
          exact ih hloose hvs hws
        · intro s ws hnear hws
          exact spent_statementsUntilEnd hnear.1 hws

end Statements

end Scriptlet.Parser.Parallel
