import Scriptlet.Interpreter
import Scriptlet.Proofs.Lines
import Scriptlet.Proofs.Recognition
import Scriptlet.Proofs.ScanJoin

namespace Scriptlet.Grammar

section Lines

variable {α : Type} {f : Nat → Nat} {ts : List Token} {e : Expr}

theorem Separated.mapLine {β : Type} {Item : List Token → α → Prop} {Item' : List Token → β → Prop}
    (g : α → β) (hi : ∀ {ts a}, Item ts a → Item' (ts.map (Token.mapLine f)) (g a)) {as : List α}
    (h : Separated Item ts as) : Separated Item' (ts.map (Token.mapLine f)) (as.map g) := by
  induction h with
  | one item => exact .one (hi item)
  | more item hc _ ih =>
    rw [List.map_append, List.map_cons]
    exact .more (hi item) hc ih

theorem Listed.mapLine {β : Type} {Item : List Token → α → Prop} {Item' : List Token → β → Prop}
    (g : α → β) (hi : ∀ {ts a}, Item ts a → Item' (ts.map (Token.mapLine f)) (g a)) {as : List α}
    (h : Listed Item ts as) : Listed Item' (ts.map (Token.mapLine f)) (as.map g) := by
  cases h with
  | empty hl hr => exact .empty hl hr
  | items hl items hr =>
    rw [List.map_cons, List.map_append]
    exact .items hl (items.mapLine g hi) hr

theorem Chain.mapLine {level : Level} {Operand Operand' : List Token → Expr → Prop}
    (ho : ∀ {ts e}, Operand ts e → Operand' (ts.map (Token.mapLine f)) (e.mapLines f))
    (h : Chain level Operand ts e) :
    Chain level Operand' (ts.map (Token.mapLine f)) (e.mapLines f) := by
  induction h with
  | operand h => exact .operand (ho h)
  | operation _ ht hlevel right ih =>
    rw [List.map_append, List.map_cons, Expr.mapLines]
    exact .operation ih ht hlevel (ho right)

theorem Call.mapLine {Argument Argument' : List Token → Expr → Prop}
    (ha : ∀ {ts e}, Argument ts e → Argument' (ts.map (Token.mapLine f)) (e.mapLines f))
    (h : Call Argument ts e) : Call Argument' (ts.map (Token.mapLine f)) (e.mapLines f) := by
  cases h with
  | mk hn arguments =>
    rw [List.map_cons, Expr.mapLines]
    exact .mk hn (arguments.mapLine (Expr.mapLines f) ha)

theorem Primary.mapLine (h : Primary ts e) :
    Primary (ts.map (Token.mapLine f)) (e.mapLines f) := by
  let P (ts : List Token) (e : Expr) : Prop := Primary (ts.map (Token.mapLine f)) (e.mapLines f)
  have hinner {ts : List Token} {e : Expr} (h : ExpressionOver P ts e) :
      Expression (ts.map (Token.mapLine f)) (e.mapLines f) :=
    Chain.mapLine (Chain.mapLine (Chain.mapLine id)) h
  have step {ts : List Token} {e : Expr} (h : PrimaryOver (ExpressionOver P) ts e) : P ts e := by
    refine .mk ?_
    cases h with
    | literal hv =>
      rw [Expr.mapLines]
      exact .literal hv
    | var hn =>
      rw [Expr.mapLines]
      exact .var hn
    | call h => exact .call (h.mapLine hinner)
    | group hl inner hr =>
      rw [List.map_cons, List.map_append]
      exact .group hl (hinner inner) hr
  exact h.least step

theorem Expression.mapLine (h : Expression ts e) :
    Expression (ts.map (Token.mapLine f)) (e.mapLines f) :=
  Chain.mapLine (Chain.mapLine (Chain.mapLine Primary.mapLine)) h

theorem Flag.mapLine {word : Keyword} {b : Bool} (h : Flag word ts b) :
    Flag word (ts.map (Token.mapLine f)) b := by
  cases h with
  | absent => exact .absent
  | present hk => exact .present hk

theorem TypeBehind.mapLine {mark : Mark} {tag : Option TypeTag} (h : TypeBehind mark ts tag) :
    TypeBehind mark (ts.map (Token.mapLine f)) tag := by
  cases h with
  | absent => exact .absent
  | present hm ht => exact .present hm ht

theorem Parameter.mapLine {p : Param} (h : Parameter ts p) :
    Parameter (ts.map (Token.mapLine f)) p := by
  cases h with
  | mk hn hc ht => exact .mk hn hc ht

section Statements

variable {G G' : List Token → Token → Stmt → Prop}
  (hG : ∀ {ts next s}, G ts next s → G' (ts.map (Token.mapLine f)) (next.mapLine f) (s.mapLines f))

include hG

theorem Body.mapLine {closing : Token.Kind} {body : List Stmt} (h : Body G closing ts body) :
    Body G' closing (ts.map (Token.mapLine f)) (body.map (Stmt.mapLines f)) := by
  induction h with
  | close hk => exact .close hk
  | newline hk _ ih => exact .newline hk ih
  | statement head _ ih =>
    rw [List.map_append, List.map_cons]
    exact .statement (hG head) ih

theorem Block.mapLine {body : List Stmt} (h : Block G ts body) :
    Block G' (ts.map (Token.mapLine f)) (body.map (Stmt.mapLines f)) := by
  cases h with
  | mk hb rest => exact .mk hb (rest.mapLine hG)

theorem Alternative.mapLine {no : Option (List Stmt)} (h : Alternative G ts no) :
    Alternative G' (ts.map (Token.mapLine f)) (no.map (List.map (Stmt.mapLines f))) := by
  cases h with
  | absent => exact .absent
  | present hn hw block =>
    rw [List.map_append, List.map_cons]
    refine .present ?_ hw (block.mapLine hG)
    intro t ht
    obtain ⟨u, hu, rfl⟩ := List.mem_map.1 ht
    exact hn u hu

theorem StatementOver.mapLine {next : Token} {s : Stmt} (h : StatementOver G ts next s) :
    StatementOver G' (ts.map (Token.mapLine f)) (next.mapLine f) (s.mapLines f) := by
  cases h with
  | declaration hw hm hn ht ha value =>
    simp only [List.map_append, List.map_cons, Stmt.mapLines]
    exact .declaration hw hm.mapLine hn ht.mapLine ha value.mapLine
  | reassignment hn ha value =>
    simp only [List.map_cons, Stmt.mapLines]
    exact .reassignment hn ha value.mapLine
  | branch hw condition block alternative =>
    simp only [List.map_append, List.map_cons, Stmt.mapLines_branch]
    exact .branch hw condition.mapLine (block.mapLine hG) (alternative.mapLine hG)
  | loop hw condition block =>
    simp only [List.map_append, List.map_cons, Stmt.mapLines]
    exact .loop hw condition.mapLine (block.mapLine hG)
  | function hw hn hp hr block =>
    simp only [List.map_append, List.map_cons, Stmt.mapLines]
    have hp' := hp.mapLine (f := f) id Parameter.mapLine
    rw [List.map_id] at hp'
    exact .function hw hn hp' hr.mapLine (block.mapLine hG)
  | leave hw hnext =>
    rw [Stmt.mapLines]
    exact .leave hw hnext
  | leaveValue hw value =>
    rw [Stmt.mapLines]
    exact .leaveValue hw value.mapLine
  | print hw hl value hr =>
    simp only [List.map_append, List.map_cons, Stmt.mapLines]
    exact .print hw hl value.mapLine hr
  | call h =>
    rw [Stmt.mapLines]
    exact .call (h.mapLine Expression.mapLine)

end Statements

theorem Statement.mapLine {next : Token} {s : Stmt} (h : Statement ts next s) :
    Statement (ts.map (Token.mapLine f)) (next.mapLine f) (s.mapLines f) := by
  let P (ts : List Token) (next : Token) (s : Stmt) : Prop :=
    Statement (ts.map (Token.mapLine f)) (next.mapLine f) (s.mapLines f)
  have step {ts : List Token} {next : Token} {s : Stmt} (h : StatementOver P ts next s) :
      P ts next s :=
    .mk (h.mapLine id)
  exact h.least step

theorem Program.mapLine {body : List Stmt} (h : Program ts body) :
    Program (ts.map (Token.mapLine f)) (body.map (Stmt.mapLines f)) :=
  Body.mapLine Statement.mapLine h

end Lines

/-- The token behind a statement matters only to a `return` without a value. -/
theorem Statement.follow {ts : List Token} {next next' : Token} {s : Stmt}
    (h : Statement ts next s) (hn : endsReturn next'.kind = true) : Statement ts next' s := by
  cases h with
  | mk h =>
    refine .mk ?_
    cases h with
    | declaration hw hm hn ht ha value => exact .declaration hw hm hn ht ha value
    | reassignment hn ha value => exact .reassignment hn ha value
    | branch hw condition block alternative => exact .branch hw condition block alternative
    | loop hw condition block => exact .loop hw condition block
    | function hw hn hp hr block => exact .function hw hn hp hr block
    | leave hw _ => exact .leave hw hn
    | leaveValue hw value => exact .leaveValue hw value
    | print hw hl value hr => exact .print hw hl value hr
    | call h => exact .call h

/-- In place of the token for the end, a newline and another program can follow. -/
theorem Program.append {before us : List Token} {last newline : Token} {p q : List Stmt}
    (hp : Program (before ++ [last]) p) (hn : newline.kind = .newline) (hq : Program us q) :
    Program (before ++ newline :: us) (p ++ q) := by
  generalize hts : before ++ [last] = ts at hp
  induction hp generalizing before with
  | close _ =>
    obtain rfl : before = [] := by
      cases before <;> simp_all
    exact .newline hn hq
  | newline hk rest ih =>
    cases before with
    | nil =>
      obtain ⟨t, us, rfl⟩ := rest.exists_cons
      simp at hts
    | cons b before =>
      obtain ⟨rfl, htail⟩ := List.cons.inj hts
      exact .newline hk (ih htail)
  | @statement ts vs next first body head rest ih =>
    obtain ⟨mid, rfl, hmid⟩ : ∃ mid, before = ts ++ mid ∧ mid ++ [last] = next :: vs := by
      rcases List.append_eq_append_iff.1 hts with ⟨as, has, hlast⟩ | ⟨mid, hb, hmid⟩
      · obtain rfl : as = [] := by
          cases as <;> simp_all
        exact ⟨[], by simpa using has.symm, by simpa using hlast⟩
      · exact ⟨mid, hb, hmid.symm⟩
    have hrest := ih hmid
    rw [List.append_assoc, List.cons_append]
    cases mid with
    | nil => exact .statement (head.follow (by simp [hn, endsReturn])) hrest
    | cons b mid =>
      obtain ⟨rfl, _⟩ := List.cons.inj hmid
      exact .statement head hrest

end Scriptlet.Grammar

namespace Scriptlet.Stmt

open Grammar

theorem ofText_eq_ok_iff {text : String} {body : List Stmt} :
    ofText text = .ok body ↔
      ∃ tokens, Token.scan text = .ok tokens ∧ ofTokens tokens = .ok body := by
  unfold ofText
  cases Token.scan text with
  | error e => simp
  | ok tokens => cases h : ofTokens tokens <;> simp [h]

/-- Two texts with a line feed between them are read as one program after the other, where the
second stands further down. -/
theorem ofText_join {a b : String} {p q : List Stmt} (ha : ofText a = .ok p)
    (hb : ofText b = .ok q) :
    ofText (a ++ "\n" ++ b) =
      .ok (p ++ q.map (Stmt.mapLines (· + (a.toList.count '\n' + 1)))) := by
  obtain ⟨as, hsa, hpa⟩ := ofText_eq_ok_iff.1 ha
  obtain ⟨bs, hsb, hpb⟩ := ofText_eq_ok_iff.1 hb
  obtain ⟨before, last, newline, rfl, hlast, hbefore, hn, hscan⟩ := Token.scan_join hsa hsb
  have hp : Program (before ++ [last]) p := by
    have hp := program_of_ofTokens hpa
    rwa [upToEnd_append hbefore hlast] at hp
  obtain ⟨rest, hbs⟩ := exists_upToEnd bs
  have hq := (program_of_ofTokens hpb).mapLine (f := (· + (a.toList.count '\n' + 1)))
  have hpq := ofTokens_of_program (hp.append hn hq)
    (rest.map (Token.mapLine (· + (a.toList.count '\n' + 1))))
  refine ofText_eq_ok_iff.2 ⟨_, hscan, ?_⟩
  rw [hbs, List.map_append]
  simpa using hpq

/-- Of two texts that can be read, the one under the other is read as the two programs one after the
other. All lines of the second program are further down by the lines of the first text. Its tokens
move with them and keep their columns, and the tokens of the first text stay where they are, with a
newline in place of the end. -/
theorem ofTokens_scan_join {a b : String} {as bs : List Token} {p q : List Stmt}
    (ha : Token.scan a = .ok as) (hp : ofTokens as = .ok p) (hb : Token.scan b = .ok bs)
    (hq : ofTokens bs = .ok q) :
    ∃ tokens before last newline,
      Token.scan (a ++ "\n" ++ b) = .ok tokens ∧
      ofTokens tokens = .ok (p ++ q.map (Stmt.mapLines (· + (a.toList.count '\n' + 1)))) ∧
      as = before ++ [last] ∧ last.kind = .endOfInput ∧ newline.kind = .newline ∧
      tokens = before ++ newline :: bs.map fun t =>
        ⟨t.kind, ⟨t.line + (a.toList.count '\n' + 1), t.position.column⟩⟩ := by
  have hjoin := ofText_join (ofText_eq_ok_iff.2 ⟨as, ha, hp⟩) (ofText_eq_ok_iff.2 ⟨bs, hb, hq⟩)
  obtain ⟨tokens, hscan, hread⟩ := ofText_eq_ok_iff.1 hjoin
  obtain ⟨before, last, newline, has, hlast, _, hn, hscan'⟩ := Token.scan_join ha hb
  rw [hscan] at hscan'
  have htokens := Except.ok.inj hscan'
  exact ⟨tokens, before, last, newline, hscan, hread, has, hlast, hn, htokens⟩

/-- For one, where the first text has a string over two lines and ends with a branch that an `else`
could follow, and the second one begins with a blank line and ends with a `return`. -/
theorem ofTokens_scan_join_branch :
    ∃ as bs p q tokens,
      Token.scan "let s = 'a\nb'\nif s == s \x7b print(s) \x7d" = .ok as ∧ ofTokens as = .ok p ∧
      Token.scan "\n  print(1)\nreturn" = .ok bs ∧ ofTokens bs = .ok q ∧
      Token.scan
        ("let s = 'a\nb'\nif s == s \x7b print(s) \x7d" ++ "\n" ++ "\n  print(1)\nreturn") =
          .ok tokens ∧
      ofTokens tokens = .ok (p ++ q.map (Stmt.mapLines (· + 3))) := by
  have hread (text : String) (h : (ofText text).toOption.isSome) :
      ∃ tokens body, Token.scan text = .ok tokens ∧ ofTokens tokens = .ok body := by
    cases ht : ofText text with
    | error e => simp [ht, Except.toOption] at h
    | ok body =>
      obtain ⟨tokens, hs, hb⟩ := ofText_eq_ok_iff.1 ht
      exact ⟨tokens, body, hs, hb⟩
  obtain ⟨as, p, ha, hp⟩ := hread "let s = 'a\nb'\nif s == s \x7b print(s) \x7d" (by decide +kernel)
  obtain ⟨bs, q, hb, hq⟩ := hread "\n  print(1)\nreturn" (by decide +kernel)
  obtain ⟨tokens, _, _, _, hscan, hjoin, _⟩ := ofTokens_scan_join ha hp hb hq
  exact ⟨as, bs, p, q, tokens, ha, hp, hb, hq, hscan, hjoin⟩

end Scriptlet.Stmt
