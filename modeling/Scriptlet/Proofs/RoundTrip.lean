import Scriptlet.Proofs.Lines
import Scriptlet.Proofs.Recognition
import Scriptlet.Proofs.Rendering

namespace Scriptlet

namespace Grammar

/-- Operations from a rank on, from comparisons to primary expressions. -/
def FromRank : Nat → List Token → Expr → Prop
  | 0 => Expression
  | 1 => Chain .additive (Chain .multiplicative Primary)
  | 2 => Chain .multiplicative Primary
  | _ + 3 => Primary

namespace FromRank

variable {rank : Nat} {ts ls rs : List Token} {e l r : Expr}

theorem loosen (h : FromRank (rank + 1) ts e) : FromRank rank ts e := by
  match rank, h with
  | 0, h => exact .operand h
  | 1, h => exact .operand h
  | 2, h => exact .operand h
  | _ + 3, h => exact h

theorem mono {least : Nat} (hr : least ≤ rank) (h : FromRank rank ts e) : FromRank least ts e := by
  induction hr with
  | refl => exact h
  | step _ ih => exact ih h.loosen

theorem of_primary (h : Primary ts e) : FromRank rank ts e := by
  have htight : FromRank (rank + 3) ts e := h
  exact htight.mono (Nat.le_add_right rank 3)

/-- An operation stands at the rank of its operator, its right operand one higher. -/
theorem operation {op : Operator} {operator : Token} (left : FromRank op.level.rank ls l)
    (ho : operator.kind = .operator op) (right : FromRank (op.level.rank + 1) rs r) :
    FromRank op.level.rank (ls ++ operator :: rs) (.binary op l r operator.line) := by
  cases hlevel : op.level <;> rw [hlevel] at left right <;>
    exact Chain.operation left ho hlevel right

end FromRank

/-- The tokens stand for something that looks the same. -/
def Resembles {α β : Type} (view : α → β) (G : List Token → α → Prop) (ts : List Token) (a : α) :
    Prop :=
  ∃ b, G ts b ∧ view b = view a

section Resembles

variable {α β : Type} {view : α → β} {G : List Token → α → Prop} {ts : List Token} {as : List α}

theorem Resembles.refl {a : α} (h : G ts a) : Resembles view G ts a :=
  ⟨a, h, rfl⟩

theorem Separated.resembles (h : Separated (Resembles view G) ts as) :
    Resembles (List.map view) (Separated G) ts as := by
  induction h with
  | one item =>
    obtain ⟨b, hb, hv⟩ := item
    exact ⟨[b], .one hb, by simp [hv]⟩
  | more item hc _ ih =>
    obtain ⟨b, hb, hv⟩ := item
    obtain ⟨bs, hbs, hvs⟩ := ih
    exact ⟨b :: bs, .more hb hc hbs, by simp [hv, hvs]⟩

theorem Listed.resembles (h : Listed (Resembles view G) ts as) :
    Resembles (List.map view) (Listed G) ts as := by
  cases h with
  | empty hl hr => exact .refl (.empty hl hr)
  | items hl items hr =>
    obtain ⟨bs, hbs, hvs⟩ := items.resembles
    exact ⟨bs, .items hl hbs hr, hvs⟩

end Resembles

end Grammar

/-- Lines do not count. -/
abbrev Expr.unlined : Expr → Expr :=
  Expr.mapLines fun _ => 0

abbrev Stmt.unlined : Stmt → Stmt :=
  Stmt.mapLines fun _ => 0

namespace Rendering

open Grammar

mutual

theorem Written.derives : ∀ {rank : Nat} {ts : List Token} {e : Expr}, Written rank ts e →
    Resembles Expr.unlined (FromRank rank) ts e
  | _, _, _, .literal hv => ⟨_, .of_primary (.mk (.literal hv)), by simp [Expr.mapLines]⟩
  | _, _, _, .var hn => ⟨_, .of_primary (.mk (.var hn)), by simp [Expr.mapLines]⟩
  | _, _, _, .call hn arguments => by
    obtain ⟨es, hes, hsame⟩ := (arguments_derive arguments).resembles
    exact ⟨_, .of_primary (.mk (.call (.mk hn hes))), by simpa [Expr.mapLines] using hsame⟩
  | _, _, _, .binary hr left ho right => by
    obtain ⟨l, hl, hleft⟩ := left.derives
    obtain ⟨r, hr', hright⟩ := right.derives
    exact ⟨_, (FromRank.operation hl ho hr').mono hr, by simp [Expr.mapLines, hleft, hright]⟩
  | _, _, _, .group hl inner hr => by
    obtain ⟨e, he, hsame⟩ := inner.derives
    exact ⟨e, .of_primary (.mk (.group hl he hr)), hsame⟩

theorem arguments_derive : ∀ {ts : List Token} {es : List Expr}, Listed (Written 0) ts es →
    Listed (Resembles Expr.unlined Expression) ts es
  | _, _, .empty hl hr => .empty hl hr
  | _, _, .items hl items hr => .items hl (items_derive items) hr

theorem items_derive : ∀ {ts : List Token} {es : List Expr}, Separated (Written 0) ts es →
    Separated (Resembles Expr.unlined Expression) ts es
  | _, _, .one item => .one item.derives
  | _, _, .more item hc rest => .more item.derives hc (items_derive rest)

end

theorem BareCall.derives {ts : List Token} {e : Expr} (h : BareCall ts e) :
    ∃ t us e', ts = t :: us ∧ Call Expression (t :: us) e' ∧ e'.unlined = e.unlined := by
  cases h with
  | @mk line t name ts es hn arguments =>
    obtain ⟨es', hes, hsame⟩ := (arguments_derive arguments).resembles
    exact ⟨t, ts, _, rfl, .mk hn hes, by simpa [Expr.mapLines] using hsame⟩

mutual

/-- A statement may be followed by a newline, the end of its block or the end of the text. -/
theorem Statement.derives : ∀ {ts : List Token} {s : Stmt}, Statement BareCall ts s →
    ∀ {next : Token}, endsReturn next.kind = true →
      Resembles Stmt.unlined (Grammar.Statement · next) ts s
  | _, _, .declaration hw hm hn ht ha value, next, _ => by
    obtain ⟨e, he, hsame⟩ := value.derives
    exact ⟨_, .mk (.declaration hw hm hn ht ha he), by simp [Stmt.mapLines, hsame]⟩
  | _, _, .reassignment hn ha value, next, _ => by
    obtain ⟨e, he, hsame⟩ := value.derives
    exact ⟨_, .mk (.reassignment hn ha he), by simp [Stmt.mapLines, hsame]⟩
  | _, _, .branch hw condition block alternative, next, _ => by
    obtain ⟨e, he, hsame⟩ := condition.derives
    obtain ⟨yes, hyes, hsameYes⟩ := block.derives
    obtain ⟨no, hno, hsameNo⟩ := alternative.derives
    refine ⟨_, .mk (.branch hw he hyes hno), ?_⟩
    simp only [Stmt.mapLines_branch, hsame, hsameYes, hsameNo]
  | _, _, .loop hw condition block, next, _ => by
    obtain ⟨e, he, hsame⟩ := condition.derives
    obtain ⟨body, hbody, hsameBody⟩ := block.derives
    exact ⟨_, .mk (.loop hw he hbody), by simp [Stmt.mapLines, hsame, hsameBody]⟩
  | _, _, .function hw hn hp hr block, next, _ => by
    obtain ⟨body, hbody, hsame⟩ := block.derives
    exact ⟨_, .mk (.function hw hn hp hr hbody), by simp [Stmt.mapLines, hsame]⟩
  | _, _, .leave hw, next, hnext => ⟨_, .mk (.leave hw hnext), by simp [Stmt.mapLines]⟩
  | _, _, .leaveValue hw value, next, _ => by
    obtain ⟨e, he, hsame⟩ := value.derives
    exact ⟨_, .mk (.leaveValue hw he), by simp [Stmt.mapLines, hsame]⟩
  | _, _, .print hw hl value hr, next, _ => by
    obtain ⟨e, he, hsame⟩ := value.derives
    exact ⟨_, .mk (.print hw hl he hr), by simp [Stmt.mapLines, hsame]⟩
  | _, _, .expression h, next, _ => by
    obtain ⟨t, us, e, rfl, he, hsame⟩ := h.derives
    exact ⟨_, .mk (.call he), by simp [Stmt.mapLines, hsame]⟩

theorem Block.derives : ∀ {ts : List Token} {body : List Stmt}, Block BareCall ts body →
    Resembles (List.map Stmt.unlined) (Grammar.Block Grammar.Statement) ts body
  | _, _, .mk hl lines hr => by
    obtain ⟨body, hbody, hsame⟩ := lines.derives hr rfl
    exact ⟨body, .mk hl hbody, hsame⟩

theorem Alternative.derives : ∀ {ts : List Token} {no : Option (List Stmt)},
    Alternative BareCall ts no →
      Resembles (Option.map (List.map Stmt.unlined)) (Grammar.Alternative Grammar.Statement) ts no
  | _, _, .absent => .refl .absent
  | _, _, .present hn hw block => by
    obtain ⟨body, hbody, hsame⟩ := block.derives
    exact ⟨some body, .present hn hw hbody, by rw [Option.map_some, hsame, Option.map_some]⟩

theorem Lines.derives : ∀ {ts : List Token} {body : List Stmt}, Lines BareCall ts body →
    ∀ {closing : Token.Kind} {last : Token}, last.kind = closing → endsReturn closing = true →
      Resembles (List.map Stmt.unlined) (fun ts => Body Grammar.Statement closing (ts ++ [last]))
        ts body
  | _, _, .none, closing, last, hl, _ => .refl (.close hl)
  | _, _, .newline hk rest, closing, last, hl, hc => by
    obtain ⟨body, hbody, hsame⟩ := rest.derives hl hc
    exact ⟨body, .newline hk hbody, hsame⟩
  | _, _, .last h, closing, last, hl, hc => by
    obtain ⟨s, hs, hsame⟩ := h.derives (hl ▸ hc)
    exact ⟨[s], .statement hs (.close hl), by simp [hsame]⟩
  | _, _, @Lines.more _ t ts us _ _ h hk rest, closing, last, hl, hc => by
    have hnext : endsReturn t.kind = true := by rw [hk]; rfl
    obtain ⟨s, hs, hsame⟩ := h.derives hnext
    obtain ⟨body, hbody, hrest⟩ := rest.derives hl hc
    have hall : Body Grammar.Statement closing (ts ++ t :: (us ++ [last])) (s :: body) :=
      .statement hs (.newline hk hbody)
    exact ⟨s :: body, by simpa using hall, by rw [List.map_cons, hsame, hrest, List.map_cons]⟩

end

end Rendering

namespace Stmt

open Rendering

/-- Whatever is written out is read back, but for the lines. Every program in which nothing but
calls stands alone can be written out, and however it is written, as long as these calls are without
parentheses around them, the parser gives it back. -/
theorem ofTokens_rendering {p : List Stmt} (h : ∀ s ∈ p, s.CallsAlone) :
    (∃ ts, Lines BareCall ts p) ∧
      ∀ ts last, Lines BareCall ts p → last.kind = .endOfInput →
        ∃ q, ofTokens (ts ++ [last]) = .ok q ∧ q.map unlined = p.map unlined := by
  constructor
  · exact exists_lines fun s hs => exists_statement exists_bareCall (h s hs)
  · intro ts last hts hlast
    obtain ⟨q, hq, hsame⟩ := hts.derives hlast rfl
    have hread : ofTokens (ts ++ [last] ++ []) = .ok q := ofTokens_of_program hq []
    rw [List.append_nil] at hread
    exact ⟨q, hread, hsame⟩

/-- For one, behind an empty line `x = a - (b - (c))`, where the inner parentheses are redundant,
and in the next line `f()`. -/
theorem ofTokens_rendering_nested :
    let p : List Stmt := [.assign "x" none true (.binary .sub (.var "a" 0)
      (.binary .sub (.var "b" 0) (.var "c" 0) 0) 0) 0, .expression (.call "f" [] 0) 0]
    let ts : List Token := [.newline, .name "x", .mark .assign, .name "a", .operator .sub,
      .mark .openParen, .name "b", .operator .sub, .mark .openParen, .name "c", .mark .closeParen,
      .mark .closeParen, .newline, .name "f", .mark .openParen, .mark .closeParen].map token
    (∀ s ∈ p, s.CallsAlone) ∧ Lines BareCall ts p ∧
      ∃ q, ofTokens (ts ++ [token .endOfInput]) = .ok q ∧ q.map unlined = p.map unlined := by
  intro p ts
  have hcalls : ∀ s ∈ p, s.CallsAlone := by
    intro s hs
    rcases List.mem_cons.1 hs with rfl | hs
    · exact .assign
    · obtain rfl := List.mem_singleton.1 hs
      exact .call
  have hvar (rank : Nat) (name : String) : Written rank [token (.name name)] (.var name 0) :=
    .var rfl
  have hinner : Written 0 (token (.name "b") :: token (.operator .sub) ::
      [.mark .openParen, .name "c", .mark .closeParen].map token)
      (.binary .sub (.var "b" 0) (.var "c" 0) 0) :=
    .binary (Nat.zero_le _) (hvar _ "b") rfl (.group rfl (hvar 0 "c") rfl)
  have houter : Written 0 (token (.name "a") :: token (.operator .sub) ::
      [.mark .openParen, .name "b", .operator .sub, .mark .openParen, .name "c",
        .mark .closeParen, .mark .closeParen].map token)
      (.binary .sub (.var "a" 0) (.binary .sub (.var "b" 0) (.var "c" 0) 0) 0) :=
    .binary (Nat.zero_le _) (hvar _ "a") rfl (.group rfl hinner rfl)
  have hlines : Lines BareCall ts p :=
    .newline rfl (.more (.reassignment rfl rfl houter) rfl
      (.last (.expression (.mk rfl (.empty rfl rfl)))))
  exact ⟨hcalls, hlines, (ofTokens_rendering hcalls).2 ts _ hlines rfl⟩

/-- The call `f()` in parentheses, which are redundant anywhere else, is not read as a statement. -/
theorem ofTokens_rendering_grouped_call :
    ¬∀ p : List Stmt, (∀ s ∈ p, s.CallsAlone) → ∀ ts last, Lines (Written 0) ts p →
      last.kind = .endOfInput →
      ∃ q, ofTokens (ts ++ [last]) = .ok q ∧ q.map unlined = p.map unlined := by
  intro h
  let left := token (.mark .openParen)
  let right := token (.mark .closeParen)
  have hcall : Written 0 [token (.name "f"), left, right] (.call "f" [] 1) :=
    .call rfl (.empty rfl rfl)
  have hline : Lines (Written 0) (left :: ([token (.name "f"), left, right] ++ [right]))
      [.expression (.call "f" [] 1) 1] :=
    .last (.expression (.group rfl hcall rfl))
  obtain ⟨q, hq, _⟩ := h _ (by simpa using Stmt.CallsAlone.call) _ (token .endOfInput) hline rfl
  cases hq

end Stmt

end Scriptlet
