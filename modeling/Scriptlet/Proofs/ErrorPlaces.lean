import Scriptlet.Proofs.Invariant
import Scriptlet.Proofs.Mistakes
import Scriptlet.Proofs.ParseJoin
import Scriptlet.Proofs.Positions
import Scriptlet.Proofs.Requests
import Scriptlet.Proofs.Store

namespace Scriptlet

/-- A place on a line of the text, no further than right behind its last character. -/
structure Position.Inside (p : Position) (text : List Char) : Prop where
  line : 1 ≤ p.line ∧ p.line ≤ 1 + text.count '\n'
  column : ∃ line, (text.splitOn '\n')[p.line - 1]? = some line ∧
    1 ≤ p.column ∧ p.column ≤ 1 + line.length

/-- The error lies inside the text. -/
inductive Error.Inside (text : String) : Error → Prop where
  | scan {e : ScanError} (place : e.position.Inside text.toList) : Inside text (.scan e)
  | parse {e : ParseError} {p : Position} (hp : e.position? = some p)
      (place : p.Inside text.toList) : Inside text (.parse e)
  | runtime {e : RuntimeError} {body : List Stmt} (read : Stmt.ofText text = .ok body)
      (node : e.line ∈ body.flatMap Stmt.lines)
      (line : 1 ≤ e.line ∧ e.line ≤ 1 + text.toList.count '\n') : Inside text (.runtime e)

namespace Position

theorem splitOn_cons (c : Char) (rest : List Char) :
    (c :: rest).splitOn '\n' =
      if c = '\n' then [] :: rest.splitOn '\n' else (rest.splitOn '\n').modifyHead (c :: ·) := by
  simp only [List.splitOn_eq_splitOnP, List.splitOnP_cons_eq_if_modifyHead, beq_iff_eq]

/-- Where a text breaks off, the characters behind its last line feed and the rest of that line make
up one line. -/
theorem drop_splitOn (before : List Char) {rest line : List Char} {more : List (List Char)}
    (h : rest.splitOn '\n' = line :: more) :
    ((before ++ rest).splitOn '\n').drop (before.count '\n') =
      ((before.reverse.takeWhile (· ≠ '\n')).reverse ++ line) :: more := by
  induction before using List.reverseRecOn generalizing rest line more with
  | nil => simpa using h
  | append_singleton before c ih =>
    rw [List.append_assoc, List.singleton_append]
    by_cases hc : c = '\n'
    · subst hc
      have hrest : ('\n' :: rest).splitOn '\n' = [] :: line :: more := by
        rw [splitOn_cons, if_pos rfl, h]
      rw [List.count_append, List.count_singleton_self, ← List.drop_drop, ih hrest]
      simp
    · have hrest : (c :: rest).splitOn '\n' = (c :: line) :: more := by
        rw [splitOn_cons, if_neg hc, h, List.modifyHead_cons]
      have hcount : (before ++ [c]).count '\n' = before.count '\n' := by simp [hc]
      rw [hcount, ih hrest]
      simp [hc]

theorem inside_behind (before rest : List Char) : (behind before).Inside (before ++ rest) := by
  obtain ⟨line, more, h⟩ := List.exists_cons_of_ne_nil (List.splitOn_ne_nil '\n' rest)
  have hdrop := drop_splitOn before h
  refine ⟨⟨Nat.le_add_right 1 _, ?_⟩, (before.reverse.takeWhile (· ≠ '\n')).reverse ++ line, ?_,
    Nat.le_add_right 1 _, ?_⟩
  · rw [List.count_append]
    exact Nat.add_le_add_left (Nat.le_add_right _ _) 1
  · rw [behind, Nat.add_sub_cancel_left, ← List.head?_drop, hdrop, List.head?_cons]
  · simp only [behind, List.length_append, List.length_reverse]
    omega

end Position

namespace Token

open Pattern

theorem exists_front_of_mem_placed {before : List Char} {pieces : List Piece} {t : Token}
    (h : t ∈ placed before pieces) :
    ∃ front rest, joined pieces = front ++ rest ∧ t.position = .behind (before ++ front) := by
  induction pieces generalizing before with
  | nil => simp [placed] at h
  | cons piece pieces ih =>
    rw [placed, List.mem_append] at h
    rcases h with here | later
    · obtain ⟨kind, _, rfl⟩ : ∃ kind, piece.lexeme.kind? = some kind ∧
          ⟨kind, .behind before⟩ = t := by simpa using here
      exact ⟨[], joined (piece :: pieces), rfl, by simp⟩
    · obtain ⟨front, rest, hj, hp⟩ := ih later
      refine ⟨piece.text ++ front, rest, ?_, by simpa using hp⟩
      rw [joined_cons, hj, List.append_assoc]

theorem inside_of_scan_error {text : String} {e : ScanError} (h : scan text = .error e) :
    e.position.Inside text.toList := by
  obtain ⟨pieces, failure, rest, _, hsplit, _, hscan⟩ := exists_answer text
  rw [h] at hscan
  cases failure with
  | none => cases hscan
  | some cause =>
    cases hscan
    rw [hsplit]
    exact Position.inside_behind _ _

theorem inside_of_scan {text : String} {tokens : List Token} (h : scan text = .ok tokens) :
    Parser.Ended tokens ∧ ∀ t ∈ tokens, t.position.Inside text.toList := by
  obtain ⟨pieces, _, hjoined, rfl⟩ := exists_cutting_of_scan h
  refine ⟨⟨_, List.mem_append_right _ (List.mem_singleton_self _), rfl⟩, fun t ht => ?_⟩
  rcases List.mem_append.mp ht with ht | ht
  · obtain ⟨front, more, hj, hp⟩ := exists_front_of_mem_placed ht
    rw [← hjoined, hj, hp]
    exact Position.inside_behind _ _
  · obtain rfl := List.mem_singleton.mp ht
    have hlast := Position.inside_behind text.toList []
    rwa [List.append_nil] at hlast

end Token

namespace Stmt

open Grammar

/-- An error of the parser is about one of the tokens. -/
theorem exists_found {tokens : List Token} {e : ParseError} (hend : Parser.Ended tokens)
    (h : ofTokens tokens = .error e) : ∃ bad ∈ tokens, e.found? = some bad := by
  have hsettled := (Parser.predictive_statementsUntilEnd []).settled hend (Nat.le_refl _)
  unfold ofTokens at h
  generalize (Parser.statementsUntilEnd tokens.length []).parse tokens = outcome at h hsettled
  cases hsettled with
  | read => cases h
  | fail found =>
    cases h
    exact ⟨_, by simp, found⟩

/-- Every node has the line of a token. If lines that no token has are changed, the tokens stay the
same, and so the tree has to stay the same too. -/
theorem exists_token_of_mem_lines {tokens : List Token} {body : List Stmt} {line : Nat}
    (h : ofTokens tokens = .ok body) (hl : line ∈ body.flatMap Stmt.lines) :
    ∃ t ∈ tokens, t.line = line := by
  let f (l : Nat) : Nat := if l ∈ tokens.map Token.line then l else l + 1
  have stays : ∀ t ∈ tokens, t.mapLine f = t := by
    intro t ht
    have hf : f t.position.line = t.position.line := if_pos (List.mem_map_of_mem ht)
    simp only [Token.mapLine, Position.mapLine, hf]
  obtain ⟨rest, hrest⟩ := exists_upToEnd tokens
  have same : (upToEnd tokens).map (Token.mapLine f) = upToEnd tokens := by
    refine (List.map_congr_left fun t ht => ?_).trans (List.map_id _)
    exact stays t (hrest ▸ List.mem_append_left rest ht)
  have hp := (program_of_ofTokens h).mapLine (f := f)
  rw [same] at hp
  have hbody := ofTokens_of_program hp rest
  rw [← hrest, h] at hbody
  have hlines : (body.flatMap Stmt.lines).map f = (body.flatMap Stmt.lines).map id := by
    rw [← flatMap_map_lines f fun s _ => s.lines_mapLines f, ← Except.ok.inj hbody, List.map_id]
  have hf : f line = line := List.map_inj_left.mp hlines line hl
  by_contra hn
  have hn' : line ∉ tokens.map Token.line := by simpa using hn
  rw [show f line = line + 1 from if_neg hn'] at hf
  exact Nat.succ_ne_self line hf

theorem ofText_error_inside {text : String} {e : Error} (h : ofText text = .error e) :
    e ≠ .parse .unexpectedEndOfInput ∧ e.Inside text := by
  unfold ofText at h
  split at h
  · rename_i e' hscan
    cases h
    exact ⟨by simp, .scan (Token.inside_of_scan_error hscan)⟩
  · rename_i tokens hscan
    obtain ⟨hend, hinside⟩ := Token.inside_of_scan hscan
    split at h
    · rename_i e' hparse
      cases h
      obtain ⟨bad, hbad, hfound⟩ := exists_found hend hparse
      have hplace := (ParseError.message_of_found hfound).1
      refine ⟨?_, .parse hplace (hinside bad hbad)⟩
      intro hrun
      cases hrun
      cases hfound
    · cases h

end Stmt

namespace Session

variable {s t : Session}

/-- The program text that a session holds has only these lines. -/
def written (lines : Nat → Prop) : Invariant where
  session s := ∀ name f, (name, f) ∈ s.functions → ∀ line ∈ f.body.flatMap Stmt.lines, lines line
  scope _ _ := True
  line := lines

theorem written_kept (lines : Nat → Prop) : (written lines).Kept where
  function hs hf := ⟨trivial, hs _ _ (mem_functions hf)⟩
  openScope hs _ := ⟨⟨hs, fun _ _ => trivial⟩, trivial⟩
  define _ _ hs _ := ⟨hs, fun _ _ => trivial⟩
  reassign _ _ hs _ := ⟨hs, fun _ _ => trivial⟩
  declare {s f} name hs _ hf := by
    refine ⟨fun key g hm => ?_, fun _ _ => trivial⟩
    rcases mem_declare hm with he | hm
    · obtain ⟨rfl, rfl⟩ := Prod.mk.inj he
      exact hf
    · exact hs key g hm
  print text hs := by
    rw [print_session]
    exact ⟨hs, fun _ _ => trivial⟩

/-- What a program reports while it runs has the line of one of its nodes. -/
theorem mem_lines_of_finishes {body : List Stmt} {sink : Sink} {a : Answer .program}
    {e : RuntimeError} (h : Finishes (.ofTask (.program body) ⟨.start, [], sink⟩) a)
    (he : a.outcome = .error e) : e.line ∈ body.flatMap Stmt.lines := by
  let I := written (· ∈ body.flatMap Stmt.lines)
  have always : I.session ⟨.start, [], sink⟩ := fun _ _ hm => absurd hm List.not_mem_nil
  have pre : I.contract.pre (.program body) ⟨.start, [], sink⟩ := ⟨trivial, fun _ hl => hl⟩
  obtain ⟨_, _, hl⟩ := (written_kept _).fulfilled.finishes always pre h
  obtain ⟨_, t⟩ := a
  cases he
  exact hl e.line rfl

/-- Every error of a program lies inside its text. It never says that the tokens have run out, and
one that is raised while the program runs has the line of one of its nodes. -/
theorem run_error_inside {fuel : Nat} {text : String} {sink : Sink} {e : Error} {t : Session}
    (h : Session.run fuel text ⟨.start, [], sink⟩ = some (.error e, t)) :
    e ≠ .parse .unexpectedEndOfInput ∧ e.Inside text := by
  simp only [run, completeText] at h
  split at h
  · rename_i e' hread
    cases h
    exact Stmt.ofText_error_inside hread
  · rename_i body hread
    obtain ⟨⟨outcome, t⟩, ha, he⟩ := Option.map_eq_some_iff.mp h
    have hfinish := finishes_of_complete ha
    cases outcome with
    | ok r => cases he
    | error e' =>
      cases he
      have node := mem_lines_of_finishes hfinish rfl
      obtain ⟨tokens, hscan, hparse⟩ := Stmt.ofText_eq_ok_iff.mp hread
      obtain ⟨token, ht, hl⟩ := Stmt.exists_token_of_mem_lines hparse node
      have place := (Token.inside_of_scan hscan).2 token ht
      exact ⟨by simp, .runtime hread node (hl ▸ place.line)⟩

/-- For one, of a call whose function reads what it cannot see. -/
theorem run_error_inside_call :
    ∃ e t, Session.run 99 "fn f() \x7b print(x) \x7d\nf()" {} = some (.error e, t) ∧
      e.Inside "fn f() \x7b print(x) \x7d\nf()" := by
  have h : (Session.run 99 "fn f() \x7b print(x) \x7d\nf()" {}).any (·.1.toOption.isNone) := by
    decide +kernel
  obtain ⟨⟨r, t⟩, ht, hr⟩ := (Option.any_eq_true _ _).mp h
  cases r with
  | ok _ => cases hr
  | error e => exact ⟨e, t, ht, (run_error_inside ht).2⟩

end Session

end Scriptlet
