import Scriptlet.Proofs.Grammar

namespace Scriptlet.Parser

variable {α β : Type} {tokens rest : List Token}

/-- The parser takes this value from the tokens and leaves the rest. -/
def Reads (p : Parser α) (tokens : List Token) (a : α) (rest : List Token) : Prop :=
  p.parse tokens = (.ok a, rest)

@[simp]
theorem reads_pure {a b : α} : (pure a : Parser α).Reads tokens b rest ↔ a = b ∧ tokens = rest := by
  simp [Reads]

@[simp]
theorem reads_throw {e : ParseError} {a : α} : ¬(throw e : Parser α).Reads tokens a rest := by
  simp [Reads]

@[simp]
theorem reads_get {ts : List Token} :
    (get : Parser (List Token)).Reads tokens ts rest ↔ tokens = ts ∧ tokens = rest := by
  simp [Reads]

@[simp]
theorem reads_set {ts : List Token} {u : PUnit} :
    (set ts : Parser PUnit).Reads tokens u rest ↔ ts = rest := by
  simp [Reads]

@[simp]
theorem reads_modify {change : List Token → List Token} {u : PUnit} :
    (modify change : Parser PUnit).Reads tokens u rest ↔ change tokens = rest := by
  simp [Reads]

@[simp]
theorem reads_bind {p : Parser α} {q : α → Parser β} {b : β} :
    (p >>= q).Reads tokens b rest ↔
      ∃ a mid, p.Reads tokens a mid ∧ (q a).Reads mid b rest := by
  simp only [Reads, parse_bind]
  rcases p.parse tokens with ⟨_ | a, mid⟩ <;> simp [and_assoc]

@[simp]
theorem reads_map {p : Parser α} {f : α → β} {b : β} :
    (f <$> p).Reads tokens b rest ↔ ∃ a, p.Reads tokens a rest ∧ f a = b := by
  rw [map_eq_pure_bind, reads_bind]
  simp only [reads_pure]
  constructor
  · rintro ⟨a, mid, h, rfl, rfl⟩
    exact ⟨a, h, rfl⟩
  · rintro ⟨a, h, rfl⟩
    exact ⟨a, rest, h, rfl, rfl⟩

@[simp]
theorem reads_discard {p : Parser α} {u : PUnit} :
    (discard p).Reads tokens u rest ↔ ∃ a, p.Reads tokens a rest := by
  have h : discard p = (fun _ => ()) <$> p := rfl
  simp [h]

@[simp]
theorem reads_ite {c : Prop} [Decidable c] {p q : Parser α} {a : α} :
    (if c then p else q).Reads tokens a rest ↔
      c ∧ p.Reads tokens a rest ∨ ¬c ∧ q.Reads tokens a rest := by
  by_cases h : c <;> simp [h]

@[simp]
theorem reads_peek {t : Token} :
    peek.Reads tokens t rest ↔ (∃ more, tokens = t :: more) ∧ tokens = rest := by
  cases tokens <;> simp [peek, and_assoc]

@[simp]
theorem reads_next {t : Token} : next.Reads tokens t rest ↔ tokens = t :: rest := by
  cases tokens <;> simp [next, and_assoc, and_comm]

@[simp]
theorem reads_expect {kind : Token.Kind} {t : Token} :
    (expect kind).Reads tokens t rest ↔ tokens = t :: rest ∧ t.kind = kind := by
  cases tokens with
  | nil => simp [expect]
  | cons u us =>
    simp [expect, and_assoc]
    grind

@[simp]
theorem reads_name {s : String} :
    name.Reads tokens s rest ↔ ∃ t, tokens = t :: rest ∧ t.kind = .name s := by
  simp only [name, reads_bind, reads_next]
  constructor
  · rintro ⟨t, mid, rfl, h⟩
    split at h
    · grind [reads_pure]
    · simp at h
  · rintro ⟨t, rfl, ht⟩
    exact ⟨t, rest, rfl, by simp [ht]⟩

@[simp]
theorem reads_typeTag {tag : TypeTag} :
    typeTag.Reads tokens tag rest ↔ ∃ t, tokens = t :: rest ∧ t.kind = .typeTag tag := by
  simp only [typeTag, reads_bind, reads_next]
  constructor
  · rintro ⟨t, mid, rfl, h⟩
    split at h
    · grind [reads_pure]
    · simp at h
  · rintro ⟨t, rfl, ht⟩
    exact ⟨t, rest, rfl, by simp [ht]⟩

@[simp]
theorem reads_take? {kind : Token.Kind} {b : Bool} :
    (take? kind).Reads tokens b rest ↔
      ∃ t more, tokens = t :: more ∧
        (t.kind = kind ∧ b = true ∧ rest = more ∨ t.kind ≠ kind ∧ b = false ∧ rest = tokens) := by
  cases tokens with
  | nil => simp [take?, at?]
  | cons u us =>
    simp [take?, at?, and_assoc]
    grind

@[simp]
theorem reads_followedBy {kind : Token.Kind} {b : Bool} :
    (followedBy kind).Reads tokens b rest ↔
      (tokens[1]?.any fun t => t.kind = kind) = b ∧ tokens = rest := by
  rcases tokens with _ | ⟨t, _ | ⟨u, more⟩⟩ <;> simp [followedBy, and_assoc]

@[simp]
theorem reads_literal {value : Value} {e : Expr} :
    (literal value).Reads tokens e rest ↔ ∃ t, tokens = t :: rest ∧ .literal value t.line = e := by
  simp [literal]

/-- What `leave` does behind its word. -/
def leaveBehind (bound : Nat) (line : Nat) : Parser Stmt := do
  if Grammar.endsReturn (← peek).kind then return .leave none line
  return .leave (some (← expression bound)) line

theorem leave_eq {bound : Nat} :
    leave bound = expect (.keyword .returnWord) >>= fun word => leaveBehind bound word.line := by
  refine bind_congr fun word => bind_congr fun u => ?_
  split <;> simp_all [Grammar.endsReturn]

end Scriptlet.Parser
