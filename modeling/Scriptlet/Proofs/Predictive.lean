import Scriptlet.Proofs.Derivation
import Scriptlet.Proofs.Lookahead

namespace Scriptlet

/-- The token that an error is about. -/
def ParseError.found? : ParseError → Option Token
  | .unexpectedToken _ found | .invalidStatement found | .expectedType found
  | .unexpectedTokenInExpression found => some found
  | .unexpectedEndOfInput => none

/-- How many tokens an error depends on behind the one that it is about. A name starts no statement
because of the token behind it. -/
def ParseError.lookahead : ParseError → Nat
  | .invalidStatement ⟨.name _, _⟩ => 1
  | _ => 0

namespace Parser

open Grammar

/-- The token for the end is among the tokens. -/
def Ended (tokens : List Token) : Prop :=
  ∃ t ∈ tokens, t.kind = .endOfInput

theorem Ended.exists_cons {tokens : List Token} (h : Ended tokens) :
    ∃ t more, tokens = t :: more := by
  obtain ⟨t, ht, _⟩ := h
  exact List.exists_cons_of_ne_nil (List.ne_nil_of_mem ht)

theorem Ended.behind {ts rest : List Token} (h : Ended (ts ++ rest)) (hts : Clean ts) :
    Ended rest := by
  obtain ⟨t, ht, hk⟩ := h
  rcases List.mem_append.mp ht with hm | hm
  · exact absurd hk (hts t hm)
  · exact ⟨t, hm, hk⟩

section Notions

variable {ι α : Type}

/-- The outcome of a parser, seen together with other inputs that begin alike. The copies are the
same parser with other bounds, and `cap` tells how many tokens are too many for them. What is read
is read by the copies too if enough of what follows is the same. Where the parser fails, the tokens
before the one it names begin a phrase of `G`, and the copies fail alike whatever stands behind. -/
inductive Settled (cap : ι → Nat) (Shown : List Token → Prop) (copy : ι → Parser α)
    (G : List Token → α → Prop) : List Token → Except ParseError α × List Token → Prop where
  | read {ts rest : List Token} {a : α} (clean : Clean ts)
      (copies : ∀ j z y y', rest = z ++ y → Shown z → ts.length < cap j →
        (copy j).Reads (ts ++ (z ++ y')) a (z ++ y')) :
      Settled cap Shown copy G (ts ++ rest) (.ok a, rest)
  | fail {pre post rest : List Token} {bad : Token} {e : ParseError} (found : e.found? = some bad)
      (viable : ∃ us a, G (pre ++ us) a)
      (copies : ∀ j us, pre.length < cap j → ∃ rest,
        (copy j).parse (pre ++ bad :: (post.take e.lookahead ++ us)) = (.error e, rest)) :
      Settled cap Shown copy G (pre ++ bad :: post) (.error e, rest)

/-- One token is enough to see. -/
def Next (z : List Token) : Prop :=
  z ≠ []

/-- A parser for the phrases of `G` whose outcomes are settled on up to `m` tokens. -/
structure Predictive (cap : ι → Nat) (Shown : List Token → Prop) (m : Nat) (p : Parser α)
    (copy : ι → Parser α) (G : List Token → α → Prop) : Prop where
  viable : ∃ ts a, G ts a
  settled : ∀ {tokens}, Ended tokens → tokens.length ≤ m →
    Settled cap Shown copy G tokens (p.parse tokens)

end Notions

theorem Sound.taken {α : Type} {p : Parser α} {G : List Token → α → Prop} (h : Sound p G)
    {ts rest : List Token} {a : α} (hr : p.Reads (ts ++ rest) a rest) : G ts a := by
  obtain ⟨us, hus, ha⟩ := h hr
  rwa [List.append_cancel_right hus]

section Rules

variable {ι κ α β : Type} {cap : ι → Nat} {cap' : κ → Nat} {Shown : List Token → Prop} {m : Nat}
  {p : Parser α} {copy : ι → Parser α} {G : List Token → α → Prop}

/-- The phrases may be changed, as long as what begins one begins the other. -/
theorem Settled.mono {outcome : Except ParseError α × List Token} {tokens : List Token}
    {G' : List Token → α → Prop} (h : Settled cap Shown copy G tokens outcome)
    (hG : ∀ {pre post us a}, tokens = pre ++ post → G (pre ++ us) a → ∃ vs b, G' (pre ++ vs) b) :
    Settled cap Shown copy G' tokens outcome := by
  cases h with
  | read clean copies => exact .read clean copies
  | fail found viable copies =>
    obtain ⟨us, a, ha⟩ := viable
    exact .fail found (hG rfl ha) copies

/-- One may ask to see more. -/
theorem Settled.shown {outcome : Except ParseError α × List Token} {tokens : List Token}
    {Shown' : List Token → Prop} (hS : ∀ {z}, Shown' z → Shown z)
    (h : Settled cap Shown copy G tokens outcome) : Settled cap Shown' copy G tokens outcome := by
  cases h with
  | read clean copies => exact .read clean fun j z y y' hz hs hj => copies j z y y' hz (hS hs) hj
  | fail found viable copies => exact .fail found viable copies

/-- Tokens that a parser goes past, leaving the rest to another parser. -/
theorem Settled.behind {front more : List Token} {outcome : Except ParseError α × List Token}
    {copy' : κ → Parser α} (hf : Clean front)
    (hc : ∀ j, front.length < cap j → ∃ i, cap j ≤ cap' i + front.length ∧
      ∀ us, (copy j).parse (front ++ us) = (copy' i).parse us)
    (h : Settled cap' Shown copy' (fun us a => G (front ++ us) a) more outcome) :
    Settled cap Shown copy G (front ++ more) outcome := by
  cases h with
  | @read ts rest a clean copies =>
    rw [← List.append_assoc]
    refine .read (clean_append.mpr ⟨hf, clean⟩) ?_
    intro j z y y' hz hs hn
    rw [List.length_append] at hn
    obtain ⟨i, hi, hparse⟩ := hc j (by omega)
    have hread := copies i z y y' hz hs (by omega)
    rw [List.append_assoc]
    exact (hparse _).trans hread
  | @fail pre post rest bad e found viable copies =>
    rw [← List.append_assoc]
    refine .fail found ?_ ?_
    · obtain ⟨us, a, ha⟩ := viable
      exact ⟨us, a, by rwa [List.append_assoc]⟩
    · intro j us hn
      rw [List.length_append] at hn
      obtain ⟨i, hi, hparse⟩ := hc j (by omega)
      obtain ⟨rest, hfail⟩ := copies i us (by omega)
      exact ⟨rest, by rw [List.append_assoc, hparse, hfail]⟩

/-- Fewer copies, or copies for fewer tokens. -/
theorem Settled.weaken (f : κ → ι) (hcap : ∀ k, cap' k ≤ cap (f k)) {tokens : List Token}
    {outcome : Except ParseError α × List Token} (h : Settled cap Shown copy G tokens outcome) :
    Settled cap' Shown (fun k => copy (f k)) G tokens outcome :=
  .behind clean_nil (fun k _ => ⟨f k, hcap k, fun _ => rfl⟩) h

/-- The same outcomes, where what is left matters only behind a value. -/
def SameResult (x y : Except ParseError α × List Token) : Prop :=
  x = y ∨ ∃ e, x.1 = .error e ∧ y.1 = .error e

theorem SameResult.refl (x : Except ParseError α × List Token) : SameResult x x :=
  .inl rfl

theorem Settled.ofSame {tokens : List Token} {x y : Except ParseError α × List Token}
    (hxy : SameResult x y) (h : Settled cap Shown copy G tokens y) :
    Settled cap Shown copy G tokens x := by
  rcases hxy with rfl | ⟨e, hx, hy⟩
  · exact h
  · cases h with
    | read => cases hy
    | fail found viable copies =>
      cases hy
      rw [show x = (.error e, x.2) from Prod.ext hx rfl]
      exact .fail found viable copies

/-- The first token tells that a parser does as another one does. -/
theorem Settled.led {t : Token} {more : List Token} {outcome : Except ParseError α × List Token}
    {copy' : κ → Parser α} (hS : ∀ {z}, Shown z → z ≠ [])
    (hc : ∀ j, 0 < cap j → ∃ i, cap j ≤ cap' i ∧
      ∀ us, SameResult ((copy j).parse (t :: us)) ((copy' i).parse (t :: us)))
    (h : Settled cap' Shown copy' G (t :: more) outcome) :
    Settled cap Shown copy G (t :: more) outcome := by
  generalize htokens : t :: more = tokens at h
  cases h with
  | @read ts rest a clean copies =>
    refine .read clean ?_
    intro j z y y' hz hs hn
    obtain ⟨i, hi, hparse⟩ := hc j (by omega)
    have hread := copies i z y y' hz hs (by omega)
    obtain ⟨us, hus⟩ : ∃ us, ts ++ (z ++ y') = t :: us := by
      obtain ⟨u, z, rfl⟩ := List.exists_cons_of_ne_nil (hS hs)
      cases ts <;> simp_all
    rw [hus] at hread ⊢
    unfold Reads at hread ⊢
    rcases hparse us with heq | ⟨e, _, he⟩
    · rw [heq, hread]
    · simp [hread] at he
  | @fail pre post rest bad e found viable copies =>
    refine .fail found viable ?_
    intro j us hn
    obtain ⟨i, hi, hparse⟩ := hc j (by omega)
    obtain ⟨rest, hfail⟩ := copies i us (by omega)
    obtain ⟨vs, hvs⟩ : ∃ vs, pre ++ bad :: (post.take e.lookahead ++ us) = t :: vs := by
      cases pre <;> simp_all
    rw [hvs] at hfail ⊢
    rcases hparse vs with heq | ⟨e', he, he'⟩
    · exact ⟨rest, heq.trans hfail⟩
    · obtain rfl : e = e' := by simpa [hfail] using he'
      exact ⟨_, Prod.ext he rfl⟩

/-- A failure at the first token. -/
theorem Settled.refuse {t : Token} {more rest : List Token} {e : ParseError}
    (found : e.found? = some t) (viable : ∃ us a, G us a)
    (hc : ∀ j us, 0 < cap j →
      ∃ rest, (copy j).parse (t :: (more.take e.lookahead ++ us)) = (.error e, rest)) :
    Settled cap Shown copy G ([] ++ t :: more) (.error e, rest) :=
  .fail found viable hc

/-- A value at the first token, which is taken. -/
theorem Settled.take {t : Token} {more : List Token} {a : α} (ht : t.kind ≠ .endOfInput)
    (hc : ∀ j us, 0 < cap j → (copy j).parse (t :: us) = (.ok a, us)) :
    Settled cap Shown copy G ([t] ++ more) (.ok a, more) := by
  refine .read (by simp [ht]) ?_
  intro j z y y' _ _ hn
  exact hc j _ (Nat.zero_lt_of_lt hn)

/-- A value that the token behind it tells, where that token is left. -/
theorem Settled.peek {front more : List Token} {t : Token} {a : α} (hf : Clean front)
    (hc : ∀ j us, front.length < cap j → (copy j).parse (front ++ t :: us) = (.ok a, t :: us)) :
    Settled cap Next copy G (front ++ t :: more) (.ok a, t :: more) := by
  refine .read hf ?_
  intro j z y y' hz hs hj
  obtain ⟨u, z, rfl⟩ := List.exists_cons_of_ne_nil hs
  obtain ⟨rfl, _⟩ := List.cons.inj hz
  exact hc j _ hj

/-- Copies that read nothing can be left out. -/
theorem Settled.restrict (f : κ → ι) (hf : ∀ j, 0 < cap j → ∃ k, j = f k) {tokens : List Token}
    {outcome : Except ParseError α × List Token}
    (h : Settled (fun k => cap (f k)) Shown (fun k => copy (f k)) G tokens outcome) :
    Settled cap Shown copy G tokens outcome := by
  refine .behind clean_nil (fun j hj => ?_) h
  obtain ⟨k, rfl⟩ := hf j hj
  exact ⟨k, Nat.le_refl _, fun _ => rfl⟩

/-- So can those with no bound left. -/
theorem Settled.ofSucc {copy : Nat → Parser α} {tokens : List Token}
    {outcome : Except ParseError α × List Token}
    (h : Settled (fun b => b + 1) Shown (fun b => copy (b + 1)) G tokens outcome) :
    Settled id Shown copy G tokens outcome :=
  .restrict (fun b => b + 1) (fun _ hj => Nat.exists_eq_add_one.mpr hj) h

theorem Settled.ofSuccBound {copy : ι × Nat → Parser α} {tokens : List Token}
    {outcome : Except ParseError α × List Token}
    (h : Settled (fun k : ι × Nat => min (cap k.1) (k.2 + 1)) Shown
      (fun k => copy (k.1, k.2 + 1)) G tokens outcome) :
    Settled (fun k : ι × Nat => min (cap k.1) k.2) Shown copy G tokens outcome := by
  refine .restrict (fun k : ι × Nat => (k.1, k.2 + 1)) (fun j hj => ?_) h
  obtain ⟨i, b⟩ := j
  obtain ⟨b, rfl⟩ := Nat.exists_eq_add_one.mpr (Nat.lt_of_lt_of_le hj (Nat.min_le_right _ _))
  exact ⟨(i, b), rfl⟩

/-- Fewer tokens, fewer copies, or copies for fewer tokens. -/
theorem Predictive.weaken {m' : Nat} (f : κ → ι) (hm : m' ≤ m) (hcap : ∀ k, cap' k ≤ cap (f k))
    (h : Predictive cap Shown m p copy G) :
    Predictive cap' Shown m' p (fun k => copy (f k)) G where
  viable := h.viable
  settled hend hlen := (h.settled hend (Nat.le_trans hlen hm)).weaken f hcap

/-- One parser behind another one. What the first one reads counts as room for the second. -/
theorem Settled.bind {tokens : List Token} {q : α → Parser β} {copy' : α → ι → Parser β}
    {H : List Token → β → Prop} (hS : ∀ {z}, Shown z → z ≠ [])
    (hp : Settled cap Next copy G tokens (p.parse tokens))
    (hfail : ∀ {ts a}, G ts a → ∃ us b, H (ts ++ us) b)
    (hq : ∀ {ts a mid}, tokens = ts ++ mid → Clean ts → p.Reads tokens a mid →
      ∃ room : ι → Nat, (∀ j, cap j ≤ room j + ts.length) ∧
        Settled room Shown (copy' a) (fun us b => H (ts ++ us) b) mid ((q a).parse mid)) :
    Settled cap Shown (fun j => copy j >>= fun a => copy' a j) H tokens
      ((p >>= q).parse tokens) := by
  rw [parse_bind]
  generalize hparse : p.parse tokens = outcome at hp
  cases hp with
  | @fail pre post rest bad e found viable copies =>
    refine .fail found ?_ ?_
    · obtain ⟨us, a, ha⟩ := viable
      obtain ⟨vs, b, hb⟩ := hfail ha
      exact ⟨us ++ vs, b, by rwa [← List.append_assoc]⟩
    · intro j us hn
      obtain ⟨rest, hfail⟩ := copies j us hn
      exact ⟨rest, by rw [parse_bind, hfail]⟩
  | @read ts mid a clean copies =>
    obtain ⟨room, hroom, hsecond⟩ := hq rfl clean hparse
    dsimp only
    generalize (q a).parse mid = outcome at hsecond
    cases hsecond with
    | @read us rest b clean' copies' =>
      rw [← List.append_assoc]
      refine .read (clean_append.mpr ⟨clean, clean'⟩) ?_
      intro j z y y' hz hs hn
      rw [List.length_append] at hn
      have hj := hroom j
      have hz' : us ++ rest = (us ++ z) ++ y := by rw [hz, List.append_assoc]
      have hfirst := copies j (us ++ z) y y' hz' (by simp [Next, hS hs]) (by omega)
      have hread := copies' j z y y' hz hs (by omega)
      rw [reads_bind]
      refine ⟨a, us ++ (z ++ y'), ?_, hread⟩
      simpa using hfirst
    | @fail pre post rest bad e found viable copies' =>
      rw [← List.append_assoc]
      refine .fail found ?_ ?_
      · obtain ⟨vs, b, hb⟩ := viable
        exact ⟨vs, b, by rwa [List.append_assoc]⟩
      · intro j vs hn
        rw [List.length_append] at hn
        have hj := hroom j
        obtain ⟨rest, hfail⟩ := copies' j vs (by omega)
        have hz : pre ++ bad :: post =
            (pre ++ bad :: post.take e.lookahead) ++ post.drop e.lookahead := by simp
        have hfirst := copies j _ _ vs hz (by simp [Next]) (by omega)
        refine ⟨rest, ?_⟩
        have hread : (copy j).parse (ts ++ (pre ++ bad :: (post.take e.lookahead ++ vs))) =
            (.ok a, pre ++ bad :: (post.take e.lookahead ++ vs)) := by simpa [Reads] using hfirst
        rw [parse_bind, List.append_assoc, hread]
        exact hfail

theorem Predictive.bind {q : α → Parser β} {copy' : α → ι → Parser β} {H : List Token → β → Prop}
    (hS : ∀ {z}, Shown z → z ≠ []) (hp : Predictive cap Next m p copy G) (sound : Sound p G)
    (hq : ∀ {ts a}, G ts a →
      Predictive cap Shown m (q a) (copy' a) (fun us b => H (ts ++ us) b)) :
    Predictive cap Shown m (p >>= q) (fun j => copy j >>= fun a => copy' a j) H where
  viable := by
    obtain ⟨ts, a, ha⟩ := hp.viable
    obtain ⟨us, b, hb⟩ := (hq ha).viable
    exact ⟨ts ++ us, b, hb⟩
  settled {tokens} hend hm := by
    refine .bind hS (hp.settled hend hm) (fun ha => (hq ha).viable) ?_
    rintro ts a mid rfl hclean hread
    rw [List.length_append] at hm
    exact ⟨cap, fun j => Nat.le_add_right _ _,
      (hq (sound.taken hread)).settled (hend.behind hclean) (by omega)⟩

theorem Settled.map {tokens : List Token} {H : List Token → β → Prop} (f : α → β)
    (h : Settled cap Shown copy G tokens (p.parse tokens))
    (hf : ∀ {ts a}, G ts a → H ts (f a)) :
    Settled cap Shown (fun j => copy j >>= fun a => Pure.pure (f a)) H tokens
      ((p >>= fun a => Pure.pure (f a)).parse tokens) := by
  rw [parse_bind]
  generalize p.parse tokens = outcome at h
  cases h with
  | read clean copies =>
    refine .read clean ?_
    intro j z y y' hz hs hn
    exact reads_bind.mpr ⟨_, _, copies j z y y' hz hs hn, reads_pure.mpr ⟨rfl, rfl⟩⟩
  | fail found viable copies =>
    obtain ⟨us, a, ha⟩ := viable
    refine .fail found ⟨us, f a, hf ha⟩ ?_
    intro j us hn
    obtain ⟨rest, hfail⟩ := copies j us hn
    exact ⟨rest, by rw [parse_bind, hfail]⟩

theorem Predictive.map {H : List Token → β → Prop} (f : α → β)
    (h : Predictive cap Shown m p copy G) (hf : ∀ {ts a}, G ts a → H ts (f a)) :
    Predictive cap Shown m (p >>= fun a => Pure.pure (f a))
      (fun j => copy j >>= fun a => Pure.pure (f a)) H where
  viable := by
    obtain ⟨ts, a, ha⟩ := h.viable
    exact ⟨ts, f a, hf ha⟩
  settled hend hm := (h.settled hend hm).map f hf

end Rules

section Tokens

variable {ι α : Type} {cap : ι → Nat} {Shown : List Token → Prop} {m : Nat}

@[simp]
theorem parse_next (t : Token) (more : List Token) : next.parse (t :: more) = (.ok t, more) :=
  rfl

@[simp]
theorem parse_peek (t : Token) (more : List Token) : peek.parse (t :: more) = (.ok t, t :: more) :=
  rfl

/-- A parser that takes one token and is content with it or not. -/
theorem Predictive.token {p : Parser α} {G : List Token → α → Prop}
    (accept : Token → Except ParseError α) (hp : ∀ t more, p.parse (t :: more) = (accept t, more))
    (hok : ∀ {t a}, accept t = .ok a → t.kind ≠ .endOfInput)
    (herror : ∀ {t e}, accept t = .error e → e.found? = some t ∧ e.lookahead = 0)
    (viable : ∃ ts a, G ts a) : Predictive cap Shown m p (fun _ => p) G where
  viable := viable
  settled {tokens} hend _ := by
    obtain ⟨t, more, rfl⟩ := hend.exists_cons
    rw [hp]
    cases ht : accept t with
    | ok a => exact .take (hok ht) fun _ us _ => by rw [hp, ht]
    | error e =>
      obtain ⟨hfound, hahead⟩ := herror ht
      exact .refuse hfound viable fun _ us _ => ⟨_, by rw [hp, ht]⟩

/-- One token of this kind. -/
def Exactly (kind : Token.Kind) (ts : List Token) (t : Token) : Prop :=
  ts = [t] ∧ t.kind = kind

def Named (ts : List Token) (s : String) : Prop :=
  ∃ t, ts = [t] ∧ t.kind = .name s

def Tagged (ts : List Token) (tag : TypeTag) : Prop :=
  ∃ t, ts = [t] ∧ t.kind = .typeTag tag

theorem sound_expect {kind : Token.Kind} : Sound (expect kind) (Exactly kind) := by
  intro tokens t rest h
  obtain ⟨rfl, hk⟩ := reads_expect.mp h
  exact ⟨[t], rfl, rfl, hk⟩

theorem sound_name : Sound name Named := by
  intro tokens s rest h
  obtain ⟨t, rfl, hk⟩ := reads_name.mp h
  exact ⟨[t], rfl, t, rfl, hk⟩

theorem predictive_expect {kind : Token.Kind} (hk : kind ≠ .endOfInput) :
    Predictive cap Shown m (expect kind) (fun _ => expect kind) (Exactly kind) := by
  let accept (t : Token) : Except ParseError Token :=
    if t.kind = kind then .ok t else .error (.unexpectedToken (.token kind) t)
  refine .token accept ?_ ?_ ?_ ⟨[⟨kind, {}⟩], _, rfl, rfl⟩
  · intro t more
    by_cases ht : t.kind = kind <;> simp [expect, parse_bind, accept, ht]
  · intro t a h
    by_cases ht : t.kind = kind
    · rwa [ht]
    · simp [accept, ht] at h
  · intro t e h
    by_cases ht : t.kind = kind
    · simp [accept, ht] at h
    · obtain rfl := Except.error.inj ((if_neg ht).symm.trans h)
      exact ⟨rfl, rfl⟩

theorem predictive_name : Predictive cap Shown m name (fun _ => name) Named := by
  let accept (t : Token) : Except ParseError String := (name.parse [t]).1
  refine .token accept ?_ ?_ ?_ ⟨[⟨.name "", {}⟩], "", _, rfl, rfl⟩
  · intro t more
    simp only [name, parse_bind, parse_next, accept]
    split <;> rfl
  · intro t a h hk
    simp [accept, name, parse_bind, parse_next, hk] at h
  · intro t e h
    simp only [accept, name, parse_bind, parse_next] at h
    split at h
    · cases h
    · obtain rfl := Except.error.inj h
      exact ⟨rfl, rfl⟩

theorem predictive_typeTag : Predictive cap Shown m typeTag (fun _ => typeTag) Tagged := by
  let accept (t : Token) : Except ParseError TypeTag := (typeTag.parse [t]).1
  refine .token accept ?_ ?_ ?_ ⟨[⟨.typeTag .int, {}⟩], .int, _, rfl, rfl⟩
  · intro t more
    simp only [typeTag, parse_bind, parse_next, accept]
    split <;> rfl
  · intro t a h hk
    simp [accept, typeTag, parse_bind, parse_next, hk] at h
  · intro t e h
    simp only [accept, typeTag, parse_bind, parse_next] at h
    split at h
    · cases h
    · obtain rfl := Except.error.inj h
      exact ⟨rfl, rfl⟩

theorem parse_take? (kind : Token.Kind) (t : Token) (more : List Token) :
    (take? kind).parse (t :: more) =
      if t.kind = kind then (.ok true, more) else (.ok false, t :: more) := by
  split
  · next ht => exact reads_take?.mpr ⟨t, more, rfl, .inl ⟨ht, rfl, rfl⟩⟩
  · next ht => exact reads_take?.mpr ⟨t, more, rfl, .inr ⟨ht, rfl, rfl⟩⟩

theorem predictive_flag (word : Keyword) :
    Predictive cap Next m (take? (.keyword word)) (fun _ => take? (.keyword word)) (Flag word) where
  viable := ⟨[], false, .absent⟩
  settled {tokens} hend _ := by
    obtain ⟨t, more, rfl⟩ := hend.exists_cons
    rw [parse_take?]
    split
    · next ht => exact .take (by simp [ht]) fun _ us _ => by rw [parse_take?, if_pos ht]
    · next ht => exact .peek clean_nil fun _ us _ => (parse_take? _ t us).trans (if_neg ht)

theorem parse_typeBehind? (mark : Mark) (t : Token) (more : List Token) :
    (typeBehind? mark).parse (t :: more) =
      if t.kind = .mark mark then (typeTag >>= fun tag => pure (some tag)).parse more
      else (.ok none, t :: more) := by
  by_cases ht : t.kind = .mark mark <;> simp [typeBehind?, parse_bind, parse_take?, ht]

theorem predictive_typeBehind (mark : Mark) :
    Predictive cap Next m (typeBehind? mark) (fun _ => typeBehind? mark) (TypeBehind mark) where
  viable := ⟨[], none, .absent⟩
  settled {tokens} hend hm := by
    obtain ⟨t, more, rfl⟩ := hend.exists_cons
    rw [parse_typeBehind?]
    split
    · next ht =>
      have hc : Clean [t] := by simp [ht]
      have htag : Predictive cap Next m (typeTag >>= fun tag => pure (some tag))
          (fun _ => typeTag >>= fun tag => pure (some tag))
          (fun us tag => TypeBehind mark ([t] ++ us) tag) := by
        refine predictive_typeTag.map some ?_
        rintro _ tag ⟨u, rfl, hu⟩
        exact .present ht hu
      refine .behind hc (fun j _ => ⟨j, Nat.le_add_right _ _, fun us => ?_⟩)
        (htag.settled (Ended.behind hend hc) (Nat.le_of_succ_le hm))
      exact (parse_typeBehind? mark t us).trans (if_pos ht)
    · next ht => exact .peek clean_nil fun _ us _ => (parse_typeBehind? _ t us).trans (if_neg ht)

theorem discard_bind {β : Type} (p : Parser α) (q : PUnit → Parser β) :
    (discard p >>= q) = p >>= fun _ => q () := by
  have h : discard p = (fun _ => ()) <$> p := rfl
  rw [h, bind_map_left]

theorem predictive_param : Predictive cap Next m param (fun _ => param) Parameter := by
  unfold param
  simp only [discard_bind]
  refine .bind id predictive_name sound_name ?_
  rintro _ name ⟨t, rfl, hn⟩
  refine .bind id (predictive_expect (by simp)) sound_expect ?_
  rintro _ colon ⟨rfl, hc⟩
  refine predictive_typeTag.map _ ?_
  rintro _ tag ⟨u, rfl, hu⟩
  exact .mk hn hc hu

end Tokens

section Lists

variable {ι α : Type} {cap : ι → Nat} {m bound : Nat} {item : Parser α} {copy : ι → Parser α}
  {Item : List Token → α → Prop}

/-- Items with commas between them and `closing` behind the last. -/
def ItemsUntil (closing : Token.Kind) (Item : List Token → α → Prop) (ts : List Token)
    (as : List α) : Prop :=
  ∃ us t, ts = us ++ [t] ∧ Separated Item us as ∧ t.kind = closing

theorem ItemsUntil.cons {closing : Token.Kind} {ts us : List Token} {comma : Token} {a : α}
    {as : List α} (ha : Item ts a) (hc : comma.kind = .mark .comma)
    (h : ItemsUntil closing Item us as) :
    ItemsUntil closing Item (ts ++ comma :: us) (a :: as) := by
  obtain ⟨us, t, rfl, hs, ht⟩ := h
  exact ⟨ts ++ comma :: us, t, by simp, .more ha hc hs, ht⟩

theorem exists_itemsUntil (closing : Token.Kind) {ts : List Token} {a : α} (ha : Item ts a) :
    ∃ us as, ItemsUntil closing Item (ts ++ us) as :=
  ⟨[⟨closing, {}⟩], [a], ts, _, rfl, .one ha, rfl⟩

/-- What `itemsUntil` does behind an item. -/
def itemsBehind (closing : Token.Kind) (item : Parser α) (bound : Nat) (items : List α) :
    Parser (List α) := do
  let t ← next
  if t.kind = .mark .comma then itemsUntil closing item bound items
  else if t.kind = closing then return items.reverse
  else throw (.unexpectedToken (.commaOr closing) t)

theorem itemsUntil_succ (closing : Token.Kind) (items : List α) :
    itemsUntil closing item (bound + 1) items =
      item >>= fun a => itemsBehind closing item bound (a :: items) :=
  rfl

theorem parse_itemsBehind (closing : Token.Kind) (items : List α) (t : Token) (more : List Token) :
    (itemsBehind closing item bound items).parse (t :: more) =
      if t.kind = .mark .comma then (itemsUntil closing item bound items).parse more
      else if t.kind = closing then (.ok items.reverse, more)
      else (.error (.unexpectedToken (.commaOr closing) t), more) := by
  simp only [itemsBehind, parse_bind, parse_next]
  split
  · rfl
  · split <;> simp

theorem Settled.itemsBehind {closing : Token.Kind} (hclosing : closing ≠ .endOfInput)
    {items : List α} {ts more : List Token} {a : α} {t : Token} (ha : Item ts a)
    (h : t.kind = .mark .comma → Settled (fun k : ι × Nat => min (cap k.1) k.2) Next
      (fun k => itemsUntil closing (copy k.1) k.2 items) (ItemsUntil closing Item) more
      ((itemsUntil closing item bound items).parse more)) :
    Settled (fun k : ι × Nat => min (cap k.1) (k.2 + 1)) Next
      (fun k => Parser.itemsBehind closing (copy k.1) k.2 items)
      (fun us as => ItemsUntil closing Item (ts ++ us) as) (t :: more)
      ((Parser.itemsBehind closing item bound items).parse (t :: more)) := by
  rw [parse_itemsBehind]
  split
  · next ht =>
    have hfront : Clean [t] := by simp [ht]
    refine .behind hfront (fun k _ => ⟨k, by simp; omega, fun us => ?_⟩)
      ((h ht).mono fun _ has => ?_)
    · exact (parse_itemsBehind ..).trans (if_pos ht)
    · exact ⟨_, _, has.cons ha ht⟩
  · next ht =>
    split
    · next hk =>
      exact .take (by rwa [hk]) fun _ us _ => by rw [parse_itemsBehind, if_neg ht, if_pos hk]
    · next hk =>
      exact .refuse rfl (exists_itemsUntil closing ha) fun _ us _ =>
        ⟨_, by rw [parse_itemsBehind, if_neg ht, if_neg hk]⟩

/-- A copy is given by a copy of the parser for an item and a bound. -/
theorem Predictive.itemsUntil {closing : Token.Kind} (hclosing : closing ≠ .endOfInput)
    (hi : Predictive cap Next m item copy Item) (sound : Sound item Item) (hb : bound ≤ m)
    (items : List α) :
    Predictive (fun k : ι × Nat => min (cap k.1) k.2) Next bound
      (itemsUntil closing item bound items) (fun k => itemsUntil closing (copy k.1) k.2 items)
      (ItemsUntil closing Item) where
  viable := by
    obtain ⟨ts, a, ha⟩ := hi.viable
    obtain ⟨us, as, has⟩ := exists_itemsUntil closing ha
    exact ⟨ts ++ us, as, has⟩
  settled {tokens} hend hm := by
    induction bound generalizing items tokens with
    | zero =>
      obtain ⟨t, more, rfl⟩ := hend.exists_cons
      simp at hm
    | succ bound ih =>
      have hitem : Predictive (fun k : ι × Nat => min (cap k.1) (k.2 + 1)) Next (bound + 1) item
          (fun k => copy k.1) Item := hi.weaken Prod.fst hb fun k => by omega
      refine .ofSuccBound ?_
      simp only [itemsUntil_succ]
      refine .bind id (hitem.settled hend hm) (exists_itemsUntil closing) ?_
      rintro ts a mid rfl hclean hread
      have hmid : Ended mid := hend.behind hclean
      obtain ⟨t, more, rfl⟩ := hmid.exists_cons
      simp only [List.length_append, List.length_cons] at hm
      refine ⟨_, fun k => Nat.le_add_right _ _,
        .itemsBehind hclosing (sound.taken hread) fun ht => ?_⟩
      have hcomma : Clean [t] := by simp [ht]
      exact ih (by omega) (a :: items) (Ended.behind hmid hcomma) (by omega)

theorem parse_parenthesized (t : Token) (more : List Token) :
    (parenthesized item bound).parse (t :: more) =
      if t.kind = .mark .closeParen then (.ok [], more)
      else (itemsUntil (.mark .closeParen) item bound []).parse (t :: more) := by
  by_cases ht : t.kind = .mark .closeParen <;> simp [parenthesized, parse_bind, parse_take?, ht]

theorem Predictive.parenthesized (hi : Predictive cap Next m item copy Item)
    (sound : Sound item Item) (hb : bound ≤ m) {left : Token} (hl : left.kind = .mark .openParen) :
    Predictive (fun k : ι × Nat => min (cap k.1) k.2) Next bound (parenthesized item bound)
      (fun k => parenthesized (copy k.1) k.2) (fun ts as => Listed Item (left :: ts) as) where
  viable := ⟨[⟨.mark .closeParen, {}⟩], [], .empty hl rfl⟩
  settled {tokens} hend hm := by
    obtain ⟨t, more, rfl⟩ := hend.exists_cons
    rw [parse_parenthesized]
    split
    · next ht =>
      exact .take (by simp [ht]) fun _ us _ => by rw [parse_parenthesized, if_pos ht]
    · next ht =>
      refine .led id (fun k _ => ⟨k, Nat.le_refl _, fun us => ?_⟩)
        (((hi.itemsUntil (by simp) sound hb []).settled hend hm).mono fun _ h => ?_)
      · rw [parse_parenthesized, if_neg ht]
        exact .refl _
      · obtain ⟨us, right, hus, hs, hr⟩ := h
        exact ⟨_, _, by rw [hus]; exact .items hl hs hr⟩

end Lists

end Parser

end Scriptlet
