import Scriptlet.Proofs.Predictive
import Scriptlet.Proofs.Progress

namespace Scriptlet.Parser

open Grammar

/-- Two inputs that have the same tokens, as far as parsers look at them. The first one may break
off where the second one still has tokens, of which the first is the token for the end. -/
structure Parallel where
  Beside : List Token → List Token → Prop
  /-- What is left of the second input where the first one is used up. -/
  stop : List Token
  ends : ∀ {t more}, stop = t :: more → t.kind = .endOfInput
  nil : ∀ {us}, Beside [] us → us = stop
  cons : ∀ {t ts us}, Beside (t :: ts) us → some t ≠ stop.head? ∧
    ∃ vs, us = t :: vs ∧ (t.kind ≠ .newline → Beside ts vs)
  newlines : ∀ {ts us}, Beside ts us → Beside (dropNewlines ts) (dropNewlines us)

namespace Parallel

/-- In front of these tokens the parser fails because of the first of them, or because there is
none. -/
def Refuses {α : Type} (stop : List Token) (p : Parser α) : Prop :=
  ∃ e rest, p.parse stop = (.error e, rest) ∧ e.found? = stop.head?

section Notions

variable (P : Parallel) {α : Type}

/-- What may come of the second input where the first one is used up: an error about the token
that the first one lacks, or a value that is read up to it. -/
inductive Spent (Over : List Token → Prop) : Except ParseError α × List Token → Prop where
  | refused {e : ParseError} {us : List Token} (h : e.found? = P.stop.head?) :
      Spent Over (.error e, us)
  | upTo {a : α} {us : List Token} (h : Over us) : Spent Over (.ok a, us)

/-- Outcomes on both inputs that agree, unless the first input was used up. -/
inductive Alike (Left : List Token → List Token → Prop) (Over : List Token → Prop) :
    Except ParseError α × List Token → Except ParseError α × List Token → Prop where
  | read {a : α} {ts us : List Token} (left : Left ts us) : Alike Left Over (.ok a, ts) (.ok a, us)
  | fail {e : ParseError} {t : Token} {ts us : List Token} (found : e.found? = some t)
      (other : some t ≠ P.stop.head?) : Alike Left Over (.error e, ts) (.error e, us)
  | spent {ts : List Token} {outcome : Except ParseError α × List Token}
      (h : P.Spent Over outcome) : Alike Left Over (.error .unexpectedEndOfInput, ts) outcome

/-- Parsers whose outcomes are alike on up to `m` and `n` tokens. -/
structure Twins (Left : List Token → List Token → Prop) (Over : List Token → Prop) (m n : Nat)
    (p q : Parser α) : Prop where
  alike : ∀ {ts us}, P.Beside ts us → ts.length ≤ m → us.length ≤ n →
    P.Alike Left Over (p.parse ts) (q.parse us)

/-- Nothing is read up to the token that the first input lacks. -/
def Never (_ : List Token) : Prop :=
  False

/-- Parsers for phrases that are never empty, which are alike and agree that something is missing
where the first input is used up. -/
structure Paired (m n : Nat) (p q : Parser α) : Prop where
  twins : P.Twins P.Beside Never m n p q
  left : Advances p
  right : Advances q
  refusesNil : Refuses [] p
  refusesStop : P.stop.length ≤ n → Refuses P.stop q

/-- The inputs that are left are side by side behind their newlines. -/
def Loose (ts us : List Token) : Prop :=
  P.Beside (dropNewlines ts) (dropNewlines us)

/-- The second input is read right up to the token that the first one lacks. -/
def AtStop (us : List Token) : Prop :=
  us = P.stop ∧ P.stop ≠ []

/-- Newlines may still stand before it. -/
def NearStop (us : List Token) : Prop :=
  dropNewlines us = P.stop ∧ P.stop ≠ []

end Notions

section Rules

variable {P : Parallel} {α β : Type} {Left Left' : List Token → List Token → Prop}
  {Over Over' : List Token → Prop} {m n : Nat} {p q : Parser α} {p' q' : α → Parser β}

theorem ne_of_stop {t : Token} {more : List Token} (h : P.stop = t :: more) {kind : Token.Kind}
    (hk : kind ≠ .endOfInput) : t.kind ≠ kind := by
  rw [P.ends h]
  exact hk.symm

theorem dropNewlines_stop : dropNewlines P.stop = P.stop := by
  cases h : P.stop with
  | nil => rfl
  | cons t more => exact dropNewlines_cons (ne_of_stop h (by simp))

theorem AtStop.near {us : List Token} (h : P.AtStop us) : P.NearStop us :=
  ⟨by rw [h.1, dropNewlines_stop], h.2⟩

theorem Spent.mono {outcome : Except ParseError α × List Token} (hO : ∀ us, Over us → Over' us)
    (h : P.Spent Over outcome) : P.Spent Over' outcome := by
  cases h with
  | refused h => exact .refused h
  | upTo h => exact .upTo (hO _ h)

theorem Alike.mono {x y : Except ParseError α × List Token} (hO : ∀ us, Over us → Over' us)
    (h : P.Alike Left Over x y) : P.Alike Left Over' x y := by
  cases h with
  | read left => exact .read left
  | fail found other => exact .fail found other
  | spent h => exact .spent (h.mono hO)

theorem Twins.weaken {m' n' : Nat} (hm : m' ≤ m) (hn : n' ≤ n) (h : P.Twins Left Over m n p q) :
    P.Twins Left Over m' n' p q where
  alike hb hts hus := h.alike hb (Nat.le_trans hts hm) (Nat.le_trans hus hn)

theorem Twins.mono (hO : ∀ us, Over us → Over' us) (h : P.Twins Left Over m n p q) :
    P.Twins Left Over' m n p q where
  alike hb hts hus := (h.alike hb hts hus).mono hO

theorem twins_pure (a : α) : P.Twins P.Beside Over m n (pure a) (pure a) where
  alike hb _ _ := .read hb

/-- Parsers one behind another. -/
theorem Alike.bind {ts us : List Token} (h : P.Alike Left Over (p.parse ts) (q.parse us))
    (next : ∀ a vs ws, p.Reads ts a vs → q.Reads us a ws → Left vs ws →
      P.Alike Left' Over' ((p' a).parse vs) ((q' a).parse ws))
    (beyond : ∀ a ws, q.Reads us a ws → Over ws → P.Spent Over' ((q' a).parse ws)) :
    P.Alike Left' Over' ((p >>= p').parse ts) ((q >>= q').parse us) := by
  rw [parse_bind, parse_bind]
  unfold Reads at next beyond
  generalize p.parse ts = x at h next
  generalize q.parse us = y at h next beyond
  cases h with
  | read left => exact next _ _ _ rfl rfl left
  | fail found other => exact .fail found other
  | spent h =>
    cases h with
    | refused h => exact .spent (.refused h)
    | upTo h => exact .spent (beyond _ _ rfl h)

/-- The second parser goes on where the first one has stopped. -/
theorem Twins.bindOver (hp : P.Twins P.Beside Over m n p q) (tp : Trails p) (tq : Trails q)
    (next : ∀ a, P.Twins Left Over' m n (p' a) (q' a))
    (beyond : ∀ a us, Over us → us.length ≤ n → P.Spent Over' ((q' a).parse us)) :
    P.Twins Left Over' m n (p >>= p') (q >>= q') where
  alike hb hts hus := by
    apply (hp.alike hb hts hus).bind
    · intro a vs ws hv hw left
      have hvs := tp.length_le hv
      have hws := tq.length_le hw
      exact (next a).alike left (by omega) (by omega)
    · intro a ws hw ho
      exact beyond a ws ho (Nat.le_trans (tq.length_le hw) hus)

theorem Twins.bind (hp : P.Twins P.Beside Never m n p q) (tp : Trails p) (tq : Trails q)
    (next : ∀ a, P.Twins Left Over m n (p' a) (q' a)) :
    P.Twins Left Over m n (p >>= p') (q >>= q') :=
  hp.bindOver tp tq next fun _ _ ho => ho.elim

theorem Paired.bind (hp : P.Paired m n p q) (next : ∀ a, P.Twins Left Over m n (p' a) (q' a)) :
    P.Twins Left Over m n (p >>= p') (q >>= q') :=
  hp.twins.bind hp.left.trails hp.right.trails next

/-- What has been taken leaves fewer tokens to the parser behind it. -/
theorem Paired.step (hp : P.Paired (m + 1) (n + 1) p q)
    (next : ∀ a, P.Twins Left Over m n (p' a) (q' a)) :
    P.Twins Left Over (m + 1) (n + 1) (p >>= p') (q >>= q') where
  alike hb hts hus := by
    apply (hp.twins.alike hb hts hus).bind
    · intro a vs ws hv hw left
      have hvs := hp.left.shorter hv
      have hws := hp.right.shorter hw
      exact (next a).alike left (by omega) (by omega)
    · intro a ws _ ho
      exact ho.elim

theorem Paired.weaken {m' n' : Nat} (hm : m' ≤ m) (hn : n' ≤ n) (h : P.Paired m n p q) :
    P.Paired m' n' p q where
  twins := h.twins.weaken hm hn
  left := h.left
  right := h.right
  refusesNil := h.refusesNil
  refusesStop hs := h.refusesStop (Nat.le_trans hs hn)

theorem Refuses.bind {stop : List Token} (h : Refuses stop p) : Refuses stop (p >>= p') := by
  obtain ⟨e, rest, hp, he⟩ := h
  exact ⟨e, rest, by rw [parse_bind, hp], he⟩

theorem Refuses.spent (h : Refuses P.stop p) : P.Spent Over (p.parse P.stop) := by
  obtain ⟨e, rest, hp, he⟩ := h
  rw [hp]
  exact .refused he

theorem eq_unexpectedEndOfInput {e : ParseError} (he : e.found? = none) :
    e = .unexpectedEndOfInput := by
  cases e with
  | unexpectedEndOfInput => rfl
  | unexpectedToken | invalidStatement | expectedType | unexpectedTokenInExpression => cases he

/-- Where nothing is left of the first input. -/
theorem Refuses.alike (hp : Refuses [] p) (hq : P.Spent Over (q.parse P.stop)) :
    P.Alike Left Over (p.parse []) (q.parse P.stop) := by
  obtain ⟨e, rest, h, he⟩ := hp
  obtain rfl := eq_unexpectedEndOfInput he
  rw [h]
  exact .spent hq

/-- It is enough to look at inputs with a first token, if both parsers fail without one. -/
theorem Twins.ofCons (hp : Refuses [] p)
    (hq : P.stop.length ≤ n → P.Spent Over (q.parse P.stop))
    (h : ∀ {t ts us}, P.Beside (t :: ts) (t :: us) → some t ≠ P.stop.head? →
      (t.kind ≠ .newline → P.Beside ts us) → ts.length < m → us.length < n →
      P.Alike Left Over (p.parse (t :: ts)) (q.parse (t :: us))) :
    P.Twins Left Over m n p q where
  alike {ts us} hb hts hus := by
    cases ts with
    | nil =>
      obtain rfl := P.nil hb
      exact hp.alike (hq hus)
    | cons t ts =>
      obtain ⟨hne, vs, rfl, hrest⟩ := P.cons hb
      exact h hb hne hrest hts hus

/-- With no tokens on one side there are none on the first. -/
theorem Twins.ofZero (h : m = 0 ∨ n = 0) (hp : Refuses [] p)
    (hq : P.stop.length ≤ n → P.Spent Over (q.parse P.stop)) : P.Twins Left Over m n p q := by
  refine .ofCons hp hq ?_
  intro t ts us _ _ _ hts hus
  omega

end Rules

section Tokens

variable {P : Parallel} {α : Type} {Left : List Token → List Token → Prop}
  {Over : List Token → Prop} {m n : Nat} {stop : List Token}

/-- A parser that takes one token and is content with it or not, but never with a newline or the
token for the end. -/
structure TakesOne (p : Parser α) (accept : Token → Except ParseError α) : Prop where
  nil : p.parse [] = (.error .unexpectedEndOfInput, [])
  cons : ∀ t more, p.parse (t :: more) = (accept t, more)
  ok : ∀ {t a}, accept t = .ok a → t.kind ≠ .newline ∧ t.kind ≠ .endOfInput
  error : ∀ {t e}, accept t = .error e → e.found? = some t

theorem TakesOne.refuses {p : Parser α} {accept : Token → Except ParseError α}
    (h : TakesOne p accept) (hs : ∀ t more, stop = t :: more → t.kind = .endOfInput) :
    Refuses stop p := by
  cases stop with
  | nil => exact ⟨_, _, h.nil, rfl⟩
  | cons t more =>
    cases ht : accept t with
    | ok a => exact absurd (hs t more rfl) (h.ok ht).2
    | error e => exact ⟨e, more, by rw [h.cons, ht], h.error ht⟩

theorem TakesOne.paired {p : Parser α} {accept : Token → Except ParseError α}
    (h : TakesOne p accept) (hp : Advances p) : P.Paired m n p p := by
  have hnil : Refuses [] p := h.refuses (by simp)
  have hstop : Refuses P.stop p := h.refuses fun _ _ => P.ends
  refine ⟨.ofCons hnil (fun _ => hstop.spent) ?_, hp, hp, hnil, fun _ => hstop⟩
  intro t ts us _ hne hrest _ _
  rw [h.cons, h.cons]
  cases ht : accept t with
  | ok a => exact .read (hrest (h.ok ht).1)
  | error e => exact .fail (h.error ht) hne

theorem takesOne_expect {kind : Token.Kind} (hn : kind ≠ .newline) (he : kind ≠ .endOfInput) :
    TakesOne (expect kind) fun t =>
      if t.kind = kind then .ok t else .error (.unexpectedToken (.token kind) t) where
  nil := rfl
  cons t more := by
    by_cases ht : t.kind = kind <;> simp [expect, parse_bind, ht]
  ok {t a} h := by
    by_cases ht : t.kind = kind
    · rw [ht]
      exact ⟨hn, he⟩
    · simp [ht] at h
  error {t e} h := by
    by_cases ht : t.kind = kind
    · simp [ht] at h
    · cases (if_neg ht).symm.trans h
      rfl

theorem takesOne_name : TakesOne name fun t => (name.parse [t]).1 where
  nil := rfl
  cons t more := by
    simp only [name, parse_bind, parse_next]
    split <;> rfl
  ok {t a} h := by
    constructor <;> intro hk <;> simp [name, parse_bind, hk] at h
  error {t e} h := by
    simp only [name, parse_bind, parse_next] at h
    split at h <;> cases h
    rfl

theorem takesOne_typeTag : TakesOne typeTag fun t => (typeTag.parse [t]).1 where
  nil := rfl
  cons t more := by
    simp only [typeTag, parse_bind, parse_next]
    split <;> rfl
  ok {t a} h := by
    constructor <;> intro hk <;> simp [typeTag, parse_bind, hk] at h
  error {t e} h := by
    simp only [typeTag, parse_bind, parse_next] at h
    split at h <;> cases h
    rfl

theorem refuses_name : Refuses P.stop name :=
  takesOne_name.refuses fun _ _ => P.ends

theorem refuses_mark (mark : Mark) : Refuses P.stop (expect (.mark mark)) :=
  (takesOne_expect (by simp) (by simp)).refuses fun _ _ => P.ends

theorem paired_name : P.Paired m n name name :=
  takesOne_name.paired advances_name

theorem paired_typeTag : P.Paired m n typeTag typeTag :=
  takesOne_typeTag.paired advances_typeTag

theorem paired_mark (mark : Mark) : P.Paired m n (expect (.mark mark)) (expect (.mark mark)) :=
  (takesOne_expect (by simp) (by simp)).paired (advances_expect _)

theorem paired_keyword (word : Keyword) :
    P.Paired m n (expect (.keyword word)) (expect (.keyword word)) :=
  (takesOne_expect (by simp) (by simp)).paired (advances_expect _)

/-- A parser that fails without tokens, and reads something that is not there off the token for
the end. -/
theorem spent_atStop {p : Parser α} (hnil : Refuses [] p)
    (hcons : ∀ t more, t.kind = .endOfInput → ∃ a, p.Reads (t :: more) a (t :: more)) :
    P.Spent P.AtStop (p.parse P.stop) := by
  cases hs : P.stop with
  | nil =>
    rw [← hs] at hnil ⊢
    exact hnil.spent
  | cons t more =>
    obtain ⟨a, ha⟩ := hcons t more (P.ends hs)
    rw [ha]
    exact .upTo ⟨hs.symm, by simp [hs]⟩

theorem twins_peek : P.Twins P.Beside P.AtStop m n peek peek := by
  have hnil : Refuses [] peek := ⟨_, [], rfl, rfl⟩
  refine .ofCons hnil (fun _ => spent_atStop hnil fun t more _ => ⟨t, rfl⟩) ?_
  intro t ts us hb _ _ _ _
  exact .read hb

/-- The first token decides, and it is taken or left. -/
theorem twins_take? {kind : Token.Kind} (hn : kind ≠ .newline) (he : kind ≠ .endOfInput) :
    P.Twins P.Beside P.AtStop m n (take? kind) (take? kind) := by
  have hnil : Refuses [] (take? kind) := ⟨_, [], rfl, rfl⟩
  refine .ofCons hnil (fun _ => spent_atStop hnil fun t more ht => ⟨false, ?_⟩) ?_
  · exact (parse_take? kind t more).trans (if_neg (by rw [ht]; exact he.symm))
  · intro t ts us hb _ hrest _ _
    rw [parse_take?, parse_take?]
    split
    · rename_i ht
      exact .read (hrest (by rwa [ht]))
    · exact .read hb

theorem twins_typeBehind? (mark : Mark) :
    P.Twins P.Beside P.AtStop m n (typeBehind? mark) (typeBehind? mark) := by
  have htag : P.Twins P.Beside P.AtStop m n (typeTag >>= fun tag => pure (some tag))
      (typeTag >>= fun tag => pure (some tag)) :=
    paired_typeTag.bind fun tag => twins_pure (some tag)
  have hnil : Refuses [] (typeBehind? mark) := ⟨_, [], rfl, rfl⟩
  refine .ofCons hnil (fun _ => spent_atStop hnil fun t more ht => ⟨none, ?_⟩) ?_
  · exact (parse_typeBehind? mark t more).trans (if_neg (by simp [ht]))
  · intro t ts us hb _ hrest hm hn
    rw [parse_typeBehind?, parse_typeBehind?]
    split
    · rename_i ht
      exact htag.alike (hrest (by simp [ht])) (Nat.le_of_lt hm) (Nat.le_of_lt hn)
    · exact .read hb

/-- Behind the same token, both inputs have the mark next or neither of them does. -/
theorem exists_followedBy (mark : Mark) (t : Token) {ts us : List Token} (hb : P.Beside ts us) :
    ∃ b, (followedBy (.mark mark)).parse (t :: ts) = (.ok b, t :: ts) ∧
      (followedBy (.mark mark)).parse (t :: us) = (.ok b, t :: us) := by
  cases ts with
  | nil =>
    obtain rfl := P.nil hb
    refine ⟨false, rfl, ?_⟩
    cases hs : P.stop with
    | nil => rfl
    | cons u more =>
      have hu : u.kind ≠ .mark mark := ne_of_stop hs (by simp)
      exact reads_followedBy.mpr ⟨by simp [hu], rfl⟩
  | cons u ts =>
    obtain ⟨_, us, rfl, _⟩ := P.cons hb
    exact ⟨_, rfl, rfl⟩

end Tokens

section Lists

variable {P : Parallel} {α : Type} {m n : Nat} {item item' : Parser α}

theorem Refuses.itemsUntil {stop : List Token} (hi : Refuses stop item) (closing : Token.Kind)
    (items : List α) (hn : stop.length ≤ n) :
    Refuses stop (itemsUntil closing item n items) := by
  cases n with
  | zero =>
    obtain rfl := List.length_eq_zero_iff.mp (Nat.le_zero.mp hn)
    exact ⟨_, [], rfl, rfl⟩
  | succ n =>
    rw [itemsUntil_succ]
    exact hi.bind

theorem Refuses.parenthesized {stop : List Token} (hi : Refuses stop item)
    (hs : ∀ t more, stop = t :: more → t.kind = .endOfInput) (hn : stop.length ≤ n) :
    Refuses stop (parenthesized item n) := by
  cases stop with
  | nil => exact ⟨_, [], rfl, rfl⟩
  | cons t more =>
    obtain ⟨e, rest, he, hf⟩ := hi.itemsUntil (.mark .closeParen) [] hn
    refine ⟨e, rest, ?_, hf⟩
    rw [parse_parenthesized, if_neg (by simp [hs t more rfl]), he]

theorem twins_itemsBehind {closing : Token.Kind} (hn : closing ≠ .newline)
    (he : closing ≠ .endOfInput) {items : List α}
    (h : P.Twins P.Beside Never m n (itemsUntil closing item m items)
      (itemsUntil closing item' n items)) :
    P.Twins P.Beside Never m n (itemsBehind closing item m items)
      (itemsBehind closing item' n items) := by
  refine .ofCons ⟨_, [], rfl, rfl⟩ (fun _ => Refuses.spent ?_) ?_
  · cases hs : P.stop with
    | nil => exact ⟨_, [], rfl, rfl⟩
    | cons t more =>
      refine ⟨.unexpectedToken (.commaOr closing) t, more, ?_, rfl⟩
      rw [parse_itemsBehind, if_neg (ne_of_stop hs (by simp)), if_neg (ne_of_stop hs he)]
  · intro t ts us _ hne hrest hts hus
    rw [parse_itemsBehind, parse_itemsBehind]
    split
    · rename_i ht
      exact h.alike (hrest (by simp [ht])) (Nat.le_of_lt hts) (Nat.le_of_lt hus)
    · split
      · rename_i ht
        exact .read (hrest (by rwa [ht]))
      · exact .fail rfl hne

/-- Items that are read alike, one by one. -/
theorem Paired.itemsUntil {closing : Token.Kind} (hc : closing ≠ .newline)
    (he : closing ≠ .endOfInput) {M N : Nat} (hi : P.Paired M N item item') (hm : m ≤ M)
    (hn : n ≤ N) (items : List α) :
    P.Twins P.Beside Never m n (itemsUntil closing item m items)
      (itemsUntil closing item' n items) := by
  have left (m : Nat) (items : List α) := hi.refusesNil.itemsUntil closing items (Nat.zero_le m)
  have right {n : Nat} (hn : n ≤ N) (items : List α) (hs : P.stop.length ≤ n) :
      P.Spent Never ((Parser.itemsUntil closing item' n items).parse P.stop) :=
    ((hi.refusesStop (Nat.le_trans hs hn)).itemsUntil closing items hs).spent
  induction m generalizing n items with
  | zero => exact .ofZero (.inl rfl) (left 0 items) (right hn items)
  | succ m ih =>
    cases n with
    | zero => exact .ofZero (.inr rfl) (left _ items) (right hn items)
    | succ n =>
      rw [itemsUntil_succ, itemsUntil_succ]
      refine (hi.weaken hm hn).step fun a => twins_itemsBehind hc he ?_
      exact ih (Nat.le_of_succ_le hm) (Nat.le_of_succ_le hn) (a :: items)

theorem Paired.parenthesized (hi : P.Paired m n item item') :
    P.Twins P.Beside Never m n (parenthesized item m) (parenthesized item' n) := by
  have hitems : P.Twins P.Beside Never m n (Parser.itemsUntil (.mark .closeParen) item m [])
      (Parser.itemsUntil (.mark .closeParen) item' n []) :=
    hi.itemsUntil (by simp) (by simp) (Nat.le_refl m) (Nat.le_refl n) []
  refine .ofCons ⟨_, [], rfl, rfl⟩
    (fun hs => ((hi.refusesStop hs).parenthesized (fun _ _ => P.ends) hs).spent) ?_
  intro t ts us hb _ hrest hts hus
  rw [parse_parenthesized, parse_parenthesized]
  split
  · rename_i ht
    exact .read (hrest (by simp [ht]))
  · exact hitems.alike hb hts hus

end Lists

end Parallel

end Scriptlet.Parser
