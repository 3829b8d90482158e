import Scriptlet.Proofs.Evaluation

namespace Scriptlet

namespace Number

/-- A mantissa of at most 53 bits times a power of two. -/
def Dyadic (n : Int) : Prop :=
  ∃ (m : Int) (e : Nat), m.natAbs < powerOfTwo 53 ∧ n = m * powerOfTwo e

/-- The integer that a binary64 number is equal to. -/
def Binary64.integer? : Binary64 → Option Int
  | .finite negative m => m.whole?.map fun (k : Nat) => if negative then -(k : Int) else k
  | .infinite _ | .nan => none

theorem powerOfTwo_add (a b : Nat) : powerOfTwo (a + b) = powerOfTwo a * powerOfTwo b :=
  Nat.pow_add 2 a b

theorem powerOfTwo_pos (a : Nat) : 0 < powerOfTwo a :=
  Nat.two_pow_pos a

section Whole

variable (k up down : Nat)

theorem whole?_ofNat : Magnitude.whole? ⟨k, .ofNat up⟩ = some (k * powerOfTwo up) :=
  rfl

theorem whole?_negSucc :
    Magnitude.whole? ⟨k * powerOfTwo (down + 1), .negSucc down⟩ = some k := by
  simp only [Magnitude.whole?, Nat.mul_mod_left, if_true]
  rw [Nat.mul_div_cancel _ (powerOfTwo_pos _)]

/-- The same whole number with its mantissa shifted to the left. -/
theorem whole?_shifted :
    Magnitude.whole? ⟨k * powerOfTwo down, (up : Int) - down⟩ = some (k * powerOfTwo up) := by
  rcases Nat.lt_or_ge up down with h | h
  · obtain ⟨less, rfl⟩ := Nat.exists_eq_add_of_lt h
    have he : (up : Int) - (up + less + 1 : Nat) = .negSucc less := by
      rw [Int.negSucc_eq]
      omega
    rw [he, Nat.add_assoc, powerOfTwo_add, ← Nat.mul_assoc, whole?_negSucc]
  · obtain ⟨more, rfl⟩ := Nat.exists_eq_add_of_le h
    have he : ((down + more : Nat) : Int) - down = .ofNat more := by
      rw [Int.ofNat_eq_natCast]
      omega
    rw [he, whole?_ofNat, powerOfTwo_add, Nat.mul_assoc]

end Whole

section Bits

/-- The fields of a word of 64 bits, put together. -/
theorem exists_word {sign biased fraction : Nat} (hs : sign ≤ 1) (hb : biased < 2048)
    (hf : fraction < powerOfTwo 52) :
    ∃ word < UInt64.size, word / powerOfTwo 63 = sign ∧ word / powerOfTwo 52 % 2048 = biased ∧
      word % powerOfTwo 52 = fraction := by
  have hlow : powerOfTwo 52 = 4503599627370496 := rfl
  have hhigh : powerOfTwo 63 = 9223372036854775808 := rfl
  have hsize : UInt64.size = 18446744073709551616 := rfl
  rw [hlow] at hf
  rw [hlow, hhigh, hsize]
  refine ⟨sign * 9223372036854775808 + biased * 4503599627370496 + fraction, ?_⟩
  omega

/-- A word whose exponent is not all ones is that of a float. -/
theorem valid_of_exponent {bits : UInt64} (h : bits.toNat / powerOfTwo 52 % 2048 < 2047) :
    Float.Model.Format.binary64.Valid bits.toBitVec := by
  constructor
  intro he
  have hfield := congrArg BitVec.toNat he
  simp only [Float.Model.UnpackedFloat.unpackExponent, BitVec.toNat_cast, BitVec.extractLsb_toNat,
    UInt64.toNat_toBitVec, Nat.shiftRight_eq_div_pow] at hfield
  exact absurd hfield (Nat.ne_of_lt h)

/-- There is a float for every mantissa of exactly 53 bits. -/
theorem exists_ofFloat (negative : Bool) {mantissa : Nat} (biased : Nat)
    (hm : powerOfTwo 52 ≤ mantissa) (hm' : mantissa < powerOfTwo 53) (hb : 0 < biased)
    (hb' : biased < 2047) :
    ∃ x : Float,
      Binary64.ofFloat x = .finite negative ⟨mantissa, (biased : Int) - 1 + leastExponent⟩ := by
  have hp : powerOfTwo 53 = powerOfTwo 52 + powerOfTwo 52 := rfl
  have hf : mantissa - powerOfTwo 52 < powerOfTwo 52 := by omega
  obtain ⟨word, hw, hsign, hbiased, hfraction⟩ :=
    exists_word negative.toNat_le (Nat.lt_succ_of_lt hb') hf
  have hbits : (UInt64.ofNat word).toNat = word := UInt64.toNat_ofNat_of_lt' hw
  have valid : Float.Model.Format.binary64.Valid (UInt64.ofNat word).toBitVec := by
    apply valid_of_exponent
    rw [hbits, hbiased]
    exact hb'
  obtain ⟨x, stored⟩ : ∃ x : Float, x.toBits = UInt64.ofNat word := ⟨⟨⟨_, valid⟩⟩, rfl⟩
  refine ⟨x, ?_⟩
  simp only [Binary64.ofFloat, stored, hbits]
  rw [hsign, hbiased, hfraction, if_neg (Nat.ne_of_lt hb'), if_neg (Nat.ne_of_gt hb),
    Nat.add_sub_cancel' hm]
  cases negative <;> rfl

/-- The mantissa of a float has at most 53 bits. -/
theorem mantissa_lt {x : Float} {negative : Bool} {m : Magnitude}
    (h : Binary64.ofFloat x = .finite negative m) : m.mantissa < powerOfTwo 53 := by
  have hp : powerOfTwo 53 = powerOfTwo 52 + powerOfTwo 52 := rfl
  have hf : x.toBits.toNat % powerOfTwo 52 < powerOfTwo 52 := Nat.mod_lt _ (powerOfTwo_pos 52)
  simp only [Binary64.ofFloat] at h
  split at h
  · split at h <;> cases h
  · split at h
    · cases h
      dsimp only
      omega
    · cases h
      dsimp only
      omega

end Bits

section Exact

variable {n : Int}

theorem dyadic_iff :
    Dyadic n ↔ ∃ mantissa e, mantissa < powerOfTwo 53 ∧ n.natAbs = mantissa * powerOfTwo e := by
  constructor
  · rintro ⟨m, e, hm, rfl⟩
    exact ⟨m.natAbs, e, hm, by rw [Int.natAbs_mul, Int.natAbs_natCast]⟩
  · rintro ⟨mantissa, e, hm, hn⟩
    refine ⟨n.sign * mantissa, e, ?_, ?_⟩
    · have hsign : n.sign.natAbs ≤ 1 := by
        rw [Int.natAbs_sign]
        split <;> omega
      calc (n.sign * mantissa).natAbs
          = n.sign.natAbs * mantissa := by rw [Int.natAbs_mul, Int.natAbs_natCast]
        _ ≤ 1 * mantissa := Nat.mul_le_mul_right _ hsign
        _ < powerOfTwo 53 := by rwa [Nat.one_mul]
    · calc n = n.sign * n.natAbs := (Int.sign_mul_natAbs n).symm
        _ = n.sign * mantissa * powerOfTwo e := by rw [hn, Int.natCast_mul, Int.mul_assoc]

/-- A whole number that a magnitude is equal to has no more bits than its mantissa. -/
theorem exists_of_whole? {m : Magnitude} {k : Nat} (h : m.whole? = some k) :
    ∃ mantissa e, mantissa ≤ m.mantissa ∧ k = mantissa * powerOfTwo e := by
  obtain ⟨mantissa, exponent⟩ := m
  cases exponent with
  | ofNat up => exact ⟨mantissa, up, Nat.le_refl _, (Option.some.inj h).symm⟩
  | negSucc down =>
    simp only [Magnitude.whole?] at h
    split at h
    · cases h
      exact ⟨mantissa / powerOfTwo (down + 1), 0, Nat.div_le_self _ _, (Nat.mul_one _).symm⟩
    · cases h

theorem dyadic_of_float {x : Float} (h : (Binary64.ofFloat x).integer? = some n) : Dyadic n := by
  cases hx : Binary64.ofFloat x with
  | infinite | nan => simp [hx, Binary64.integer?] at h
  | finite negative m =>
    rw [hx, Binary64.integer?, Option.map_eq_some_iff] at h
    obtain ⟨k, hk, rfl⟩ := h
    obtain ⟨mantissa, e, hm, rfl⟩ := exists_of_whole? hk
    refine dyadic_iff.mpr ⟨mantissa, e, Nat.lt_of_le_of_lt hm (mantissa_lt hx), ?_⟩
    split
    · rw [Int.natAbs_neg, Int.natAbs_natCast]
    · rw [Int.natAbs_natCast]

/-- The float of a mantissa is found by shifting it up to 53 bits. -/
theorem exists_float_of_dyadic (h : Dyadic n) (hn : n.natAbs ≤ powerOfTwo 63) :
    ∃ x : Float, (Binary64.ofFloat x).integer? = some n := by
  obtain ⟨mantissa, e, hm, hk⟩ := dyadic_iff.mp h
  by_cases hzero : mantissa = 0
  · have h0 : n = 0 := by
      rw [hzero, Nat.zero_mul] at hk
      exact Int.natAbs_eq_zero.mp hk
    exact ⟨0, by rw [h0]; decide +kernel⟩
  · have hlog : powerOfTwo mantissa.log2 ≤ mantissa := Nat.log2_self_le hzero
    have hlog' : mantissa.log2 < 53 := (Nat.log2_lt hzero).mpr hm
    have hbound : powerOfTwo (mantissa.log2 + e) ≤ powerOfTwo 63 := by
      rw [powerOfTwo_add]
      exact Nat.le_trans (Nat.mul_le_mul_right _ hlog) (hk ▸ hn)
    have he : mantissa.log2 + e ≤ 63 := (Nat.pow_le_pow_iff_right (by decide)).mp hbound
    obtain ⟨down, hdown⟩ := Nat.exists_eq_add_of_le (Nat.le_of_lt_succ hlog')
    have hfloor : powerOfTwo 52 ≤ mantissa * powerOfTwo down := by
      rw [hdown, powerOfTwo_add]
      exact Nat.mul_le_mul_right _ hlog
    have hceiling : mantissa * powerOfTwo down < powerOfTwo 53 := by
      have hlt : mantissa < powerOfTwo (mantissa.log2 + 1) := Nat.lt_log2_self
      have hp : powerOfTwo 53 = powerOfTwo (mantissa.log2 + 1) * powerOfTwo down := by
        rw [← powerOfTwo_add]
        congr 1
        omega
      rw [hp]
      exact Nat.mul_lt_mul_of_pos_right hlt (powerOfTwo_pos down)
    obtain ⟨x, hx⟩ := exists_ofFloat (decide (n < 0)) (mantissa.log2 + e + 1023) hfloor hceiling
      (by omega) (by omega)
    refine ⟨x, ?_⟩
    have hexponent : ((mantissa.log2 + e + 1023 : Nat) : Int) - 1 + leastExponent =
        (e : Int) - down := by
      unfold leastExponent
      omega
    have hsigned : (if n < 0 then -(n.natAbs : Int) else n.natAbs) = n := by
      split <;> omega
    rw [hx, hexponent, Binary64.integer?, whole?_shifted, Option.map_some, ← hk]
    simp only [decide_eq_true_eq]
    rw [hsigned]

end Exact

theorem natAbs_toInt_le (n : Int64) : n.toInt.natAbs ≤ powerOfTwo 63 := by
  have least := n.le_toInt
  have greatest := n.toInt_lt
  have hp : powerOfTwo 63 = 9223372036854775808 := rfl
  omega

theorem promote?_eq (n : Int64) :
    promote? n =
      if powerOfTwo 53 ≤ n.toInt.natAbs then none else some (Float.ofInt n.toInt) := by
  have hbound : exactBound + 1 = powerOfTwo 53 := rfl
  unfold promote?
  split <;> split <;> first | rfl | omega

end Number

/-- What the operators that turn integers into floats do to them. -/
def Operator.onPromoted? : Operator → Option (Float → Float → Float)
  | .add => some (· + ·)
  | .sub => some (· - ·)
  | .mul => some (· * ·)
  | _ => none

theorem Value.toFloat_int (n : Int64) :
    (Value.int n).toFloat =
      if Number.powerOfTwo 53 ≤ n.toInt.natAbs then .error (.precisionLoss n)
      else .ok (Float.ofInt n.toInt) := by
  by_cases h : Number.powerOfTwo 53 ≤ n.toInt.natAbs <;>
    simp only [toFloat, Number.promote?_eq, h, if_true, if_false]

namespace Operator

variable {op : Operator} {f : Float → Float → Float}

/-- What comes of an integer beside a float, if the float makes `result` of other floats. -/
def promoted (n : Int64) (result : Float → Float) : Except Fault Value :=
  if Number.powerOfTwo 53 ≤ n.toInt.natAbs then .error (.precisionLoss n)
  else .ok (.float (result (Float.ofInt n.toInt)))

theorem toFloat_bind (n : Int64) (result : Float → Float) :
    ((Value.int n).toFloat >>= fun y => pure (.float (result y))) = promoted n result := by
  rw [Value.toFloat_int, promoted]
  split <;> rfl

/-- The integer may be the first or the second operand. -/
theorem apply_promoted (h : op.onPromoted? = some f) (n : Int64) (x : Float) :
    op.apply (.int n) (.float x) = promoted n (f · x) ∧
      op.apply (.float x) (.int n) = promoted n (f x ·) := by
  rw [← toFloat_bind, ← toFloat_bind]
  cases op with
  | add | sub | mul =>
    obtain rfl := Option.some.inj h
    exact ⟨rfl, rfl⟩
  | div | less | greater | lessEqual | greaterEqual | equal | notEqual => cases h

/-- An integer becomes a float unless it has more than 53 bits, and then `+`, `-` and `*` refuse it
beside a float, on either side of it. No integer is accepted that is not equal to a float, but there
are integers beyond the bound that are. -/
theorem promotion_bound (h : op.onPromoted? = some f) (n : Int64) (x : Float) (line : Nat) :
    (Number.promote? n = none ↔ Number.powerOfTwo 53 ≤ n.toInt.natAbs) ∧
    (¬ Number.Dyadic n.toInt → Number.promote? n = none) ∧
    (Number.Dyadic n.toInt ↔ ∃ y, (Number.Binary64.ofFloat y).integer? = some n.toInt) ∧
    located line (op.apply (.int n) (.float x)) =
      (if Number.powerOfTwo 53 ≤ n.toInt.natAbs then .error ⟨.precisionLoss n, line⟩
      else .ok (some (.float (f (Float.ofInt n.toInt) x)))) ∧
    located line (op.apply (.float x) (.int n)) =
      (if Number.powerOfTwo 53 ≤ n.toInt.natAbs then .error ⟨.precisionLoss n, line⟩
      else .ok (some (.float (f x (Float.ofInt n.toInt))))) := by
  have refused : Number.promote? n = none ↔ Number.powerOfTwo 53 ≤ n.toInt.natAbs := by
    rw [Number.promote?_eq]
    split <;> simp_all
  have small : ¬ Number.powerOfTwo 53 ≤ n.toInt.natAbs → Number.Dyadic n.toInt := by
    intro hn
    exact ⟨n.toInt, 0, Nat.lt_of_not_le hn, (Int.mul_one _).symm⟩
  refine ⟨refused, ?_, ⟨?_, ?_⟩, ?_, ?_⟩
  · intro hn
    rw [refused]
    exact Decidable.not_not.mp fun hs => hn (small hs)
  · intro hn
    exact Number.exists_float_of_dyadic hn (Number.natAbs_toInt_le n)
  · rintro ⟨y, hy⟩
    exact Number.dyadic_of_float hy
  · rw [(apply_promoted h n x).1, promoted]
    split <;> rfl
  · rw [(apply_promoted h n x).2, promoted]
    split <;> rfl

/-- For one, the least integer of all, which is a power of two. -/
theorem promotion_bound_least :
    located 3 (Operator.apply .mul (.float 0.5) (.int Int64.minValue)) =
      .error ⟨.precisionLoss Int64.minValue, 3⟩ := by
  have h := @promotion_bound .mul (· * ·) rfl Int64.minValue 0.5 3
  rw [h.2.2.2.2, if_pos (by decide)]

/-- The first integer beyond the bound is refused although it is equal to a float. -/
theorem promotion_refuses_dyadic :
    ¬ (Number.promote? 9007199254740992 = none ↔
      ¬ Number.Dyadic (9007199254740992 : Int64).toInt) := by
  have dyadic : Number.Dyadic (9007199254740992 : Int64).toInt := ⟨1, 53, by decide, by decide⟩
  have refused : Number.promote? 9007199254740992 = none := by decide
  intro h
  exact h.mp refused dyadic

end Operator

end Scriptlet
