import GenMC.Support.SExpr

/-!
# The arithmetic of the evaluator

`meaning` is what the operators of LLVM compute on 64-bit words, told by the numbers that the
words stand for.  The operators of `SVal` are those of `uint64_t`.  The evaluator uses them for
the signed operators, too, it divides where it should take a remainder, and it drops the casts.
`Agrees` says, for every operator, on which operands this gives the right value
(`evaluator_agrees_iff`): the additive, multiplicative and bit operators, the unsigned division
and all comparisons are right on all operands.
-/

namespace GenMC

/-- The value of a binary operator; nothing for a division by zero and for a shift by the width
or more.  The quotient and the remainder of a signed division are truncated, the arithmetic shift
rounds down. -/
def ArithmeticKind.meaning : ArithmeticKind → SVal → SVal → Option SVal
  | .add, v, w => some (v + w)
  | .sub, v, w => some (v - w)
  | .mul, v, w => some (v * w)
  | .udiv, v, w => if w = 0 then none else some (BitVec.ofNat 64 (v.toNat / w.toNat))
  | .sdiv, v, w => if w = 0 then none else some (BitVec.ofInt 64 (v.toInt.tdiv w.toInt))
  | .urem, v, w => if w = 0 then none else some (BitVec.ofNat 64 (v.toNat % w.toNat))
  | .srem, v, w => if w = 0 then none else some (BitVec.ofInt 64 (v.toInt.tmod w.toInt))
  | .and, v, w => some (v &&& w)
  | .or, v, w => some (v ||| w)
  | .xor, v, w => some (v ^^^ w)
  | .shl, v, w => if w.toNat < 64 then some (BitVec.ofNat 64 (v.toNat * 2 ^ w.toNat)) else none
  | .lshr, v, w => if w.toNat < 64 then some (BitVec.ofNat 64 (v.toNat / 2 ^ w.toNat)) else none
  | .ashr, v, w => if w.toNat < 64 then some (BitVec.ofInt 64 (v.toInt / 2 ^ w.toNat)) else none

/-- The truth value of a comparison. -/
def CmpKind.meaning : CmpKind → SVal → SVal → Bool
  | .eq, v, w => decide (v = w)
  | .ne, v, w => decide (v ≠ w)
  | .ult, v, w => decide (v.toNat < w.toNat)
  | .ule, v, w => decide (v.toNat ≤ w.toNat)
  | .ugt, v, w => decide (w.toNat < v.toNat)
  | .uge, v, w => decide (w.toNat ≤ v.toNat)
  | .slt, v, w => decide (v.toInt < w.toInt)
  | .sle, v, w => decide (v.toInt ≤ w.toInt)
  | .sgt, v, w => decide (w.toInt < v.toInt)
  | .sge, v, w => decide (w.toInt ≤ v.toInt)

/-- The value of a cast from one width to another: the low bits as they are, or read as a signed
number. -/
def CastKind.meaning (source target : ℕ) : CastKind → SVal → SVal
  | .zext, v => BitVec.ofNat 64 (v.toNat % 2 ^ source)
  | .sext, v => BitVec.ofInt 64 ((v.toNat : ℤ).bmod (2 ^ source) % 2 ^ target)
  | .trunc, v => BitVec.ofNat 64 (v.toNat % 2 ^ target)

/-- The operands on which the evaluator has the right value of a binary operator. -/
def ArithmeticKind.Agrees : ArithmeticKind → SVal → SVal → Prop
  | .urem, v, w => w = 0 ∨ (w.toNat + 1 ∣ v.toNat ∧ v.toNat / (w.toNat + 1) < w.toNat)
  | .sdiv, v, w => w = 0 ∨ (0 ≤ v.toInt ∧ 0 ≤ w.toInt) ∨ v = w ∨ (v.toInt < 0 ∧ w = 1) ∨
      (0 ≤ v.toInt ∧ v.toInt < -w.toInt)
  | .srem, v, w => w = 0 ∨
      (0 ≤ v.toInt ∧ 0 ≤ w.toInt ∧ w.toNat + 1 ∣ v.toNat ∧ v.toNat / (w.toNat + 1) < w.toNat) ∨
      (0 ≤ v.toInt ∧ w.toInt < 0 ∧ w.toInt ∣ v.toInt) ∨
      (v.toInt < 0 ∧ w.toInt < 0 ∧ v.toInt < w.toInt ∧ w.toInt ∣ v.toInt)
  | .ashr, v, w => 0 ≤ v.toInt ∨ w = 0 ∨ 64 ≤ w.toNat
  | _, _, _ => True

/-- The values on which the evaluator has the right value of a cast. -/
def CastKind.Agrees (source target : ℕ) : CastKind → SVal → Prop
  | .zext, v => v.toNat < 2 ^ source
  | .sext, v => v.toNat < 2 ^ target ∧ (target ≤ source ∨ v.toNat = 0 ∨
      v.toNat < 2 ^ source / 2 ∨ 2 ^ min target 64 ≤ v.toNat + 2 ^ source / 2)
  | .trunc, v => v.toNat < 2 ^ target

/-! ## What the meanings say -/

/-- The unsigned quotient and remainder are those of the division with remainder. -/
lemma meaning_unsigned {v w q r : SVal} (hq : ArithmeticKind.udiv.meaning v w = some q)
    (hr : ArithmeticKind.urem.meaning v w = some r) :
    v.toNat = q.toNat * w.toNat + r.toNat ∧ r.toNat < w.toNat := by
  unfold ArithmeticKind.meaning at hq hr
  by_cases hw : w = 0
  · simp [hw] at hq
  have hpos : 0 < w.toNat := Nat.pos_of_ne_zero fun h => hw (BitVec.eq_of_toNat_eq h)
  simp only [hw, if_false, Option.some.injEq] at hq hr
  have hv := v.isLt
  have hqv : v.toNat / w.toNat < 2 ^ 64 := (Nat.div_le_self _ _).trans_lt hv
  have hrv : v.toNat % w.toNat < 2 ^ 64 := (Nat.mod_le _ _).trans_lt hv
  rw [← hq, ← hr, BitVec.toNat_ofNat, BitVec.toNat_ofNat, Nat.mod_eq_of_lt hqv,
    Nat.mod_eq_of_lt hrv]
  exact ⟨(Nat.div_add_mod' _ _).symm, Nat.mod_lt _ hpos⟩

/-- The signed quotient and remainder are those of the truncated division, up to the overflow of
the quotient. -/
lemma meaning_signed {v w q r : SVal} (hq : ArithmeticKind.sdiv.meaning v w = some q)
    (hr : ArithmeticKind.srem.meaning v w = some r) :
    v = q * w + r ∧ r.toInt = v.toInt.tmod w.toInt := by
  unfold ArithmeticKind.meaning at hq hr
  by_cases hw : w = 0
  · simp [hw] at hq
  simp only [hw, if_false, Option.some.injEq] at hq hr
  constructor
  · have hw' : BitVec.ofInt 64 w.toInt = w := BitVec.ofInt_toInt
    calc v = BitVec.ofInt 64 v.toInt := BitVec.ofInt_toInt.symm
      _ = BitVec.ofInt 64 (v.toInt.tdiv w.toInt * w.toInt + v.toInt.tmod w.toInt) := by
        rw [Int.tdiv_mul_add_tmod]
      _ = q * w + r := by rw [BitVec.ofInt_add, BitVec.ofInt_mul, hq, hw', hr]
  · rw [← hr, ← BitVec.toInt_srem, BitVec.ofInt_toInt]

/-! ## Unsigned and signed readings -/

/-- A word is a natural number below `2 ^ 63`, or it is negative and has the number of its
magnitude counted down from `2 ^ 64`. -/
lemma toInt_cases (v : SVal) :
    (∃ a : ℕ, v.toInt = a ∧ v.toNat = a ∧ a < 2 ^ 63) ∨
      ∃ a : ℕ, v.toInt = -a ∧ v.toNat = 2 ^ 64 - a ∧ 0 < a ∧ a ≤ 2 ^ 63 := by
  have hv := v.isLt
  rw [BitVec.toInt_eq_toNat_cond]
  by_cases h : 2 * v.toNat < 2 ^ 64
  · rw [if_pos h]
    exact Or.inl ⟨v.toNat, rfl, rfl, by omega⟩
  · rw [if_neg h]
    exact Or.inr ⟨2 ^ 64 - v.toNat, by omega, by omega, by omega, by omega⟩

/-- A word is the one of an integer if the word's number is the integer modulo `2 ^ 64`. -/
lemma eq_ofInt_iff (v : SVal) (x : ℤ) : v = BitVec.ofInt 64 x ↔ (v.toNat : ℤ) = x % 2 ^ 64 := by
  rw [← BitVec.toNat_inj, BitVec.toNat_ofInt]
  have hx : 0 ≤ x % 2 ^ 64 := Int.emod_nonneg x (by norm_num)
  push_cast
  omega

/-- A word is the one of a number that fits if it has that number. -/
lemma eq_ofNat_iff (v : SVal) {n : ℕ} (hn : n < 2 ^ 64) : v = BitVec.ofNat 64 n ↔ v.toNat = n := by
  rw [← BitVec.toNat_inj, BitVec.toNat_ofNat, Nat.mod_eq_of_lt hn]

/-- A word is not zero if its number is positive. -/
lemma toNat_pos {w : SVal} (hw : w ≠ 0) : 0 < w.toNat :=
  Nat.pos_of_ne_zero fun h => hw (BitVec.eq_of_toNat_eq h)

/-! ## Divisions -/

/-- The unsigned quotient of the evaluator is right. -/
lemma udiv_meaning (v w : SVal) :
    ArithmeticKind.udiv.apply v w = ArithmeticKind.udiv.meaning v w := by
  have hq : v.toNat / w.toNat < 2 ^ 64 := (Nat.div_le_self _ _).trans_lt v.isLt
  simp only [ArithmeticKind.apply, SVal.div, ArithmeticKind.meaning]
  rw [(eq_ofNat_iff (v / w) hq).mpr BitVec.toNat_udiv]

/-- A quotient is the remainder of the same division if and only if the dividend is a multiple
of the divisor plus one, by a factor below the divisor. -/
lemma div_eq_mod_iff {a b : ℕ} (hb : 0 < b) : a / b = a % b ↔ b + 1 ∣ a ∧ a / (b + 1) < b := by
  constructor
  · intro h
    have ha : a = (b + 1) * (a / b) := by
      have := Nat.div_add_mod a b
      rw [← h] at this
      linarith
    have hdiv : a / (b + 1) = a / b := Nat.div_eq_of_eq_mul_right (by omega) ha
    exact ⟨⟨a / b, ha⟩, by rw [hdiv, h]; exact Nat.mod_lt a hb⟩
  · rintro ⟨⟨c, rfl⟩, hc⟩
    rw [Nat.mul_div_cancel_left c (by omega)] at hc
    have hsplit : (b + 1) * c = c + b * c := by ring
    rw [hsplit, Nat.add_mul_div_left c c hb, Nat.add_mul_mod_self_left, Nat.div_eq_of_lt hc,
      Nat.mod_eq_of_lt hc, Nat.zero_add]

/-- The unsigned remainder, which the evaluator takes for the quotient. -/
lemma urem_meaning_iff (v w : SVal) :
    ArithmeticKind.urem.apply v w = ArithmeticKind.urem.meaning v w ↔
      ArithmeticKind.urem.Agrees v w := by
  simp only [ArithmeticKind.apply, SVal.div, ArithmeticKind.meaning, ArithmeticKind.Agrees]
  by_cases hw : w = 0
  · simp [hw]
  have hr : v.toNat % w.toNat < 2 ^ 64 := (Nat.mod_le _ _).trans_lt v.isLt
  rw [if_neg hw, if_neg hw, Option.some_inj, eq_ofNat_iff _ hr, BitVec.toNat_udiv,
    div_eq_mod_iff (toNat_pos hw), or_iff_right hw]

/-- The quotient by a negative divisor. -/
lemma quotient_pos_neg {a b : ℕ} (ha : a < 2 ^ 63) (hb : b ≤ 2 ^ 63) (hb0 : 0 < b) :
    ((a / (2 ^ 64 - b) : ℕ) : ℤ) = (a : ℤ).tdiv (-b) % 2 ^ 64 ↔ a < b := by
  have hzero : a / (2 ^ 64 - b) = 0 := Nat.div_eq_of_lt (by omega)
  have hle : a / b ≤ a := Nat.div_le_self a b
  rw [hzero, Int.tdiv_neg, ← Int.ofNat_tdiv]
  calc ((0 : ℕ) : ℤ) = -((a / b : ℕ) : ℤ) % 2 ^ 64 ↔ a / b = 0 := by
        generalize a / b = q at hle ⊢
        omega
    _ ↔ a < b := by rw [Nat.div_eq_zero_iff, or_iff_right hb0.ne']

/-- The quotient of a negative dividend. -/
lemma quotient_neg_pos {a b : ℕ} (ha : a ≤ 2 ^ 63) (ha0 : 0 < a) (hb : b < 2 ^ 63) (hb0 : 0 < b) :
    (((2 ^ 64 - a) / b : ℕ) : ℤ) = (-a : ℤ).tdiv b % 2 ^ 64 ↔ b = 1 := by
  rw [Int.neg_tdiv, ← Int.ofNat_tdiv]
  constructor
  · intro h
    by_contra hb1
    have hq : (2 ^ 64 - a) / b ≤ (2 ^ 64 - a) / 2 := Nat.div_le_div_left (by omega) two_pos
    have hq0 : 0 < (2 ^ 64 - a) / b := Nat.div_pos (by omega) hb0
    have hq' : a / b ≤ a / 2 := Nat.div_le_div_left (by omega) two_pos
    generalize (2 ^ 64 - a) / b = p at h hq hq0
    generalize a / b = q at h hq'
    omega
  · rintro rfl
    rw [Nat.div_one, Nat.div_one]
    omega

/-- The quotient of two negative numbers. -/
lemma quotient_neg_neg {a b : ℕ} (ha : a ≤ 2 ^ 63) (ha0 : 0 < a) (hb : b ≤ 2 ^ 63) (hb0 : 0 < b) :
    (((2 ^ 64 - a) / (2 ^ 64 - b) : ℕ) : ℤ) = (-a : ℤ).tdiv (-b) % 2 ^ 64 ↔ a = b := by
  have hle : a / b ≤ a := Nat.div_le_self a b
  rw [Int.neg_tdiv_neg, ← Int.ofNat_tdiv]
  obtain hab | hab := le_or_gt a b
  · have hone : (2 ^ 64 - a) / (2 ^ 64 - b) = 1 :=
      Nat.div_eq_of_lt_le (by omega) (by omega)
    rw [hone]
    constructor
    · intro h
      have hq : a / b = 1 := by
        generalize a / b = q at h hle
        omega
      have hmul := Nat.div_mul_le_self a b
      rw [hq] at hmul
      omega
    · rintro rfl
      rw [Nat.div_self hb0]
      rfl
  · have hzero : (2 ^ 64 - a) / (2 ^ 64 - b) = 0 := Nat.div_eq_of_lt (by omega)
    have hq : 0 < a / b := Nat.div_pos hab.le hb0
    rw [hzero]
    generalize a / b = q at hle hq ⊢
    omega

/-- Where the unsigned division gives the signed quotient. -/
lemma sdiv_meaning_iff (v w : SVal) :
    ArithmeticKind.sdiv.apply v w = ArithmeticKind.sdiv.meaning v w ↔
      ArithmeticKind.sdiv.Agrees v w := by
  simp only [ArithmeticKind.apply, SVal.div, ArithmeticKind.meaning, ArithmeticKind.Agrees]
  by_cases hw : w = 0
  · simp [hw]
  have hpos := toNat_pos hw
  have hone : BitVec.toInt (1 : SVal) = 1 := by decide
  rw [if_neg hw, if_neg hw, Option.some_inj, eq_ofInt_iff, BitVec.toNat_udiv, or_iff_right hw,
    ← BitVec.toInt_inj (x := v), ← BitVec.toInt_inj (x := w), hone]
  obtain ⟨a, hva, hna, ha⟩ | ⟨a, hva, hna, ha, ha'⟩ := toInt_cases v
  · obtain ⟨b, hwb, hnb, hb⟩ | ⟨b, hwb, hnb, hb, hb'⟩ := toInt_cases w
    · rw [hva, hna, hwb, hnb, ← Int.ofNat_tdiv]
      have hle : a / b ≤ a := Nat.div_le_self a b
      generalize a / b = q at hle ⊢
      omega
    · rw [hva, hna, hwb, hnb, quotient_pos_neg ha hb' hb]
      omega
  · obtain ⟨b, hwb, hnb, hb⟩ | ⟨b, hwb, hnb, hb, hb'⟩ := toInt_cases w
    · rw [hva, hna, hwb, hnb, quotient_neg_pos ha' ha hb (by omega)]
      omega
    · rw [hva, hna, hwb, hnb, quotient_neg_neg ha' ha hb' hb]
      omega

/-- The remainder by a negative divisor. -/
lemma remainder_pos_neg {a b : ℕ} (ha : a < 2 ^ 63) (hb : b ≤ 2 ^ 63) (hb0 : 0 < b) :
    ((a / (2 ^ 64 - b) : ℕ) : ℤ) = (a : ℤ).tmod (-b) % 2 ^ 64 ↔ b ∣ a := by
  have hzero : a / (2 ^ 64 - b) = 0 := Nat.div_eq_of_lt (by omega)
  have hlt : a % b < b := Nat.mod_lt a hb0
  rw [hzero, Int.tmod_neg, ← Int.ofNat_tmod, Nat.dvd_iff_mod_eq_zero]
  generalize a % b = r at hlt ⊢
  omega

/-- The remainder of a negative dividend is never the quotient. -/
lemma remainder_neg_pos {a b : ℕ} (ha : a ≤ 2 ^ 63) (hb : b < 2 ^ 63) (hb0 : 0 < b) :
    ((((2 ^ 64 - a) / b : ℕ) : ℤ)) ≠ (-a : ℤ).tmod b % 2 ^ 64 := by
  rw [Int.neg_tmod, ← Int.ofNat_tmod]
  have hlt : a % b < b := Nat.mod_lt a hb0
  have hq0 : 0 < (2 ^ 64 - a) / b := Nat.div_pos (by omega) hb0
  intro h
  obtain rfl | hb1 : b = 1 ∨ 2 ≤ b := by omega
  · rw [Nat.mod_one] at h
    omega
  · have hq : (2 ^ 64 - a) / b ≤ (2 ^ 64 - a) / 2 := Nat.div_le_div_left hb1 two_pos
    generalize (2 ^ 64 - a) / b = p at h hq hq0
    generalize a % b = r at h hlt
    omega

/-- The remainder of two negative numbers. -/
lemma remainder_neg_neg {a b : ℕ} (ha : a ≤ 2 ^ 63) (ha0 : 0 < a) (hb : b ≤ 2 ^ 63) (hb0 : 0 < b) :
    (((2 ^ 64 - a) / (2 ^ 64 - b) : ℕ) : ℤ) = (-a : ℤ).tmod (-b) % 2 ^ 64 ↔ b < a ∧ b ∣ a := by
  have hlt : a % b < b := Nat.mod_lt a hb0
  rw [Int.neg_tmod, Int.tmod_neg, ← Int.ofNat_tmod, Nat.dvd_iff_mod_eq_zero]
  obtain hab | hab := le_or_gt a b
  · have hone : (2 ^ 64 - a) / (2 ^ 64 - b) = 1 :=
      Nat.div_eq_of_lt_le (by omega) (by omega)
    rw [hone]
    generalize a % b = r at hlt ⊢
    omega
  · have hzero : (2 ^ 64 - a) / (2 ^ 64 - b) = 0 := Nat.div_eq_of_lt (by omega)
    rw [hzero]
    generalize a % b = r at hlt ⊢
    omega

/-- Where the unsigned quotient is the signed remainder. -/
lemma srem_meaning_iff (v w : SVal) :
    ArithmeticKind.srem.apply v w = ArithmeticKind.srem.meaning v w ↔
      ArithmeticKind.srem.Agrees v w := by
  simp only [ArithmeticKind.apply, SVal.div, ArithmeticKind.meaning, ArithmeticKind.Agrees]
  by_cases hw : w = 0
  · simp [hw]
  have hpos := toNat_pos hw
  rw [if_neg hw, if_neg hw, Option.some_inj, eq_ofInt_iff, BitVec.toNat_udiv, or_iff_right hw]
  obtain ⟨a, hva, hna, ha⟩ | ⟨a, hva, hna, ha, ha'⟩ := toInt_cases v
  · obtain ⟨b, hwb, hnb, hb⟩ | ⟨b, hwb, hnb, hb, hb'⟩ := toInt_cases w
    · have hlt : a % b < b := Nat.mod_lt a (by omega)
      rw [hva, hna, hwb, hnb, ← Int.ofNat_tmod, ← div_eq_mod_iff (by omega)]
      generalize a % b = r at hlt ⊢
      generalize a / b = q
      omega
    · rw [hva, hna, hwb, hnb, remainder_pos_neg ha hb' hb, Int.neg_dvd, Int.natCast_dvd_natCast]
      have ha0 : (0 : ℤ) ≤ a := by omega
      have hb0 : -(b : ℤ) < 0 := by omega
      have hna0 : ¬ (a : ℤ) < 0 := by omega
      have hnb0 : ¬ (0 : ℤ) ≤ -b := by omega
      tauto
  · obtain ⟨b, hwb, hnb, hb⟩ | ⟨b, hwb, hnb, hb, hb'⟩ := toInt_cases w
    · rw [hva, hna, hwb, hnb, iff_false_left (remainder_neg_pos ha' hb (by omega))]
      omega
    · rw [hva, hna, hwb, hnb, remainder_neg_neg ha' ha hb' hb, Int.neg_dvd, Int.dvd_neg,
        Int.natCast_dvd_natCast]
      have ha0 : -(a : ℤ) < 0 := by omega
      have hb0 : -(b : ℤ) < 0 := by omega
      have hna0 : ¬ (0 : ℤ) ≤ -a := by omega
      have hab : -(a : ℤ) < -b ↔ b < a := by omega
      tauto

/-! ## Shifts -/

/-- The left shift of the evaluator multiplies by a power of two. -/
lemma shl_meaning (v w : SVal) :
    ArithmeticKind.shl.apply v w = ArithmeticKind.shl.meaning v w := by
  have hshl : v <<< w.toNat = BitVec.ofNat 64 (v.toNat * 2 ^ w.toNat) := by
    rw [← BitVec.toNat_inj, BitVec.toNat_shiftLeft, BitVec.toNat_ofNat, Nat.shiftLeft_eq]
  simp only [ArithmeticKind.apply, SVal.shl, ArithmeticKind.meaning, hshl]

/-- The right shift of the evaluator divides the unsigned number. -/
lemma lshr_meaning (v w : SVal) :
    ArithmeticKind.lshr.apply v w = ArithmeticKind.lshr.meaning v w := by
  have hlt : v.toNat / 2 ^ w.toNat < 2 ^ 64 := (Nat.div_le_self _ _).trans_lt v.isLt
  have hshr : v >>> w.toNat = BitVec.ofNat 64 (v.toNat / 2 ^ w.toNat) := by
    rw [eq_ofNat_iff _ hlt, BitVec.toNat_ushiftRight, Nat.shiftRight_eq_div_pow]
  simp only [ArithmeticKind.apply, SVal.shr, ArithmeticKind.meaning, hshr]

/-- Shifting a negative word. -/
lemma shift_neg {a n : ℕ} (ha : a ≤ 2 ^ 63) (ha0 : 0 < a) (hn : n < 64) :
    (((2 ^ 64 - a) / 2 ^ n : ℕ) : ℤ) = (-a : ℤ) / 2 ^ n % 2 ^ 64 ↔ n = 0 := by
  have hpow : (2 : ℤ) ^ 64 = 2 ^ n * 2 ^ (64 - n) := by
    rw [← pow_add]
    congr 1
    omega
  have hpos : (0 : ℤ) < 2 ^ n := by positivity
  have hcast : (((2 ^ 64 - a) / 2 ^ n : ℕ) : ℤ) = 2 ^ (64 - n) + (-a : ℤ) / 2 ^ n := by
    rw [Int.natCast_ediv, Nat.cast_sub (by omega), Nat.cast_pow, Nat.cast_pow, Nat.cast_ofNat,
      hpow, sub_eq_add_neg, add_comm, Int.add_mul_ediv_left _ _ hpos.ne', add_comm]
  have hneg : (-a : ℤ) / 2 ^ n < 0 := Int.ediv_neg_of_neg_of_pos (by omega) hpos
  have hge : (-a : ℤ) ≤ -a / 2 ^ n := by
    rw [Int.le_ediv_iff_mul_le hpos]
    nlinarith
  have hn0 : (2 : ℤ) ^ (64 - n) = 2 ^ 64 ↔ n = 0 := by
    rw [pow_right_inj₀ two_pos (by norm_num)]
    omega
  rw [hcast, ← hn0]
  generalize (-a : ℤ) / 2 ^ n = q at hneg hge ⊢
  generalize (2 : ℤ) ^ (64 - n) = p
  omega

/-- Where the logical right shift is the arithmetic one. -/
lemma ashr_meaning_iff (v w : SVal) :
    ArithmeticKind.ashr.apply v w = ArithmeticKind.ashr.meaning v w ↔
      ArithmeticKind.ashr.Agrees v w := by
  simp only [ArithmeticKind.apply, SVal.shr, ArithmeticKind.meaning, ArithmeticKind.Agrees]
  by_cases hw : w.toNat < 64
  · have hzero : w = 0 ↔ w.toNat = 0 := by rw [← BitVec.toNat_inj]; rfl
    rw [if_pos hw, if_pos hw, Option.some_inj, eq_ofInt_iff, BitVec.toNat_ushiftRight,
      Nat.shiftRight_eq_div_pow, hzero]
    generalize w.toNat = n at hw
    obtain ⟨a, hva, hna, ha⟩ | ⟨a, hva, hna, ha, ha'⟩ := toInt_cases v
    · have hle : a / 2 ^ n ≤ a := Nat.div_le_self _ _
      have hcast : (a : ℤ) / 2 ^ n = ((a / 2 ^ n : ℕ) : ℤ) := by push_cast; rfl
      rw [hva, hna, hcast]
      generalize a / 2 ^ n = q at hle ⊢
      omega
    · rw [hva, hna, shift_neg ha' ha hw]
      omega
  · rw [if_neg hw, if_neg hw]
    simp only [true_iff]
    exact Or.inr (Or.inr (not_lt.mp hw))

/-! ## Comparisons and casts -/

/-- The comparisons of the evaluator use the orders they are named after. -/
lemma cmp_meaning (k : CmpKind) (v w : SVal) : k.apply v w = k.meaning v w := by
  have hule : BitVec.ule v w = decide (v.toNat ≤ w.toNat) := rfl
  have hult : BitVec.ult v w = decide (v.toNat < w.toNat) := rfl
  have hsle : BitVec.sle v w = decide (v.toInt ≤ w.toInt) := rfl
  have hslt : BitVec.slt v w = decide (v.toInt < w.toInt) := rfl
  cases k <;>
    simp only [CmpKind.apply, CmpKind.meaning, SVal.ult, SVal.ugt, SVal.slt, SVal.sgt, hule, hult,
      hsle, hslt, ← decide_not, not_lt, not_le]
  · rfl
  · exact Bool.eq_iff_iff.mpr (by simp)

/-- Where a number is its own sign extension from one modulus to a multiple of it. -/
lemma eq_bmod_emod_iff {n S D : ℕ} (hS : 0 < S) (heven : S = 1 ∨ 2 ∣ S) (hdvd : S ∣ D)
    (hSD : S < D) :
    (n : ℤ) = (n : ℤ).bmod S % D ↔ n < D ∧ (n = 0 ∨ n < S / 2 ∨ D ≤ n + S / 2) := by
  have hlo : -((S : ℤ) / 2) ≤ (n : ℤ).bmod S := Int.le_bmod hS
  have hhi : (n : ℤ).bmod S < ((S : ℤ) + 1) / 2 := Int.bmod_lt hS
  constructor
  · intro h
    obtain hb | hb := lt_or_ge ((n : ℤ).bmod S) 0
    · rw [← Int.add_emod_right, Int.emod_eq_of_lt (by omega) (by omega)] at h
      omega
    · rw [Int.emod_eq_of_lt hb (by omega)] at h
      omega
  · rintro ⟨hn, rfl | hlow | hhigh⟩
    · simp
    · have hself : (n : ℤ).bmod S = n :=
        (Int.bmod_eq_iff hS).mpr ⟨by omega, by omega, by simp⟩
      rw [hself, Int.emod_eq_of_lt (by omega) (by omega)]
    · have hdown : (n : ℤ).bmod S = n - D := by
        refine (Int.bmod_eq_iff hS).mpr ⟨by omega, by omega, ?_⟩
        have hD : (S : ℤ) ∣ D := by exact_mod_cast hdvd
        simpa using hD
      rw [hdown, Int.sub_emod_right, Int.emod_eq_of_lt (by omega) (by omega)]

/-- Reducing modulo two powers of two reduces modulo the smaller one. -/
lemma emod_two_pow_min (x : ℤ) (t u : ℕ) :
    x % 2 ^ t % 2 ^ u = x % ((2 ^ min t u : ℕ) : ℤ) := by
  push_cast
  obtain htu | htu := le_total t u
  · have hlt : x % 2 ^ t < 2 ^ t := Int.emod_lt_of_pos x (by positivity)
    have hle : (2 : ℤ) ^ t ≤ 2 ^ u := pow_le_pow_right₀ (by norm_num) htu
    rw [min_eq_left htu, Int.emod_eq_of_lt (Int.emod_nonneg x (by positivity)) (hlt.trans_le hle)]
  · rw [min_eq_right htu, Int.emod_emod_of_dvd x (pow_dvd_pow 2 htu)]

/-- Where a value is its own sign extension. -/
lemma sext_eq_iff {n source target : ℕ} (hn : n < 2 ^ 64) :
    (n : ℤ) = (n : ℤ).bmod (2 ^ source) % 2 ^ target % 2 ^ 64 ↔
      n < 2 ^ target ∧ (target ≤ source ∨ n = 0 ∨ n < 2 ^ source / 2 ∨
        2 ^ min target 64 ≤ n + 2 ^ source / 2) := by
  have hlt : n < 2 ^ target ↔ n < 2 ^ min target 64 := by
    obtain h | h := le_total target 64
    · rw [min_eq_left h]
    · have hle : 2 ^ 64 ≤ 2 ^ target := Nat.pow_le_pow_right two_pos h
      rw [min_eq_right h]
      exact ⟨fun _ => hn, fun _ => hn.trans_le hle⟩
  rw [emod_two_pow_min, hlt]
  obtain hle | hle := le_or_gt (min target 64) source
  · have hdvd : ((2 ^ min target 64 : ℕ) : ℤ) ∣ ((2 ^ source : ℕ) : ℤ) := by
      exact_mod_cast pow_dvd_pow 2 hle
    rw [← Int.emod_emod_of_dvd _ hdvd, Int.bmod_emod, Int.emod_emod_of_dvd _ hdvd,
      ← Int.natCast_emod, Int.natCast_inj]
    have hself : n = n % 2 ^ min target 64 ↔ n < 2 ^ min target 64 :=
      ⟨fun h => h ▸ Nat.mod_lt _ (by positivity), fun h => (Nat.mod_eq_of_lt h).symm⟩
    rw [hself]
    refine (and_iff_left_of_imp fun hn' => ?_).symm
    obtain h | h := le_total target 64
    · exact Or.inl ((min_eq_left h).ge.trans hle)
    · rw [min_eq_right h] at hle ⊢
      have hpow : 2 ^ 64 ≤ 2 ^ source := Nat.pow_le_pow_right two_pos hle
      omega
  · have heven : 2 ^ source = 1 ∨ 2 ∣ 2 ^ source := by
      obtain rfl | h := Nat.eq_zero_or_pos source
      · exact Or.inl rfl
      · exact Or.inr (dvd_pow_self 2 h.ne')
    have hnot : ¬ target ≤ source := fun h => by omega
    rw [eq_bmod_emod_iff (by positivity) heven (pow_dvd_pow 2 hle.le)
      (Nat.pow_lt_pow_right (by norm_num) hle), or_iff_right hnot]

/-- Where dropping a cast gives the right value. -/
lemma cast_meaning_iff (k : CastKind) (source target : ℕ) (v : SVal) :
    v = k.meaning source target v ↔ k.Agrees source target v := by
  have hmod (b : ℕ) : v.toNat % b < 2 ^ 64 := (Nat.mod_le _ _).trans_lt v.isLt
  have hself {b : ℕ} (hb : 0 < b) : v.toNat = v.toNat % b ↔ v.toNat < b :=
    ⟨fun h => h ▸ Nat.mod_lt _ hb, fun h => (Nat.mod_eq_of_lt h).symm⟩
  cases k with
  | zext => rw [CastKind.meaning, CastKind.Agrees, eq_ofNat_iff v (hmod _), hself (by positivity)]
  | sext => rw [CastKind.meaning, CastKind.Agrees, eq_ofInt_iff, sext_eq_iff v.isLt]
  | trunc => rw [CastKind.meaning, CastKind.Agrees, eq_ofNat_iff v (hmod _), hself (by positivity)]

/-- Where the operator of the evaluator is the one of LLVM. -/
lemma arithmetic_meaning_iff (k : ArithmeticKind) (v w : SVal) :
    k.apply v w = k.meaning v w ↔ k.Agrees v w := by
  cases k with
  | add | sub | mul | and | or | xor => exact iff_of_true rfl trivial
  | udiv => exact iff_of_true (udiv_meaning v w) trivial
  | sdiv => exact sdiv_meaning_iff v w
  | urem => exact urem_meaning_iff v w
  | srem => exact srem_meaning_iff v w
  | shl => exact iff_of_true (shl_meaning v w) trivial
  | lshr => exact iff_of_true (lshr_meaning v w) trivial
  | ashr => exact ashr_meaning_iff v w

namespace SExpr

variable {T : Type*}

/-- **Where the evaluator follows the meaning of the operators.**  For subexpressions with the
values `v` and `w`, a binary operator and a cast have their meaning exactly on the operands of
`Agrees`, and every comparison has its meaning. -/
theorem evaluator_agrees_iff {m : T → SVal} {l r : SExpr T} {v w : SVal}
    (hl : visit m l = some v) (hr : visit m r = some w) :
    (∀ (k : ArithmeticKind) (width : ℕ),
        visit m (binary k width l r) = k.meaning v w ↔ k.Agrees v w) ∧
      (∀ k : CmpKind, visit m (cmp k l r) = some (SVal.ofBool (k.meaning v w))) ∧
      (∀ (k : CastKind) (width : ℕ),
        visit m (cast k width l) = some (k.meaning l.getWidth width v) ↔
          k.Agrees l.getWidth width v) := by
  refine ⟨?_, ?_, ?_⟩
  · intro k width
    rw [visit, hl, hr, Option.bind_some, Option.bind_some]
    exact arithmetic_meaning_iff k v w
  · intro k
    rw [visit, hl, hr, Option.bind_some, Option.map_some, cmp_meaning]
  · intro k width
    rw [visit, hl, Option.some_inj]
    exact cast_meaning_iff k l.getWidth width v

/-- The operators at the values 7 and 3. -/
theorem evaluator_agrees_iff_seven :
    (visit (fun _ : Unit => (7 : SVal)) (binary .urem 64 (register 64 ()) (concrete 64 3)) =
        ArithmeticKind.urem.meaning 7 3 ↔ ArithmeticKind.urem.Agrees 7 3) ∧
      visit (fun _ : Unit => (7 : SVal)) (cmp .ult (register 64 ()) (concrete 64 3)) =
        some (SVal.ofBool (CmpKind.ult.meaning 7 3)) := by
  have h := evaluator_agrees_iff (m := fun _ : Unit => (7 : SVal)) (l := register 64 ())
    (r := concrete 64 3) rfl rfl
  exact ⟨h.1 .urem 64, h.2.1 .ult⟩

/-- The remainder of 7 and 3 is evaluated to the quotient, the quotient of -6 and 3 to that of the
unsigned number, the arithmetic shift of -2 fills with a zero, and the sign extension of -1 from 8
to 16 bits stays 255. -/
theorem operators_without_meaning :
    visit (fun _ : Unit => (7 : SVal)) (binary .urem 64 (register 64 ()) (concrete 64 3)) ≠
        ArithmeticKind.urem.meaning 7 3 ∧
      visit (fun _ : Unit => (7 : SVal)) (binary .srem 64 (register 64 ()) (concrete 64 3)) ≠
        ArithmeticKind.srem.meaning 7 3 ∧
      visit (fun _ : Unit => (-6 : SVal)) (binary .sdiv 64 (register 64 ()) (concrete 64 3)) ≠
        ArithmeticKind.sdiv.meaning (-6) 3 ∧
      visit (fun _ : Unit => (-2 : SVal)) (binary .ashr 64 (register 64 ()) (concrete 64 1)) ≠
        ArithmeticKind.ashr.meaning (-2) 1 ∧
      visit (fun _ : Unit => (255 : SVal)) (cast .sext 16 (register 8 ())) ≠
        some (CastKind.sext.meaning 8 16 255) := by
  decide

end SExpr

end GenMC
