import Mathlib.Tactic

/-!
# Values

All values that are written to memory are 64-bit words, whatever the width of the access.  A value
is canonical for a width if the bits above the width are zero.  `toInt_signExtendBottom` connects
the sign extension that the signed comparisons of narrow values use to the signed reading of the
low bits.
-/

namespace GenMC

/-- `SVal`: a value to be written to memory. -/
abbrev SVal := BitVec 64

namespace SVal

/-- Sign-extends the number in the bottom `b` bits to 64 bits. -/
def signExtendBottom (v : SVal) (b : ℕ) : SVal := (v <<< (64 - b)).sshiftRight (64 - b)

/-- Whether `v < w` if both are considered signed. -/
def slt (v w : SVal) : Bool := BitVec.slt v w

/-- Whether `v > w` if both are considered signed. -/
def sgt (v w : SVal) : Bool := !BitVec.sle v w

/-- Whether `v < w` if both are considered unsigned. -/
def ult (v w : SVal) : Bool := BitVec.ult v w

/-- Whether `v > w` if both are considered unsigned. -/
def ugt (v w : SVal) : Bool := !BitVec.ule v w

/-- The value fits into `s` bytes. -/
def Canonical (s : ℕ) (v : SVal) : Prop := v.toNat < 2 ^ (8 * s)

instance (s : ℕ) (v : SVal) : Decidable (v.Canonical s) := Nat.decLt _ _

/-- The low `s` bytes of a value. -/
def low (s : ℕ) (v : SVal) : BitVec (8 * s) := v.setWidth (8 * s)

/-- The canonical value with the given low bytes. -/
def ofLow {s : ℕ} (v : BitVec (8 * s)) : SVal := v.setWidth 64

/-- A canonical value is the number in its low bytes. -/
lemma Canonical.toNat_low {s : ℕ} {v : SVal} (hv : v.Canonical s) : (v.low s).toNat = v.toNat := by
  unfold low
  rw [BitVec.toNat_setWidth]
  exact Nat.mod_eq_of_lt hv

/-- The number of the value with the given low bytes. -/
lemma toNat_ofLow {s : ℕ} (hs : s ≤ 8) (v : BitVec (8 * s)) : (ofLow v).toNat = v.toNat := by
  unfold ofLow
  rw [BitVec.toNat_setWidth]
  exact Nat.mod_eq_of_lt (v.isLt.trans_le (Nat.pow_le_pow_right two_pos (by omega)))

/-- The value with the given low bytes is canonical. -/
lemma canonical_ofLow {s : ℕ} (hs : s ≤ 8) (v : BitVec (8 * s)) : (ofLow v).Canonical s := by
  unfold Canonical
  rw [toNat_ofLow hs]
  exact v.isLt

/-- A canonical value is determined by its low bytes. -/
lemma Canonical.ofLow_low {s : ℕ} (hs : s ≤ 8) {v : SVal} (hv : v.Canonical s) :
    ofLow (v.low s) = v :=
  BitVec.eq_of_toNat_eq ((toNat_ofLow hs _).trans hv.toNat_low)

/-- **Comparing canonical values compares their low bytes.** -/
lemma Canonical.eq_iff_low {s : ℕ} (hs : s ≤ 8) {v w : SVal} (hv : v.Canonical s)
    (hw : w.Canonical s) : v = w ↔ v.low s = w.low s := by
  constructor
  · rintro rfl
    rfl
  · intro h
    rw [← hv.ofLow_low hs, ← hw.ofLow_low hs, h]

/-! ## Signed values -/

/-- Scaling a number and an even modulus scales the signed remainder. -/
lemma bmod_mul (x : ℤ) {m c : ℕ} (hm : 2 ∣ m) (hc : 0 < c) :
    (x * c).bmod (m * c) = x.bmod m * c := by
  have hc' : (0 : ℤ) < c := by exact_mod_cast hc
  obtain ⟨k, rfl⟩ := hm
  have hmod : (x * c) % ((2 * k * c : ℕ) : ℤ) = x % ((2 * k : ℕ) : ℤ) * c := by
    rw [Nat.cast_mul (2 * k) c, mul_comm x, mul_comm ((2 * k : ℕ) : ℤ), mul_comm (x % _)]
    exact Int.mul_emod_mul_of_pos x _ hc'
  have hhalf : (((2 * k * c : ℕ) : ℤ) + 1) / 2 = k * c := by
    push_cast
    rw [mul_assoc]
    omega
  have hhalf' : (((2 * k : ℕ) : ℤ) + 1) / 2 = k := by
    push_cast
    omega
  rw [Int.bmod_def, Int.bmod_def, hmod, hhalf, hhalf']
  have hiff : x % ((2 * k : ℕ) : ℤ) * c < k * c ↔ x % ((2 * k : ℕ) : ℤ) < k :=
    mul_lt_mul_iff_left₀ hc'
  by_cases h : x % ((2 * k : ℕ) : ℤ) < k
  · rw [if_pos h, if_pos (hiff.mpr h)]
  · rw [if_neg h, if_neg (mt hiff.mp h)]
    push_cast
    ring

/-- The sign-extended value reads as the low bytes do. -/
lemma toInt_signExtendBottom (v : SVal) {s : ℕ} (hs : 1 ≤ s) (hs' : s ≤ 8) :
    (v.signExtendBottom (8 * s)).toInt = (v.low s).toInt := by
  obtain ⟨n, hn⟩ : ∃ n, 64 = 8 * s + n := ⟨64 - 8 * s, by omega⟩
  have hpow : (2 : ℕ) ^ 64 = 2 ^ (8 * s) * 2 ^ n := by rw [hn, pow_add]
  have heven : 2 ∣ 2 ^ (8 * s) := dvd_pow_self 2 (by omega)
  have hpos : 0 < 2 ^ n := Nat.two_pow_pos n
  unfold signExtendBottom low
  rw [BitVec.toInt_sshiftRight, BitVec.toInt_shiftLeft, BitVec.toInt_setWidth,
    show 64 - 8 * s = n by omega, Nat.shiftLeft_eq, Nat.cast_mul, hpow, bmod_mul _ heven hpos,
    Int.shiftRight_eq_div_pow]
  exact Int.mul_ediv_cancel _ (by exact_mod_cast hpos.ne')

end SVal

end GenMC
