import Mathlib.Tactic

/-!
# Memory of bytes

A memory gives every address a byte.  A typed access reads or writes the bytes that hold a word,
the lowest byte first, and a word whose width is not a multiple of eight is stored with zeros in
the rest of its last byte.  The byte operations copy and fill a range of addresses; both are
described by the bytes that they leave (`copy_add`, `fill_add`), as the typed ones are
(`store_add`, `load_byte`).
-/

namespace GenMC

/-- A memory. -/
abbrev Memory := ℤ → BitVec 8

namespace Memory

/-- The bytes that hold a word. -/
def storeSize (width : ℕ) : ℕ := (width + 7) / 8

/-- A byte of a word. -/
def byteOf {width : ℕ} (v : BitVec width) (j : ℕ) : BitVec 8 := v.extractLsb' (8 * j) 8

/-- The bytes of a range as a word; the last byte is the highest. -/
def bytes (mem : Memory) (a : ℤ) : (n : ℕ) → BitVec (8 * n)
  | 0 => 0
  | n + 1 => (mem (a + n) ++ bytes mem a n).setWidth (8 * (n + 1))

/-- The word at an address. -/
def load (mem : Memory) (width : ℕ) (a : ℤ) : BitVec width :=
  (mem.bytes a (storeSize width)).setWidth width

/-- The memory after a word has been stored. -/
def store (mem : Memory) {width : ℕ} (v : BitVec width) (a : ℤ) : Memory := fun x =>
  if a ≤ x ∧ x < a + storeSize width then byteOf v (x - a).toNat else mem x

/-- The memory after a range has been copied. -/
def copy (mem : Memory) (dest source : ℤ) (len : ℕ) : Memory := fun x =>
  if dest ≤ x ∧ x < dest + len then mem (source + (x - dest)) else mem x

/-- The memory after a range has been filled. -/
def fill (mem : Memory) (dest : ℤ) (c : BitVec 8) (len : ℕ) : Memory := fun x =>
  if dest ≤ x ∧ x < dest + len then c else mem x

section

variable (mem : Memory) {width : ℕ} (v : BitVec width) (a x : ℤ)

lemma storeSize_pos (h : 0 < width) : 0 < storeSize width := by
  unfold storeSize
  omega

lemma storeSize_mul (h : 8 ∣ width) : storeSize width * 8 = width := by
  unfold storeSize
  omega

lemma store_add (k : ℤ) :
    mem.store v a (a + k) = if 0 ≤ k ∧ k < storeSize width then byteOf v k.toNat
      else mem (a + k) := by
  simp only [store, add_sub_cancel_left]
  congr 1
  exact propext ⟨fun h => ⟨by omega, by omega⟩, fun h => ⟨by omega, by omega⟩⟩

lemma copy_add (dest source : ℤ) (len : ℕ) (k : ℤ) :
    mem.copy dest source len (dest + k) = if 0 ≤ k ∧ k < len then mem (source + k)
      else mem (dest + k) := by
  simp only [copy, add_sub_cancel_left]
  congr 1
  exact propext ⟨fun h => ⟨by omega, by omega⟩, fun h => ⟨by omega, by omega⟩⟩

lemma fill_add (dest : ℤ) (c : BitVec 8) (len : ℕ) (k : ℤ) :
    mem.fill dest c len (dest + k) = if 0 ≤ k ∧ k < len then c else mem (dest + k) := by
  simp only [fill]
  congr 1
  exact propext ⟨fun h => ⟨by omega, by omega⟩, fun h => ⟨by omega, by omega⟩⟩

/-- A bit of a byte of a word. -/
lemma getLsbD_byteOf (j i : ℕ) :
    (byteOf v j).getLsbD i = (decide (i < 8) && v.getLsbD (8 * j + i)) := by
  rw [byteOf, BitVec.getLsbD_extractLsb']

/-- A bit of a range of bytes. -/
lemma getLsbD_bytes (n j i : ℕ) (hj : j < n) (hi : i < 8) :
    (mem.bytes a n).getLsbD (8 * j + i) = (mem (a + j)).getLsbD i := by
  induction n with
  | zero => omega
  | succ n ih =>
    rw [bytes, BitVec.getLsbD_setWidth, BitVec.getLsbD_append, decide_eq_true (by omega),
      Bool.true_and]
    rcases Nat.lt_succ_iff_lt_or_eq.mp hj with hlt | rfl
    · rw [if_pos (by omega), ih hlt]
    · rw [if_neg (by omega), Nat.add_sub_cancel_left]

/-- A word only depends on the bytes that hold it. -/
lemma load_congr {mem mem' : Memory}
    (h : ∀ j : ℕ, j < storeSize width → mem (a + j) = mem' (a + j)) :
    mem.load width a = mem'.load width a := by
  refine BitVec.eq_of_getLsbD_eq fun i hi => ?_
  have hj : i / 8 < storeSize width := by
    unfold storeSize
    omega
  rw [load, load, BitVec.getLsbD_setWidth, BitVec.getLsbD_setWidth, ← Nat.div_add_mod i 8,
    getLsbD_bytes _ _ _ _ _ hj (by omega), getLsbD_bytes _ _ _ _ _ hj (by omega), h _ hj]

/-- A bit of a byte of the word at an address. -/
lemma getLsbD_byteOf_load (j i : ℕ) (hi : i < 8) :
    (byteOf (mem.load width a) j).getLsbD i =
      (decide (8 * j + i < width) && (mem (a + j)).getLsbD i) := by
  rw [getLsbD_byteOf, decide_eq_true hi, Bool.true_and, load, BitVec.getLsbD_setWidth]
  by_cases hlt : 8 * j + i < width
  · rw [getLsbD_bytes _ _ _ _ _ (by unfold storeSize; omega) hi]
  · simp only [decide_eq_false hlt, Bool.false_and]

/-- A word of whole bytes has the bytes of the memory. -/
lemma byteOf_load (hwhole : 8 ∣ width) (j : ℕ) (hj : j < storeSize width) :
    byteOf (mem.load width a) j = mem (a + j) := by
  have hsize := storeSize_mul hwhole
  refine BitVec.eq_of_getLsbD_eq fun i hi => ?_
  rw [getLsbD_byteOf_load _ _ _ _ hi, decide_eq_true (by omega), Bool.true_and]

end

end Memory

end GenMC
