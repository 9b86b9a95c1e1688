import Mathlib.Data.Nat.Bitwise
import Mathlib.Tactic

/-!
# Memory addresses

`SAddr` is a 64-bit word whose four top bits record the storage options of the allocation an
address belongs to (static, automatic, internal, durable) and whose low 60 bits are the offset
inside the pool it was taken from.  `SAddr.create` packs the two parts with bit masks; the lemmas
below read the packed word back as `tag * 2 ^ 60 + offset`, which is the form in which the
allocator proofs use it.
-/

namespace GenMC

/-- `SAddr::Width`, the `uintptr_t` of a 64-bit machine. -/
abbrev Width := BitVec 64

/-- A memory address: B64 is set for static addresses, B63 for automatic ones, B62 for internal
ones and B61 for durable ones; the remaining bits are the address proper. -/
structure SAddr where
  /-- The actual address. -/
  addr : Width
deriving DecidableEq, Repr

namespace SAddr

/-- The bit of static addresses. -/
def staticMask : Width := 1#64 <<< 63

/-- The bit of automatic addresses. -/
def automaticMask : Width := 1#64 <<< 62

/-- The bit of internal addresses. -/
def internalMask : Width := 1#64 <<< 61

/-- The bit of durable addresses. -/
def durableMask : Width := 1#64 <<< 60

/-- The bits of the address proper. -/
def addressMask : Width := durableMask - 1

/-- The first offset an address cannot hold. -/
def limit : Width := addressMask

/-- Sets the bits of `mask` in `fresh` to the flag `b` (the usual branch-free idiom). -/
def setFlag (fresh mask : Width) (b : Bool) : Width :=
  fresh ^^^ ((-(BitVec.ofBool b).setWidth 64 ^^^ fresh) &&& mask)

/-- `SAddr::create`: packs the storage bits and an offset; offsets beyond the limit are a bug. -/
def create (storageMask value : Width) (durable internal : Bool) : Option SAddr :=
  if limit ≤ value then none
  else
    let fresh : Width := 0
    let fresh := fresh ||| storageMask
    let fresh := setFlag fresh durableMask durable
    let fresh := setFlag fresh internalMask internal
    some ⟨fresh ||| value⟩

/-- `SAddr::createStatic`. -/
def createStatic : Width → Bool → Bool → Option SAddr := create staticMask

/-- `SAddr::createHeap`. -/
def createHeap : Width → Bool → Bool → Option SAddr := create 0

/-- `SAddr::createAutomatic`. -/
def createAutomatic : Width → Bool → Bool → Option SAddr := create automaticMask

/-- Whether the address is static. -/
def isStatic (a : SAddr) : Bool := a.addr &&& staticMask != 0

/-- Whether the address is automatic. -/
def isAutomatic (a : SAddr) : Bool := a.addr &&& automaticMask != 0

/-- Whether the address is internal. -/
def isInternal (a : SAddr) : Bool := a.addr &&& internalMask != 0

/-- Whether the address is durable. -/
def isDurable (a : SAddr) : Bool := a.addr &&& durableMask != 0

/-- Whether the address is null. -/
def isNull (a : SAddr) : Bool := a.addr == 0

/-- `SAddr::operator+`: the address `size` bytes further. -/
def add (a : SAddr) (size : BitVec 32) : SAddr := ⟨a.addr + size.setWidth 64⟩

/-! ## The packed form -/

/-- The four storage bits of an address as a number below 16. -/
def tag (static automatic internal durable : Bool) : ℕ :=
  8 * static.toNat + 4 * automatic.toNat + 2 * internal.toNat + durable.toNat

/-- Two addresses with the same numeric value are the same address. -/
lemma ext_toNat {a b : SAddr} (h : a.addr.toNat = b.addr.toNat) : a = b := by
  cases a; cases b
  congr
  exact BitVec.eq_of_toNat_eq h

/-- Joining an offset to a word that only has storage bits adds the two numbers. -/
lemma toNat_or_offset (hi value : Width) (t : ℕ) (hhi : hi.toNat = t * 2 ^ 60)
    (hv : value.toNat < 2 ^ 60) : (hi ||| value).toNat = t * 2 ^ 60 + value.toNat := by
  rw [BitVec.toNat_or, hhi, mul_comm t, Nat.two_pow_add_eq_or_of_lt hv]

/-- An offset below the limit is packed under the storage bits of the call. -/
lemma create_toNat {storageMask value : Width} {static automatic : Bool} (durable internal : Bool)
    (hmask : storageMask.toNat = tag static automatic false false * 2 ^ 60)
    (hv : value.toNat < 2 ^ 60 - 1) :
    ∃ a, create storageMask value durable internal = some a ∧
      a.addr.toNat = tag static automatic internal durable * 2 ^ 60 + value.toNat := by
  have hlim : ¬ limit ≤ value := by
    rw [BitVec.le_def, not_le]
    exact lt_of_lt_of_eq hv rfl
  have hmask' : storageMask = BitVec.ofNat 64 (tag static automatic false false * 2 ^ 60) := by
    rw [← hmask, BitVec.ofNat_toNat, BitVec.setWidth_eq]
  refine ⟨_, by rw [create, if_neg hlim], toNat_or_offset _ _ _ ?_ (by omega)⟩
  subst hmask'
  cases static <;> cases automatic <;> cases internal <;> cases durable <;> rfl

/-- Testing one storage bit of a packed address tests the corresponding bit of its tag. -/
lemma and_bit_ne_zero (a : SAddr) {t r : ℕ} (j : ℕ) (hj : j < 4) (hr : r < 2 ^ 60)
    (ha : a.addr.toNat = t * 2 ^ 60 + r) :
    (a.addr &&& (1#64 <<< (60 + j)) != 0) = t.testBit j := by
  have hbit : a.addr.getLsbD (60 + j) = t.testBit j := by
    rw [BitVec.getLsbD, ha, mul_comm, Nat.testBit_two_pow_mul_add _ hr]
    simp
  rw [← hbit]
  cases h : a.addr.getLsbD (60 + j) with
  | true =>
    rw [bne_iff_ne]
    intro h0
    have hb : (a.addr &&& (1#64 <<< (60 + j))).getLsbD (60 + j) = true := by
      simp [BitVec.getLsbD_shiftLeft, h]
      omega
    rw [h0] at hb
    simp at hb
  | false =>
    rw [bne_eq_false_iff_eq]
    apply BitVec.eq_of_getLsbD_eq
    intro i hi
    by_cases hij : i = 60 + j
    · subst hij
      simp [h]
    · simp [BitVec.getLsbD_shiftLeft]
      intro _ _ _
      omega

/-- The bits of a tag are the storage options it was built from. -/
lemma tag_testBit : ∀ static automatic internal durable : Bool,
    (tag static automatic internal durable).testBit 3 = static ∧
      (tag static automatic internal durable).testBit 2 = automatic ∧
      (tag static automatic internal durable).testBit 1 = internal ∧
      (tag static automatic internal durable).testBit 0 = durable := by
  decide

/-- The flags of a packed address are the storage options it was created with. -/
lemma flags_of_toNat {a : SAddr} {static automatic internal durable : Bool} {r : ℕ}
    (hr : r < 2 ^ 60)
    (ha : a.addr.toNat = tag static automatic internal durable * 2 ^ 60 + r) :
    a.isStatic = static ∧ a.isAutomatic = automatic ∧
      a.isInternal = internal ∧ a.isDurable = durable := by
  obtain ⟨h3, h2, h1, h0⟩ := tag_testBit static automatic internal durable
  exact ⟨(and_bit_ne_zero a 3 (by omega) hr ha).trans h3,
    (and_bit_ne_zero a 2 (by omega) hr ha).trans h2,
    (and_bit_ne_zero a 1 (by omega) hr ha).trans h1,
    (and_bit_ne_zero a 0 (by omega) hr ha).trans h0⟩

end SAddr

end GenMC
