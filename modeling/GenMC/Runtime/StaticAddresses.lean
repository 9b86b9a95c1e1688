import GenMC.Lib.LowerBound
import GenMC.Support.SAddrAllocator
import Mathlib.Data.Prod.Lex

/-!
# Addresses of global variables

Before a program runs, every global variable gets a static address, and the block of the variable is
kept as a pair of its first and its last address in a sorted vector.  Whether an address belongs to
a global variable, and to which, is found by binary search.

The search is right only if the pairs are the blocks of the variables and disjoint.  Where a
variable is placed follows from the sizes and the alignments of the variables before it (`layout`),
so this is a condition on the list of variables.
-/

namespace GenMC

/-- Addresses are compared as numbers. -/
instance : LinearOrder SAddr :=
  LinearOrder.lift' (fun a => a.addr.toNat) fun _ _ h => SAddr.ext_toNat h

/-- What is read of a global variable. -/
structure GlobalVariable where
  /-- The size of its type, as the data layout gives it. -/
  typeAllocSize : BitVec 64
  /-- The exponent of its alignment, if one is given. -/
  align : Option (Fin 32)
  /-- Every thread has a copy of its own. -/
  isThreadLocal : Bool
  /-- The section that it is put in. -/
  sectionName : String
  /-- Its address space. -/
  addressSpace : ℕ
deriving DecidableEq, Repr

namespace GlobalVariable

/-- `GlobalVariable::getAlignment`; 0 if none is given. -/
def getAlignment (v : GlobalVariable) : BitVec 32 :=
  match v.align with
  | none => 0
  | some k => BitVec.ofNat 32 (2 ^ k.val)

/-- Whether the variable survives a crash. -/
def isDurable (v : GlobalVariable) : Bool := v.sectionName == "__genmc_persist"

/-- Whether the variable is one of the tool's own. -/
def isInternal (v : GlobalVariable) : Bool := v.addressSpace == 42

/-- `typeSize`, an `unsigned int`. -/
def typeSize (v : GlobalVariable) : BitVec 32 := v.typeAllocSize.setWidth 32

end GlobalVariable

/-- The first and the last address of a block; pairs are compared by their first components. -/
abbrev StaticAlloca := SAddr ×ₗ SAddr

/-- What `collectStaticAddresses` works on. -/
structure StaticAddresses where
  /-- The allocator. -/
  alloctor : SAddrAllocator
  /-- The blocks, in a sorted vector. -/
  staticAllocas : List StaticAlloca := []
  /-- The addresses of the variables. -/
  globalMapping : List (GlobalVariable × SAddr) := []

/-- One round of the loop of `Interpreter::collectStaticAddresses`. -/
def collectStaticAddress (st : StaticAddresses) (v : GlobalVariable) : Option StaticAddresses :=
  if v.isThreadLocal then some st
  else
    (st.alloctor.allocStatic v.typeSize v.getAlignment v.isDurable v.isInternal).map fun r =>
      { alloctor := r.2
        staticAllocas :=
          sortedInsert st.staticAllocas (toLex (r.1, r.1.add (v.typeSize - 1)))
        globalMapping := st.globalMapping ++ [(v, r.1)] }

/-- `Interpreter::collectStaticAddresses`. -/
def collectStaticAddresses (alloctor : SAddrAllocator) (globals : List GlobalVariable) :
    Option StaticAddresses :=
  globals.foldlM collectStaticAddress { alloctor := alloctor }

/-- The binary search of both lookups. -/
def findStaticAlloca (allocMap : List StaticAlloca) (addr : SAddr) : Option StaticAlloca :=
  allocMap[lowerBound (fun it => decide ((ofLex it).2 < addr)) allocMap]?

/-- `Interpreter::isStaticallyAllocated`. -/
def isStaticallyAllocated (staticAllocas : List StaticAlloca) (addr : SAddr) : Bool :=
  match findStaticAlloca staticAllocas addr with
  | none => false
  | some it => decide ((ofLex it).1 ≤ addr ∧ addr ≤ (ofLex it).2)

/-- `getStaticAllocBegin`; it is a bug if the address belongs to no block. -/
def getStaticAllocBegin (allocMap : List StaticAlloca) (addr : SAddr) : Option SAddr :=
  match findStaticAlloca allocMap addr with
  | none => none
  | some it => if addr < (ofLex it).1 ∨ (ofLex it).2 < addr then none else some (ofLex it).1

/-- The address lies in the block of a variable that was placed. -/
def Covers (b : GlobalVariable × SAddr) (a : SAddr) : Prop :=
  b.2.addr.toNat ≤ a.addr.toNat ∧
    a.addr.toNat < b.2.addr.toNat + b.1.typeAllocSize.toNat

/-- What is asked of the lookups: an address is known exactly if it lies in the block of a variable;
there is one such variable, and the begin of its block is returned. -/
structure LookupRight (st : StaticAddresses) : Prop where
  isStaticallyAllocated_iff : ∀ a, isStaticallyAllocated st.staticAllocas a = true ↔
    ∃ b ∈ st.globalMapping, Covers b a
  begin_eq : ∀ a, ∀ b ∈ st.globalMapping, Covers b a →
    getStaticAllocBegin st.staticAllocas a = some b.2
  unique : st.globalMapping.Pairwise fun b b' => ∀ a, ¬(Covers b a ∧ Covers b' a)

/-! ## The layout -/

/-- A variable and its offset in the static pool. -/
abbrev PlacedVariable := GlobalVariable × ℕ

/-- The offset that the allocator gives: the pool rounded up to the alignment, of which only the
lower 32 bits are kept. -/
def offsetAt (pool alignment : ℕ) : ℕ :=
  (pool + (alignment + 2 ^ 32 - 1)) % 2 ^ 32 / alignment * alignment

/-- The offsets of the variables, from a value of the static pool on. -/
def layout : ℕ → List GlobalVariable → List PlacedVariable
  | _, [] => []
  | pool, v :: globals =>
    if v.isThreadLocal then layout pool globals
    else
      (v, offsetAt pool v.getAlignment.toNat) ::
        layout (pool + (v.getAlignment.toNat + 2 ^ 32 - 1) + v.typeAllocSize.toNat) globals

namespace PlacedVariable

/-- The first address of the block as a number. -/
def first (b : PlacedVariable) : ℕ :=
  SAddr.tag true false b.1.isInternal b.1.isDurable * 2 ^ 60 + b.2

/-- The size of the block. -/
def size (b : PlacedVariable) : ℕ := b.1.typeAllocSize.toNat

/-- The blocks have no address in common. -/
def Apart (b b' : PlacedVariable) : Prop :=
  b.size = 0 ∨ b'.size = 0 ∨ b.first + b.size ≤ b'.first ∨ b'.first + b'.size ≤ b.first

end PlacedVariable

/-- The layouts that the lookups can handle: no block is larger than 4 GiB, an empty block has the
place of a block of exactly 4 GiB, and the blocks do not overlap. -/
structure SearchableLayout (blocks : List PlacedVariable) : Prop where
  size_le : ∀ b ∈ blocks, b.size ≤ 2 ^ 32
  shadowed : ∀ b ∈ blocks, b.size = 0 → ∃ b' ∈ blocks, b'.first = b.first ∧ b'.size = 2 ^ 32
  apart : blocks.Pairwise PlacedVariable.Apart

/-! ## The offsets -/

namespace GlobalVariable

/-- An alignment is a power of two or 0. -/
lemma toNat_getAlignment (v : GlobalVariable) :
    v.getAlignment.toNat = match v.align with | none => 0 | some k => 2 ^ k.val := by
  unfold getAlignment
  cases v.align with
  | none => rfl
  | some k => exact Nat.mod_eq_of_lt (Nat.pow_lt_pow_right (by decide) k.isLt)

end GlobalVariable

/-- The masked value that the allocator computes is the offset. -/
lemma toNat_alloc_value {P : Width} {pool : ℕ} (hpool : P.toNat % 2 ^ 32 = pool % 2 ^ 32)
    (v : GlobalVariable) :
    ((P + (v.getAlignment - 1).setWidth 64) &&& (~~~(v.getAlignment - 1)).setWidth 64).toNat
      = offsetAt pool v.getAlignment.toNat := by
  have hal := v.toNat_getAlignment
  cases halign : v.align with
  | none =>
    have hzero : v.getAlignment = 0 := BitVec.eq_of_toNat_eq (by rw [hal, halign]; rfl)
    rw [hzero, offsetAt]
    simp
  | some k =>
    rw [halign] at hal
    have hk : v.getAlignment.toNat = 2 ^ k.val := hal
    rw [SAddrAllocator.toNat_and_mask _ _ hk, offsetAt, hk]
    have hpos : 0 < 2 ^ k.val := by positivity
    have hlt : 2 ^ k.val < 2 ^ 32 := Nat.pow_lt_pow_right (by decide) k.isLt
    have hoff : (v.getAlignment - 1).toNat = 2 ^ k.val - 1 := by bv_omega
    have hsum : (P + (v.getAlignment - 1).setWidth 64).toNat % 2 ^ 32
        = (pool + (2 ^ k.val + 2 ^ 32 - 1)) % 2 ^ 32 := by
      rw [BitVec.toNat_add, BitVec.toNat_setWidth, hoff]
      generalize 2 ^ k.val = m at hpos hlt
      omega
    rw [hsum]

/-- An offset has 32 bits. -/
lemma offsetAt_lt (pool alignment : ℕ) : offsetAt pool alignment < 2 ^ 32 :=
  (Nat.div_mul_le_self _ _).trans_lt (Nat.mod_lt _ (by decide))

/-- **One variable.**  It gets the offset of the layout, and the pool advances by the padded size,
as far as the lower 32 bits go. -/
lemma allocStatic_spec {alloctor : SAddrAllocator} {pool : ℕ}
    (hpool : alloctor.staticPool.toNat % 2 ^ 32 = pool % 2 ^ 32) (v : GlobalVariable) :
    ∃ a alloctor', alloctor.allocStatic v.typeSize v.getAlignment v.isDurable v.isInternal
        = some (a, alloctor') ∧
      a.addr.toNat = PlacedVariable.first (v, offsetAt pool v.getAlignment.toNat) ∧
      alloctor'.staticPool.toNat % 2 ^ 32
        = (pool + (v.getAlignment.toNat + 2 ^ 32 - 1) + v.typeAllocSize.toNat) % 2 ^ 32 := by
  have hvalue := toNat_alloc_value hpool v
  have hlt := offsetAt_lt pool v.getAlignment.toNat
  have hmask : SAddr.staticMask.toNat = SAddr.tag true false false false * 2 ^ 60 := by rfl
  obtain ⟨a, ha, hnum⟩ := SAddr.create_toNat v.isDurable v.isInternal hmask
    (hvalue ▸ hlt.trans (by decide))
  refine ⟨a, _, by rw [SAddrAllocator.allocStatic, SAddrAllocator.allocate, SAddr.createStatic, ha];
                    rfl, by rw [hnum, hvalue]; rfl, ?_⟩
  have hal := v.getAlignment.isLt
  have hsize : v.typeSize.toNat = v.typeAllocSize.toNat % 2 ^ 32 := BitVec.toNat_setWidth _ _
  have hadv : (v.getAlignment - 1 + v.typeSize).toNat
      = (v.getAlignment.toNat + 2 ^ 32 - 1 + v.typeAllocSize.toNat) % 2 ^ 32 := by
    rw [BitVec.toNat_add, hsize]
    have hoff : (v.getAlignment - 1).toNat = (v.getAlignment.toNat + 2 ^ 32 - 1) % 2 ^ 32 := by
      bv_omega
    rw [hoff]
    omega
  rw [BitVec.toNat_add, BitVec.toNat_setWidth, hadv]
  omega

namespace PlacedVariable

/-- The first address. -/
def begin (b : PlacedVariable) : SAddr := ⟨BitVec.ofNat 64 b.first⟩

/-- The pair that is kept for the block. -/
def alloca (b : PlacedVariable) : StaticAlloca :=
  toLex (b.begin, b.begin.add (b.1.typeSize - 1))

/-- The offset of the last address that is kept: that of an empty block is the largest one. -/
def lastOffset (b : PlacedVariable) : ℕ := (b.size + (2 ^ 32 - 1)) % 2 ^ 32

/-- The storage options leave room for two offsets of 32 bits. -/
lemma first_lt {b : PlacedVariable} (h : b.2 < 2 ^ 32) : b.first + 2 ^ 33 < 2 ^ 64 := by
  have hi := Bool.toNat_le b.1.isInternal
  have hd := Bool.toNat_le b.1.isDurable
  simp only [first, SAddr.tag, Bool.toNat_true, Bool.toNat_false]
  omega

/-- The first address as a number. -/
lemma toNat_begin {b : PlacedVariable} (h : b.2 < 2 ^ 32) : b.begin.addr.toNat = b.first := by
  have := first_lt h
  rw [begin, BitVec.toNat_ofNat]
  exact Nat.mod_eq_of_lt (by omega)

/-- The last address that is kept as a number. -/
lemma toNat_last {b : PlacedVariable} (h : b.2 < 2 ^ 32) :
    (b.begin.add (b.1.typeSize - 1)).addr.toNat = b.first + b.lastOffset := by
  have hfirst := first_lt h
  have hsize : b.1.typeSize.toNat = b.size % 2 ^ 32 := BitVec.toNat_setWidth _ _
  have hlast : (b.1.typeSize - 1).toNat = b.lastOffset := by
    have hone : (1 : BitVec 32).toNat = 1 := rfl
    rw [BitVec.toNat_sub, hsize, lastOffset, hone]
    omega
  have hlt : b.lastOffset < 2 ^ 32 := Nat.mod_lt _ (by decide)
  rw [SAddr.add, BitVec.toNat_add, BitVec.toNat_setWidth, toNat_begin h, hlast]
  omega

/-- The last address of a block that is neither empty nor larger than 4 GiB. -/
lemma lastOffset_eq {b : PlacedVariable} (hpos : 0 < b.size) (hle : b.size ≤ 2 ^ 32) :
    b.lastOffset = b.size - 1 := by
  rw [lastOffset]
  omega

/-- An empty block is kept like one of 4 GiB. -/
lemma lastOffset_of_empty {b : PlacedVariable} (h : b.size = 0) : b.lastOffset = 2 ^ 32 - 1 := by
  rw [lastOffset, h]
  rfl

/-- No pair spans more than 4 GiB. -/
lemma lastOffset_lt (b : PlacedVariable) : b.lastOffset < 2 ^ 32 := Nat.mod_lt _ (by decide)

end PlacedVariable

/-- What the loop has collected: the addresses are those of the layout, and the sorted vector has
the pairs of their blocks. -/
structure Collected (blocks : List PlacedVariable) (st : StaticAddresses) : Prop where
  offset_lt : ∀ b ∈ blocks, b.2 < 2 ^ 32
  mapping_eq : st.globalMapping = blocks.map fun b => (b.1, b.begin)
  sorted : st.staticAllocas.Pairwise (· < ·)
  mem_iff : ∀ p, p ∈ st.staticAllocas ↔ ∃ b ∈ blocks, b.alloca = p

/-- A variable is added. -/
lemma Collected.add {blocks : List PlacedVariable} {st : StaticAddresses} (h : Collected blocks st)
    {b : PlacedVariable} (hb : b.2 < 2 ^ 32) (alloctor : SAddrAllocator) :
    Collected (blocks ++ [b])
      { alloctor := alloctor
        staticAllocas := sortedInsert st.staticAllocas b.alloca
        globalMapping := st.globalMapping ++ [(b.1, b.begin)] } := by
  refine ⟨fun b' hb' => ?_, ?_, pairwise_sortedInsert h.sorted _, fun p => ?_⟩
  · obtain hb' | hb' := List.mem_append.mp hb'
    · exact h.offset_lt b' hb'
    · exact List.mem_singleton.mp hb' ▸ hb
  · rw [h.mapping_eq, List.map_append]
    rfl
  · rw [mem_sortedInsert, h.mem_iff]
    simp only [List.mem_append, List.mem_singleton]
    constructor
    · rintro (rfl | ⟨b', hb', rfl⟩)
      · exact ⟨b, .inr rfl, rfl⟩
      · exact ⟨b', .inl hb', rfl⟩
    · rintro ⟨b', hb' | rfl, rfl⟩
      · exact .inr ⟨b', hb', rfl⟩
      · exact .inl rfl

/-- **The loop.**  It never fails, and it collects the layout. -/
theorem foldlM_collectStaticAddress {globals : List GlobalVariable} {st : StaticAddresses}
    {pool : ℕ} {blocks : List PlacedVariable}
    (hpool : st.alloctor.staticPool.toNat % 2 ^ 32 = pool % 2 ^ 32) (h : Collected blocks st) :
    ∃ st', globals.foldlM collectStaticAddress st = some st' ∧
      Collected (blocks ++ layout pool globals) st' := by
  induction globals generalizing st pool blocks with
  | nil => exact ⟨st, rfl, by rwa [layout, List.append_nil]⟩
  | cons v globals ih =>
    rw [List.foldlM_cons, layout]
    by_cases htl : v.isThreadLocal = true
    · rw [if_pos htl, collectStaticAddress, if_pos htl]
      exact ih hpool h
    · obtain ⟨a, alloctor, ha, hnum, hadv⟩ := allocStatic_spec hpool v
      have hlt := offsetAt_lt pool v.getAlignment.toNat
      obtain rfl : a = PlacedVariable.begin (v, offsetAt pool v.getAlignment.toNat) :=
        SAddr.ext_toNat (hnum.trans (PlacedVariable.toNat_begin hlt).symm)
      have hnext := h.add (b := (v, offsetAt pool v.getAlignment.toNat)) hlt alloctor
      rw [if_neg htl, List.append_cons, collectStaticAddress, if_neg htl, ha]
      exact ih hadv hnext

/-- **`collectStaticAddresses`** collects the layout of the variables. -/
theorem collectStaticAddresses_spec (alloctor : SAddrAllocator) (globals : List GlobalVariable) :
    ∃ st, collectStaticAddresses alloctor globals = some st ∧
      Collected (layout alloctor.staticPool.toNat globals) st := by
  have hstart : Collected [] { alloctor := alloctor } :=
    ⟨fun b hb => absurd hb List.not_mem_nil, rfl, List.Pairwise.nil, fun p => by simp⟩
  exact foldlM_collectStaticAddress rfl hstart

/-! ## Lookups -/

namespace PlacedVariable

variable {b b' : PlacedVariable}

/-- The last address that is kept is compared with an address. -/
lemma last_lt_iff (h : b.2 < 2 ^ 32) (a : SAddr) :
    (ofLex b.alloca).2 < a ↔ b.first + b.lastOffset < a.addr.toNat := by
  rw [← toNat_last h]
  exact Iff.rfl

/-- The first address is compared with an address. -/
lemma begin_le_iff (h : b.2 < 2 ^ 32) (a : SAddr) : b.begin ≤ a ↔ b.first ≤ a.addr.toNat := by
  rw [← toNat_begin h]
  exact Iff.rfl

/-- The pairs of two blocks are compared. -/
lemma alloca_lt_iff (h : b.2 < 2 ^ 32) (h' : b'.2 < 2 ^ 32) :
    b.alloca < b'.alloca ↔
      b.first < b'.first ∨ b.first = b'.first ∧ b.lastOffset < b'.lastOffset := by
  have hlt : b.begin < b'.begin ↔ b.first < b'.first := by
    rw [← toNat_begin h, ← toNat_begin h']
    exact Iff.rfl
  have heq : b.begin = b'.begin ↔ b.first = b'.first := by
    rw [← toNat_begin h, ← toNat_begin h']
    exact ⟨fun heq => by rw [heq], SAddr.ext_toNat⟩
  have hlast : b.begin.add (b.1.typeSize - 1) < b'.begin.add (b'.1.typeSize - 1) ↔
      b.first + b.lastOffset < b'.first + b'.lastOffset := by
    rw [← toNat_last h, ← toNat_last h']
    exact Iff.rfl
  rw [alloca, alloca, Prod.Lex.toLex_lt_toLex, hlt, heq, hlast]
  refine or_congr_right (and_congr_right fun hfirst => ?_)
  omega

/-- The pairs of two blocks are equal. -/
lemma alloca_eq_of (h : b.2 < 2 ^ 32) (h' : b'.2 < 2 ^ 32) (hfirst : b.first = b'.first)
    (hlast : b.lastOffset = b'.lastOffset) : b.alloca = b'.alloca := by
  refine congrArg toLex (Prod.ext (SAddr.ext_toNat ?_) (SAddr.ext_toNat ?_))
  · rw [toNat_begin h, toNat_begin h', hfirst]
  · rw [toNat_last h, toNat_last h', hfirst, hlast]

/-- The addresses of a block as numbers. -/
lemma covers_iff (h : b.2 < 2 ^ 32) (a : SAddr) :
    Covers (b.1, b.begin) a ↔ b.first ≤ a.addr.toNat ∧ a.addr.toNat < b.first + b.size := by
  rw [Covers, toNat_begin h]
  exact Iff.rfl

instance : Std.Symm Apart where
  symm b b' h := by
    unfold Apart at h ⊢
    omega

end PlacedVariable

/-- The pair that the search finds gives both answers. -/
lemma lookup_of_find {S : List StaticAlloca} {a : SAddr} {it : StaticAlloca}
    (h : findStaticAlloca S a = some it) (hle : a ≤ (ofLex it).2) :
    (isStaticallyAllocated S a = true ↔ (ofLex it).1 ≤ a) ∧
      ((ofLex it).1 ≤ a → getStaticAllocBegin S a = some (ofLex it).1) := by
  rw [isStaticallyAllocated, getStaticAllocBegin, h]
  refine ⟨by simp [hle], fun hge => ?_⟩
  exact if_neg (by rw [not_or, not_lt, not_lt]; exact ⟨hge, hle⟩)

section Right

variable {blocks : List PlacedVariable} {st : StaticAddresses}

/-- In a searchable layout every pair is that of a block that is neither empty nor too large. -/
lemma SearchableLayout.exact (hs : SearchableLayout blocks) (h : Collected blocks st)
    {p : StaticAlloca} (hp : p ∈ st.staticAllocas) :
    ∃ b ∈ blocks, b.alloca = p ∧ 0 < b.size ∧ b.lastOffset = b.size - 1 := by
  obtain ⟨b, hb, rfl⟩ := (h.mem_iff p).mp hp
  obtain hzero | hpos := Nat.eq_zero_or_pos b.size
  · obtain ⟨b', hb', hfirst, hsize⟩ := hs.shadowed b hb hzero
    have hlast : b'.lastOffset = b.lastOffset := by
      rw [PlacedVariable.lastOffset_of_empty hzero,
        PlacedVariable.lastOffset_eq (by omega) hsize.le, hsize]
    have heq := PlacedVariable.alloca_eq_of (h.offset_lt b' hb') (h.offset_lt b hb) hfirst hlast
    exact ⟨b', hb', heq, by omega, PlacedVariable.lastOffset_eq (by omega) hsize.le⟩
  · exact ⟨b, hb, rfl, hpos, PlacedVariable.lastOffset_eq hpos (hs.size_le b hb)⟩

/-- In a searchable layout a pair ends before the next one starts. -/
lemma SearchableLayout.ordered (hs : SearchableLayout blocks) (h : Collected blocks st)
    {b b' : PlacedVariable} (hb : b ∈ blocks) (hb' : b' ∈ blocks) (hpos : 0 < b.size)
    (hpos' : 0 < b'.size) (hlt : b.alloca < b'.alloca) : b.first + b.size ≤ b'.first := by
  have hne : b ≠ b' := fun heq => lt_irrefl _ (heq ▸ hlt)
  have hapart := hs.apart.forall hb hb' hne
  have hfirst := (PlacedVariable.alloca_lt_iff (h.offset_lt b hb) (h.offset_lt b' hb')).mp hlt
  unfold PlacedVariable.Apart at hapart
  omega

/-- **The lookups are right in a searchable layout.** -/
theorem lookupRight_of_searchable (h : Collected blocks st) (hs : SearchableLayout blocks) :
    LookupRight st := by
  have hpart : ∀ a, Partitioned (fun it : StaticAlloca => decide ((ofLex it).2 < a))
      st.staticAllocas := by
    refine fun a => partitioned_of_sorted h.sorted fun p hp q hq hpq hq' => ?_
    obtain ⟨b, hb, rfl, hpos, hlast⟩ := hs.exact h hp
    obtain ⟨b', hb', rfl, hpos', -⟩ := hs.exact h hq
    have hord := hs.ordered h hb hb' hpos hpos' hpq
    have hq'' := (PlacedVariable.last_lt_iff (h.offset_lt b' hb') a).mp (of_decide_eq_true hq')
    refine decide_eq_true ((PlacedVariable.last_lt_iff (h.offset_lt b hb) a).mpr ?_)
    omega
  -- the block of an address is found
  have hfound : ∀ a, ∀ b ∈ blocks, Covers (b.1, b.begin) a →
      isStaticallyAllocated st.staticAllocas a = true ∧
        getStaticAllocBegin st.staticAllocas a = some b.begin := by
    intro a b hb hcov
    have hoff := h.offset_lt b hb
    obtain ⟨hge, hlt⟩ := (PlacedVariable.covers_iff hoff a).mp hcov
    have hlast := PlacedVariable.lastOffset_eq (b := b) (by omega) (hs.size_le b hb)
    have hle : ¬(ofLex b.alloca).2 < a := by
      rw [PlacedVariable.last_lt_iff hoff]
      omega
    have hfind : findStaticAlloca st.staticAllocas a = some b.alloca := by
      refine (getElem?_lowerBound_eq_some h.sorted (hpart a) _).mpr
        ⟨(h.mem_iff _).mpr ⟨b, hb, rfl⟩, decide_eq_false hle, fun q hq hqb => ?_⟩
      obtain ⟨b', hb', rfl, hpos', hlast'⟩ := hs.exact h hq
      have hord := hs.ordered h hb' hb hpos' (by omega) hqb
      refine decide_eq_true ((PlacedVariable.last_lt_iff (h.offset_lt b' hb') a).mpr ?_)
      omega
    obtain ⟨hstatic, hbegin⟩ := lookup_of_find hfind (not_lt.mp hle)
    have hfirst := (PlacedVariable.begin_le_iff hoff a).mpr hge
    exact ⟨hstatic.mpr hfirst, hbegin hfirst⟩
  refine ⟨fun a => ⟨fun hstatic => ?_, ?_⟩, ?_, ?_⟩
  · -- what is found is a block
    rw [isStaticallyAllocated] at hstatic
    split at hstatic
    next => cases hstatic
    next it hit =>
      obtain ⟨b, hb, rfl, hpos, hlast⟩ := hs.exact h (List.mem_of_getElem? hit)
      have hoff := h.offset_lt b hb
      obtain ⟨hge, hle⟩ := of_decide_eq_true hstatic
      have hge' := (PlacedVariable.begin_le_iff hoff a).mp hge
      have hle' := mt (PlacedVariable.last_lt_iff hoff a).mpr (not_lt.mpr hle)
      rw [h.mapping_eq]
      refine ⟨_, List.mem_map_of_mem hb, (PlacedVariable.covers_iff hoff a).mpr ⟨hge', ?_⟩⟩
      omega
  · rintro ⟨b, hb, hcov⟩
    rw [h.mapping_eq] at hb
    obtain ⟨b₀, hb₀, rfl⟩ := List.mem_map.mp hb
    exact (hfound a b₀ hb₀ hcov).1
  · intro a b hb hcov
    rw [h.mapping_eq] at hb
    obtain ⟨b₀, hb₀, rfl⟩ := List.mem_map.mp hb
    exact (hfound a b₀ hb₀ hcov).2
  · rw [h.mapping_eq, List.pairwise_map]
    refine hs.apart.imp_of_mem fun hb hb' hapart a ⟨hcov, hcov'⟩ => ?_
    have h₁ := (PlacedVariable.covers_iff (h.offset_lt _ hb) a).mp hcov
    have h₂ := (PlacedVariable.covers_iff (h.offset_lt _ hb') a).mp hcov'
    unfold PlacedVariable.Apart at hapart
    omega

/-- An address below 2^64. -/
lemma exists_addr {n : ℕ} (h : n < 2 ^ 64) : ∃ a : SAddr, a.addr.toNat = n :=
  ⟨⟨BitVec.ofNat 64 n⟩, by rw [BitVec.toNat_ofNat]; exact Nat.mod_eq_of_lt h⟩

/-- If the lookups are right, no two blocks overlap. -/
lemma LookupRight.apart (hr : LookupRight st) (h : Collected blocks st) :
    blocks.Pairwise PlacedVariable.Apart := by
  have hunique := hr.unique
  rw [h.mapping_eq, List.pairwise_map] at hunique
  refine hunique.imp_of_mem fun {b b'} hb hb' hdisjoint => ?_
  by_contra hover
  have hoff := h.offset_lt b hb
  have hoff' := h.offset_lt b' hb'
  have hlt := PlacedVariable.first_lt hoff
  have hlt' := PlacedVariable.first_lt hoff'
  obtain ⟨a, ha⟩ := exists_addr (n := max b.first b'.first) (by omega)
  refine hdisjoint a ⟨(PlacedVariable.covers_iff hoff a).mpr ?_,
    (PlacedVariable.covers_iff hoff' a).mpr ?_⟩ <;>
  · unfold PlacedVariable.Apart at hover
    omega

/-- What is returned is the begin of a pair with the address. -/
lemma exists_of_getStaticAllocBegin {S : List StaticAlloca} {a f : SAddr}
    (h : getStaticAllocBegin S a = some f) : ∃ it ∈ S, (ofLex it).1 = f ∧ ¬(ofLex it).2 < a := by
  rw [getStaticAllocBegin] at h
  split at h
  next => cases h
  next it hit =>
    obtain ⟨hin, h⟩ := Option.ite_none_left_eq_some.mp h
    exact ⟨it, List.mem_of_getElem? hit, Option.some.inj h, (not_or.mp hin).2⟩

/-- If the lookups are right, no block is larger than 4 GiB: the address 4 GiB behind its begin is
not found. -/
lemma LookupRight.size_le (hr : LookupRight st) (h : Collected blocks st) {b : PlacedVariable}
    (hb : b ∈ blocks) : b.size ≤ 2 ^ 32 := by
  by_contra hlarge
  have hoff := h.offset_lt b hb
  have hlt := PlacedVariable.first_lt hoff
  obtain ⟨a, ha⟩ := exists_addr (n := b.first + 2 ^ 32) (by omega)
  have hcov : Covers (b.1, b.begin) a := (PlacedVariable.covers_iff hoff a).mpr (by omega)
  have hmem : (b.1, b.begin) ∈ st.globalMapping := by
    rw [h.mapping_eq]
    exact List.mem_map_of_mem hb
  obtain ⟨it, hit, hbegin, hlast⟩ := exists_of_getStaticAllocBegin (hr.begin_eq a _ hmem hcov)
  obtain ⟨b', hb', rfl⟩ := (h.mem_iff it).mp hit
  have hoff' := h.offset_lt b' hb'
  have hfirst : b'.first = b.first := by
    rw [← PlacedVariable.toNat_begin hoff, ← PlacedVariable.toNat_begin hoff']
    exact congrArg (fun c : SAddr => c.addr.toNat) hbegin
  have hlast' := b'.lastOffset_lt
  exact hlast ((PlacedVariable.last_lt_iff hoff' a).mpr (by omega))

/-- The address that is answered wrongly because of an empty block at `z`: the first one from `z` on
that is not in a block that starts at `z` or before. -/
lemma exists_gap (hsize : ∀ b ∈ blocks, b.size ≤ 2 ^ 32)
    (hapart : blocks.Pairwise PlacedVariable.Apart) {z : ℕ}
    (hz : ∀ b ∈ blocks, b.first = z → b.size ≠ 2 ^ 32) :
    ∃ n, z ≤ n ∧ n < z + 2 ^ 32 ∧
      (∀ b ∈ blocks, 0 < b.size → b.first ≤ z → b.first + b.size ≤ n) ∧
      ∀ b ∈ blocks, 0 < b.size → z < b.first → n < b.first + b.size := by
  by_cases hcov : ∃ x ∈ blocks, x.first ≤ z ∧ z < x.first + x.size
  · obtain ⟨x, hx, hle, hlt⟩ := hcov
    have hx' := hsize x hx
    have hne := hz x hx
    refine ⟨x.first + x.size, by omega, by omega, fun b hb hpos hbz => ?_, fun b hb hpos hbz => ?_⟩
    · obtain rfl | hbx := eq_or_ne b x
      · exact le_rfl
      · have := hapart.forall hb hx hbx
        unfold PlacedVariable.Apart at this
        omega
    · have hbx : b ≠ x := by
        rintro rfl
        omega
      have := hapart.forall hb hx hbx
      unfold PlacedVariable.Apart at this
      omega
  · refine ⟨z, le_rfl, by omega, fun b hb hpos hbz => ?_, fun b hb hpos hbz => by omega⟩
    by_contra hlt
    exact hcov ⟨b, hb, hbz, by omega⟩

/-- **An empty block misleads the search**, unless a block of 4 GiB has the same place. -/
lemma LookupRight.shadowed (hr : LookupRight st) (h : Collected blocks st) {b : PlacedVariable}
    (hb : b ∈ blocks) (hempty : b.size = 0) :
    ∃ b' ∈ blocks, b'.first = b.first ∧ b'.size = 2 ^ 32 := by
  have hsize : ∀ b ∈ blocks, b.size ≤ 2 ^ 32 := fun b hb => hr.size_le h hb
  have hapart := hr.apart h
  -- induction on the place: below it, every pair is that of a block that is not empty
  induction hz : b.first using Nat.strong_induction_on generalizing b with
  | _ z ih =>
    by_contra hnone
    have hz' : ∀ b' ∈ blocks, b'.first = z → b'.size ≠ 2 ^ 32 := fun b' hb' hfirst hs =>
      hnone ⟨b', hb', hfirst, hs⟩
    have hoff := h.offset_lt b hb
    have hlast := PlacedVariable.lastOffset_of_empty hempty
    obtain ⟨n, hzn, hnz, hbelow, habove⟩ := exists_gap hsize hapart hz'
    have hfirst_lt := PlacedVariable.first_lt hoff
    obtain ⟨a, ha⟩ := exists_addr (n := n) (by omega)
    have hbefore : ∀ c ∈ blocks, (ofLex c.alloca).2 < a ↔ c.alloca < b.alloca := by
      intro c hc
      have hc' := h.offset_lt c hc
      rw [PlacedVariable.last_lt_iff hc', PlacedVariable.alloca_lt_iff hc' hoff, ha]
      have hcsize := hsize c hc
      obtain hzero | hpos := Nat.eq_zero_or_pos c.size
      · have hclast := PlacedVariable.lastOffset_of_empty hzero
        by_cases hlt : c.first < z
        · -- an empty block below has the place of one of 4 GiB
          obtain ⟨d, hd, hdfirst, hdsize⟩ := ih c.first hlt hc hzero rfl
          have := hbelow d hd (by omega) (by omega)
          omega
        · omega
      · have hclast := PlacedVariable.lastOffset_eq hpos hcsize
        by_cases hle : c.first ≤ z
        · have := hbelow c hc hpos hle
          have := hz' c hc
          omega
        · have := habove c hc hpos (not_le.mp hle)
          omega
    have hpart : Partitioned (fun it : StaticAlloca => decide ((ofLex it).2 < a))
        st.staticAllocas := by
      refine partitioned_of_sorted h.sorted fun p hp q hq hpq hq' => ?_
      obtain ⟨c, hc, rfl⟩ := (h.mem_iff p).mp hp
      obtain ⟨d, hd, rfl⟩ := (h.mem_iff q).mp hq
      exact decide_eq_true ((hbefore c hc).mpr (hpq.trans ((hbefore d hd).mp
        (of_decide_eq_true hq'))))
    have hself : ¬(ofLex b.alloca).2 < a := mt (hbefore b hb).mp (lt_irrefl _)
    have hfind : findStaticAlloca st.staticAllocas a = some b.alloca := by
      refine (getElem?_lowerBound_eq_some h.sorted hpart _).mpr
        ⟨(h.mem_iff _).mpr ⟨b, hb, rfl⟩, decide_eq_false hself, fun q hq hqb => ?_⟩
      obtain ⟨c, hc, rfl⟩ := (h.mem_iff q).mp hq
      exact decide_eq_true ((hbefore c hc).mpr hqb)
    have hbegin : b.begin ≤ a := (PlacedVariable.begin_le_iff hoff a).mpr (by omega)
    obtain ⟨hstatic, hfound⟩ := lookup_of_find hfind (not_lt.mp hself)
    -- so `a` would have to be in a block that starts at `z`
    obtain ⟨m, hm, hcov⟩ := (hr.isStaticallyAllocated_iff a).mp (hstatic.mpr hbegin)
    have hm' := hr.begin_eq a m hm hcov
    rw [h.mapping_eq] at hm
    obtain ⟨c, hc, rfl⟩ := List.mem_map.mp hm
    have hc' := h.offset_lt c hc
    have hfirst : c.first = b.first := by
      rw [← PlacedVariable.toNat_begin hoff, ← PlacedVariable.toNat_begin hc']
      exact congrArg (fun c : SAddr => c.addr.toNat)
        (Option.some.inj (hm'.symm.trans (hfound hbegin)))
    have hin := (PlacedVariable.covers_iff hc' a).mp hcov
    have := hbelow c hc (by omega) (by omega)
    omega

/-- **The lookups are right exactly in the searchable layouts.** -/
theorem lookupRight_iff_searchable (h : Collected blocks st) :
    LookupRight st ↔ SearchableLayout blocks :=
  ⟨fun hr => ⟨fun _ hb => hr.size_le h hb, fun _ hb hempty => hr.shadowed h hb hempty, hr.apart h⟩,
    lookupRight_of_searchable h⟩

end Right

/-- The lookups work on the variables: their addresses are collected, and the answers for every
address are right. -/
def StaticLookupsRight (alloctor : SAddrAllocator) (globals : List GlobalVariable) : Prop :=
  ∃ st, collectStaticAddresses alloctor globals = some st ∧ LookupRight st

/-- **Static lookups** are right exactly if the layout of the variables is searchable. -/
theorem staticLookupsRight_iff (alloctor : SAddrAllocator) (globals : List GlobalVariable) :
    StaticLookupsRight alloctor globals ↔
      SearchableLayout (layout alloctor.staticPool.toNat globals) := by
  obtain ⟨st, hst, hcollected⟩ := collectStaticAddresses_spec alloctor globals
  rw [← lookupRight_iff_searchable hcollected]
  constructor
  · rintro ⟨st', hst', hr⟩
    exact Option.some.inj (hst.symm.trans hst') ▸ hr
  · exact fun hr => ⟨st, hst, hr⟩

/-- An empty variable and an `int`: both are placed at the beginning of the static pool, and the
address behind the `int` is found in the block that is kept for the empty variable. -/
theorem not_staticLookupsRight_empty :
    ¬StaticLookupsRight {} [⟨0, some 0, false, "", 0⟩, ⟨4, some 2, false, "", 0⟩] := by
  rintro ⟨st, hst, hr⟩
  obtain rfl := Option.some.inj hst
  obtain ⟨b, hb, hge, hlt⟩ := (hr.isStaticallyAllocated_iff ⟨SAddr.staticMask + 4⟩).mp (by decide)
  obtain rfl | hb := List.mem_cons.mp hb
  · exact absurd hlt (by decide)
  · obtain rfl := List.mem_singleton.mp hb
    exact absurd hlt (by decide)

/-- The padded size of a variable. -/
def GlobalVariable.paddedSize (v : GlobalVariable) : ℕ :=
  if v.isThreadLocal then 0 else v.getAlignment.toNat - 1 + v.typeAllocSize.toNat

/-- **Ordinary programs.**  If no variable is empty, all alignments are given and the padded sizes
fit into 32 bits, the layout is searchable: every block lies between the counter before it and the
counter after it. -/
theorem searchableLayout_of_fits {globals : List GlobalVariable} {pool counter : ℕ}
    (hpos : ∀ v ∈ globals, 0 < v.typeAllocSize.toNat) (halign : ∀ v ∈ globals, v.align ≠ none)
    (hpool : pool % 2 ^ 32 = counter % 2 ^ 32)
    (hfits : counter + (globals.map GlobalVariable.paddedSize).sum ≤ 2 ^ 32) :
    SearchableLayout (layout pool globals) ∧
      ∀ b ∈ layout pool globals, 0 < b.size ∧ counter ≤ b.2 ∧ b.2 + b.size ≤ 2 ^ 32 := by
  induction globals generalizing pool counter with
  | nil => exact ⟨⟨nofun, nofun, List.Pairwise.nil⟩, nofun⟩
  | cons v globals ih =>
    rw [List.map_cons, List.sum_cons, GlobalVariable.paddedSize] at hfits
    have hpos' := fun w hw => hpos w (List.mem_cons_of_mem _ hw)
    have halign' := fun w hw => halign w (List.mem_cons_of_mem _ hw)
    rw [layout]
    split at hfits
    next htl =>
      rw [if_pos htl]
      exact ih hpos' halign' hpool (by omega)
    next htl =>
      have hv := hpos v List.mem_cons_self
      obtain ⟨k, hk⟩ := Option.ne_none_iff_exists'.mp (halign v List.mem_cons_self)
      have hal : v.getAlignment.toNat = 2 ^ k.val := by rw [v.toNat_getAlignment, hk]
      have hal_pos : 0 < v.getAlignment.toNat := by rw [hal]; positivity
      have hround : (pool + (v.getAlignment.toNat + 2 ^ 32 - 1)) % 2 ^ 32
          = counter + (v.getAlignment.toNat - 1) := by omega
      have hle := Nat.div_mul_le_self (counter + (v.getAlignment.toNat - 1)) v.getAlignment.toNat
      have hge := Nat.lt_div_mul_add (a := counter + (v.getAlignment.toNat - 1)) hal_pos
      have hoffset : offsetAt pool v.getAlignment.toNat
          = (counter + (v.getAlignment.toNat - 1)) / v.getAlignment.toNat
            * v.getAlignment.toNat := by rw [offsetAt, hround]
      have hnext : (pool + (v.getAlignment.toNat + 2 ^ 32 - 1) + v.typeAllocSize.toNat) % 2 ^ 32
          = (counter + (v.getAlignment.toNat - 1) + v.typeAllocSize.toNat) % 2 ^ 32 := by omega
      obtain ⟨hs, hbounds⟩ := ih hpos' halign' hnext (by omega)
      rw [if_neg htl]
      -- the new block
      have hnew : counter ≤ offsetAt pool v.getAlignment.toNat ∧
          offsetAt pool v.getAlignment.toNat
            ≤ counter + (v.getAlignment.toNat - 1) := by omega
      have hsize : PlacedVariable.size (v, offsetAt pool v.getAlignment.toNat)
          = v.typeAllocSize.toNat := rfl
      refine ⟨⟨?_, ?_, ?_⟩, ?_⟩
      · refine List.forall_mem_cons.mpr ⟨by omega, fun b hb => ?_⟩
        have := hbounds b hb
        omega
      · refine List.forall_mem_cons.mpr ⟨by omega, fun b hb hempty => ?_⟩
        have := hbounds b hb
        omega
      · refine List.pairwise_cons.mpr ⟨fun b hb => ?_, hs.apart⟩
        obtain ⟨-, hbge, hble⟩ := hbounds b hb
        simp only [PlacedVariable.Apart, PlacedVariable.first, hsize]
        generalize SAddr.tag true false v.isInternal v.isDurable = t
        generalize SAddr.tag true false b.1.isInternal b.1.isDurable = t'
        omega
      · refine List.forall_mem_cons.mpr ⟨⟨by omega, hnew.1, by simp only [hsize]; omega⟩,
          fun b hb => ?_⟩
        have := hbounds b hb
        omega

end GenMC
