import GenMC.Support.SAddr

/-!
# The address allocator

`SAddrAllocator` hands out fresh addresses from three pools (static, automatic, heap), each a
counter that only grows.  `allocate` rounds the counter up to the requested alignment and advances
it by the padded size.  The counter is 64 bits wide but the alignment mask and the padded size are
computed on 32-bit `unsigned int`s, so the rounding also clears the upper half of the counter:
blocks are disjoint exactly as long as the counters stay inside 32 bits.

`call_spec` says once what a single call does under that condition; the run theorem
`run_allocationsSound` follows from it by induction on the calls.
-/

namespace GenMC

/-- Storage durations an allocation can ask for. -/
inductive StorageDuration
  | static
  | automatic
  | heap
deriving DecidableEq, Repr

/-- `SAddrAllocator`: one growing counter for each pool. -/
structure SAddrAllocator where
  /-- The next static offset. -/
  staticPool : Width := 0
  /-- The next automatic offset. -/
  automaticPool : Width := 0
  /-- The next heap offset; it starts at 1 to avoid allocating null. -/
  heapPool : Width := 1
deriving DecidableEq, Repr

/-- The arguments of one allocation request. -/
structure AllocCall where
  /-- The pool the block is taken from. -/
  duration : StorageDuration
  /-- The size of the block. -/
  size : BitVec 32
  /-- The alignment of the block. -/
  alignment : BitVec 32
  /-- Whether the block is durable. -/
  isDurable : Bool
  /-- Whether the block is internal. -/
  isInternal : Bool
deriving DecidableEq, Repr

namespace SAddrAllocator

/-- `SAddrAllocator::allocate`: the fresh address and the advanced pool.  The offset, the padded
size and the alignment mask are `unsigned int`s and are zero-extended where they meet the pool. -/
def allocate (allocFun : Width → Bool → Bool → Option SAddr) (pool : Width)
    (size alignment : BitVec 32) (isDurable isInternal : Bool) : Option (SAddr × Width) :=
  let offset := alignment - 1
  let oldAddr := pool
  let pool := pool + (offset + size).setWidth 64
  (allocFun ((oldAddr + offset.setWidth 64) &&& (~~~(alignment - 1)).setWidth 64)
    isDurable isInternal).map fun a => (a, pool)

/-- `SAddrAllocator::allocStatic`. -/
def allocStatic (s : SAddrAllocator) (size alignment : BitVec 32) (isDurable isInternal : Bool) :
    Option (SAddr × SAddrAllocator) :=
  (allocate SAddr.createStatic s.staticPool size alignment isDurable isInternal).map
    fun r => (r.1, { s with staticPool := r.2 })

/-- `SAddrAllocator::allocAutomatic`. -/
def allocAutomatic (s : SAddrAllocator) (size alignment : BitVec 32)
    (isDurable isInternal : Bool) : Option (SAddr × SAddrAllocator) :=
  (allocate SAddr.createAutomatic s.automaticPool size alignment isDurable isInternal).map
    fun r => (r.1, { s with automaticPool := r.2 })

/-- `SAddrAllocator::allocHeap`. -/
def allocHeap (s : SAddrAllocator) (size alignment : BitVec 32) (isDurable isInternal : Bool) :
    Option (SAddr × SAddrAllocator) :=
  (allocate SAddr.createHeap s.heapPool size alignment isDurable isInternal).map
    fun r => (r.1, { s with heapPool := r.2 })

/-- One request, dispatched to the method of its storage duration. -/
def call (s : SAddrAllocator) (c : AllocCall) : Option (SAddr × SAddrAllocator) :=
  match c.duration with
  | .static => s.allocStatic c.size c.alignment c.isDurable c.isInternal
  | .automatic => s.allocAutomatic c.size c.alignment c.isDurable c.isInternal
  | .heap => s.allocHeap c.size c.alignment c.isDurable c.isInternal

/-- A sequence of requests: the returned addresses, each with its request, and the final state. -/
def run (s : SAddrAllocator) : List AllocCall → Option (List (AllocCall × SAddr) × SAddrAllocator)
  | [] => some ([], s)
  | c :: cs => do
    let (a, s') ← s.call c
    let (blocks, t) ← s'.run cs
    return ((c, a) :: blocks, t)

/-- The counter of a pool. -/
def pool (s : SAddrAllocator) : StorageDuration → Width
  | .static => s.staticPool
  | .automatic => s.automaticPool
  | .heap => s.heapPool

end SAddrAllocator

namespace AllocCall

/-- A request the driver can make: a positive size and a power-of-two alignment. -/
def WellFormed (c : AllocCall) : Prop :=
  0 < c.size.toNat ∧ ∃ k < 32, c.alignment.toNat = 2 ^ k

/-- The padded size of a request, as a number. -/
def paddedSize (c : AllocCall) : ℕ := (c.alignment.toNat - 1) + c.size.toNat

/-- The storage bits of the addresses of a request. -/
def tag (c : AllocCall) : ℕ :=
  SAddr.tag (c.duration == .static) (c.duration == .automatic) c.isInternal c.isDurable

/-- `x` is an address of the block `[a, a + size)` that was returned for the request. -/
def Covers (c : AllocCall) (a x : SAddr) : Prop :=
  ∃ d : BitVec 32, d < c.size ∧ x = a.add d

/-- The returned block is aligned, non-null, and every address of it carries exactly the storage
options of the request. -/
structure Honours (c : AllocCall) (a : SAddr) : Prop where
  /-- The block starts at a multiple of the alignment. -/
  aligned : a.addr.toNat % c.alignment.toNat = 0
  /-- The block does not start at null. -/
  nonnull : a.isNull = false
  /-- The storage options of every address of the block are those of the request. -/
  options : ∀ x, c.Covers a x →
    x.isStatic = (c.duration == .static) ∧ x.isAutomatic = (c.duration == .automatic) ∧
      x.isInternal = c.isInternal ∧ x.isDurable = c.isDurable

end AllocCall

/-- What the rest of the tool presumes of the allocated blocks: each honours its request and no
two of them share an address. -/
def AllocationsSound (blocks : List (AllocCall × SAddr)) : Prop :=
  (∀ b ∈ blocks, b.1.Honours b.2) ∧
    blocks.Pairwise fun b b' => ∀ x, ¬ (b.1.Covers b.2 x ∧ b'.1.Covers b'.2 x)

namespace SAddrAllocator

/-- The state in which a request is served correctly: neither the rounded counter nor the padded
size leaves 32 bits. -/
def FitsUnsigned (s : SAddrAllocator) (c : AllocCall) : Prop :=
  (s.pool c.duration).toNat + (c.alignment.toNat - 1) < 2 ^ 32 ∧ c.paddedSize < 2 ^ 32

/-- Every request of the sequence finds the allocator in a state that serves it correctly. -/
def FitsUnsignedRun (s : SAddrAllocator) : List AllocCall → Prop
  | [] => True
  | c :: cs => s.FitsUnsigned c ∧ ∀ a s', s.call c = some (a, s') → s'.FitsUnsignedRun cs

/-! ## One request -/

/-- Masking with a zero-extended 32-bit alignment mask rounds down and drops the upper half. -/
lemma toNat_and_mask (x : Width) (alignment : BitVec 32) {k : ℕ}
    (h : alignment.toNat = 2 ^ k) :
    (x &&& (~~~(alignment - 1)).setWidth 64).toNat = x.toNat % 2 ^ 32 / 2 ^ k * 2 ^ k := by
  have hoff : (alignment - 1).toNat = 2 ^ k - 1 := by
    have : 0 < 2 ^ k := by positivity
    bv_omega
  have hbit : ∀ i, (alignment - 1).getLsbD i = decide (i < k) := by
    intro i
    rw [BitVec.getLsbD, hoff]
    exact Nat.testBit_two_pow_sub_one k i
  have hmask : ∀ i, ((~~~(alignment - 1)).setWidth 64).toNat.testBit i =
      (decide (i < 32) && decide (k ≤ i)) := by
    intro i
    rw [← BitVec.getLsbD, BitVec.getLsbD_setWidth, BitVec.getLsbD_not, hbit]
    by_cases hi : i < 32 <;> by_cases hik : k ≤ i <;> simp [hi, hik] <;> omega
  apply Nat.eq_of_testBit_eq
  intro i
  rw [BitVec.toNat_and, Nat.testBit_and, hmask, ← Nat.shiftRight_eq_div_pow, ← Nat.shiftLeft_eq,
    Nat.testBit_shiftLeft, Nat.testBit_shiftRight]
  by_cases hik : k ≤ i
  · rw [Nat.add_sub_cancel' hik, Nat.testBit_mod_two_pow]
    simp [hik, Bool.and_comm]
  · simp [hik]

/-- The offset a request is given: the counter rounded up to the alignment. -/
def placement (pool : Width) (c : AllocCall) : ℕ :=
  (pool.toNat + (c.alignment.toNat - 1)) / c.alignment.toNat * c.alignment.toNat

/-- The placement lies between the old counter and the padded one, and is aligned. -/
lemma placement_bounds (pool : Width) {c : AllocCall} (hc : c.WellFormed) :
    pool.toNat ≤ placement pool c ∧ placement pool c ≤ pool.toNat + (c.alignment.toNat - 1) ∧
      placement pool c % c.alignment.toNat = 0 := by
  obtain ⟨-, k, -, hk⟩ := hc
  have hpos : 0 < c.alignment.toNat := by rw [hk]; positivity
  refine ⟨?_, Nat.div_mul_le_self _ _, Nat.mul_mod_left _ _⟩
  have hlt := Nat.lt_div_mul_add (a := pool.toNat + (c.alignment.toNat - 1)) hpos
  unfold placement
  omega

/-- `allocate` places the block at the rounded counter and advances the counter by the padded
size, as long as both stay inside 32 bits. -/
lemma allocate_spec (storageMask pool : Width) (static automatic : Bool) {c : AllocCall}
    (hmask : storageMask.toNat = SAddr.tag static automatic false false * 2 ^ 60)
    (hc : c.WellFormed) (hround : pool.toNat + (c.alignment.toNat - 1) < 2 ^ 32)
    (hpad : c.paddedSize < 2 ^ 32) :
    ∃ a pool', allocate (SAddr.create storageMask) pool c.size c.alignment c.isDurable
        c.isInternal = some (a, pool') ∧
      a.addr.toNat =
        SAddr.tag static automatic c.isInternal c.isDurable * 2 ^ 60 + placement pool c ∧
      pool'.toNat = pool.toNat + c.paddedSize := by
  obtain ⟨hsize, k, -, halign⟩ := hc
  unfold AllocCall.paddedSize at hpad ⊢
  have hpow : 0 < 2 ^ k := by positivity
  have hoff : (c.alignment - 1).toNat = c.alignment.toNat - 1 := by bv_omega
  have hround' : (pool + (c.alignment - 1).setWidth 64).toNat =
      pool.toNat + (c.alignment.toNat - 1) := by
    rw [BitVec.toNat_add, BitVec.toNat_setWidth, hoff]
    omega
  have hval : ((pool + (c.alignment - 1).setWidth 64) &&&
      (~~~(c.alignment - 1)).setWidth 64).toNat = placement pool c := by
    rw [toNat_and_mask _ _ halign, hround', Nat.mod_eq_of_lt hround, placement, halign]
  have hlt : placement pool c < 2 ^ 60 - 1 := by
    have := Nat.div_mul_le_self (pool.toNat + (c.alignment.toNat - 1)) c.alignment.toNat
    unfold placement
    omega
  obtain ⟨a, ha, hnum⟩ := SAddr.create_toNat c.isDurable c.isInternal hmask (hval ▸ hlt)
  refine ⟨a, _, by rw [allocate, ha]; rfl, by rw [hnum, hval], ?_⟩
  have hadv : (c.alignment - 1 + c.size).toNat = c.alignment.toNat - 1 + c.size.toNat := by
    rw [BitVec.toNat_add, hoff]
    omega
  rw [BitVec.toNat_add, BitVec.toNat_setWidth, hadv]
  omega

/-- The step lemma: a served request gets the rounded counter of its pool under its storage bits,
advances that pool by the padded size and leaves the other pools alone. -/
lemma call_spec {s : SAddrAllocator} {c : AllocCall} (hc : c.WellFormed) (hfit : s.FitsUnsigned c) :
    ∃ a s', s.call c = some (a, s') ∧
      a.addr.toNat = c.tag * 2 ^ 60 + placement (s.pool c.duration) c ∧
      (s'.pool c.duration).toNat = (s.pool c.duration).toNat + c.paddedSize ∧
      ∀ d, d ≠ c.duration → s'.pool d = s.pool d := by
  obtain ⟨hround, hpad⟩ := hfit
  unfold call AllocCall.tag
  cases hd : c.duration with
  | static =>
    rw [hd] at hround
    obtain ⟨a, p, ha, hnum, hp⟩ := allocate_spec SAddr.staticMask s.staticPool true false
      (by rfl) hc hround hpad
    refine ⟨a, { s with staticPool := p }, ?_, hnum, hp, ?_⟩
    · simp only [allocStatic, SAddr.createStatic, ha, Option.map_some]
    · intro d hne
      cases d <;> first | rfl | exact absurd rfl hne
  | automatic =>
    rw [hd] at hround
    obtain ⟨a, p, ha, hnum, hp⟩ := allocate_spec SAddr.automaticMask s.automaticPool false true
      (by rfl) hc hround hpad
    refine ⟨a, { s with automaticPool := p }, ?_, hnum, hp, ?_⟩
    · simp only [allocAutomatic, SAddr.createAutomatic, ha, Option.map_some]
    · intro d hne
      cases d <;> first | rfl | exact absurd rfl hne
  | heap =>
    rw [hd] at hround
    obtain ⟨a, p, ha, hnum, hp⟩ := allocate_spec 0 s.heapPool false false
      (by rfl) hc hround hpad
    refine ⟨a, { s with heapPool := p }, ?_, hnum, hp, ?_⟩
    · simp only [allocHeap, SAddr.createHeap, ha, Option.map_some]
    · intro d hne
      cases d <;> first | rfl | exact absurd rfl hne

/-! ## Blocks -/

/-- The block lies in its pool at or above the current counter. -/
def PlacedFrom (s : SAddrAllocator) (b : AllocCall × SAddr) : Prop :=
  ∃ v, b.2.addr.toNat = b.1.tag * 2 ^ 60 + v ∧ (s.pool b.1.duration).toNat ≤ v ∧
    v + b.1.size.toNat < 2 ^ 60

/-- A tag is a four-bit number. -/
lemma tag_lt (c : AllocCall) : c.tag < 16 := by
  have hb : ∀ b : Bool, b.toNat ≤ 1 := Bool.toNat_le
  have h3 := hb (c.duration == .static)
  have h2 := hb (c.duration == .automatic)
  have h1 := hb c.isInternal
  have h0 := hb c.isDurable
  unfold AllocCall.tag SAddr.tag
  omega

/-- Requests of different storage durations get different tags. -/
lemma duration_eq_of_tag_eq {c c' : AllocCall} (h : c.tag = c'.tag) :
    c.duration = c'.duration := by
  have hbits : ∀ j, c.tag.testBit j = c'.tag.testBit j := fun j => by rw [h]
  obtain ⟨h3, h2, -, -⟩ := SAddr.tag_testBit (c.duration == .static) (c.duration == .automatic)
    c.isInternal c.isDurable
  obtain ⟨h3', h2', -, -⟩ := SAddr.tag_testBit (c'.duration == .static)
    (c'.duration == .automatic) c'.isInternal c'.isDurable
  have hs : (c.duration == .static) = (c'.duration == .static) := by
    rw [← h3, ← h3']
    exact hbits 3
  have ha : (c.duration == .automatic) = (c'.duration == .automatic) := by
    rw [← h2, ← h2']
    exact hbits 2
  revert hs ha
  cases c.duration <;> cases c'.duration <;> decide

/-- The addresses of a block are its first address plus an index below its size. -/
lemma toNat_of_covers {c : AllocCall} {a x : SAddr} {v : ℕ}
    (ha : a.addr.toNat = c.tag * 2 ^ 60 + v) (hv : v + c.size.toNat < 2 ^ 60)
    (hx : c.Covers a x) :
    ∃ d < c.size.toNat, x.addr.toNat = c.tag * 2 ^ 60 + (v + d) := by
  obtain ⟨d, hd, rfl⟩ := hx
  have ht := tag_lt c
  refine ⟨d.toNat, BitVec.lt_def.mp hd, ?_⟩
  have hd' := BitVec.lt_def.mp hd
  simp only [SAddr.add]
  rw [BitVec.toNat_add, BitVec.toNat_setWidth, ha]
  omega

/-- A block below the counter shares no address with a block placed from that counter on. -/
lemma not_covers_of_placedFrom {s' : SAddrAllocator} {c : AllocCall} {a : SAddr} {v : ℕ}
    (ha : a.addr.toNat = c.tag * 2 ^ 60 + v) (hv : v + c.size.toNat < 2 ^ 60)
    (hbelow : v + c.size.toNat ≤ (s'.pool c.duration).toNat)
    {b' : AllocCall × SAddr} (hb' : s'.PlacedFrom b') (x : SAddr) :
    ¬ (c.Covers a x ∧ b'.1.Covers b'.2 x) := by
  rintro ⟨hx, hx'⟩
  obtain ⟨v', ha', hfrom, hv'⟩ := hb'
  obtain ⟨d, hd, hnum⟩ := toNat_of_covers ha hv hx
  obtain ⟨d', hd', hnum'⟩ := toNat_of_covers ha' hv' hx'
  have htag : c.tag = b'.1.tag := by omega
  have hoff : v + d = v' + d' := by omega
  rw [← duration_eq_of_tag_eq htag] at hfrom
  omega

/-- The block of a served request honours the request. -/
lemma honours_of_placement {s : SAddrAllocator} {c : AllocCall} {a : SAddr}
    (hc : c.WellFormed) (hheap : 0 < s.heapPool.toNat)
    (ha : a.addr.toNat = c.tag * 2 ^ 60 + placement (s.pool c.duration) c)
    (hv : placement (s.pool c.duration) c + c.size.toNat < 2 ^ 60) : c.Honours a := by
  obtain ⟨hge, -, halign⟩ := placement_bounds (s.pool c.duration) hc
  refine ⟨?_, ?_, ?_⟩
  · obtain ⟨-, k, hk, hpow⟩ := hc
    have hdvd : c.alignment.toNat ∣ c.tag * 2 ^ 60 := by
      rw [hpow]
      exact Dvd.dvd.mul_left (Nat.pow_dvd_pow 2 (by omega)) _
    rw [ha]
    exact Nat.mod_eq_zero_of_dvd (hdvd.add (Nat.dvd_of_mod_eq_zero halign))
  · have hpos : 0 < a.addr.toNat := by
      rw [ha]
      unfold AllocCall.tag SAddr.tag
      cases hd : c.duration with
      | heap =>
        rw [hd] at hge
        have : 0 < placement (s.pool .heap) c := lt_of_lt_of_le hheap hge
        omega
      | _ => simp
    rw [SAddr.isNull, beq_eq_false_iff_ne]
    intro h0
    rw [h0] at hpos
    exact absurd hpos (by decide)
  · intro x hx
    obtain ⟨d, hd, hnum⟩ := toNat_of_covers ha hv hx
    exact SAddr.flags_of_toNat (by omega) hnum

/-- Counters only grow, so a block placed from a later counter on is placed from an earlier one
on as well. -/
lemma PlacedFrom.mono {s s' : SAddrAllocator} {b : AllocCall × SAddr} (h : s'.PlacedFrom b)
    (hle : ∀ d, (s.pool d).toNat ≤ (s'.pool d).toNat) : s.PlacedFrom b := by
  obtain ⟨v, ha, hfrom, hv⟩ := h
  exact ⟨v, ha, (hle _).trans hfrom, hv⟩

/-! ## Sequences of requests -/

/-- The run lemma, from any state whose heap counter has left null: the blocks are sound and all
lie from the current counters on. -/
lemma run_spec (calls : List AllocCall) (s : SAddrAllocator) (hheap : 0 < s.heapPool.toNat)
    (hwf : ∀ c ∈ calls, c.WellFormed) (hfit : s.FitsUnsignedRun calls) :
    ∃ blocks t, s.run calls = some (blocks, t) ∧ blocks.map Prod.fst = calls ∧
      AllocationsSound blocks ∧ ∀ b ∈ blocks, s.PlacedFrom b := by
  induction calls generalizing s with
  | nil => exact ⟨[], s, rfl, rfl, ⟨by simp, List.Pairwise.nil⟩, by simp⟩
  | cons c cs ih =>
    obtain ⟨hfitc, hrest⟩ := hfit
    have hc := hwf c (List.mem_cons_self ..)
    obtain ⟨a, s', hcall, hnum, hadv, hframe⟩ := call_spec hc hfitc
    obtain ⟨hge, hle, -⟩ := placement_bounds (s.pool c.duration) hc
    -- The head block ends where the advanced counter stands, far below the storage bits.
    have hend : placement (s.pool c.duration) c + c.size.toNat ≤ (s'.pool c.duration).toNat := by
      rw [hadv, AllocCall.paddedSize]
      omega
    have hsmall : placement (s.pool c.duration) c + c.size.toNat < 2 ^ 60 := by
      have h1 := hfitc.1
      have h2 := c.size.isLt
      omega
    have hmono : ∀ d, (s.pool d).toNat ≤ (s'.pool d).toNat := by
      intro d
      by_cases hd : d = c.duration
      · rw [hd, hadv]
        omega
      · rw [hframe d hd]
    have hheap' : 0 < s'.heapPool.toNat := lt_of_lt_of_le hheap (hmono .heap)
    obtain ⟨blocks, t, hrun, hfst, ⟨hhon, hpair⟩, hplaced⟩ :=
      ih s' hheap' (fun c' h => hwf c' (List.mem_cons_of_mem _ h)) (hrest a s' hcall)
    refine ⟨(c, a) :: blocks, t, by simp [run, hcall, hrun], by simp [hfst], ⟨?_, ?_⟩, ?_⟩
    · intro b hb
      rcases List.mem_cons.mp hb with rfl | hb
      · exact honours_of_placement hc hheap hnum hsmall
      · exact hhon b hb
    · refine List.pairwise_cons.mpr ⟨fun b' hb' x => ?_, hpair⟩
      exact not_covers_of_placedFrom hnum hsmall hend (hplaced b' hb') x
    · intro b hb
      rcases List.mem_cons.mp hb with rfl | hb
      · exact ⟨_, hnum, hge, hsmall⟩
      · exact (hplaced b hb).mono hmono

/-- Allocator disjointness: as long as every request finds the counters inside 32 bits, a fresh
allocator serves every sequence of requests, and the returned blocks are aligned, non-null,
pairwise disjoint and carry the storage options they were requested with. -/
theorem run_allocationsSound (calls : List AllocCall) (hwf : ∀ c ∈ calls, c.WellFormed)
    (hfit : FitsUnsignedRun {} calls) :
    ∃ blocks t, run {} calls = some (blocks, t) ∧ blocks.map Prod.fst = calls ∧
      AllocationsSound blocks := by
  obtain ⟨blocks, t, hrun, hfst, hsound, -⟩ := run_spec calls {} (by decide) hwf hfit
  exact ⟨blocks, t, hrun, hfst, hsound⟩

/-- A static and a heap request that meet the condition. -/
def smallCalls : List AllocCall :=
  [⟨.static, 4, 4, false, false⟩, ⟨.heap, 16, 8, true, false⟩]

/-- The run theorem applied to the two small requests. -/
theorem run_smallCalls : ∃ blocks t, run {} smallCalls = some (blocks, t) ∧
    blocks.map Prod.fst = smallCalls ∧ AllocationsSound blocks := by
  refine run_allocationsSound smallCalls ?_ ?_
  · intro c hc
    simp only [smallCalls, List.mem_cons, List.not_mem_nil, or_false] at hc
    rcases hc with rfl | rfl
    · exact ⟨by decide, 2, by decide, by decide⟩
    · exact ⟨by decide, 3, by decide, by decide⟩
  · refine ⟨by unfold FitsUnsigned; decide, fun a s' h => ?_⟩
    obtain ⟨-, rfl⟩ := Prod.mk.inj (Option.some.inj (h.symm.trans (by rfl :
      call {} ⟨.static, 4, 4, false, false⟩ = some (⟨0x8000000000000000⟩, ⟨7, 0, 1⟩))))
    exact ⟨by unfold FitsUnsigned; decide, fun _ _ _ => trivial⟩

/-- Two heap requests, the first of which uses up the 32-bit part of the pool. -/
def wrappingCalls : List AllocCall :=
  [⟨.heap, 0xffffffff, 1, false, false⟩, ⟨.heap, 1, 1, false, false⟩]

/-- Sound blocks cannot be promised for every sequence whose cumulative padded size an address
can hold: after a first block of `2 ^ 32 - 1` bytes the alignment mask clears the counter, and the
second block is the null address. -/
theorem wrappingCalls_not_sound :
    (∀ c ∈ wrappingCalls, c.WellFormed) ∧
      (wrappingCalls.map AllocCall.paddedSize).sum < SAddr.limit.toNat ∧
      ∃ blocks t, run {} wrappingCalls = some (blocks, t) ∧ ¬ AllocationsSound blocks := by
  refine ⟨?_, by decide, [(⟨.heap, 0xffffffff, 1, false, false⟩, ⟨1⟩),
    (⟨.heap, 1, 1, false, false⟩, ⟨0⟩)], ⟨0, 0, 0x100000001⟩, by rfl, ?_⟩
  · intro c hc
    simp only [wrappingCalls, List.mem_cons, List.not_mem_nil, or_false] at hc
    rcases hc with rfl | rfl <;> exact ⟨by decide, 0, by decide, by decide⟩
  · intro h
    have hnull := (h.1 (⟨.heap, 1, 1, false, false⟩, ⟨0⟩) (by simp)).nonnull
    exact absurd hnull (by decide)

end SAddrAllocator

end GenMC
