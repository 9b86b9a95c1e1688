import GenMC.Lib.Matching
import GenMC.ExecutionGraph.ReaderRuns
import GenMC.ExecutionGraph.WellFormed

/-!
# Searches in a thread

Two utilities that search the thread of a label.  `isHazptrProtected` looks for the hazard pointer
that protects an access; it only examines the last protect of the allocation, and does not look for
stores that clear a hazard pointer (`isHazptrProtected_iff`).  `findMatchingLock` and
`findMatchingUnlock` walk in opposite directions to the other end of a critical section; the walks
find each other, but the second one never starts (`locksMatch_iff`).
-/

namespace GenMC

namespace LabelBody

/-- `isa<HpProtectLabel>`. -/
def isHpProtect : LabelBody → Bool
  | plain .hpProtect => true
  | _ => false

/-- `isa<LockCasWriteLabel>` or `isa<TrylockCasWriteLabel>`. -/
def isLockWrite : LabelBody → Bool
  | write .lockCasWrite _ _ => true
  | write .trylockCasWrite _ _ => true
  | _ => false

/-- `isa<TrylockCasReadLabel>`. -/
def isTrylockCasRead : LabelBody → Bool
  | read .trylockCasRead _ _ _ => true
  | _ => false

/-- The write of a lock is a write. -/
lemma isWrite_of_isLockWrite {b : LabelBody} (h : b.isLockWrite = true) : b.isWrite = true := by
  cases b <;> first | rfl | cases h

/-- `MallocLabel::contains`. -/
def mallocContains (addr : SAddr) : LabelBody → Bool
  | malloc allocAddr allocSize _ _ =>
    decide (allocAddr.addr ≤ addr.addr) &&
      decide (addr.addr < (allocAddr.add (BitVec.ofNat 32 allocSize)).addr)
  | _ => false

end LabelBody

/-- The data of `HpProtectLabel`. -/
structure HpProtect where
  /-- The address of the hazard pointer. -/
  hpAddr : SAddr
  /-- The address that it protects. -/
  protAddr : SAddr

/-- The positions of a thread from one index up to another, which is left out. -/
def positionsIn (t i j : ℕ) : List Event := (List.range' i (j - i)).map (Event.mk t)

/-- The positions lie between the indices. -/
lemma mem_positionsIn {t i j : ℕ} {e : Event} :
    e ∈ positionsIn t i j ↔ e.thread = t ∧ i ≤ e.index ∧ e.index < j := by
  unfold positionsIn
  rw [List.mem_map]
  constructor
  · rintro ⟨k, hk, rfl⟩
    rw [List.mem_range'_1] at hk
    exact ⟨rfl, hk.1, by dsimp only; omega⟩
  · rintro ⟨rfl, hi, hj⟩
    exact ⟨e.index, List.mem_range'_1.mpr ⟨hi, by omega⟩, rfl⟩

/-- The positions are in order. -/
lemma pairwise_positionsIn (t i j : ℕ) :
    (positionsIn t i j).Pairwise fun e e' => e.index < e'.index :=
  List.pairwise_map.mpr List.pairwise_lt_range'

/-- The positions are different. -/
lemma nodup_positionsIn (t i j : ℕ) : (positionsIn t i j).Nodup :=
  (pairwise_positionsIn t i j).imp fun h heq => absurd (congrArg Event.index heq) h.ne

/-- The positions before and from an index on. -/
lemma positionsIn_append {t i k j : ℕ} (hik : i ≤ k) (hkj : k ≤ j) :
    positionsIn t i j = positionsIn t i k ++ positionsIn t k j := by
  unfold positionsIn
  rw [← List.map_append]
  congr 1
  obtain ⟨a, rfl⟩ := Nat.exists_eq_add_of_le hik
  obtain ⟨b, rfl⟩ := Nat.exists_eq_add_of_le hkj
  rw [show i + a + b - i = a + b from by omega, Nat.add_sub_cancel_left, Nat.add_sub_cancel_left,
    List.range'_append_1]

/-- The positions around an event. -/
lemma positionsIn_eq {i j : ℕ} {e : Event} (hi : i ≤ e.index) (hj : e.index < j) :
    positionsIn e.thread i j =
      positionsIn e.thread i e.index ++ e :: positionsIn e.thread (e.index + 1) j := by
  rw [positionsIn_append hi hj.le, positionsIn_append (Nat.le_succ e.index) hj]
  unfold positionsIn
  simp

namespace ExecutionGraph

variable (g : ExecutionGraph)

/-! ## Hazard pointers -/

section Hazptr

variable (hp : Event → HpProtect)

/-- `isHazptrProtected`; `hp` has the data of the protects. -/
def isHazptrProtected (m : Event) : Option Bool := do
  let mLab ← g.getEventLabel m
  let addr ← mLab.body.addr
  if addr.isStatic then none
  let aLab ← g.getEventLabel (← mLab.body.alloc)
  match (positionsIn m.thread 0 m.index).reverse.find? fun p =>
      g.isa LabelBody.isHpProtect p && aLab.body.mallocContains (hp p).protAddr with
  | none => return false
  | some p =>
    return !(positionsIn m.thread (p.index + 1) m.index).any fun o =>
      g.isa LabelBody.isHpProtect o && decide ((hp o).hpAddr = (hp p).hpAddr)

/-- A protect of an allocation before an access in its thread. -/
structure Protects (aLab : EventLabel) (m p : Event) : Prop where
  /-- It is in the same thread. -/
  thread : p.thread = m.thread
  /-- It comes before the access. -/
  before : p.index < m.index
  /-- It is a protect. -/
  isa : g.isa LabelBody.isHpProtect p
  /-- It protects an address of the allocation. -/
  contains : aLab.body.mallocContains (hp p).protAddr

/-- The hazard pointer of a protect protects something else before the access. -/
def Overwritten (m p : Event) : Prop :=
  ∃ o, o.thread = m.thread ∧ p.index < o.index ∧ o.index < m.index ∧
    g.isa LabelBody.isHpProtect o ∧ (hp o).hpAddr = (hp p).hpAddr

/-- The hazard pointer of a protect is cleared, which is a store to it, before the access. -/
def Cleared (m p : Event) : Prop :=
  ∃ w, w.thread = m.thread ∧ p.index < w.index ∧ w.index < m.index ∧
    g.isa LabelBody.isWrite w ∧ g.addrOf w = some (hp p).hpAddr

/-- A protect of the allocation that is still in place at the access. -/
def HazptrProtected (aLab : EventLabel) (m : Event) : Prop :=
  ∃ p, g.Protects hp aLab m p ∧ ¬g.Overwritten hp m p ∧ ¬g.Cleared hp m p

/-- The last protect of the allocation before the access. -/
def LastProtect (aLab : EventLabel) (m p : Event) : Prop :=
  g.Protects hp aLab m p ∧ ∀ q, g.Protects hp aLab m q → q.index ≤ p.index

variable {g hp}

/-- A search from the end of a list finds the last element that passes the test. -/
lemma find?_reverse_positionsIn {t i j : ℕ} {test : Event → Bool} {p : Event}
    (h : (positionsIn t i j).reverse.find? test = some p) :
    p ∈ positionsIn t i j ∧ test p ∧ ∀ q ∈ positionsIn t i j, test q → q.index ≤ p.index := by
  obtain ⟨htest, s, l, heq, hs⟩ := List.find?_eq_some_iff_append.mp h
  have hmem : ∀ q, q ∈ positionsIn t i j ↔ q ∈ s ++ p :: l := fun q => by
    rw [← heq, List.mem_reverse]
  have hsorted : (s ++ p :: l).Pairwise fun e e' => e'.index < e.index := by
    rw [← heq, List.pairwise_reverse]
    exact pairwise_positionsIn t i j
  refine ⟨(hmem p).mpr (by simp), htest, fun q hq hqtest => ?_⟩
  rcases List.mem_append.mp ((hmem q).mp hq) with hq | hq
  · exact absurd hqtest (by simpa using hs q hq)
  · rcases List.mem_cons.mp hq with rfl | hq
    · exact le_rfl
    · exact ((List.pairwise_cons.mp (List.pairwise_append.mp hsorted).2.1).1 q hq).le

/-- There is one last protect. -/
lemma LastProtect.unique {aLab : EventLabel} {m p q : Event} (h : g.LastProtect hp aLab m p)
    (h' : g.LastProtect hp aLab m q) : q = p := by
  ext
  · exact h'.1.thread.trans h.1.thread.symm
  · exact le_antisymm (h.2 q h'.1) (h'.2 p h.1)

/-- Whether something is the case between a protect and the access, by the positions. -/
lemma exists_between_iff {m p : Event} {P : Event → Prop} :
    (∃ o ∈ positionsIn m.thread (p.index + 1) m.index, P o) ↔
      ∃ o, o.thread = m.thread ∧ p.index < o.index ∧ o.index < m.index ∧ P o := by
  simp only [mem_positionsIn, Nat.succ_le_iff, and_assoc]

instance (m p : Event) : Decidable (g.Overwritten hp m p) :=
  decidable_of_iff _ (exists_between_iff (P := fun o =>
    g.isa LabelBody.isHpProtect o ∧ (hp o).hpAddr = (hp p).hpAddr))

instance (m p : Event) : Decidable (g.Cleared hp m p) :=
  decidable_of_iff _ (exists_between_iff (P := fun w =>
    g.isa LabelBody.isWrite w ∧ g.addrOf w = some (hp p).hpAddr))

/-- The code tests whether the last protect of the allocation is overwritten. -/
lemma isHazptrProtected_spec {m a : Event} {mLab aLab : EventLabel} {addr : SAddr}
    (hm : g.getEventLabel m = some mLab) (haddr : mLab.body.addr = some addr)
    (hdyn : addr.isStatic = false) (halloc : mLab.body.alloc = some a)
    (ha : g.getEventLabel a = some aLab) :
    ∃ b, g.isHazptrProtected hp m = some b ∧
      ((b = false ∧ ∀ p, ¬g.Protects hp aLab m p) ∨
        ∃ p, g.LastProtect hp aLab m p ∧ (b = true ↔ ¬g.Overwritten hp m p)) := by
  have hprotects : ∀ p, g.Protects hp aLab m p ↔ p ∈ positionsIn m.thread 0 m.index ∧
      (g.isa LabelBody.isHpProtect p && aLab.body.mallocContains (hp p).protAddr) = true := by
    intro p
    rw [mem_positionsIn, Bool.and_eq_true]
    exact ⟨fun h => ⟨⟨h.thread, Nat.zero_le _, h.before⟩, h.isa, h.contains⟩,
      fun h => ⟨h.1.1, h.1.2.2, h.2.1, h.2.2⟩⟩
  unfold isHazptrProtected
  simp only [hm, haddr, hdyn, halloc, ha, Option.bind_eq_bind, Option.bind_some,
    Bool.false_eq_true, if_false]
  cases hfind : (positionsIn m.thread 0 m.index).reverse.find? fun p =>
      g.isa LabelBody.isHpProtect p && aLab.body.mallocContains (hp p).protAddr with
  | none =>
    refine ⟨false, rfl, .inl ⟨rfl, fun p hp => ?_⟩⟩
    obtain ⟨hmem, htest⟩ := (hprotects p).mp hp
    exact absurd htest (List.find?_eq_none.mp hfind p (List.mem_reverse.mpr hmem))
  | some p =>
    obtain ⟨hmem, htest, hlast⟩ := find?_reverse_positionsIn hfind
    have hover : (positionsIn m.thread (p.index + 1) m.index).any (fun o =>
        g.isa LabelBody.isHpProtect o && decide ((hp o).hpAddr = (hp p).hpAddr)) = true ↔
          g.Overwritten hp m p := by
      simp only [List.any_eq_true, Bool.and_eq_true, decide_eq_true_iff]
      exact exists_between_iff
    refine ⟨_, rfl, .inr ⟨p, ⟨(hprotects p).mpr ⟨hmem, htest⟩, fun q hq => ?_⟩, ?_⟩⟩
    · exact hlast q ((hprotects q).mp hq).1 ((hprotects q).mp hq).2
    · rw [Bool.not_eq_true', ← Bool.not_eq_true, hover]

/-- **When the test for protection is right.**  It is right if and only if, where the last protect
of the allocation is overwritten, no other one is in place any more, and, where it is cleared but
not overwritten, another one still is. -/
theorem isHazptrProtected_iff {m a : Event} {mLab aLab : EventLabel} {addr : SAddr}
    (hm : g.getEventLabel m = some mLab) (haddr : mLab.body.addr = some addr)
    (hdyn : addr.isStatic = false) (halloc : mLab.body.alloc = some a)
    (ha : g.getEventLabel a = some aLab) :
    (∃ b, g.isHazptrProtected hp m = some b ∧ (b = true ↔ g.HazptrProtected hp aLab m)) ↔
      ∀ p, g.LastProtect hp aLab m p →
        (g.Overwritten hp m p →
          ∀ q, g.Protects hp aLab m q → g.Overwritten hp m q ∨ g.Cleared hp m q) ∧
        (¬g.Overwritten hp m p → g.Cleared hp m p →
          ∃ q, g.Protects hp aLab m q ∧ ¬g.Overwritten hp m q ∧ ¬g.Cleared hp m q) := by
  obtain ⟨b, hb, hcases⟩ := isHazptrProtected_spec hm haddr hdyn halloc ha
  have hright : (∃ b, g.isHazptrProtected hp m = some b ∧
      (b = true ↔ g.HazptrProtected hp aLab m)) ↔ (b = true ↔ g.HazptrProtected hp aLab m) := by
    rw [hb]
    exact ⟨fun ⟨b', heq, h⟩ => Option.some.inj heq ▸ h, fun h => ⟨b, rfl, h⟩⟩
  rw [hright]
  rcases hcases with ⟨rfl, hnone⟩ | ⟨p, hlast, hover⟩
  · -- Without a protect both sides hold.
    refine iff_of_true (iff_of_false Bool.false_ne_true ?_) ?_
    · rintro ⟨p, hp, -⟩
      exact hnone p hp
    · exact fun p hp => absurd hp.1 (hnone p)
  · rw [hover]
    constructor
    · intro hiff q hq
      rw [hlast.unique hq]
      refine ⟨fun ho q hq => ?_, fun ho _ => hiff.mp ho⟩
      by_contra hkept
      rw [not_or] at hkept
      exact hiff.mpr ⟨q, hq, hkept⟩ ho
    · intro hcond
      obtain ⟨hlost, hkept⟩ := hcond p hlast
      constructor
      · intro ho
        by_cases hc : g.Cleared hp m p
        · exact hkept ho hc
        · exact ⟨p, hlast.1, ho, hc⟩
      · rintro ⟨q, hq, hqo, hqc⟩ ho
        exact (hlost ho q hq).elim hqo hqc

/-- The data of the protects: the first one uses a hazard pointer of its own, the others share
one. -/
def sharedHazptr (e : Event) : HpProtect :=
  if e = ⟨0, 2⟩ then ⟨⟨64⟩, ⟨8⟩⟩ else if e = ⟨0, 3⟩ then ⟨⟨72⟩, ⟨8⟩⟩ else ⟨⟨72⟩, ⟨16⟩⟩

/-- An object is protected by two hazard pointers, the second of which then protects something else
before the object is read. -/
def twoHazptrs : ExecutionGraph :=
  (PartialRun.exec Mutation.apply initial
    [.addLabelToGraph { pos := ⟨0, 1⟩, body := .malloc ⟨8⟩ 8 none [⟨0, 5⟩] },
      .addLabelToGraph { pos := ⟨0, 2⟩, body := .plain .hpProtect },
      .addLabelToGraph { pos := ⟨0, 3⟩, body := .plain .hpProtect },
      .addLabelToGraph { pos := ⟨0, 4⟩, body := .plain .hpProtect },
      .addLabelToGraph
        { pos := ⟨0, 5⟩, body := .read .read { addr := ⟨8⟩, alloc := some ⟨0, 1⟩ } none false },
      .setRf ⟨0, 5⟩ (some .init)]).getD initial

/-- The object is not protected for the code, though the first hazard pointer still protects it. -/
theorem twoHazptrs_protected :
    ∃ mLab aLab, twoHazptrs.getEventLabel ⟨0, 5⟩ = some mLab ∧
      mLab.body.alloc = some ⟨0, 1⟩ ∧ twoHazptrs.getEventLabel ⟨0, 1⟩ = some aLab ∧
      twoHazptrs.isHazptrProtected sharedHazptr ⟨0, 5⟩ = some false ∧
      twoHazptrs.HazptrProtected sharedHazptr aLab ⟨0, 5⟩ := by
  refine ⟨_, _, rfl, by decide +kernel, rfl, by decide +kernel, ⟨0, 2⟩,
    ⟨rfl, by decide, by decide +kernel, by decide +kernel⟩, by decide +kernel, by decide +kernel⟩

/-- The data of a protect of an object. -/
def oneHazptr : HpProtect := ⟨⟨64⟩, ⟨8⟩⟩

/-- An object is protected by one hazard pointer when it is read. -/
def protectedRead : ExecutionGraph :=
  (PartialRun.exec Mutation.apply initial
    [.addLabelToGraph { pos := ⟨0, 1⟩, body := .malloc ⟨8⟩ 8 none [⟨0, 3⟩] },
      .addLabelToGraph { pos := ⟨0, 2⟩, body := .plain .hpProtect },
      .addLabelToGraph
        { pos := ⟨0, 3⟩, body := .read .read { addr := ⟨8⟩, alloc := some ⟨0, 1⟩ } none false },
      .setRf ⟨0, 3⟩ (some .init)]).getD initial

/-- One protect that stays in place is recognized. -/
theorem protectedRead_isHazptrProtected :
    ∃ aLab b, protectedRead.isHazptrProtected (fun _ => oneHazptr) ⟨0, 3⟩ = some b ∧
      (b = true ↔ protectedRead.HazptrProtected (fun _ => oneHazptr) aLab ⟨0, 3⟩) := by
  have hkept : ∀ p ∈ positionsIn 0 0 3, protectedRead.isa LabelBody.isHpProtect p →
      ¬protectedRead.Overwritten (fun _ => oneHazptr) ⟨0, 3⟩ p ∧
        ¬protectedRead.Cleared (fun _ => oneHazptr) ⟨0, 3⟩ p := by decide +kernel
  refine ⟨_, (@isHazptrProtected_iff _ _ ⟨0, 3⟩ ⟨0, 1⟩ _ _ ⟨8⟩ rfl rfl
    (by decide +kernel) rfl rfl).mpr fun p hp => ?_⟩
  have hp' := hkept p (mem_positionsIn.mpr ⟨hp.1.thread, Nat.zero_le _, hp.1.before⟩) hp.1.isa
  exact ⟨fun ho => absurd ho hp'.1, fun _ hc => absurd hc hp'.2⟩

end Hazptr

/-! ## Locks -/

/-- Whether there is an unlock of a location at a position. -/
def isUnlockAt (a : Option SAddr) (e : Event) : Bool :=
  g.isa LabelBody.isUnlockWrite e && decide (g.addrOf e = a)

/-- Whether there is the write of a lock of a location at a position. -/
def isLockAt (a : Option SAddr) (e : Event) : Bool :=
  g.isa LabelBody.isLockWrite e && decide (g.addrOf e = a)

/-- `findMatchingLock`. -/
def findMatchingLock (u : Event) : Option Event :=
  Matching.findMatching (g.isUnlockAt (g.addrOf u)) (g.isLockAt (g.addrOf u)) []
    (positionsIn u.thread 1 u.index).reverse

/-- The loop of `findMatchingUnlock`. -/
def searchUnlock (l : Event) : Option Event :=
  Matching.findMatching (g.isLockAt (g.addrOf l)) (g.isUnlockAt (g.addrOf l)) []
    (positionsIn l.thread (l.index + 1) (g.getThreadSize l.thread))

/-- `findMatchingUnlock`.  What must not fail at its start asks for the read of a lock, while the
label is a write. -/
def findMatchingUnlock (l : Event) : Option (Option Event) :=
  if !g.isa LabelBody.isLockCasRead l && !g.isa LabelBody.isTrylockCasRead l then none
  else some (g.searchUnlock l)

/-- Every unlock of a thread is preceded by its lock: no prefix of the thread has more unlocks of a
location than locks. -/
def LocksBalanced (t : ℕ) : Prop :=
  ∀ a, ∀ s, s <+: positionsIn t 0 (g.getThreadSize t) →
    s.countP (g.isUnlockAt (some a)) ≤ s.countP (g.isLockAt (some a))

/-- The two functions are inverse on the locks and unlocks of a thread, and succeed. -/
structure LocksMatch (t : ℕ) : Prop where
  /-- The function for locks succeeds. -/
  succeeds : ∀ l, l.thread = t → g.isa LabelBody.isLockWrite l → (g.findMatchingUnlock l).isSome
  /-- The unlock of a lock is the one whose lock it is. -/
  inverse : ∀ l u, l.thread = t → u.thread = t → g.isa LabelBody.isLockWrite l →
    g.isa LabelBody.isUnlockWrite u →
    (g.findMatchingUnlock l = some (some u) ↔ g.findMatchingLock u = some l)

variable {g}

/-- The function for locks never gets beyond its start. -/
lemma findMatchingUnlock_eq_none {l : Event} (hl : g.isa LabelBody.isLockWrite l) :
    g.findMatchingUnlock l = none := by
  obtain ⟨lab, hlab, hlock⟩ := isa_iff.mp hl
  unfold findMatchingUnlock
  rw [isa_of_getEventLabel hlab, isa_of_getEventLabel hlab, if_pos]
  cases hb : lab.body <;> rw [hb] at hlock <;> first | rfl | cases hlock

/-- No label is both a lock and an unlock. -/
lemma isUnlockAt_eq_false {a : Option SAddr} {e : Event} (h : g.isLockAt a e) :
    g.isUnlockAt a e = false := by
  obtain ⟨lab, hlab, hlock⟩ := isa_iff.mp (Bool.and_eq_true_iff.mp h).1
  unfold isUnlockAt
  rw [isa_of_getEventLabel hlab]
  obtain ⟨pos, stamp, revisitable, view, body⟩ := lab
  cases body with
  | write k acc rs => cases k <;> first | rfl | cases hlock
  | _ => cases hlock

/-- What the walk finds is a bracket on its way. -/
lemma of_findMatching {opens closes : Event → Bool} (hdisj : ∀ x, opens x → closes x = false)
    {l : List Event} {u : Event} (h : Matching.findMatching opens closes [] l = some u) :
    u ∈ l ∧ closes u := by
  obtain ⟨s, t, rfl, hu, -⟩ := (Matching.findMatching_eq_some_iff hdisj).mp h
  exact ⟨by simp, hu⟩

/-- The two walks are inverse. -/
lemma searchUnlock_eq_iff (hg : WellFormed g) {l u : Event} (ht : u.thread = l.thread)
    (hl : g.isa LabelBody.isLockWrite l) (hu : g.isa LabelBody.isUnlockWrite u) :
    g.searchUnlock l = some u ↔ g.findMatchingLock u = some l := by
  have hdisj : ∀ a e, g.isUnlockAt a e → g.isLockAt a e = false := by
    intro a e he
    by_contra hlock
    rw [isUnlockAt_eq_false (Bool.eq_true_of_not_eq_false hlock)] at he
    exact absurd he Bool.false_ne_true
  -- Either walk only finds what is behind the lock, before the unlock and at the same location.
  have hsearch : g.searchUnlock l = some u → l.index < u.index ∧ g.addrOf u = g.addrOf l := by
    intro h
    obtain ⟨hmem, hu'⟩ := of_findMatching (fun x => isUnlockAt_eq_false) h
    exact ⟨(mem_positionsIn.mp hmem).2.1, of_decide_eq_true (Bool.and_eq_true_iff.mp hu').2⟩
  have hfind : g.findMatchingLock u = some l → l.index < u.index ∧ g.addrOf u = g.addrOf l := by
    intro h
    obtain ⟨hmem, hl'⟩ := of_findMatching (hdisj _) h
    exact ⟨(mem_positionsIn.mp (List.mem_reverse.mp hmem)).2.2,
      (of_decide_eq_true (Bool.and_eq_true_iff.mp hl').2).symm⟩
  by_cases hlt : l.index < u.index ∧ g.addrOf u = g.addrOf l
  swap
  · exact iff_of_false (fun h => hlt (hsearch h)) fun h => hlt (hfind h)
  obtain ⟨hlt, haddr⟩ := hlt
  have hpos : 0 < l.index := hg.index_pos hl fun b hb =>
    LabelBody.isThreadStart_eq_false (LabelBody.isWrite_of_isLockWrite hb)
  have husize : u.index < g.getThreadSize l.thread := by
    rw [← ht]
    exact containsPos_iff_lt.mp (containsPos_of_isa hu)
  have hforward : positionsIn l.thread (l.index + 1) (g.getThreadSize l.thread) =
      positionsIn l.thread (l.index + 1) u.index ++
        u :: positionsIn l.thread (u.index + 1) (g.getThreadSize l.thread) := by
    rw [← ht] at husize ⊢
    exact positionsIn_eq hlt husize
  have hbackward : (positionsIn u.thread 1 u.index).reverse =
      (positionsIn l.thread (l.index + 1) u.index).reverse ++
        l :: (positionsIn l.thread 1 l.index).reverse := by
    rw [ht, positionsIn_eq hpos hlt, List.reverse_append, List.reverse_cons, List.append_assoc]
    rfl
  have hnodup : (positionsIn l.thread 1 l.index ++
      l :: (positionsIn l.thread (l.index + 1) u.index ++
        u :: positionsIn l.thread (u.index + 1) (g.getThreadSize l.thread))).Nodup := by
    rw [← hforward, ← positionsIn_eq hpos (hlt.trans husize)]
    exact nodup_positionsIn _ _ _
  unfold searchUnlock findMatchingLock
  rw [hforward, hbackward, haddr]
  refine Matching.findMatching_comm (fun x => isUnlockAt_eq_false) hnodup ?_ ?_
  · exact Bool.and_eq_true_iff.mpr ⟨hl, decide_eq_true rfl⟩
  · exact Bool.and_eq_true_iff.mpr ⟨hu, decide_eq_true haddr⟩

/-- **When the searches for locks and unlocks are inverse.**  In a thread, balanced or not, they
are and succeed if and only if there is no lock: with one, the function for locks stops at its
start.  The two walks themselves are inverse. -/
theorem locksMatch_iff (hg : WellFormed g) (t : ℕ) :
    (g.LocksMatch t ↔ ∀ l, l.thread = t → ¬g.isa LabelBody.isLockWrite l) ∧
      ∀ l u, l.thread = t → u.thread = t → g.isa LabelBody.isLockWrite l →
        g.isa LabelBody.isUnlockWrite u →
        (g.searchUnlock l = some u ↔ g.findMatchingLock u = some l) := by
  refine ⟨⟨fun h l ht hl => ?_, fun h => ⟨fun l ht hl => absurd hl (h l ht),
    fun l u ht _ hl => absurd hl (h l ht)⟩⟩, fun l u hlt hut hl hu => ?_⟩
  · have hsome := h.succeeds l ht hl
    rw [findMatchingUnlock_eq_none hl] at hsome
    exact absurd hsome Bool.false_ne_true
  · exact searchUnlock_eq_iff hg (hut.trans hlt.symm) hl hu

/-- A thread that acquires a lock and releases it. -/
def criticalSection : ExecutionGraph :=
  (PartialRun.exec Mutation.apply initial
    [.addLabelToGraph { pos := ⟨0, 1⟩, body := .read .lockCasRead { addr := ⟨8⟩ } none false },
      .setRf ⟨0, 1⟩ (some .init),
      .addLabelToGraph { pos := ⟨0, 2⟩, body := .write .lockCasWrite { addr := ⟨8⟩ } [] },
      .addStoreToCOAfter ⟨0, 2⟩ .init,
      .addLabelToGraph { pos := ⟨0, 3⟩, body := .write .unlockWrite { addr := ⟨8⟩ } [] },
      .addStoreToCOAfter ⟨0, 3⟩ ⟨0, 2⟩]).getD initial

/-- The graph of the critical section is well-formed. -/
lemma wellFormed_criticalSection : WellFormed criticalSection :=
  WellFormed.of_check (by decide +kernel)

/-- The lock of the unlock is found, and the walk from the lock finds the unlock. -/
theorem criticalSection_walks :
    ¬criticalSection.LocksMatch 0 ∧ criticalSection.searchUnlock ⟨0, 2⟩ = some ⟨0, 3⟩ ∧
      criticalSection.findMatchingLock ⟨0, 3⟩ = some ⟨0, 2⟩ := by
  obtain ⟨hmatch, hwalks⟩ := locksMatch_iff wellFormed_criticalSection 0
  have hfind : criticalSection.findMatchingLock ⟨0, 3⟩ = some ⟨0, 2⟩ := by decide +kernel
  exact ⟨fun h => hmatch.mp h ⟨0, 2⟩ rfl (by decide +kernel),
    (hwalks ⟨0, 2⟩ ⟨0, 3⟩ rfl rfl (by decide +kernel) (by decide +kernel)).mpr hfind, hfind⟩

/-- The thread is balanced, but the function for locks fails on its lock. -/
theorem criticalSection_not_locksMatch :
    WellFormed criticalSection ∧ criticalSection.LocksBalanced 0 ∧
      criticalSection.findMatchingUnlock ⟨0, 2⟩ = none ∧ ¬criticalSection.LocksMatch 0 := by
  have hnone : criticalSection.findMatchingUnlock ⟨0, 2⟩ = none := by decide +kernel
  refine ⟨wellFormed_criticalSection, fun a s hs => ?_, hnone, fun h => ?_⟩
  · by_cases ha : a = ⟨8⟩
    · have hall : ∀ s ∈ (positionsIn 0 0 (criticalSection.getThreadSize 0)).inits,
          s.countP (criticalSection.isUnlockAt (some ⟨8⟩)) ≤
            s.countP (criticalSection.isLockAt (some ⟨8⟩)) := by decide +kernel
      rw [ha]
      exact hall s ((List.mem_inits _ _).mpr hs)
    · -- The thread does not touch other locations.
      have hall : ∀ e ∈ positionsIn 0 0 (criticalSection.getThreadSize 0),
          criticalSection.isa LabelBody.isUnlockWrite e →
            criticalSection.addrOf e = some ⟨8⟩ := by decide +kernel
      have hzero : s.countP (criticalSection.isUnlockAt (some a)) = 0 := by
        refine List.countP_eq_zero.mpr fun e he hunlock => ha ?_
        obtain ⟨hunlock, haddr⟩ := Bool.and_eq_true_iff.mp hunlock
        have heq := hall e (hs.subset he) hunlock
        rw [of_decide_eq_true haddr] at heq
        exact Option.some.inj heq
      rw [hzero]
      exact Nat.zero_le _
  · have hsome := h.succeeds ⟨0, 2⟩ rfl (by decide +kernel)
    rw [hnone] at hsome
    exact absurd hsome Bool.false_ne_true

end ExecutionGraph

end GenMC
