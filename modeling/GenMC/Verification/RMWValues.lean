import GenMC.Verification.RevisitedRMW

/-!
# The values of read-modify-writes

Values of all widths live in one 64-bit type, and compare-and-swaps compare them as such.
`rmw_canonical_iff` is about the sequences of read-modify-writes of one width on one location: the
values stored by the interpreter and by the driver are canonical, and all comparisons of 64-bit
values compare the low bytes, exactly as long as no operation wraps around.
-/

namespace GenMC

open PartialRun

namespace RMWCall

/-- A read-modify-write of the program with the given width, whose operands are canonical.  A
barrier is not one of them: what its last waiter stores is not the result of the operation. -/
def Fits (s : ℕ) : RMWCall → Prop
  | atomicRMW I => I.size = s ∧ I.val.Canonical s
  | cmpXchg I => I.size = s ∧ I.cmpVal.Canonical s ∧ I.newVal.Canonical s
  | mutexLock _ _ size _ => size = s
  | mutexTrylock _ _ size _ => size = s
  | barrierWait .. => False

/-- The operation of the call does not leave the width at the given value of the location. -/
def NoWrap (s : ℕ) (v : SVal) : RMWCall → Prop
  | atomicRMW I => I.operation.NoWrap s v I.val
  | _ => True

/-- The value of the location after a call. -/
def next (c : RMWCall) (barrierInit v : SVal) : SVal :=
  (c.freshWrite v barrierInit).elim v (·.val)

/-- What the values of a call should be, at the given value of the location. -/
structure ValueLaw (s : ℕ) (barrierInit v : SVal) (c : RMWCall) : Prop where
  /-- Both writes of a fetch-and-add store the result of the operation at its width. -/
  stores : ∀ kind op opVal, c.visit.read.rmw = .fai kind op opVal →
    ∀ o ∈ [c.freshWrite v barrierInit, completeRevisitedRMW c.visit.read v barrierInit],
      ∃ w, o = some w ∧ w.val.Canonical s ∧
        w.val = SVal.ofLow (op.eval (v.low s) (opVal.low s))
  /-- All comparisons of a compare-and-swap succeed if and only if the low bytes are equal. -/
  compares : ∀ kind expected swapVal, c.visit.read.rmw = .cas kind expected swapVal →
    ∀ b ∈ [(c.freshWrite v barrierInit).isSome,
        (completeRevisitedRMW c.visit.read v barrierInit).isSome,
        c.visit.read.valueMakesRMWSucceed v],
      (b = true ↔ v.low s = expected.low s)

/-- One call on the location. -/
def step (barrierInit v : SVal) (c : RMWCall) : Option SVal := some (c.next barrierInit v)

variable {s : ℕ} {barrierInit v : SVal} {c : RMWCall}

/-- A barrier is not a read-modify-write of the program. -/
lemma Fits.not_isBarrierWait (hc : c.Fits s) : ¬c.IsBarrierWait := by
  cases c with
  | barrierWait pos barrier size type deps => exact fun _ => hc
  | _ => exact id

/-- The driver stores the value that the interpreter stores, if any. -/
lemma Fits.map_val_complete (hc : c.Fits s) (v barrierInit : SVal) :
    (completeRevisitedRMW c.visit.read v barrierInit).map (·.val) =
      (c.freshWrite v barrierInit).map (·.val) := by
  rw [c.completeRevisitedRMW_eq v barrierInit fun h => absurd h hc.not_isBarrierWait,
    Option.map_map]
  rfl

/-- The value that a fetch-and-add stores. -/
lemma map_val_freshWrite (I : AtomicRMWInst) (v barrierInit : SVal) :
    ((atomicRMW I).freshWrite v barrierInit).map (·.val) =
      some (executeAtomicRMWOperation v I.val I.size I.operation) := by
  have hkind : I.kind.writeKind ≠ .bIncFaiWrite := by
    unfold AtomicRMWInst.kind
    split <;> decide
  simp [freshWrite, visit, visitAtomicRMWInst, handleStore, hkind]

/-- The interpreter adds a write exactly if the call succeeds. -/
lemma isSome_freshWrite_iff (c : RMWCall) (v barrierInit : SVal) :
    (c.freshWrite v barrierInit).isSome = true ↔ c.Succeeds v := by
  rcases c.freshWrite_cases v barrierInit with ⟨hsucc, w, hw, -⟩ | ⟨hnot, hnone⟩
  · rw [hw]
    exact iff_of_true rfl hsucc
  · rw [hnone]
    exact iff_of_false Bool.false_ne_true hnot

/-- The law of a compare-and-swap whose operands are canonical. -/
lemma Fits.valueLaw_of_cas {kind : CasKind} {expected swapVal : SVal} (hs' : s ≤ 8)
    (hc : c.Fits s) (hrmw : c.visit.read.rmw = .cas kind expected swapVal)
    (hsucc : ∀ v, c.Succeeds v ↔ v = expected) (hexp : expected.Canonical s)
    (hv : v.Canonical s) : c.ValueLaw s barrierInit v where
  stores kind op opVal hfai := by
    rw [hrmw] at hfai
    exact absurd hfai (by simp)
  compares kind' expected' swapVal' hcas b hb := by
    rw [hrmw] at hcas
    obtain ⟨rfl, rfl, rfl⟩ := RMWData.cas.inj hcas
    rw [← hv.eq_iff_low hs' hexp]
    have hfresh : (c.freshWrite v barrierInit).isSome = true ↔ v = expected :=
      (c.isSome_freshWrite_iff v barrierInit).trans (hsucc v)
    have hcomplete := congrArg Option.isSome (hc.map_val_complete v barrierInit)
    rw [Option.isSome_map, Option.isSome_map] at hcomplete
    simp only [List.mem_cons, List.not_mem_nil, or_false] at hb
    rcases hb with rfl | rfl | rfl
    · exact hfresh
    · rw [hcomplete]
      exact hfresh
    · rw [RMWReadLabel.valueMakesRMWSucceed, hrmw]
      exact decide_eq_true_iff

/-- The law of a fetch-and-add whose operand is canonical. -/
lemma valueLaw_atomicRMW_iff {I : AtomicRMWInst} (hs : 1 ≤ s) (hs' : s ≤ 8)
    (hI : (atomicRMW I).Fits s) (hv : v.Canonical s) :
    (atomicRMW I).ValueLaw s barrierInit v ↔ I.operation.NoWrap s v I.val := by
  have hfresh := map_val_freshWrite I v barrierInit
  have hcomplete := (hI.map_val_complete v barrierInit).trans hfresh
  rw [hI.1] at hfresh hcomplete
  have hiff := executeAtomicRMWOperation_eq_ofLow_iff hs hs' hv hI.2 I.operation
  obtain ⟨w, hw, hwval⟩ := Option.map_eq_some_iff.mp hfresh
  constructor
  · intro h
    obtain ⟨w', hw', -, hval⟩ := h.stores _ _ _ rfl _ List.mem_cons_self
    obtain rfl := Option.some.inj (hw'.symm.trans hw)
    exact hiff.mp (hwval.symm.trans hval)
  · intro h
    refine ⟨fun kind op opVal hfai o ho => ?_, fun kind expected swapVal hcas => ?_⟩
    · obtain ⟨rfl, rfl, rfl⟩ := RMWData.fai.inj hfai
      have hval : o.map (·.val) = some (executeAtomicRMWOperation v I.val s I.operation) := by
        simp only [List.mem_cons, List.not_mem_nil, or_false] at ho
        rcases ho with rfl | rfl
        · exact hfresh
        · exact hcomplete
      obtain ⟨w', rfl, hw'⟩ := Option.map_eq_some_iff.mp hval
      rw [hiff.mpr h] at hw'
      refine ⟨w', rfl, ?_, hw'⟩
      rw [hw']
      exact SVal.canonical_ofLow hs' _
    · exact absurd hcas (by simp [visit, visitAtomicRMWInst])

/-- The law holds of a call if and only if its operation does not leave the width. -/
lemma Fits.valueLaw_iff (hs : 1 ≤ s) (hs' : s ≤ 8) (hc : c.Fits s) (hv : v.Canonical s) :
    c.ValueLaw s barrierInit v ↔ c.NoWrap s v := by
  have hzero : (0 : SVal).Canonical s := Nat.two_pow_pos _
  cases c with
  | atomicRMW I => exact valueLaw_atomicRMW_iff hs hs' hc hv
  | cmpXchg I =>
    exact iff_of_true (hc.valueLaw_of_cas hs' rfl (fun _ => Iff.rfl) hc.2.1 hv) trivial
  | mutexLock pos addr size deps =>
    exact iff_of_true (hc.valueLaw_of_cas hs' rfl (fun _ => Iff.rfl) hzero hv) trivial
  | mutexTrylock pos ptr size deps =>
    exact iff_of_true (hc.valueLaw_of_cas hs' rfl (fun _ => Iff.rfl) hzero hv) trivial
  | barrierWait pos barrier size type deps => exact absurd hc id

/-- Without wrap-around the location keeps a canonical value. -/
lemma Fits.canonical_next (hs : 1 ≤ s) (hs' : s ≤ 8) (hc : c.Fits s) (hv : v.Canonical s)
    (hwrap : c.NoWrap s v) : (c.next barrierInit v).Canonical s := by
  have hone : (1 : SVal).Canonical s := Nat.one_lt_two_pow (by omega)
  have hcas : ∀ {p : Prop} [Decidable p] {w : RMWWriteLabel}, w.kind ≠ .bIncFaiWrite →
      w.val.Canonical s →
      (((if p then some w else none).map (handleStore barrierInit)).elim v
        (·.val)).Canonical s := by
    intro p _ w hkind hw
    split
    · rw [Option.map_some, handleStore_of_ne hkind]
      exact hw
    · exact hv
  cases c with
  | atomicRMW I =>
    obtain ⟨w, hw, hval⟩ := Option.map_eq_some_iff.mp (map_val_freshWrite I v barrierInit)
    rw [next, hw, Option.elim_some, hval, hc.1,
      (executeAtomicRMWOperation_eq_ofLow_iff hs hs' hv hc.2 I.operation).mpr hwrap]
    exact SVal.canonical_ofLow hs' _
  | cmpXchg I =>
    refine hcas ?_ hc.2.2
    change I.kind.writeKind ≠ _
    unfold AtomicCmpXchgInst.kind
    split <;> decide
  | mutexLock pos addr size deps => exact hcas (fun h => WriteKind.noConfusion h) hone
  | mutexTrylock pos ptr size deps => exact hcas (fun h => WriteKind.noConfusion h) hone
  | barrierWait pos barrier size type deps => exact absurd hc id

/-- **The values of read-modify-writes are canonical unless an operation wraps around.**  For every
width, every canonical value of the location and every sequence of fetch-and-adds and
compare-and-swaps of that width, what is stored is canonical and the result of the operation at the
width, and all comparisons of values compare their low bytes, if and only if no sum carries out of
the width, no difference borrows and no complement is taken at a width below 64 bits. -/
theorem rmw_canonical_iff (hs : 1 ≤ s) (hs' : s ≤ 8) (hv : v.Canonical s) (cs : List RMWCall)
    (hcs : ∀ c ∈ cs, c.Fits s) :
    Meets (step barrierInit) (fun v c => c.ValueLaw s barrierInit v) v cs ↔
      Meets (step barrierInit) (fun v c => c.NoWrap s v) v cs := by
  induction cs generalizing v with
  | nil => exact Iff.rfl
  | cons c cs ih =>
    have hc := hcs c List.mem_cons_self
    have hiff : c.ValueLaw s barrierInit v ↔ c.NoWrap s v := hc.valueLaw_iff hs hs' hv
    rw [Meets, Meets, hiff]
    refine and_congr_right fun hwrap => forall_congr' fun v' => imp_congr_right fun hstep => ?_
    obtain rfl := Option.some.inj hstep
    exact ih (hc.canonical_next hs hs' hv hwrap) fun c' hc' => hcs c' (List.mem_cons_of_mem _ hc')

/-- An 8-bit counter is increased by one. -/
def countUp : RMWCall :=
  .atomicRMW { pos := ⟨1, 1⟩, ordering := .monotonic, ptr := ⟨8⟩, size := 1, type := .unsigned
               operation := .add, val := 1, attr := .none, nonVR := false, deps := {} }

/-- A compare-and-swap that expects the counter to be zero. -/
def resetAtZero : RMWCall :=
  .cmpXchg { pos := ⟨1, 3⟩, successOrdering := .monotonic, ptr := ⟨8⟩, size := 1
             type := .unsigned, cmpVal := 0, newVal := 5, attr := .none, annot := .none
             lDeps := {}, sDeps := {} }

/-- Below its limit the counter is canonical. -/
theorem countUp_canonical :
    Meets (step 0) (fun v c => c.ValueLaw 1 0 v) 254 [countUp, resetAtZero] := by
  refine (rmw_canonical_iff (by decide) (by decide) (by decide) _ ?_).mpr ?_
  · simp [countUp, resetAtZero, Fits, SVal.Canonical]
  · refine ⟨Or.inr (by decide), fun v' _ => ⟨trivial, fun _ _ => trivial⟩⟩

/-- At its limit the counter becomes 256, and the compare-and-swap that follows fails although the
counter wraps around to zero. -/
theorem countUp_wraps : ¬Meets (step 0) (fun v c => c.ValueLaw 1 0 v) 255 [countUp, resetAtZero] ∧
    step 0 255 countUp = some 256 ∧ resetAtZero.freshWrite 256 0 = none ∧
    (256 : SVal).low 1 = (0 : SVal).low 1 := by
  refine ⟨fun h => ?_, by decide, by decide, by decide⟩
  obtain ⟨w, hw, hcan, -⟩ := h.1.stores _ _ _ rfl _ List.mem_cons_self
  have hval : w.val = 256 := by
    rw [← Option.some_inj, ← Option.map_some, ← hw]
    decide
  rw [hval] at hcan
  exact absurd hcan (by decide)

end RMWCall

end GenMC
