import GenMC.Lib.PartialRun
import GenMC.Runtime.AtomicRMW

/-!
# Completing the write part of a revisited read-modify-write

When a read of a read-modify-write is revisited, the driver adds the write part itself, from the
read label alone.  `completeRevisitedRMW_agrees_iff` says when this is the write label that the
interpreter would have added after a read of the same value.  `rmw_canonical_iff` says when the
values that both store are canonical for the width of the access, so that comparing 64-bit values
compares what the program compares.
-/

namespace GenMC

open PartialRun SVal

/-- `CREATE_COUNTERPART`: the write label that belongs to a read label.  The constructor of
`TrylockCasWriteLabel` ignores the attributes. -/
def RMWReadLabel.counterpart (rLab : RMWReadLabel) (kind : WriteKind) (result : SVal) :
    RMWWriteLabel :=
  { kind := kind, pos := rLab.pos.next, ordering := rLab.ordering, addr := rLab.addr
    size := rLab.size, type := rLab.type, val := result
    attr := if kind = .trylockCasWrite then .none else rLab.attr }

/-- `GenMCDriver::completeRevisitedRMW`: the label that is added for a read that reads `rfVal`, if
any.  `barrierInit` is the value with which the barrier at the address was initialized. -/
def completeRevisitedRMW (rLab : RMWReadLabel) (rfVal barrierInit : SVal) :
    Option RMWWriteLabel :=
  match rLab.rmw with
  | .fai kind op opVal =>
    let result := executeAtomicRMWOperation rfVal opVal rLab.size op
    some (rLab.counterpart kind.writeKind
      (if kind = .bIncFai ∧ result = 0 then barrierInit else result))
  | .cas kind expected swapVal =>
    if rfVal ≠ expected then none else some (rLab.counterpart kind.writeKind swapVal)

/-- `GenMCDriver::handleStore`: what is changed in a write label before it is added. -/
def handleStore (barrierInit : SVal) (wLab : RMWWriteLabel) : RMWWriteLabel :=
  if wLab.kind = .bIncFaiWrite ∧ wLab.val = 0 then { wLab with val := barrierInit } else wLab

namespace RMWCall

/-- The write label that the interpreter adds after the read of a call has returned `ret`. -/
def freshWrite (c : RMWCall) (ret barrierInit : SVal) : Option RMWWriteLabel :=
  (c.visit.write ret).map (handleStore barrierInit)

/-- Whether the call waits at a barrier. -/
def IsBarrierWait : RMWCall → Prop
  | barrierWait .. => True
  | _ => False

end RMWCall

/-- Only the write of a barrier is changed when it is stored. -/
lemma handleStore_of_ne {barrierInit : SVal} {wLab : RMWWriteLabel}
    (h : wLab.kind ≠ .bIncFaiWrite) : handleStore barrierInit wLab = wLab :=
  if_neg fun hb => h hb.1

/-- A write label without its dependencies. -/
def RMWWriteLabel.dropDeps (w : RMWWriteLabel) : RMWWriteLabel := { w with deps := {} }

/-- Only a label without dependencies stays the same without them. -/
lemma RMWWriteLabel.dropDeps_eq_iff {w : RMWWriteLabel} : w.dropDeps = w ↔ w.deps = {} := by
  constructor
  · intro h
    rw [← h]
    rfl
  · intro h
    unfold dropDeps
    rw [← h]

namespace RMWCall

/-- The interpreter adds a write exactly if the call succeeds, and with the dependencies of the
call. -/
lemma freshWrite_cases (c : RMWCall) (ret barrierInit : SVal) :
    (c.Succeeds ret ∧ ∃ w, c.freshWrite ret barrierInit = some w ∧ w.deps = c.storeDeps) ∨
      (¬c.Succeeds ret ∧ c.freshWrite ret barrierInit = none) := by
  have hdeps : ∀ w : RMWWriteLabel, (handleStore barrierInit w).deps = w.deps := by
    intro w
    unfold handleStore
    split <;> rfl
  have hmap : ∀ {o o' : Option RMWWriteLabel}, o = o' →
      o.map (handleStore barrierInit) = o'.map (handleStore barrierInit) :=
    fun h => congrArg _ h
  cases c with
  | atomicRMW I => exact Or.inl ⟨trivial, _, rfl, hdeps _⟩
  | cmpXchg I =>
    by_cases h : ret = I.cmpVal
    · exact Or.inl ⟨h, _, hmap (if_pos h), hdeps _⟩
    · exact Or.inr ⟨h, hmap (if_neg h)⟩
  | mutexLock pos addr size deps =>
    by_cases h : ret = 0
    · exact Or.inl ⟨h, _, hmap (if_pos h), hdeps _⟩
    · exact Or.inr ⟨h, hmap (if_neg h)⟩
  | mutexTrylock pos ptr size deps =>
    by_cases h : ret = 0
    · exact Or.inl ⟨h, _, hmap (if_pos h), hdeps _⟩
    · exact Or.inr ⟨h, hmap (if_neg h)⟩
  | barrierWait pos barrier size type deps =>
    by_cases h : 0 < ret.toInt
    · exact Or.inl ⟨h, _, hmap (if_neg (not_le.mpr h)), hdeps _⟩
    · exact Or.inr ⟨h, hmap (if_pos (not_lt.mp h))⟩

/-- The driver adds the write of the interpreter, without its dependencies. -/
lemma completeRevisitedRMW_eq (c : RMWCall) (ret barrierInit : SVal)
    (h : c.IsBarrierWait → 0 < ret.toInt) :
    completeRevisitedRMW c.visit.read ret barrierInit =
      (c.freshWrite ret barrierInit).map RMWWriteLabel.dropDeps := by
  cases c with
  | atomicRMW I =>
    have hkind : I.kind ≠ .bIncFai ∧ I.kind.writeKind ≠ .bIncFaiWrite ∧
        I.kind.writeKind ≠ .trylockCasWrite := by
      unfold AtomicRMWInst.kind
      split <;> decide
    simp [completeRevisitedRMW, freshWrite, visit, visitAtomicRMWInst, RMWReadLabel.counterpart,
      handleStore, RMWWriteLabel.dropDeps, hkind]
  | cmpXchg I =>
    have hkind : I.kind.writeKind ≠ .bIncFaiWrite ∧ I.kind.writeKind ≠ .trylockCasWrite := by
      unfold AtomicCmpXchgInst.kind
      split <;> decide
    by_cases h : ret = I.cmpVal <;>
      simp [completeRevisitedRMW, freshWrite, visit, visitAtomicCmpXchgInst,
        RMWReadLabel.counterpart, handleStore, RMWWriteLabel.dropDeps, hkind, h]
  | mutexLock pos addr size deps =>
    by_cases h : ret = 0 <;>
      simp [completeRevisitedRMW, freshWrite, visit, GenMC.handleLock, CasKind.writeKind,
        RMWReadLabel.counterpart, handleStore, RMWWriteLabel.dropDeps, h]
  | mutexTrylock pos ptr size deps =>
    by_cases h : ret = 0 <;>
      simp [completeRevisitedRMW, freshWrite, visit, callMutexTrylock, CasKind.writeKind,
        RMWReadLabel.counterpart, handleStore, RMWWriteLabel.dropDeps, h]
  | barrierWait pos barrier size type deps =>
    have hpos : ¬ret.toInt ≤ 0 := not_le.mpr (h trivial)
    by_cases hzero : executeAtomicRMWOperation ret 1#64 size .sub = 0#64 <;>
      simp [completeRevisitedRMW, freshWrite, visit, callBarrierWait, FaiKind.writeKind,
        RMWReadLabel.counterpart, handleStore, RMWWriteLabel.dropDeps, hpos, hzero]

/-- The driver always adds a write for a barrier that is waited for. -/
lemma completeRevisitedRMW_isSome {c : RMWCall} (hc : c.IsBarrierWait) (ret barrierInit : SVal) :
    (completeRevisitedRMW c.visit.read ret barrierInit).isSome := by
  cases c with
  | barrierWait pos barrier size type deps => rfl
  | _ => exact absurd hc id

end RMWCall

/-- **The two constructions of the write part.**  For every call and every value that its read may
return, the driver adds the same write label as the interpreter, or neither adds one, if and only if
a barrier is waited for only at a positive value and the interpreter has no dependencies for a write
that it adds. -/
theorem completeRevisitedRMW_agrees_iff (c : RMWCall) (ret barrierInit : SVal) :
    completeRevisitedRMW c.visit.read ret barrierInit = c.freshWrite ret barrierInit ↔
      (c.IsBarrierWait → 0 < ret.toInt) ∧ (c.Succeeds ret → c.storeDeps = {}) := by
  constructor
  · intro heq
    have hbarrier : c.IsBarrierWait → 0 < ret.toInt := by
      intro hc
      have hsome := RMWCall.completeRevisitedRMW_isSome hc ret barrierInit
      rw [heq] at hsome
      rcases c.freshWrite_cases ret barrierInit with ⟨hsucc, -⟩ | ⟨-, hnone⟩
      · cases c with
        | barrierWait pos barrier size type deps => exact hsucc
        | _ => exact absurd hc id
      · rw [hnone] at hsome
        exact absurd hsome (by decide)
    refine ⟨hbarrier, fun hsucc => ?_⟩
    rcases c.freshWrite_cases ret barrierInit with ⟨-, w, hw, hdeps⟩ | ⟨hnot, -⟩
    · rw [c.completeRevisitedRMW_eq ret barrierInit hbarrier, hw, Option.map_some,
        Option.some_inj, RMWWriteLabel.dropDeps_eq_iff] at heq
      exact hdeps.symm.trans heq
    · exact absurd hsucc hnot
  · rintro ⟨hbarrier, hdeps⟩
    rw [c.completeRevisitedRMW_eq ret barrierInit hbarrier]
    rcases c.freshWrite_cases ret barrierInit with ⟨hsucc, w, hw, hw'⟩ | ⟨-, hnone⟩
    · rw [hw, Option.map_some, RMWWriteLabel.dropDeps_eq_iff.mpr (hw'.trans (hdeps hsucc))]
    · rw [hnone, Option.map_none]

/-- A fetch-and-add of one at address 8, whose control depends on the event before it. -/
def dependentFetchAdd : RMWCall :=
  .atomicRMW { pos := ⟨1, 2⟩, ordering := .monotonic, ptr := ⟨8⟩, size := 4, type := .signed
               operation := .add, val := 1, attr := .none, nonVR := false
               deps := { ctrl := {⟨1, 1⟩} } }

/-- The driver loses the control dependency. -/
theorem dependentFetchAdd_differs :
    completeRevisitedRMW dependentFetchAdd.visit.read 0 0 ≠ dependentFetchAdd.freshWrite 0 0 := by
  decide

end GenMC
