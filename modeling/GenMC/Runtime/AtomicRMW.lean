import GenMC.ExecutionGraph.EventLabel
import GenMC.Support.SVal
import Mathlib.Data.Finset.Basic

/-!
# Atomic read-modify-write operations in the interpreter

What the interpreter does for the calls that perform a read-modify-write: it passes a read label to
the driver and, once the driver has returned a value, it may pass a write label.  A call is given
by the data that the interpreter has evaluated when it starts: the operands of the instruction and
the dependencies of the thread.
-/

namespace GenMC

/-- `AtomicRMWInst::BinOp`. -/
inductive BinOp
  | xchg | add | sub | and | nand | or | xor | max | min | uMax | uMin
deriving DecidableEq

/-- `llvm::AtomicOrdering`. -/
inductive AtomicOrdering
  | notAtomic | unordered | monotonic | acquire | release | acquireRelease
  | sequentiallyConsistent
deriving DecidableEq

/-- `AType`: the type of an access. -/
inductive AType
  | pointer | signed | unsigned
deriving DecidableEq

/-- `WriteAttr`: the attributes of a write, one bit each. -/
abbrev WriteAttr := BitVec 4

/-- `WriteAttr::None`. -/
def WriteAttr.none : WriteAttr := 0

/-- `EventDeps`: the events on which an event depends. -/
structure EventDeps where
  addr : Finset Event := ∅
  data : Finset Event := ∅
  ctrl : Finset Event := ∅
  addrPo : Finset Event := ∅
  cas : Finset Event := ∅
deriving DecidableEq

/-- The kinds of `FaiReadLabel`. -/
inductive FaiKind
  | fai | noRetFai | bIncFai
deriving DecidableEq

/-- The kinds of `CasReadLabel`. -/
inductive CasKind
  | cas | lockCas | trylockCas | helpedCas | confirmingCas
deriving DecidableEq

/-- The data of an access. -/
structure AccessData where
  pos : Event
  ordering : AtomicOrdering
  addr : SAddr
  size : ℕ
  type : AType
  deps : EventDeps := {}
deriving DecidableEq

/-- What a read of a read-modify-write knows about its write. -/
inductive RMWData
  /-- `FaiReadLabel`: the operation and its operand. -/
  | fai (kind : FaiKind) (op : BinOp) (opVal : SVal)
  /-- `CasReadLabel`: the value that makes it succeed, and the value that is then written. -/
  | cas (kind : CasKind) (expected swapVal : SVal)
deriving DecidableEq

/-- A read label of a read-modify-write. -/
structure RMWReadLabel extends AccessData where
  rmw : RMWData
  attr : WriteAttr := .none
deriving DecidableEq

/-- A write label of a read-modify-write. -/
structure RMWWriteLabel extends AccessData where
  kind : WriteKind
  val : SVal
  attr : WriteAttr := .none
deriving DecidableEq

/-- The kind of the write that belongs to a fetch-and-add. -/
def FaiKind.writeKind : FaiKind → WriteKind
  | fai => .faiWrite
  | noRetFai => .noRetFaiWrite
  | bIncFai => .bIncFaiWrite

/-- The kind of the write that belongs to a compare-and-swap. -/
def CasKind.writeKind : CasKind → WriteKind
  | cas => .casWrite
  | lockCas => .lockCasWrite
  | trylockCas => .trylockCasWrite
  | helpedCas => .helpedCasWrite
  | confirmingCas => .confirmingCasWrite

/-- `ReadLabel::valueMakesRMWSucceed`. -/
def RMWReadLabel.valueMakesRMWSucceed (rLab : RMWReadLabel) (val : SVal) : Bool :=
  match rLab.rmw with
  | .fai .. => true
  | .cas _ expected _ => val = expected

/-- `Interpreter::executeAtomicRMWOperation`. -/
def executeAtomicRMWOperation (oldVal val : SVal) (size : ℕ) (op : BinOp) : SVal :=
  match op with
  | .xchg => val
  | .add => oldVal + val
  | .sub => oldVal - val
  | .and => oldVal &&& val
  | .nand => ~~~(oldVal &&& val)
  | .or => oldVal ||| val
  | .xor => oldVal ^^^ val
  | .max =>
    if (oldVal.signExtendBottom (8 * size)).sgt (val.signExtendBottom (8 * size)) then oldVal
    else val
  | .min =>
    if (oldVal.signExtendBottom (8 * size)).slt (val.signExtendBottom (8 * size)) then oldVal
    else val
  | .uMax => if oldVal.ugt val then oldVal else val
  | .uMin => if oldVal.ult val then oldVal else val

/-! ## The operations at the width of the access -/

namespace BinOp

/-- What an operation means for words of a width. -/
def eval {w : ℕ} (op : BinOp) (old val : BitVec w) : BitVec w :=
  match op with
  | xchg => val
  | add => old + val
  | sub => old - val
  | and => old &&& val
  | nand => ~~~(old &&& val)
  | or => old ||| val
  | xor => old ^^^ val
  | max => if val.slt old then old else val
  | min => if old.slt val then old else val
  | uMax => if val.ult old then old else val
  | uMin => if old.ult val then old else val

/-- The operation does not leave the width: a sum does not carry out of it, a difference does not
borrow, and a complement is taken of full words only. -/
def NoWrap (s : ℕ) (op : BinOp) (old val : SVal) : Prop :=
  match op with
  | add => s = 8 ∨ old.toNat + val.toNat < 2 ^ (8 * s)
  | sub => s = 8 ∨ val.toNat ≤ old.toNat
  | nand => s = 8
  | _ => True

end BinOp

section Width

variable {s : ℕ} {old val : SVal}

/-- Two words are equal as values if their numbers are. -/
lemma SVal.eq_ofLow_iff (hs : s ≤ 8) {v : SVal} {w : BitVec (8 * s)} :
    v = SVal.ofLow w ↔ v.toNat = w.toNat := by
  rw [← BitVec.toNat_inj, SVal.toNat_ofLow hs]

/-- A power of two below the width of a value. -/
lemma two_pow_le_of_ne (hs : s ≤ 8) (hne : s ≠ 8) : 2 ^ (8 * s) ≤ 2 ^ 56 :=
  Nat.pow_le_pow_right two_pos (by omega)

/-- Addition is the one of the width unless it carries out of it. -/
lemma add_eq_ofLow_iff (hs : s ≤ 8) (hold : old.Canonical s) (hval : val.Canonical s) :
    old + val = SVal.ofLow (old.low s + val.low s) ↔
      s = 8 ∨ old.toNat + val.toNat < 2 ^ (8 * s) := by
  rw [SVal.eq_ofLow_iff hs, BitVec.toNat_add, BitVec.toNat_add, hold.toNat_low, hval.toNat_low]
  unfold SVal.Canonical at hold hval
  by_cases h8 : s = 8
  · subst h8
    simp
  · have hpow := two_pow_le_of_ne hs h8
    rw [Nat.mod_eq_of_lt (by omega : old.toNat + val.toNat < 2 ^ 64)]
    constructor
    · intro h
      rw [h]
      exact Or.inr (Nat.mod_lt _ (Nat.two_pow_pos _))
    · rintro (h | h)
      · exact absurd h h8
      · exact (Nat.mod_eq_of_lt h).symm

/-- Subtraction is the one of the width unless it borrows. -/
lemma sub_eq_ofLow_iff (hs : s ≤ 8) (hold : old.Canonical s) (hval : val.Canonical s) :
    old - val = SVal.ofLow (old.low s - val.low s) ↔ s = 8 ∨ val.toNat ≤ old.toNat := by
  rw [SVal.eq_ofLow_iff hs, BitVec.toNat_sub', BitVec.toNat_sub', hold.toNat_low, hval.toNat_low]
  unfold SVal.Canonical at hold hval
  by_cases h8 : s = 8
  · subst h8
    simp
  · have hpow := two_pow_le_of_ne hs h8
    have hlt := Nat.mod_lt (old.toNat + (2 ^ (8 * s) - val.toNat)) (Nat.two_pow_pos (8 * s))
    by_cases hle : val.toNat ≤ old.toNat
    · have h64 : (old.toNat + (2 ^ 64 - val.toNat)) % 2 ^ 64 = old.toNat - val.toNat := by
        omega
      have hs' : old.toNat + (2 ^ (8 * s) - val.toNat) = old.toNat - val.toNat + 2 ^ (8 * s) := by
        omega
      rw [h64, hs', Nat.add_mod_right, Nat.mod_eq_of_lt (by omega)]
      simp [hle]
    · simp only [h8, hle, or_self, iff_false]
      omega

/-- The complement is never the one of a smaller width. -/
lemma nand_eq_ofLow_iff (hs : s ≤ 8) (hold : old.Canonical s) :
    ~~~(old &&& val) = SVal.ofLow (~~~(old.low s &&& val.low s)) ↔ s = 8 := by
  rw [SVal.eq_ofLow_iff hs, BitVec.toNat_not, BitVec.toNat_not, BitVec.toNat_and]
  unfold SVal.Canonical at hold
  have hand : old.toNat &&& val.toNat ≤ old.toNat := Nat.and_le_left
  constructor
  · intro h
    by_contra h8
    have hpow := two_pow_le_of_ne hs h8
    omega
  · rintro rfl
    simp [SVal.low]

/-- The signed comparison of the sign-extended values is the one of the width. -/
lemma slt_signExtendBottom (hs : 1 ≤ s) (hs' : s ≤ 8) (v w : SVal) :
    BitVec.slt (v.signExtendBottom (8 * s)) (w.signExtendBottom (8 * s)) =
      (v.low s).slt (w.low s) := by
  rw [BitVec.slt_eq_decide, BitVec.slt_eq_decide, SVal.toInt_signExtendBottom v hs hs',
    SVal.toInt_signExtendBottom w hs hs']

/-- **The stored value is canonical exactly if the operation does not wrap.** -/
lemma executeAtomicRMWOperation_eq_ofLow_iff (hs : 1 ≤ s) (hs' : s ≤ 8) (hold : old.Canonical s)
    (hval : val.Canonical s) (op : BinOp) :
    executeAtomicRMWOperation old val s op = SVal.ofLow (op.eval (old.low s) (val.low s)) ↔
      op.NoWrap s old val := by
  have hofOld := hold.ofLow_low hs'
  have hofVal := hval.ofLow_low hs'
  cases op with
  | xchg => exact iff_of_true hofVal.symm trivial
  | add => exact add_eq_ofLow_iff hs' hold hval
  | sub => exact sub_eq_ofLow_iff hs' hold hval
  | nand => exact nand_eq_ofLow_iff hs' hold
  | and =>
    refine iff_of_true ?_ trivial
    rw [SVal.eq_ofLow_iff hs', BinOp.eval, executeAtomicRMWOperation, BitVec.toNat_and,
      BitVec.toNat_and, hold.toNat_low, hval.toNat_low]
  | or =>
    refine iff_of_true ?_ trivial
    rw [SVal.eq_ofLow_iff hs', BinOp.eval, executeAtomicRMWOperation, BitVec.toNat_or,
      BitVec.toNat_or, hold.toNat_low, hval.toNat_low]
  | xor =>
    refine iff_of_true ?_ trivial
    rw [SVal.eq_ofLow_iff hs', BinOp.eval, executeAtomicRMWOperation, BitVec.toNat_xor,
      BitVec.toNat_xor, hold.toNat_low, hval.toNat_low]
  | max =>
    refine iff_of_true ?_ trivial
    simp only [executeAtomicRMWOperation, BinOp.eval, SVal.sgt, BitVec.sle_eq_not_slt, Bool.not_not,
      slt_signExtendBottom hs hs']
    split
    · exact hofOld.symm
    · exact hofVal.symm
  | min =>
    refine iff_of_true ?_ trivial
    simp only [executeAtomicRMWOperation, BinOp.eval, SVal.slt, slt_signExtendBottom hs hs']
    split
    · exact hofOld.symm
    · exact hofVal.symm
  | uMax =>
    refine iff_of_true ?_ trivial
    have hult : (val.low s).ult (old.low s) = BitVec.ult val old := by
      rw [BitVec.ult, BitVec.ult, hold.toNat_low, hval.toNat_low]
    simp only [executeAtomicRMWOperation, BinOp.eval, SVal.ugt, BitVec.ule_eq_not_ult,
      Bool.not_not, hult]
    split
    · exact hofOld.symm
    · exact hofVal.symm
  | uMin =>
    refine iff_of_true ?_ trivial
    have hult : (old.low s).ult (val.low s) = BitVec.ult old val := by
      rw [BitVec.ult, BitVec.ult, hold.toNat_low, hval.toNat_low]
    rw [executeAtomicRMWOperation, BinOp.eval, SVal.ult, hult]
    split
    · exact hofOld.symm
    · exact hofVal.symm

end Width

/-! ## The calls -/

/-- What the interpreter passes to the driver during a call. -/
structure RMWVisit where
  /-- The label passed to `handleLoad`. -/
  read : RMWReadLabel
  /-- The label passed to `handleStore`, if any, after `handleLoad` has returned a value. -/
  write : SVal → Option RMWWriteLabel

/-- An `atomicrmw` instruction, with its operands and the dependencies of its thread. -/
structure AtomicRMWInst where
  pos : Event
  ordering : AtomicOrdering
  ptr : SAddr
  size : ℕ
  type : AType
  operation : BinOp
  val : SVal
  attr : WriteAttr
  /-- Whether the instruction is annotated as not returning a value. -/
  nonVR : Bool
  deps : EventDeps

/-- The annotations of a `cmpxchg` instruction that make it a read-modify-write. -/
inductive CasAnnot
  | none | helped | confirm
deriving DecidableEq

/-- A `cmpxchg` instruction, with its operands and the dependencies of its thread before (`lDeps`)
and after (`sDeps`) the load. -/
structure AtomicCmpXchgInst where
  pos : Event
  successOrdering : AtomicOrdering
  ptr : SAddr
  size : ℕ
  type : AType
  cmpVal : SVal
  newVal : SVal
  attr : WriteAttr
  annot : CasAnnot
  lDeps : EventDeps
  sDeps : EventDeps

/-- `getFaiKinds`. -/
def AtomicRMWInst.kind (I : AtomicRMWInst) : FaiKind := if I.nonVR then .noRetFai else .fai

/-- `getCasKinds`. -/
def AtomicCmpXchgInst.kind (I : AtomicCmpXchgInst) : CasKind :=
  match I.annot with
  | .none => .cas
  | .helped => .helpedCas
  | .confirm => .confirmingCas

/-- `Interpreter::visitAtomicRMWInst`.  Nothing blocks the threads of the interpreter, so that the
store is always reached. -/
def visitAtomicRMWInst (I : AtomicRMWInst) : RMWVisit where
  read :=
    { pos := I.pos, ordering := I.ordering, addr := I.ptr, size := I.size, type := I.type
      rmw := .fai I.kind I.operation I.val, attr := I.attr, deps := I.deps }
  write ret :=
    let newVal := executeAtomicRMWOperation ret I.val I.size I.operation
    some { kind := I.kind.writeKind, pos := I.pos.next, ordering := I.ordering, addr := I.ptr
           size := I.size, type := I.type, val := newVal, attr := I.attr, deps := I.deps }

/-- `Interpreter::visitAtomicCmpXchgInst`. -/
def visitAtomicCmpXchgInst (I : AtomicCmpXchgInst) : RMWVisit where
  read :=
    { pos := I.pos, ordering := I.successOrdering, addr := I.ptr, size := I.size, type := I.type
      rmw := .cas I.kind I.cmpVal I.newVal, attr := I.attr, deps := I.lDeps }
  write ret :=
    if ret = I.cmpVal then
      some { kind := I.kind.writeKind, pos := I.pos.next, ordering := I.successOrdering
             addr := I.ptr, size := I.size, type := I.type, val := I.newVal, attr := I.attr
             deps := I.sDeps }
    else none

/-- `Interpreter::handleLock`: the read expects 0 and swaps in 1. -/
def handleLock (pos : Event) (addr : SAddr) (size : ℕ) (deps : EventDeps) : RMWVisit where
  read :=
    { pos := pos, ordering := .acquire, addr := addr, size := size, type := .signed
      rmw := .cas .lockCas 0 1, deps := deps }
  write ret :=
    if ret = 0 then
      some { kind := .lockCasWrite, pos := pos.next, ordering := .acquire, addr := addr
             size := size, type := .signed, val := 1, deps := deps }
    else none

/-- `Interpreter::callMutexTrylock`. -/
def callMutexTrylock (pos : Event) (ptr : SAddr) (size : ℕ) (deps : EventDeps) : RMWVisit where
  read :=
    { pos := pos, ordering := .acquire, addr := ptr, size := size, type := .signed
      rmw := .cas .trylockCas 0 1, deps := deps }
  write ret :=
    if ret = 0 then
      some { kind := .trylockCasWrite, pos := pos.next, ordering := .acquire, addr := ptr
             size := size, type := .signed, val := 1, deps := deps }
    else none

/-- `Interpreter::callBarrierWait`: it is aborted if the barrier has no positive value. -/
def callBarrierWait (pos : Event) (barrier : SAddr) (size : ℕ) (type : AType) (deps : EventDeps) :
    RMWVisit where
  read :=
    { pos := pos, ordering := .acquireRelease, addr := barrier, size := size, type := type
      rmw := .fai .bIncFai .sub 1, deps := deps }
  write oldVal :=
    if oldVal.toInt ≤ 0 then none
    else
      let newVal := executeAtomicRMWOperation oldVal 1 size .sub
      some { kind := .bIncFaiWrite, pos := pos.next, ordering := .acquireRelease, addr := barrier
             size := size, type := type, val := newVal, deps := deps }

/-- The calls that perform a read-modify-write. -/
inductive RMWCall
  | atomicRMW (I : AtomicRMWInst)
  | cmpXchg (I : AtomicCmpXchgInst)
  | mutexLock (pos : Event) (addr : SAddr) (size : ℕ) (deps : EventDeps)
  | mutexTrylock (pos : Event) (ptr : SAddr) (size : ℕ) (deps : EventDeps)
  | barrierWait (pos : Event) (barrier : SAddr) (size : ℕ) (type : AType) (deps : EventDeps)

namespace RMWCall

/-- What the interpreter does for a call. -/
def visit : RMWCall → RMWVisit
  | atomicRMW I => visitAtomicRMWInst I
  | cmpXchg I => visitAtomicCmpXchgInst I
  | mutexLock pos addr size deps => handleLock pos addr size deps
  | mutexTrylock pos ptr size deps => callMutexTrylock pos ptr size deps
  | barrierWait pos barrier size type deps => callBarrierWait pos barrier size type deps

/-- The dependencies that the interpreter has for the store of a call. -/
def storeDeps : RMWCall → EventDeps
  | atomicRMW I => I.deps
  | cmpXchg I => I.sDeps
  | mutexLock _ _ _ deps => deps
  | mutexTrylock _ _ _ deps => deps
  | barrierWait _ _ _ _ deps => deps

/-- Whether the call writes when its read returns a value. -/
def Succeeds : RMWCall → SVal → Prop
  | atomicRMW _, _ => True
  | cmpXchg I, v => v = I.cmpVal
  | mutexLock .., v => v = 0
  | mutexTrylock .., v => v = 0
  | barrierWait .., v => 0 < v.toInt

end RMWCall

end GenMC
