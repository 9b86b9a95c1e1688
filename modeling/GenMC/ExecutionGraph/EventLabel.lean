import GenMC.ADT.VectorClock
import GenMC.Support.SAddr

/-!
# Event labels

The labels of an execution graph, with the data that the graph operations read and change.  A
pointer from one label to another is modelled by the position of its target, and a reader or
access list by the list of positions.

The fields that point to other labels live in different label classes.  `LabelBody.mapFields`
changes all of them at once, each where the class has it; the setters of the source are instances
of it, so that one lemma for each field says what any of them does.
-/

namespace GenMC

/-- The kinds of `ReadLabel`. -/
inductive ReadKind
  | read | bWaitRead | speculativeRead | confirmingRead | condVarWaitRead
  | casRead | lockCasRead | trylockCasRead | helpedCasRead | confirmingCasRead
  | faiRead | noRetFaiRead | bIncFaiRead
deriving DecidableEq

/-- The kinds of `WriteLabel`. -/
inductive WriteKind
  | write | unlockWrite | bInitWrite | bDestroyWrite | condVarInitWrite | condVarSignalWrite
  | condVarBcastWrite | condVarDestroyWrite
  | casWrite | lockCasWrite | trylockCasWrite | helpedCasWrite | confirmingCasWrite
  | faiWrite | noRetFaiWrite | bIncFaiWrite
deriving DecidableEq

/-- The kinds of `FreeLabel`. -/
inductive FreeKind
  | free | hpRetire
deriving DecidableEq

/-- The kinds of the labels without pointers to other labels. -/
inductive PlainKind
  | spinloopBlock | faiZNEBlock | lockZNEBlock | helpedCASBlock | confirmationBlock
  | lockNotAcqBlock | lockNotRelBlock | barrierBlock | errorBlock | userBlock
  | joinBlock (childId : ℕ) | readOptBlock (addr : SAddr) | threadKill | fence
  | threadCreate (childId : ℕ) | threadJoin (childId : ℕ)
  | hpProtect | helpingCas | optional | loopBegin | spinStart | faiZNESpinEnd | lockZNESpinEnd
deriving DecidableEq

/-- The data of `MemAccessLabel`. -/
structure MemAccess where
  /-- The address of the access. -/
  addr : SAddr
  /-- Whether the access was coherence-maximal when it was added. -/
  maximal : Bool := true
  /-- The allocation event of the access, if known. -/
  alloc : Option Event := none
deriving DecidableEq

/-- The part of a label that depends on its class. -/
inductive LabelBody
  /-- `ThreadStartLabel` with the position of the corresponding create. -/
  | threadStart (parentCreate : Event)
  /-- `InitLabel`. -/
  | init
  /-- `ThreadFinishLabel` with the join that waits for the thread. -/
  | threadFinish (parentJoin : Option Event)
  /-- `ReadLabel` with the label it reads from. -/
  | read (kind : ReadKind) (access : MemAccess) (rf : Option Event) (ipr : Bool)
  /-- `WriteLabel` with the list of its readers. -/
  | write (kind : WriteKind) (access : MemAccess) (readers : List Event)
  /-- `MallocLabel` with its free and the list of its accesses. -/
  | malloc (allocAddr : SAddr) (allocSize : ℕ) (free : Option Event) (accesses : List Event)
  /-- `FreeLabel` with its allocation. -/
  | free (kind : FreeKind) (freeAddr : SAddr) (alloc : Option Event)
  /-- A label of any other class but `EmptyLabel`. -/
  | plain (kind : PlainKind)
  /-- `EmptyLabel`: a hole. -/
  | empty
deriving DecidableEq

/-- A change of the mutable fields of a label; what is not given stays as it is. -/
structure FieldMap where
  /-- The reads-from pointer of a read. -/
  rf : Option Event → Option Event := id
  /-- The reader list of a write. -/
  readers : List Event → List Event := id
  /-- The allocation pointer of a memory access. -/
  alloc : Option Event → Option Event := id
  /-- The free pointer of an allocation. -/
  free : Option Event → Option Event := id
  /-- The access list of an allocation. -/
  accesses : List Event → List Event := id
  /-- The allocation pointer of a free. -/
  freeAlloc : Option Event → Option Event := id
  /-- The join pointer of a thread's end. -/
  parentJoin : Option Event → Option Event := id
  /-- The maximality flag of a memory access. -/
  maximal : Bool → Bool := id
  /-- The in-place-revisit flag of a read. -/
  ipr : Bool → Bool := id

namespace LabelBody

/-- Changes the mutable fields that the class of the label has. -/
def mapFields (m : FieldMap) : LabelBody → LabelBody
  | threadFinish j => threadFinish (m.parentJoin j)
  | read k a rf ipr =>
    read k { a with alloc := m.alloc a.alloc, maximal := m.maximal a.maximal } (m.rf rf) (m.ipr ipr)
  | write k a rs =>
    write k { a with alloc := m.alloc a.alloc, maximal := m.maximal a.maximal } (m.readers rs)
  | malloc a s f acc => malloc a s (m.free f) (m.accesses acc)
  | free k a al => free k a (m.freeAlloc al)
  | b => b

/-- `isa<ReadLabel>`. -/
def isRead : LabelBody → Bool
  | read .. => true
  | _ => false

/-- `isa<WriteLabel>`. -/
def isWrite : LabelBody → Bool
  | write .. => true
  | _ => false

/-- `isa<InitLabel>`. -/
def isInit : LabelBody → Bool
  | init => true
  | _ => false

/-- `isa<MallocLabel>`. -/
def isMalloc : LabelBody → Bool
  | malloc .. => true
  | _ => false

/-- `isa<FreeLabel>`. -/
def isFree : LabelBody → Bool
  | free .. => true
  | _ => false

/-- `isa<ThreadJoinLabel>`. -/
def isThreadJoin : LabelBody → Bool
  | plain (.threadJoin _) => true
  | _ => false

/-- `isa<ThreadCreateLabel>`. -/
def isThreadCreate : LabelBody → Bool
  | plain (.threadCreate _) => true
  | _ => false

/-- `isa<ThreadFinishLabel>`. -/
def isThreadFinish : LabelBody → Bool
  | threadFinish _ => true
  | _ => false

/-- `isa<BlockLabel>`. -/
def isBlock : LabelBody → Bool
  | plain k =>
    match k with
    | .spinloopBlock | .faiZNEBlock | .lockZNEBlock | .helpedCASBlock | .confirmationBlock
    | .lockNotAcqBlock | .lockNotRelBlock | .barrierBlock | .errorBlock | .userBlock
    | .joinBlock _ | .readOptBlock _ => true
    | _ => false
  | _ => false

/-- `isa<EmptyLabel>`. -/
def isEmpty : LabelBody → Bool
  | empty => true
  | _ => false

/-- `isa<ThreadStartLabel>`; the initializer is one. -/
def isThreadStart : LabelBody → Bool
  | threadStart _ => true
  | init => true
  | _ => false

/-- The label as a `MemAccessLabel`, if it is one. -/
def memAccess : LabelBody → Option MemAccess
  | read _ a _ _ => some a
  | write _ a _ => some a
  | _ => none

/-- `isa<MemAccessLabel>`. -/
def isAccess (b : LabelBody) : Bool := b.memAccess.isSome

/-- `MemAccessLabel::getAddr`. -/
def addr (b : LabelBody) : Option SAddr := b.memAccess.map MemAccess.addr

/-- `ReadLabel::getRf`. -/
def rf : LabelBody → Option Event
  | read _ _ rf _ => rf
  | _ => none

/-- `WriteLabel::readers`. -/
def readers : LabelBody → List Event
  | write _ _ rs => rs
  | _ => []

/-- `MemAccessLabel::getAlloc`. -/
def alloc (b : LabelBody) : Option Event := b.memAccess.bind MemAccess.alloc

/-- `MallocLabel::getFree`. -/
def getFree : LabelBody → Option Event
  | malloc _ _ f _ => f
  | _ => none

/-- `MallocLabel::accesses`. -/
def accesses : LabelBody → List Event
  | malloc _ _ _ acc => acc
  | _ => []

/-- `FreeLabel::getAlloc`. -/
def freeAlloc : LabelBody → Option Event
  | free _ _ al => al
  | _ => none

/-- `ThreadStartLabel::getParentCreate`; the initializer counts as its own. -/
def parentCreate : LabelBody → Option Event
  | threadStart c => some c
  | init => some .init
  | _ => none

/-- `ThreadFinishLabel::getParentJoin`. -/
def parentJoin : LabelBody → Option Event
  | threadFinish j => j
  | _ => none

/-- `isa<TerminatorLabel>`. -/
def isTerminator (b : LabelBody) : Bool :=
  b.isBlock || b.isThreadFinish || decide (b = plain .threadKill)

/-- `isa<UnlockWriteLabel>`. -/
def isUnlockWrite : LabelBody → Bool
  | write .unlockWrite _ _ => true
  | _ => false

/-- `isa<LockCasReadLabel>`. -/
def isLockCasRead : LabelBody → Bool
  | read .lockCasRead _ _ _ => true
  | _ => false

/-- `isa<BWaitReadLabel>`. -/
def isBWaitRead : LabelBody → Bool
  | read .bWaitRead _ _ _ => true
  | _ => false

/-- `ThreadCreateLabel::getChildId`. -/
def createdThread : LabelBody → Option ℕ
  | plain (.threadCreate childId) => some childId
  | _ => none

/-- `ThreadJoinLabel::getChildId`. -/
def joinedThread : LabelBody → Option ℕ
  | plain (.threadJoin childId) => some childId
  | _ => none

section MapFields

variable (m : FieldMap) (b : LabelBody)

@[simp] lemma isRead_mapFields : (b.mapFields m).isRead = b.isRead := by cases b <;> rfl

@[simp] lemma isWrite_mapFields : (b.mapFields m).isWrite = b.isWrite := by cases b <;> rfl

@[simp] lemma isInit_mapFields : (b.mapFields m).isInit = b.isInit := by cases b <;> rfl

@[simp] lemma isMalloc_mapFields : (b.mapFields m).isMalloc = b.isMalloc := by cases b <;> rfl

@[simp] lemma isFree_mapFields : (b.mapFields m).isFree = b.isFree := by cases b <;> rfl

@[simp] lemma isThreadJoin_mapFields : (b.mapFields m).isThreadJoin = b.isThreadJoin := by
  cases b <;> rfl

@[simp] lemma isThreadCreate_mapFields : (b.mapFields m).isThreadCreate = b.isThreadCreate := by
  cases b <;> rfl

@[simp] lemma isThreadFinish_mapFields : (b.mapFields m).isThreadFinish = b.isThreadFinish := by
  cases b <;> rfl

@[simp] lemma isBlock_mapFields : (b.mapFields m).isBlock = b.isBlock := by cases b <;> rfl

@[simp] lemma isEmpty_mapFields : (b.mapFields m).isEmpty = b.isEmpty := by cases b <;> rfl

@[simp] lemma isThreadStart_mapFields : (b.mapFields m).isThreadStart = b.isThreadStart := by
  cases b <;> rfl

@[simp] lemma isAccess_mapFields : (b.mapFields m).isAccess = b.isAccess := by cases b <;> rfl

@[simp] lemma addr_mapFields : (b.mapFields m).addr = b.addr := by cases b <;> rfl

lemma rf_mapFields : (b.mapFields m).rf = if b.isRead then m.rf b.rf else none := by
  cases b <;> rfl

lemma readers_mapFields :
    (b.mapFields m).readers = if b.isWrite then m.readers b.readers else [] := by
  cases b <;> rfl

lemma alloc_mapFields :
    (b.mapFields m).alloc = if b.addr.isSome then m.alloc b.alloc else none := by
  cases b <;> rfl

lemma getFree_mapFields :
    (b.mapFields m).getFree = if b.isMalloc then m.free b.getFree else none := by
  cases b <;> rfl

lemma accesses_mapFields :
    (b.mapFields m).accesses = if b.isMalloc then m.accesses b.accesses else [] := by
  cases b <;> rfl

lemma freeAlloc_mapFields :
    (b.mapFields m).freeAlloc = if b.isFree then m.freeAlloc b.freeAlloc else none := by
  cases b <;> rfl

end MapFields

variable {b : LabelBody}

lemma rf_eq_none (h : b.isRead = false) : b.rf = none := by
  cases b <;> first | rfl | cases h

lemma readers_eq_nil (h : b.isWrite = false) : b.readers = [] := by
  cases b <;> first | rfl | cases h

lemma isRead_of_rf {w : Event} (h : b.rf = some w) : b.isRead = true := by
  cases b <;> first | rfl | cases h

lemma isThreadStart_eq_false (h : b.isWrite = true) : b.isThreadStart = false := by
  cases b <;> first | rfl | cases h

lemma addr_isSome : b.addr.isSome = (b.isRead || b.isWrite) := by cases b <;> rfl

lemma isWrite_of_isRead (h : b.isRead = true) : b.isWrite = false := by
  cases b <;> first | rfl | cases h

/-- Two changes after one another. -/
lemma mapFields_mapFields (m m' : FieldMap) :
    (b.mapFields m).mapFields m' = b.mapFields
      { rf := m'.rf ∘ m.rf, readers := m'.readers ∘ m.readers, alloc := m'.alloc ∘ m.alloc,
        free := m'.free ∘ m.free, accesses := m'.accesses ∘ m.accesses,
        freeAlloc := m'.freeAlloc ∘ m.freeAlloc, parentJoin := m'.parentJoin ∘ m.parentJoin,
        maximal := m'.maximal ∘ m.maximal, ipr := m'.ipr ∘ m.ipr } := by
  cases b <;> rfl

/-- Changes that agree on the fields of a label have the same effect on it. -/
lemma mapFields_congr {m m' : FieldMap} (hrf : m.rf b.rf = m'.rf b.rf)
    (hreaders : b.isWrite → m.readers b.readers = m'.readers b.readers)
    (halloc : m.alloc b.alloc = m'.alloc b.alloc) (hfree : m.free b.getFree = m'.free b.getFree)
    (haccesses : b.isMalloc → m.accesses b.accesses = m'.accesses b.accesses)
    (hfreeAlloc : m.freeAlloc b.freeAlloc = m'.freeAlloc b.freeAlloc)
    (hparentJoin : m.parentJoin b.parentJoin = m'.parentJoin b.parentJoin)
    (hmaximal : m.maximal = m'.maximal) (hipr : m.ipr = m'.ipr) :
    b.mapFields m = b.mapFields m' := by
  cases b <;>
    simp_all [mapFields, rf, readers, alloc, getFree, accesses, freeAlloc, parentJoin, memAccess,
      isWrite, isMalloc]

end LabelBody

/-- `EventLabel`, with the data that the graph operations use. -/
structure EventLabel where
  /-- The position in the graph. -/
  pos : Event
  /-- The stamp; it is assigned when the label is added to a graph. -/
  stamp : Option ℕ := none
  /-- Whether the event may be revisited. -/
  revisitable : Bool := true
  /-- The cached view of the (po ∪ rf)-prefix. -/
  prefixView : Option VectorClock := none
  /-- The data of the label's class. -/
  body : LabelBody
deriving DecidableEq

namespace EventLabel

/-- `EventLabel::getStamp`. -/
def getStamp (lab : EventLabel) : ℕ := lab.stamp.getD 0

/-- Changes the mutable fields of the label's class. -/
def mapFields (m : FieldMap) (lab : EventLabel) : EventLabel :=
  { lab with body := lab.body.mapFields m }

/-- `EventLabel::setStamp`. -/
def setStamp (s : ℕ) (lab : EventLabel) : EventLabel := { lab with stamp := some s }

/-- `EventLabel::setRevisitStatus`. -/
def setRevisitStatus (status : Bool) (lab : EventLabel) : EventLabel :=
  { lab with revisitable := status }

/-- `EventLabel::setPrefixView`. -/
def setPrefixView (v : VectorClock) (lab : EventLabel) : EventLabel :=
  { lab with prefixView := some v }

/-- `ReadLabel::setRfNoCascade`. -/
def setRfNoCascade (rf : Option Event) : EventLabel → EventLabel :=
  mapFields { rf := fun _ => rf }

/-- `WriteLabel::removeReader`. -/
def removeReader (cond : Event → Bool) : EventLabel → EventLabel :=
  mapFields { readers := List.filter fun r => !cond r }

/-- The insertion at the end of `WriteLabel::addReader`. -/
def addReader (r : Event) : EventLabel → EventLabel :=
  mapFields { readers := fun rs => rs ++ [r] }

/-- `MemAccessLabel::setAlloc`. -/
def setAlloc (a : Option Event) : EventLabel → EventLabel := mapFields { alloc := fun _ => a }

/-- `MallocLabel::setFree`. -/
def setFree (d : Option Event) : EventLabel → EventLabel := mapFields { free := fun _ => d }

/-- `MallocLabel::removeAccess`. -/
def removeAccess (cond : Event → Bool) : EventLabel → EventLabel :=
  mapFields { accesses := List.filter fun a => !cond a }

/-- `FreeLabel::setAlloc`. -/
def setFreeAlloc (a : Option Event) : EventLabel → EventLabel :=
  mapFields { freeAlloc := fun _ => a }

/-- `MemAccessLabel::setAddedMax`. -/
def setAddedMax (status : Bool) : EventLabel → EventLabel :=
  mapFields { maximal := fun _ => status }

/-- `ReadLabel::setIPRStatus`. -/
def setIPRStatus (status : Bool) : EventLabel → EventLabel := mapFields { ipr := fun _ => status }

/-- `EventLabel::clone`: a copy constructor, which leaves reader and access lists empty
(`CopyableIList`). -/
def clone : EventLabel → EventLabel :=
  mapFields { readers := fun _ => [], accesses := fun _ => [] }

/-- `InitLabel::create`, as the constructors of the two kinds of graphs complete it. -/
def initLabel (prefixView : VectorClock) : EventLabel :=
  { pos := .init, prefixView := some prefixView, body := .init }

/-- `createHoleLabel`. -/
def createHoleLabel (pos : Event) : EventLabel := { pos := pos, body := .empty }

/-- A label as its constructors make it, for a position where its class belongs: it has no source or
readers yet, it is no initializer, and only begin labels start threads. -/
structure Fresh (lab : EventLabel) : Prop where
  /-- A read does not read from anywhere yet. -/
  rf : lab.body.rf = none
  /-- A write has no readers yet. -/
  readers : lab.body.readers = []
  /-- The initializer is only made by the constructor of a graph. -/
  notInit : lab.body.isInit = false
  /-- The first label of a thread is its begin. -/
  starts : lab.pos.index = 0 → lab.body.isThreadStart

instance : DecidablePred Fresh := fun lab =>
  decidable_of_iff
    (lab.body.rf = none ∧ lab.body.readers = [] ∧ lab.body.isInit = false ∧
      (lab.pos.index = 0 → lab.body.isThreadStart))
    ⟨fun h => ⟨h.1, h.2.1, h.2.2.1, h.2.2.2⟩, fun h => ⟨h.rf, h.readers, h.notInit, h.starts⟩⟩

section MapFields

variable (m : FieldMap) (lab : EventLabel)

@[simp] lemma pos_mapFields : (lab.mapFields m).pos = lab.pos := rfl

@[simp] lemma stamp_mapFields : (lab.mapFields m).stamp = lab.stamp := rfl

@[simp] lemma getStamp_mapFields : (lab.mapFields m).getStamp = lab.getStamp := rfl

@[simp] lemma revisitable_mapFields : (lab.mapFields m).revisitable = lab.revisitable := rfl

@[simp] lemma prefixView_mapFields : (lab.mapFields m).prefixView = lab.prefixView := rfl

@[simp] lemma body_mapFields : (lab.mapFields m).body = lab.body.mapFields m := rfl

end MapFields

end EventLabel

end GenMC
