import GenMC.ExecutionGraph.GraphUtils
import GenMC.ExecutionGraph.LinkedSteps
import GenMC.Verification.RevisitCopy

/-!
# The calls of the driver

What the driver does to plain execution graphs: the handlers that add labels and compute their
prefix views, the restriction to a stamp, and the revisits.  The graph of a backward revisit is a
copy; the original stays below it on the stack of executions.

Consistency checks, the worklist and the interpreter only choose which call comes next, so that a
run is any sequence of calls.  `none` stands for an internal bug report or for an access that the
C++ code must not perform.
-/

namespace GenMC

/-- `MallocLabel::addAccess`, at the end of the list. -/
def EventLabel.addAccess (m : Event) : EventLabel → EventLabel :=
  mapFields { accesses := fun acc => acc ++ [m] }

/-- `ThreadFinishLabel::setParentJoin`. -/
def EventLabel.setParentJoin (j : Option Event) : EventLabel → EventLabel :=
  mapFields { parentJoin := fun _ => j }

namespace ExecutionGraph

/-! ## Prefix views -/

/-- The cached prefix view of the label at a position. -/
def viewOf (g : ExecutionGraph) (e : Event) : Option VectorClock :=
  (g.getEventLabel e).bind fun lab => lab.prefixView

/-- Adds the prefix view of a label, which must have been computed, to a view. -/
def updatePrefix (g : ExecutionGraph) (e : Event) (v : View) : Option View :=
  (g.viewOf e).bind (VectorClock.updateView v)

/-- `calcPPoRfBefore`, as all checkers of plain graphs define it: the prefix of a label consists of
those of the label before it and, where this is a read, the first label of a thread or a join, of
those of its source, of the create and of the last label of the joined thread. -/
def calcPPoRfBefore (g : ExecutionGraph) (pos : Event) : Option View := do
  let pporf := View.empty.updateIdx pos
  if pos.index = 0 then return pporf
  let prev : Event := ⟨pos.thread, pos.index - 1⟩
  let pLab ← g.getEventLabel prev
  let pporf ← g.updatePrefix prev pporf
  let pporf ← (if pLab.body.isRead then pLab.body.rf.bind (g.updatePrefix · pporf)
    else some pporf)
  let pporf ← (match pLab.body.parentCreate with
    | some c => g.updatePrefix c pporf
    | none => some pporf)
  match pLab.body.joinedThread with
  | some t => g.updatePrefix (g.lastPos t) pporf
  | none => some pporf

/-- `getPredsView`. -/
def getPredsView (g : ExecutionGraph) (e : Event) : Option View :=
  (g.getEventLabel e).map fun lab => g.getViewFromStamp lab.getStamp

/-- `getRevisitView` for a plain graph: what was there before the read, and the prefix of the
write. -/
def getRevisitView (g : ExecutionGraph) (r w : Event) : Option View := do
  let preds ← g.getPredsView r
  g.updatePrefix w preds

/-! ## Adding labels -/

/-- `findAllocatingLabel`: the first allocation of a dynamic address. -/
def findAllocatingLabel (g : ExecutionGraph) (addr : SAddr) : Option Event :=
  if addr.isStatic then none
  else g.insertionOrder.find? fun e => g.isa (LabelBody.mallocContains addr) e

/-- `addAlloc`; no access may be listed twice. -/
def addAlloc (g : ExecutionGraph) (aLab : Option Event) (m : Event) : Option ExecutionGraph :=
  match aLab with
  | none => some g
  | some a =>
    if m ∈ g.accessesOf a then none
    else some ((g.updateLabel m (EventLabel.setAlloc (some a))).updateLabel a
      (EventLabel.addAccess m))

/-- `GenMCDriver::addLabelToGraph`: the label with its prefix view and its allocation; the update of
the prefixes of symmetric threads is left out. -/
def addLabelWithViews (g : ExecutionGraph) (lab : EventLabel) : Option ExecutionGraph := do
  let g ← g.addLabelToGraph lab
  let v ← g.calcPPoRfBefore lab.pos
  let g := g.updateLabel lab.pos (EventLabel.setPrefixView (.view v))
  match lab.body.addr with
  | some addr => g.addAlloc (g.findAllocatingLabel addr) lab.pos
  | none => return g

/-- `handleLoad` with the store that the read gets. -/
def handleLoad (g : ExecutionGraph) (lab : EventLabel) (rf : Event) : Option ExecutionGraph := do
  let g ← g.addLabelWithViews lab
  g.setRf lab.pos (some rf)

/-- `handleStore` with the place of the write in coherence; also the write of
`completeRevisitedRMW`, behind the source of its read. -/
def handleStore (g : ExecutionGraph) (lab : EventLabel) (pred : Event) :
    Option ExecutionGraph := do
  let g ← g.addLabelWithViews lab
  g.addStoreToCOAfter lab.pos pred

/-- The thread that `handleThreadCreate` finds: the one that the create has started before, or a
new one. -/
def threadCreatedBy (g : ExecutionGraph) (pos : Event) : ℕ :=
  ((List.range g.getNumThreads).find? fun t =>
    (g.getEventLabel ⟨t, 0⟩).any fun lab => decide (lab.body.parentCreate = some pos)).getD
      g.getNumThreads

/-- `handleThreadCreate`: a thread that exists must be empty but for its begin, which is
replaced. -/
def handleThreadCreate (g : ExecutionGraph) (pos : Event) : Option ExecutionGraph := do
  let cid := g.threadCreatedBy pos
  let g ← g.addLabelWithViews { pos := pos, body := .plain (.threadCreate cid) }
  let g ← (if cid = g.getNumThreads then some g.addNewThread
    else if g.getThreadSize cid = 1 then g.removeLast cid
    else none)
  g.addLabelWithViews { pos := ⟨cid, 0⟩, body := .threadStart pos }

/-- `handleThreadJoin` where the joined thread has finished. -/
def handleThreadJoin (g : ExecutionGraph) (pos : Event) (childId : ℕ) : Option ExecutionGraph := do
  let g ← g.addLabelWithViews { pos := pos, body := .plain (.threadJoin childId) }
  if g.isa LabelBody.isThreadFinish (g.lastPos childId) then
    return g.updateLabel (g.lastPos childId) (EventLabel.setParentJoin (some pos))
  else none

/-- `handleFree`; the allocation must be known. -/
def handleFree (g : ExecutionGraph) (pos : Event) (kind : FreeKind) (freeAddr : SAddr) :
    Option ExecutionGraph := do
  let alloc ← g.findAllocatingLabel freeAddr
  let g ← g.addLabelWithViews { pos := pos, body := .free kind freeAddr none }
  return (g.updateLabel pos (EventLabel.setFreeAlloc (some alloc))).updateLabel alloc
    (EventLabel.setFree (some pos))

/-- `unblockThread`. -/
def unblockThread (g : ExecutionGraph) (t : ℕ) : Option ExecutionGraph :=
  if g.isa LabelBody.isBlock (g.lastPos t) then g.removeLast t else none

/-- `blockThread`: the block label is put behind the last label of its thread, or takes the place of
the last label; it gets no view.  `handleBlock` does this twice. -/
def blockThread (g : ExecutionGraph) (bLab : EventLabel) : Option ExecutionGraph := do
  let g ← (if bLab.pos = g.lastPos bLab.pos.thread then g.removeLast bLab.pos.thread else some g)
  g.addLabelToGraph bLab

/-- The block label of `removeCASReadIfBlocks`. -/
def readOptBlock (r : Event) (addr : SAddr) : EventLabel :=
  { pos := r, body := .plain (.readOptBlock addr) }

/-- `handleLoad` of a CAS that blocks: `removeCASReadIfBlocks` puts a block label in its place. -/
def handleBlockedLoad (g : ExecutionGraph) (lab : EventLabel) : Option ExecutionGraph := do
  let g ← g.addLabelWithViews lab
  let addr ← lab.body.addr
  g.blockThread (readOptBlock lab.pos addr)

/-! ## Restricting and revisiting -/

/-- `repairRead`. -/
def repairRead (g : ExecutionGraph) (r : Event) : Option ExecutionGraph := do
  let addr ← g.addrOf r
  let maxLab ← g.coMax addr
  let g ← g.setRf r (some maxLab)
  let g := g.updateLabel r (EventLabel.setAddedMax true)
  return g.updateLabel r (EventLabel.setIPRStatus (decide (g.stampOf r < g.stampOf maxLab)))

/-- The loop body of `repairDanglingReads`. -/
def repairLast (g : ExecutionGraph) (t : ℕ) : Option ExecutionGraph := do
  let lab ← g.getEventLabel (g.lastPos t)
  if lab.body.isRead ∧ lab.body.rf = none then g.repairRead (g.lastPos t) else return g

/-- `repairDanglingReads`: it looks at the last label of every thread. -/
def repairDanglingReads (g : ExecutionGraph) : Option ExecutionGraph :=
  (List.range g.getNumThreads).foldlM repairLast g

/-- The graph that `restrictGraph` repairs. -/
def cutAndCompress (g : ExecutionGraph) (stamp : ℕ) : Option ExecutionGraph :=
  (g.cutToStamp stamp).map fun g => g.compressStampsAfter stamp

/-- `restrictGraph`. -/
def restrictGraph (g : ExecutionGraph) (stamp : ℕ) : Option ExecutionGraph :=
  (g.cutAndCompress stamp).bind repairDanglingReads

/-- `revisitRead` up to the labels that it adds by other calls; a forward revisit knows whether the
store is maximal. -/
def revisitRead (g : ExecutionGraph) (r rev : Event) (isMaximal : Option Bool) :
    Option ExecutionGraph := do
  let g ← g.setRf r (some rev)
  let addr ← g.addrOf r
  let maxLab ← g.coMax addr
  let g := g.updateLabel r (EventLabel.setAddedMax (isMaximal.getD (decide (rev = maxLab))))
  return g.updateLabel r (EventLabel.setIPRStatus false)

/-- The restriction before a revisit of a label, to the label's stamp. -/
def restrictTo (g : ExecutionGraph) (e : Event) : Option ExecutionGraph :=
  (g.getEventLabel e).bind fun lab => g.restrictGraph lab.getStamp

/-- A `ReadForwardRevisit`. -/
def revisitReadForward (g : ExecutionGraph) (r rev : Event) (isMaximal : Bool) :
    Option ExecutionGraph := do
  let g ← g.restrictTo r
  g.revisitRead r rev (some isMaximal)

/-- A `WriteForwardRevisit`. -/
def revisitWrite (g : ExecutionGraph) (w pred : Event) : Option ExecutionGraph := do
  let g ← g.restrictTo w
  let g ← g.moveStoreCOAfter w pred
  return g.updateLabel w (EventLabel.setAddedMax false)

/-- `revisitInPlace`, up to the write that it may add: the read may be blocked. -/
def revisitInPlace (g : ExecutionGraph) (r w : Event) : Option ExecutionGraph := do
  let g ← (if g.containsPos r.next then g.removeLast r.thread else some g)
  let g ← g.setRf r (some w)
  let g := g.updateLabel r (EventLabel.setAddedMax true)
  return g.updateLabel r (EventLabel.setIPRStatus true)

/-- The in-place revisit of `tryOptimizeBarrierRevisits`: the last read of a thread that is blocked
at a barrier makes room for a new one. -/
def revisitBarrier (g : ExecutionGraph) (rLab : EventLabel) (w : Event) :
    Option ExecutionGraph := do
  let g ← g.unblockThread rLab.pos.thread
  let g ← g.removeLast rLab.pos.thread
  let g ← g.addLabelWithViews rLab
  let g ← g.setRf rLab.pos (some w)
  let addr ← rLab.body.addr
  let maxLab ← g.coMax addr
  return g.updateLabel rLab.pos (EventLabel.setAddedMax (decide (w = maxLab)))

/-- The copy that a backward revisit of `r` by `w` makes. -/
def copyForRevisit (g : ExecutionGraph) (r w : Event) : Option ExecutionGraph := do
  let v ← g.getRevisitView r w
  let prefixView ← g.viewOf w
  copyGraph false (fun _ => prefixView) g { pos := r, rev := w } (.view v)

/-- `backwardRevisit`: the graph that is pushed. -/
def backwardRevisit (g : ExecutionGraph) (r w : Event) : Option ExecutionGraph := do
  let og ← g.copyForRevisit r w
  let og ← og.repairDanglingReads
  og.revisitRead r w none

end ExecutionGraph

/-! ## Runs -/

/-- A call of the driver. -/
inductive DriverCall
  /-- The handlers of the other labels, which only add them. -/
  | addLabel (lab : EventLabel)
  | handleLoad (lab : EventLabel) (rf : Event)
  | handleBlockedLoad (lab : EventLabel)
  | handleStore (lab : EventLabel) (pred : Event)
  | handleThreadCreate (pos : Event)
  | handleThreadJoin (pos : Event) (childId : ℕ)
  | handleFree (pos : Event) (kind : FreeKind) (freeAddr : SAddr)
  | blockThread (bLab : EventLabel)
  | unblockThread (t : ℕ)
  /-- The restriction for a revisit that leaves the links alone. -/
  | restrictGraph (stamp : ℕ)
  | revisitRead (r rev : Event) (isMaximal : Bool)
  | revisitWrite (w pred : Event)
  | revisitInPlace (r w : Event)
  | revisitBarrier (rLab : EventLabel) (w : Event)
  | backwardRevisit (r w : Event)
  | popExecution

namespace DriverCall

open ExecutionGraph

/-- The effect of a call on the current graph, if it does not change the stack. -/
def onGraph (g : ExecutionGraph) : DriverCall → Option ExecutionGraph
  | addLabel lab => g.addLabelWithViews lab
  | handleLoad lab rf => g.handleLoad lab rf
  | handleBlockedLoad lab => g.handleBlockedLoad lab
  | handleStore lab pred => g.handleStore lab pred
  | handleThreadCreate pos => g.handleThreadCreate pos
  | handleThreadJoin pos childId => g.handleThreadJoin pos childId
  | handleFree pos kind freeAddr => g.handleFree pos kind freeAddr
  | blockThread bLab => g.blockThread bLab
  | unblockThread t => g.unblockThread t
  | restrictGraph stamp => g.restrictGraph stamp
  | revisitRead r rev isMaximal => g.revisitReadForward r rev isMaximal
  | revisitWrite w pred => g.revisitWrite w pred
  | revisitInPlace r w => g.revisitInPlace r w
  | revisitBarrier rLab w => g.revisitBarrier rLab w
  | backwardRevisit .. | popExecution => none

/-- The effect of a call on the stack of executions, the current one first. -/
def apply : List ExecutionGraph → DriverCall → Option (List ExecutionGraph)
  | [], _ => none
  | g :: execs, backwardRevisit r w => do
    let g ← g.restrictTo w
    let og ← g.backwardRevisit r w
    return og :: g :: execs
  | _ :: execs, popExecution => some execs
  | g :: execs, call => (call.onGraph g).map (· :: execs)

/-- There are stamps left for the labels of a call, which is what "in stamp order" rests on. -/
def HasRoom (g : ExecutionGraph) : Prop := g.timestamp + 2 < stampSize

instance : DecidablePred HasRoom := fun _ => inferInstanceAs (Decidable (_ < _))

/-- A thread that the interpreter runs: it has not ended and is not blocked, and the label that
created it is there (`isSchedulable`, `handleExecutionStart`). -/
structure Scheduled (g : ExecutionGraph) (t : ℕ) : Prop where
  /-- The last label does not end the thread. -/
  running : g.isa LabelBody.isTerminator (g.lastPos t) = false
  /-- A thread that only has its begin has been created. -/
  created : ∀ lab, g.getEventLabel (g.lastPos t) = some lab → ∀ c, lab.body.parentCreate = some c →
    g.isa LabelBody.isThreadCreate c ∨ g.isa LabelBody.isInit c

instance (g : ExecutionGraph) : DecidablePred (Scheduled g) := fun t =>
  decidable_of_iff (g.isa LabelBody.isTerminator (g.lastPos t) = false ∧
      ∀ lab ∈ g.getEventLabel (g.lastPos t), ∀ c ∈ lab.body.parentCreate,
        g.isa LabelBody.isThreadCreate c ∨ g.isa LabelBody.isInit c)
    ⟨fun h => ⟨h.1, h.2⟩, fun h => ⟨h.running, h.created⟩⟩

/-- A label of a handler: it is new, and the next one of a thread that runs. -/
structure AddsNext (g : ExecutionGraph) (lab : EventLabel) : Prop where
  /-- The label is new. -/
  new : New lab
  /-- It comes behind the last one of its thread. -/
  index : lab.pos.index = g.getThreadSize lab.pos.thread
  /-- The thread runs. -/
  scheduled : Scheduled g lab.pos.thread

instance (g : ExecutionGraph) : DecidablePred (AddsNext g) := fun lab =>
  decidable_of_iff (New lab ∧ lab.pos.index = g.getThreadSize lab.pos.thread ∧
      Scheduled g lab.pos.thread)
    ⟨fun h => ⟨h.1, h.2.1, h.2.2⟩, fun h => ⟨h.new, h.index, h.scheduled⟩⟩

/-- A read that can be taken back. -/
def TakenBack (g : ExecutionGraph) (r : Event) : Prop :=
  g.isa LabelBody.isRead r ∧ g.rfOf r ≠ some .init

instance (g : ExecutionGraph) : DecidablePred (TakenBack g) := fun _ =>
  inferInstanceAs (Decidable (_ ∧ _))

/-- The calls that the driver makes. -/
def AdmissibleFor (g : ExecutionGraph) : DriverCall → Prop
  | addLabel lab => HasRoom g ∧ AddsNext g lab ∧ lab.body.addr = none ∧
      lab.body.isBlock = false ∧ lab.body.isThreadJoin = false
  | handleLoad lab _ | handleBlockedLoad lab => HasRoom g ∧ AddsNext g lab ∧ lab.body.isRead
  | handleStore lab _ => HasRoom g ∧ AddsNext g lab ∧ lab.body.isWrite
  | handleThreadCreate pos | handleThreadJoin pos _ | handleFree pos .. =>
    HasRoom g ∧ pos.index = g.getThreadSize pos.thread ∧ pos.index ≠ 0 ∧ Scheduled g pos.thread
  | blockThread bLab => HasRoom g ∧ New bLab ∧ bLab.body.isBlock ∧
      (bLab.pos.index = g.getThreadSize bLab.pos.thread ∧
          g.isa LabelBody.isTerminator (g.lastPos bLab.pos.thread) = false ∨
        bLab.pos = g.lastPos bLab.pos.thread ∧
          (g.isa LabelBody.isBlock bLab.pos ∨ TakenBack g bLab.pos))
  | restrictGraph stamp => stamp + 1 < stampSize
  | revisitInPlace r _ => r.index + 1 = g.getThreadSize r.thread ∨
      r.next = g.lastPos r.thread ∧ g.isa LabelBody.isBlock r.next
  | revisitBarrier rLab _ => HasRoom g ∧ New rLab ∧ rLab.body.isRead ∧
      rLab.pos.next = g.lastPos rLab.pos.thread ∧ TakenBack g rLab.pos ∧
      g.isa LabelBody.isWrite ⟨rLab.pos.thread, rLab.pos.index - 1⟩
  | backwardRevisit r w => g.isa LabelBody.isRead r ∧ g.isa LabelBody.isWrite w ∧
      g.stampOf r < g.stampOf w ∧ ∀ v, g.viewOf w = some v → v.contains r = false
  | _ => True

instance (g : ExecutionGraph) : DecidablePred (AdmissibleFor g) := fun call => by
  cases call with
  | backwardRevisit r w =>
    exact inferInstanceAs (Decidable (g.isa LabelBody.isRead r ∧ g.isa LabelBody.isWrite w ∧
      g.stampOf r < g.stampOf w ∧ ∀ v ∈ g.viewOf w, v.contains r = false))
  | _ => unfold AdmissibleFor; infer_instance

/-- A call that the driver makes with the current graph. -/
def Admissible (execs : List ExecutionGraph) (call : DriverCall) : Prop :=
  ∀ g ∈ execs.head?, call.AdmissibleFor g

instance (execs : List ExecutionGraph) : DecidablePred (Admissible execs) := fun _ =>
  inferInstanceAs (Decidable (∀ _ ∈ _, _))

end DriverCall

end GenMC
