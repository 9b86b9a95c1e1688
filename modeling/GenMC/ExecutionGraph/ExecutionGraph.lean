import GenMC.Lib.KeyedList
import GenMC.ExecutionGraph.EventLabel

/-!
# Execution graphs

A plain execution graph: the labels of every thread, the coherence order of every tracked location,
the lists of reads that read from the initializer, and the insertion order of the labels.  The
coherence map and the map of initial readers see the same insertions and erasures, so that one
iteration order serves both.

`none` stands for an internal bug report (`BUG_ON`, a failed `at`) or for an access that the C++
code must not perform, such as following a null pointer.  Stamps are 32-bit numbers.
-/

namespace GenMC

/-- The number of stamps. -/
def stampSize : ℕ := 2 ^ 32

/-- `ExecutionGraph`.  The reader lists of the `InitLabel`, of which a graph has exactly one, are
kept in the graph. -/
structure ExecutionGraph where
  /-- The labels of every thread. -/
  events : List (List EventLabel)
  /-- The next available stamp. -/
  timestamp : ℕ
  /-- The coherence order of every tracked location. -/
  coherence : KeyedList SAddr (List Event)
  /-- `InitLabel::initRfs`: the reads of every tracked location that read from the initializer. -/
  initRfs : KeyedList SAddr (List Event)
  /-- The labels in the order in which they were added. -/
  insertionOrder : List Event
  /-- The thread of the recovery routine, or -1. -/
  recoveryTID : ℤ := -1

namespace ExecutionGraph

/-! ## Access to labels -/

/-- `ExecutionGraph::getNumThreads`. -/
def getNumThreads (g : ExecutionGraph) : ℕ := g.events.length

/-- `ExecutionGraph::getThreadSize`. -/
def getThreadSize (g : ExecutionGraph) (t : ℕ) : ℕ := (g.events.getD t []).length

/-- `ExecutionGraph::getEventLabel`. -/
def getEventLabel (g : ExecutionGraph) (e : Event) : Option EventLabel :=
  (g.events.getD e.thread [])[e.index]?

/-- `ExecutionGraph::containsPos`. -/
def containsPos (g : ExecutionGraph) (e : Event) : Bool := (g.getEventLabel e).isSome

/-- Changes the label at a position. -/
def updateLabel (g : ExecutionGraph) (e : Event) (f : EventLabel → EventLabel) : ExecutionGraph :=
  { g with events := g.events.modify e.thread fun thr => thr.modify e.index f }

/-- Whether the position holds a label whose class passes the test. -/
def isa (g : ExecutionGraph) (p : LabelBody → Bool) (e : Event) : Bool :=
  (g.getEventLabel e).any fun lab => p lab.body

/-- The source of the read at a position; `none` also if there is no read. -/
def rfOf (g : ExecutionGraph) (r : Event) : Option Event :=
  (g.getEventLabel r).bind fun lab => lab.body.rf

/-- The address of the memory access at a position. -/
def addrOf (g : ExecutionGraph) (e : Event) : Option SAddr :=
  (g.getEventLabel e).bind fun lab => lab.body.addr

/-- The stamp of the label at a position. -/
def stampOf (g : ExecutionGraph) (e : Event) : ℕ := ((g.getEventLabel e).map (·.getStamp)).getD 0

/-- The coherence order of a location; empty where it is not tracked. -/
def co (g : ExecutionGraph) (a : SAddr) : List Event := (g.coherence.find? a).getD []

/-- The reads of a location that read from the initializer; empty where it is not tracked. -/
def initReaders (g : ExecutionGraph) (a : SAddr) : List Event := (g.initRfs.find? a).getD []

/-- `ExecutionGraph::ExecutionGraph`: the graph that only has the initializer. -/
def new (prefixView : VectorClock) : ExecutionGraph where
  events := [[(EventLabel.initLabel prefixView).setStamp 0]]
  timestamp := 1
  coherence := .empty
  initRfs := .empty
  insertionOrder := [.init]

/-- A new plain graph. -/
def initial : ExecutionGraph := new (.view .empty)

/-! ## Adding and removing labels -/

/-- `ExecutionGraph::nextStamp`. -/
def nextStamp (g : ExecutionGraph) : ℕ × ExecutionGraph :=
  (g.timestamp, { g with timestamp := (g.timestamp + 1) % stampSize })

/-- `ExecutionGraph::resetStamp`. -/
def resetStamp (g : ExecutionGraph) (val : ℕ) : ExecutionGraph := { g with timestamp := val }

/-- `ExecutionGraph::addNewThread`. -/
def addNewThread (g : ExecutionGraph) : ExecutionGraph := { g with events := g.events ++ [[]] }

/-- `ExecutionGraph::trackCoherenceAtLoc`. -/
def trackCoherenceAtLoc (g : ExecutionGraph) (a : SAddr) : Option ExecutionGraph :=
  if g.isa LabelBody.isInit .init then
    some { g with coherence := g.coherence.track a [], initRfs := g.initRfs.track a [] }
  else none

/-- The first step of `addLabelToGraph`: a label without a stamp gets the next one. -/
def assignStamp (g : ExecutionGraph) (lab : EventLabel) : EventLabel × ExecutionGraph :=
  match lab.stamp with
  | some _ => (lab, g)
  | none => (lab.setStamp g.nextStamp.1, g.nextStamp.2)

/-- The last step of `addLabelToGraph`: the label is put at its position, where it may replace an
empty label. -/
def placeLabel (g : ExecutionGraph) (lab : EventLabel) : Option ExecutionGraph :=
  if g.getNumThreads ≤ lab.pos.thread then none
  else
    match g.getEventLabel lab.pos with
    | some eLab =>
      if eLab.body.isEmpty then
        some { g.updateLabel lab.pos fun _ => lab with
          insertionOrder := g.insertionOrder.erase lab.pos ++ [lab.pos] }
      else none
    | none =>
      if lab.pos.index = g.getThreadSize lab.pos.thread then
        some { g with
          events := g.events.modify lab.pos.thread fun thr => thr ++ [lab]
          insertionOrder := g.insertionOrder ++ [lab.pos] }
      else none

/-- `ExecutionGraph::addLabelToGraph`. -/
def addLabelToGraph (g : ExecutionGraph) (lab : EventLabel) : Option ExecutionGraph := do
  let (lab, g) := g.assignStamp lab
  let g ← match lab.body.addr with
    | some a => g.trackCoherenceAtLoc a
    | none => some g
  g.placeLabel lab

/-- The position of the last label of a thread (`getLastThreadLabel`). -/
def lastPos (g : ExecutionGraph) (t : ℕ) : Event := ⟨t, g.getThreadSize t - 1⟩

/-- `removeLast` on a read: it leaves the list of the write it reads from. -/
def unlinkRead (g : ExecutionGraph) (lab : EventLabel) : ExecutionGraph :=
  match lab.body.rf with
  | some w =>
    if g.isa LabelBody.isWrite w then
      g.updateLabel w (EventLabel.removeReader fun r => decide (r = lab.pos))
    else g
  | none => g

/-- `removeLast` on a write: its readers lose their source. -/
def unlinkWrite (g : ExecutionGraph) (lab : EventLabel) : ExecutionGraph :=
  lab.body.readers.foldl (fun g r => g.updateLabel r (EventLabel.setRfNoCascade none)) g

/-- `removeLast` on a memory access: it leaves the access list of its allocation. -/
def unlinkAccess (g : ExecutionGraph) (lab : EventLabel) : ExecutionGraph :=
  match lab.body.alloc with
  | some a => g.updateLabel a (EventLabel.removeAccess fun m => decide (m = lab.pos))
  | none => g

/-- `removeLast` on a free: its allocation, which must be known, is not freed any more. -/
def unlinkFree (g : ExecutionGraph) (lab : EventLabel) : Option ExecutionGraph :=
  if lab.body.isFree then
    lab.body.freeAlloc.map fun a => g.updateLabel a (EventLabel.setFree none)
  else some g

/-- `removeLast` on an allocation: its free loses it. -/
def unlinkMalloc (g : ExecutionGraph) (lab : EventLabel) : ExecutionGraph :=
  match lab.body.getFree with
  | some d => g.updateLabel d (EventLabel.setFreeAlloc none)
  | none => g

/-- The pointers to the last label of a thread that `removeLast` takes back. -/
def unlinkLast (g : ExecutionGraph) (lab : EventLabel) : Option ExecutionGraph :=
  ((((g.unlinkRead lab).unlinkWrite lab).unlinkAccess lab).unlinkFree lab).map
    fun g => g.unlinkMalloc lab

/-- `ExecutionGraph::removeLast`. -/
def removeLast (g : ExecutionGraph) (t : ℕ) : Option ExecutionGraph := do
  let lab ← g.getEventLabel (g.lastPos t)
  let g ← g.unlinkLast lab
  return { g with
    events := g.events.modify lab.pos.thread fun thr => thr.take lab.pos.index
    insertionOrder := g.insertionOrder.erase lab.pos }

/-! ## Reads-from and coherence -/

/-- `removeReader` on the label that a read leaves; it is a bug if that is neither a write nor the
initializer. -/
def dropReader (g : ExecutionGraph) (w r : Event) (a : SAddr) : Option ExecutionGraph :=
  if g.isa LabelBody.isWrite w then
    some (g.updateLabel w (EventLabel.removeReader fun r' => decide (r' = r)))
  else if g.isa LabelBody.isInit w then
    some { g with initRfs :=
      (g.initRfs.track a []).modify a (List.filter fun r' => !decide (r' = r)) }
  else none

/-- `addReader` on the label that a read turns to; the read must not be listed yet. -/
def pushReader (g : ExecutionGraph) (w r : Event) (a : SAddr) : Option ExecutionGraph := do
  let wLab ← g.getEventLabel w
  if wLab.body.isWrite then
    if r ∈ wLab.body.readers then none
    else return g.updateLabel w (EventLabel.addReader r)
  else if wLab.body.isInit then
    if r ∈ g.initReaders a then none
    else return { g with initRfs := (g.initRfs.track a []).modify a fun rs => rs ++ [r] }
  else none

/-- The part of `setRf` that deals with the old source; it may have left the graph. -/
def leaveSource (g : ExecutionGraph) (old : Option Event) (r : Event) (a : SAddr) :
    Option ExecutionGraph :=
  match old with
  | some w => if g.containsPos w then g.dropReader w r a else some g
  | none => some g

/-- The part of `setRf` that deals with the new source. -/
def joinSource (g : ExecutionGraph) (rf : Option Event) (r : Event) (a : SAddr) :
    Option ExecutionGraph :=
  match rf with
  | some w => g.pushReader w r a
  | none => some g

/-- `ReadLabel::setRf`. -/
def setRf (g : ExecutionGraph) (r : Event) (rf : Option Event) : Option ExecutionGraph := do
  let rLab ← g.getEventLabel r
  if rLab.body.isRead then do
    let a ← rLab.body.addr
    let g ← (g.updateLabel r (EventLabel.setRfNoCascade rf)).leaveSource rLab.body.rf r a
    g.joinSource rf r a
  else none

/-- Inserts into an intrusive list after an element that must be in it. -/
def insertAfter (p w : Event) : List Event → Option (List Event)
  | [] => none
  | x :: l => if x = p then some (x :: w :: l) else (insertAfter p w l).map (x :: ·)

/-- Inserts into an intrusive list before an element that must be in it. -/
def insertBefore (s w : Event) : List Event → Option (List Event)
  | [] => none
  | x :: l => if x = s then some (w :: x :: l) else (insertBefore s w l).map (x :: ·)

/-- Changes the coherence order of the location of a write; `coherence[addr]` tracks it. -/
def modifyCO (g : ExecutionGraph) (w : Event) (f : List Event → Option (List Event)) :
    Option ExecutionGraph := do
  let wLab ← g.getEventLabel w
  if wLab.body.isWrite then
    let a ← wLab.body.addr
    let ws ← f (g.co a)
    return { g with coherence := (g.coherence.track a []).modify a fun _ => ws }
  else none

/-- `ExecutionGraph::addStoreToCOBefore`. -/
def addStoreToCOBefore (g : ExecutionGraph) (w succ : Event) : Option ExecutionGraph :=
  g.modifyCO w (insertBefore succ w)

/-- `ExecutionGraph::addStoreToCOAfter`: a predecessor that is not a write stands for the
initializer. -/
def addStoreToCOAfter (g : ExecutionGraph) (w pred : Event) : Option ExecutionGraph := do
  let predLab ← g.getEventLabel pred
  g.modifyCO w fun ws => if predLab.body.isWrite then insertAfter pred w ws else some (w :: ws)

/-- `ExecutionGraph::removeStoreFromCO`. -/
def removeStoreFromCO (g : ExecutionGraph) (w : Event) : Option ExecutionGraph :=
  g.modifyCO w fun ws => some (ws.erase w)

/-- `ExecutionGraph::moveStoreCOBefore`. -/
def moveStoreCOBefore (g : ExecutionGraph) (w succ : Event) : Option ExecutionGraph := do
  let g ← g.removeStoreFromCO w
  g.addStoreToCOBefore w succ

/-- `ExecutionGraph::moveStoreCOAfter`. -/
def moveStoreCOAfter (g : ExecutionGraph) (w pred : Event) : Option ExecutionGraph := do
  let g ← g.removeStoreFromCO w
  g.addStoreToCOAfter w pred

/-- `ExecutionGraph::co_max`; the location must be tracked. -/
def coMax (g : ExecutionGraph) (a : SAddr) : Option Event :=
  (g.coherence.find? a).map fun ws => ws.getLast?.getD .init

/-! ## Cutting -/

/-- The largest index of a thread whose stamp is at most `st`. -/
def lastUpTo (thr : List EventLabel) (st : ℕ) : Option ℕ :=
  (List.range thr.length).reverse.find? fun j =>
    thr[j]?.any fun lab => decide (lab.getStamp ≤ st)

/-- `ExecutionGraph::getViewFromStamp`. -/
def getViewFromStamp (g : ExecutionGraph) (st : ℕ) : View :=
  (List.range g.getNumThreads).foldl
    (fun v i =>
      match lastUpTo (g.events.getD i []) st with
      | some j => v.setMax ⟨i, j⟩
      | none => v) .empty

/-- The locations that `removeAfter` keeps: those of the accesses up to the maxima of the clock. -/
def keptLocs (g : ExecutionGraph) (preds : VectorClock) : Option (List SAddr) :=
  (preds.positions.mapM g.getEventLabel).map (List.filterMap fun lab => lab.body.addr)

/-- `ExecutionGraph::removeAfter`. -/
def removeAfter (g : ExecutionGraph) (preds : VectorClock) : Option ExecutionGraph :=
  (g.keptLocs preds).map fun keep =>
    { g with
      coherence := (g.coherence.filterKeys fun a => decide (a ∈ keep)).mapValues
        fun _ ws => ws.filter preds.contains
      initRfs := (g.initRfs.eraseAlong (fun a => decide (a ∈ keep)) g.coherence.keys).mapValues
        fun a rs => if a ∈ g.coherence.keys ∧ a ∈ keep then rs.filter preds.contains else rs }

/-- The links to labels that are cut, taken back. -/
def cutMap (preds : VectorClock) : FieldMap where
  rf := Option.filter preds.contains
  readers := List.filter preds.contains
  alloc := Option.filter preds.contains
  free := Option.filter preds.contains
  accesses := List.filter preds.contains
  freeAlloc := Option.filter preds.contains
  parentJoin := Option.filter preds.contains

/-- The links of a kept label to labels that are cut, taken back. -/
def cutPointers (preds : VectorClock) : EventLabel → EventLabel :=
  EventLabel.mapFields (cutMap preds)

/-- Erases the ends of the threads beyond the maxima of a clock; the first labels stay, so that
there must be one in every thread. -/
def eraseTails (g : ExecutionGraph) (preds : VectorClock) : Option ExecutionGraph :=
  if g.events.any List.isEmpty then none
  else some { g with events := g.events.mapIdx fun i thr => thr.take (preds.getMax i + 1) }

/-- The part of `cutToStamp` that restricts the insertion order. -/
def cutInsertionOrder (g : ExecutionGraph) (preds : VectorClock) : ExecutionGraph :=
  { g with insertionOrder := g.insertionOrder.filter preds.contains }

/-- The part of `cutToStamp` that visits the labels up to the maxima of the clock. -/
def cutLabels (g : ExecutionGraph) (preds : VectorClock) : ExecutionGraph :=
  preds.positions.foldl (fun g e => g.updateLabel e (cutPointers preds)) g

/-- `ExecutionGraph::cutToStamp`. -/
def cutToStamp (g : ExecutionGraph) (st : ℕ) : Option ExecutionGraph := do
  let preds := VectorClock.view (g.getViewFromStamp st)
  let g ← g.removeAfter preds
  ((g.cutInsertionOrder preds).cutLabels preds).eraseTails preds

/-- The loop body of `compressStampsAfter`. -/
def compressLabel (st : ℕ) (g : ExecutionGraph) (e : Event) : ExecutionGraph :=
  if (g.getEventLabel e).any fun lab => decide (st < lab.getStamp) then
    g.nextStamp.2.updateLabel e (EventLabel.setStamp g.nextStamp.1)
  else g

/-- `ExecutionGraph::compressStampsAfter`. -/
def compressStampsAfter (g : ExecutionGraph) (st : ℕ) : ExecutionGraph :=
  g.insertionOrder.foldl (compressLabel st) (g.resetStamp ((st + 1) % stampSize))

end ExecutionGraph

end GenMC
