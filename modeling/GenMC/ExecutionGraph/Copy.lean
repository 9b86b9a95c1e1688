import GenMC.ExecutionGraph.ExecutionGraph

/-!
# Copying graphs

`copyGraphUpTo` copies the labels that a vector clock contains into a new graph and then rebuilds
every structure that points to labels: the pointers and lists inside the labels, the insertion
order, the coherence order and the lists of initial readers.  Each of its loops is a definition of
its own.
-/

namespace GenMC

namespace ExecutionGraph

variable (g : ExecutionGraph) (v : VectorClock)

/-- The copy of one label; a position that is not contained becomes a hole.  A cloned label has
empty lists, and adding it has tracked its location. -/
def copyLabel (other : ExecutionGraph) (e : Event) : Option ExecutionGraph :=
  if e.index ≠ 0 ∧ v.contains e = false then
    other.addLabelToGraph (EventLabel.createHoleLabel e)
  else do
    let lab ← g.getEventLabel e
    other.addLabelToGraph lab.clone

/-- The copy of one thread; the initializer is skipped. -/
def copyThread (other : ExecutionGraph) (i : ℕ) : Option ExecutionGraph := do
  let other ← if i = 0 then some other else g.copyLabel v other ⟨i, 0⟩
  (List.range (v.getMax i)).foldlM (fun other j => g.copyLabel v other ⟨i, j + 1⟩) other

/-- The first part of `copyGraphUpTo`: the labels of all threads. -/
def copyThreads (other : ExecutionGraph) : Option ExecutionGraph :=
  (List.range g.getNumThreads).foldlM (g.copyThread v)
    { other with
      timestamp := g.timestamp
      recoveryTID := g.recoveryTID
      events := (other.events ++ List.replicate g.getNumThreads []).take g.getNumThreads }

/-- The insertion order of the copy: the copies of the labels up to the maxima of the clock. -/
def copyInsertionOrder (other : ExecutionGraph) : Option ExecutionGraph :=
  let order := g.insertionOrder.filter fun e =>
    v.contains e || decide (e.index ≤ v.getMax e.thread)
  if order.all other.containsPos then some { other with insertionOrder := order } else none

/-- A pointer to the label at the same position of the copy, null if that has another class. -/
def retarget (other : ExecutionGraph) (p : LabelBody → Bool) (e : Event) : Option (Option Event) :=
  (other.getEventLabel e).map fun lab => if p lab.body then some lab.pos else none

/-- A pointer that is kept if the clock contains its target. -/
def retargetContained (other : ExecutionGraph) (p : LabelBody → Bool) :
    Option Event → Option (Option Event)
  | none => some none
  | some e => if v.contains e then other.retarget p e else some none

/-- The list of the copies of the listed labels that the clock contains; no label may be added
twice. -/
def relinkList (other : ExecutionGraph) (p : LabelBody → Bool) (l : List Event) :
    Option (List Event) :=
  (l.filter v.contains).foldlM
    (fun acc e => do
      let lab ← other.getEventLabel e
      if p lab.body ∧ lab.pos ∉ acc then some (acc ++ [lab.pos]) else none) []

/-- The rebuilt list of a label: the copies of the members of the original's list. -/
def copiedList (owner member : LabelBody → Bool) (list : LabelBody → List Event)
    (other : ExecutionGraph) (lab : EventLabel) : Option (List Event) :=
  if owner lab.body then do
    let oLab ← g.getEventLabel lab.pos
    if owner oLab.body then relinkList v other member (list oLab.body) else none
  else some []

/-- The body of the loop over the labels of the copy: their pointers and lists are turned to the
copy.  A source is kept if its position is in the copy, also where that is a hole. -/
def relinkLabel (other : ExecutionGraph) (e : Event) : Option ExecutionGraph := do
  let lab ← other.getEventLabel e
  let rf := lab.body.rf.bind fun w => (other.getEventLabel w).map (·.pos)
  let readers ← g.copiedList v LabelBody.isWrite LabelBody.isRead LabelBody.readers other lab
  let alloc := lab.body.alloc.bind fun a => (other.retarget LabelBody.isMalloc a).getD none
  let parentJoin ← retargetContained v other LabelBody.isThreadJoin lab.body.parentJoin
  let free ← retargetContained v other LabelBody.isFree lab.body.getFree
  let accesses ← g.copiedList v LabelBody.isMalloc LabelBody.isAccess LabelBody.accesses other lab
  let freeAlloc ← retargetContained v other LabelBody.isMalloc lab.body.freeAlloc
  return other.updateLabel e (EventLabel.mapFields
    { rf := fun _ => rf, readers := fun _ => readers, alloc := fun _ => alloc
      parentJoin := fun _ => parentJoin, free := fun _ => free, accesses := fun _ => accesses
      freeAlloc := fun _ => freeAlloc })

/-- The loop over the labels of the copy. -/
def relinkLabels (other : ExecutionGraph) : Option ExecutionGraph :=
  other.insertionOrder.foldlM (g.relinkLabel v) other

/-- A store of the coherence order is copied behind the stores copied before. -/
def copyStore (other : ExecutionGraph) (w : Event) : Option ExecutionGraph :=
  if v.contains w then do
    let wLab ← g.getEventLabel w
    let a ← wLab.body.addr
    let pred ← other.coMax a
    other.addStoreToCOAfter w pred
  else some other

/-- The coherence order of the copy. -/
def copyCoherence (other : ExecutionGraph) : Option ExecutionGraph :=
  (g.coherence.entries.flatMap Prod.snd).foldlM (g.copyStore v) other

/-- `addInitRfToLoc` for an initial reader that the clock contains. -/
def copyInitReader (other : ExecutionGraph) (r : Event) : Option ExecutionGraph :=
  if v.contains r then do
    let rLab ← other.getEventLabel r
    if rLab.body.isRead then do
      let a ← rLab.body.addr
      if other.isa LabelBody.isInit .init then other.pushReader .init r a else none
    else none
  else some other

/-- The lists of initial readers of the copy. -/
def copyInitRfs (other : ExecutionGraph) : Option ExecutionGraph :=
  g.coherence.entries.foldlM
    (fun other entry => do
      let rs ← g.initRfs.find? entry.1
      rs.foldlM (copyInitReader v) other) other

/-- `ExecutionGraph::copyGraphUpTo`. -/
def copyGraphUpTo (other : ExecutionGraph) : Option ExecutionGraph := do
  let other ← g.copyThreads v other
  let other ← g.copyInsertionOrder v other
  let other ← g.relinkLabels v other
  let other ← g.copyCoherence v other
  g.copyInitRfs v other

/-- `ExecutionGraph::getCopyUpTo`. -/
def getCopyUpTo : Option ExecutionGraph := g.copyGraphUpTo v initial

/-- `ExecutionGraph::clone`. -/
def clone : Option ExecutionGraph := g.getCopyUpTo (.view (g.getViewFromStamp g.timestamp))

end ExecutionGraph

end GenMC
