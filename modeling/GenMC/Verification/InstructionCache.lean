import GenMC.ExecutionGraph.EventLabel
import GenMC.Lib.PartialRun
import GenMC.Support.SVal
import Mathlib.Data.List.DropRight

/-!
# Instruction caching

The driver remembers the labels that a thread has added since its last event with a value, for the
values that the thread has got (`cacheEventLabel`).  When a thread with the same values is scheduled
again, the remembered labels are given to the handlers instead of the interpreter's
(`tryOptimizeScheduling`).

A label is cached as the handler has completed it.  `EventLabel::reset` takes back what the graph
operations have changed, but not what the handlers fill in: the identifier of a created thread, the
value of the write that completes a barrier, the annotation of a read, and whether an optional block
may be expanded.

The trie of the value prefixes is a finite map here.  `A` is the type of annotations.  `none` stands
for an internal bug report or an access that the C++ code must not perform.
-/

namespace GenMC

namespace LabelBody

/-- `isa<OptionalLabel>`. -/
def isOptional (b : LabelBody) : Bool := decide (b = plain .optional)

/-- `isa<BIncFaiWriteLabel>`. -/
def isBIncFaiWrite : LabelBody → Bool
  | write .bIncFaiWrite _ _ => true
  | _ => false

/-- `EventLabel::hasValue`. -/
def hasValue (b : LabelBody) : Bool := b.isThreadStart || b.isRead || b.isThreadJoin || b.isOptional

/-- `ThreadCreateLabel::setChildId`. -/
def setChildId (childId : ℕ) : LabelBody → LabelBody
  | plain (.threadCreate _) => plain (.threadCreate childId)
  | b => b

/-- What `EventLabel::reset` and its overrides do to the class of a label. -/
def resetMap : FieldMap where
  rf := fun _ => none
  readers := fun _ => []
  alloc := fun _ => none
  free := fun _ => none
  accesses := fun _ => []
  freeAlloc := fun _ => none
  parentJoin := fun _ => none
  maximal := fun _ => true
  ipr := fun _ => false

end LabelBody

/-- A label with the data that the handlers of the driver fill in. -/
structure DriverLabel (A : Type) extends EventLabel where
  /-- `OptionalLabel::isExpandable`. -/
  expandable : Bool := true
  /-- `OptionalLabel::isExpanded`. -/
  expanded : Bool := false
  /-- `WriteLabel::getVal`. -/
  val : SVal := 0
  /-- `ReadLabel::getAnnot`. -/
  annot : Option A := none
deriving DecidableEq

namespace DriverLabel

variable {A : Type}

/-- `EventLabel::clone`. -/
def clone (lab : DriverLabel A) : DriverLabel A :=
  { lab with toEventLabel := lab.toEventLabel.clone }

/-- `EventLabel::reset`. -/
def reset (lab : DriverLabel A) : DriverLabel A :=
  { lab with
    stamp := none
    revisitable := true
    prefixView := none
    body := lab.body.mapFields LabelBody.resetMap }

/-- A label that stands for one that is not in the graph any more. -/
def hole (pos : Event) : DriverLabel A := { pos := pos, body := .empty }

end DriverLabel

/-- The part of an execution graph that instruction caching works with: the labels, the values that
reads, joins and begins return, and the initial values of barriers. -/
structure DriverGraph (A : Type) where
  /-- The labels of every thread. -/
  events : List (List (DriverLabel A))
  /-- `getReadValue`, `getJoinValue` and `getStartValue`, by the position of the label. -/
  value : Event → SVal
  /-- `getBarrierInitValue`, by the address of the barrier. -/
  barrierInit : SAddr → SVal

namespace DriverGraph

variable {A : Type} (g : DriverGraph A)

/-- The labels of a thread. -/
def thread (t : ℕ) : List (DriverLabel A) := g.events.getD t []

/-- `ExecutionGraph::getEventLabel`. -/
def getEventLabel (e : Event) : Option (DriverLabel A) := (g.thread e.thread)[e.index]?

/-- Changes the label at a position. -/
def updateLabel (e : Event) (f : DriverLabel A → DriverLabel A) : DriverGraph A :=
  { g with events := g.events.modify e.thread fun thr => thr.modify e.index f }

/-- The value that `extractValPrefix` notes for a label, if any. -/
def valueOf (lab : DriverLabel A) : Option SVal :=
  if lab.body.isRead then some (g.value lab.pos)
  else if lab.body.isThreadJoin then some (g.value lab.pos)
  else if lab.body.isThreadStart then some (g.value lab.pos)
  else if lab.body.isOptional then some (if lab.expanded then 1 else 0)
  else none

/-- `GenMCDriver::extractValPrefix`: the values before a position and the last event with one. -/
def extractValPrefix (pos : Event) : Option (List SVal × Event) :=
  (List.range pos.index).foldlM (fun (vals, last) i => do
    let lab ← g.getEventLabel ⟨pos.thread, i⟩
    match g.valueOf lab with
    | some val => return (vals ++ [val], lab.pos)
    | none => if lab.body.hasValue then none else return (vals, last)) ([], .init)

/-- `findNextLabelToAdd`: the first hole of the thread, or its end. -/
def findNextLabelToAdd (t : ℕ) : Option Event :=
  match g.thread t with
  | [] => none
  | _ :: succs => some ⟨t, 1 + succs.findIdx fun lab => lab.body.isEmpty⟩

/-- `GenMCDriver::isExecutionDrivenByGraph`. -/
def isExecutionDrivenByGraph (e : Event) : Bool :=
  (g.getEventLabel e).any fun lab => !lab.body.isEmpty

/-- `isa<BlockLabel>` for the last label of a thread. -/
def isLastBlock (t : ℕ) : Bool := (g.thread t).getLast?.any fun lab => lab.body.isBlock

/-- `ExecutionGraph::addLabelToGraph`: a label is put at the end of its thread or into a hole. -/
def addLabelToGraph (lab : DriverLabel A) : Option (DriverGraph A) :=
  if g.events.length ≤ lab.pos.thread then none
  else
    match g.getEventLabel lab.pos with
    | some eLab => if eLab.body.isEmpty then some (g.updateLabel lab.pos fun _ => lab) else none
    | none =>
      if lab.pos.index = (g.thread lab.pos.thread).length then
        some { g with events := g.events.modify lab.pos.thread fun thr => thr ++ [lab] }
      else none

/-- `ExecutionGraph::removeLast`. -/
def removeLast (t : ℕ) : DriverGraph A := { g with events := g.events.modify t List.dropLast }

/-- `GenMCDriver::blockThread`; it does not go through the cache. -/
def blockThread (bLab : DriverLabel A) : Option (DriverGraph A) :=
  if bLab.pos.index + 1 = (g.thread bLab.pos.thread).length then
    (g.removeLast bLab.pos.thread).addLabelToGraph bLab
  else g.addLabelToGraph bLab

/-- `handleThreadCreate`: the thread that has the create already, or a new one. -/
def childId (pos : Event) : ℕ :=
  ((List.range g.events.length).find? fun cid =>
    decide (((g.getEventLabel ⟨cid, 0⟩).bind fun lab => lab.body.parentCreate) = some pos)).getD
      g.events.length

/-- `handleOptional`: an optional block may not be expanded any more. -/
def hasUnexpandable : Bool :=
  g.events.any fun thr => thr.any fun lab => lab.body.isOptional && !lab.expandable

/-- What the handlers fill in before they add a label: `handleOptional`, `handleStore`, `handleLoad`
with the annotation at the interpreter's position, and `handleThreadCreate`.  Fresh addresses, which
`handleMalloc` fills in, are left out. -/
def complete (annot : Option A) (lab : DriverLabel A) : DriverLabel A :=
  { lab with
    expandable := lab.expandable && !(lab.body.isOptional && g.hasUnexpandable)
    val := if lab.body.isBIncFaiWrite && decide (lab.val = 0) then
      (lab.body.addr.map g.barrierInit).getD lab.val else lab.val
    annot := if lab.body.isRead then lab.annot <|> annot else lab.annot
    body := lab.body.setChildId (g.childId lab.pos) }

/-- A thread without the labels that a restriction does not keep; the first one stays, and within
the thread there are holes. -/
def cutThread (keep : Event → Bool) (t : ℕ) (thr : List (DriverLabel A)) : List (DriverLabel A) :=
  (thr.mapIdx fun i lab => if i = 0 || keep ⟨t, i⟩ then lab else DriverLabel.hole ⟨t, i⟩).rdropWhile
    fun lab => lab.body.isEmpty

/-- The graph without the labels that a restriction does not keep. -/
def cut (keep : Event → Bool) : DriverGraph A :=
  { g with events := g.events.mapIdx (cutThread keep) }

end DriverGraph

/-- `GenMCDriver::seenPrefixes`: the cached labels for a thread and the values it has got. -/
abbrev ValuePrefixes (A : Type) := ℕ → List SVal → Option (List (DriverLabel A))

/-- The part of the driver that instruction caching works with. -/
structure CachingDriver (A : Type) where
  /-- The graphs of the execution stack, the current one first. -/
  execStack : List (DriverGraph A)
  /-- The cached labels. -/
  seenPrefixes : ValuePrefixes A
  /-- `Interpreter::getCurrentAnnotConcretized`, by thread. -/
  currentAnnot : ℕ → Option A

namespace CachingDriver

variable {A : Type}

/-- The entry for a thread and values is replaced. -/
def insertPrefix (cache : ValuePrefixes A) (t : ℕ) (vals : List SVal)
    (labs : List (DriverLabel A)) : ValuePrefixes A := fun t' vals' =>
  if t' = t ∧ vals' = vals then some labs else cache t' vals'

/-- `GenMCDriver::cacheEventLabel`. -/
def cacheEventLabel (g : DriverGraph A) (cache : ValuePrefixes A) (lab : DriverLabel A) :
    Option (ValuePrefixes A) := do
  let (vals, last) ← g.extractValPrefix lab.pos
  let data := cache lab.pos.thread vals
  let back := data.bind List.getLast?
  let fromIdx := (back.map fun bLab => bLab.pos.index).getD last.index
  let toIdx := lab.pos.index
  if back.any fun bLab => decide (toIdx ≤ bLab.pos.index) then return cache
  else
    let labs ← (List.range' (fromIdx + 1) (toIdx - fromIdx)).mapM fun i =>
      if i = lab.pos.index then some lab.clone.reset
      else (g.getEventLabel ⟨lab.pos.thread, i⟩).map fun cLab => cLab.clone.reset
    match data with
    | none => return insertPrefix cache lab.pos.thread vals labs
    | some res =>
      match back with
      | none =>
        if lab.pos.index ≤ last.index then none
        else return insertPrefix cache lab.pos.thread vals (res ++ labs)
      | some bLab =>
        if bLab.pos.index + 1 ≠ lab.pos.index then none
        else return insertPrefix cache lab.pos.thread vals (res ++ labs)

/-- The current graph. -/
def getGraph (s : CachingDriver A) : Option (DriverGraph A) := s.execStack.head?

/-- Replaces the current graph. -/
def setGraph (s : CachingDriver A) (g : DriverGraph A) : CachingDriver A :=
  { s with execStack := g :: s.execStack.tail }

/-- `GenMCDriver::addLabelToGraph`, and the value that the label returns in the end. -/
def addLabelToGraph (s : CachingDriver A) (lab : DriverLabel A) (v : SVal) :
    Option (CachingDriver A) := do
  let g ← s.getGraph
  let cache ← if 0 < lab.pos.index then cacheEventLabel g s.seenPrefixes lab
    else some s.seenPrefixes
  let g ← g.addLabelToGraph lab
  return { s.setGraph { g with value := Function.update g.value lab.pos v } with
    seenPrefixes := cache }

/-- The handlers, up to the addition of the label: a join whose thread has not ended blocks. -/
def handle (s : CachingDriver A) (annot : Option A) (lab : DriverLabel A) (v : SVal) :
    Option (CachingDriver A) := do
  let g ← s.getGraph
  match lab.body.joinedThread with
  | some childId =>
    if (g.thread childId).getLast?.any fun eLab => eLab.body.isThreadFinish then
      s.addLabelToGraph (g.complete annot lab) v
    else return s.setGraph (← g.blockThread { pos := lab.pos, body := .plain (.joinBlock childId) })
  | none => s.addLabelToGraph (g.complete annot lab) v

end CachingDriver

/-- A program whose threads' next label is a function of the values that they have got: the label
at an index after values, as the interpreter makes it. -/
structure ThreadProgram (A : Type) where
  /-- The label of a thread at an index, after the values before it. -/
  next : ℕ → ℕ → List SVal → Option (DriverLabel A)
  /-- The label is made for the position. -/
  pos : ∀ {t i vals lab}, next t i vals = some lab → lab.pos = ⟨t, i⟩
  /-- The label is a new one. -/
  reset : ∀ {t i vals lab}, next t i vals = some lab → lab.reset = lab
  /-- Only the driver makes holes. -/
  notEmpty : ∀ {t i vals lab}, next t i vals = some lab → lab.body.isEmpty = false
  /-- An optional block has not been expanded yet. -/
  optional : ∀ {t i vals lab}, next t i vals = some lab → lab.expandable = true

/-- What happens to the driver: a label is added, and in between, the handlers, the scheduler and
the revisits change the graphs. -/
inductive DriverOp (A : Type)
  /-- The interpreter adds the next label of a thread, which returns a value. -/
  | add (t : ℕ) (v : SVal)
  /-- The interpreter visits an instruction that adds no label. -/
  | visit (t : ℕ) (annot : Option A)
  /-- A read gets another source. -/
  | setValue (e : Event) (v : SVal)
  /-- `revisitOptional`. -/
  | expand (e : Event)
  /-- A label changes in what `reset` takes back. -/
  | touch (e : Event) (f : DriverLabel A → DriverLabel A)
  /-- `blockThread`. -/
  | blockThread (bLab : DriverLabel A)
  /-- `removeLast`, in particular `unblockThread`. -/
  | removeLast (t : ℕ)
  /-- `handleThreadCreate` for the created thread. -/
  | startThread (tsLab : DriverLabel A) (v : SVal)
  /-- The barriers of the graph are initialized. -/
  | setBarrierInit (f : SAddr → SVal)
  /-- The graph is restricted. -/
  | cut (keep : Event → Bool)
  /-- `pushExecution` with a copy of the graph. -/
  | push
  /-- `popExecution`. -/
  | pop
  /-- `extractState`: the cache goes to another driver. -/
  | extractState

namespace CachingDriver

variable {A : Type} (prog : ThreadProgram A)

/-- The interpreter adds the next label of a thread. -/
def interpretLabel (s : CachingDriver A) (t : ℕ) (v : SVal) : Option (CachingDriver A) := do
  let g ← s.getGraph
  let next ← g.findNextLabelToAdd t
  let (vals, _) ← g.extractValPrefix next
  let lab ← prog.next t next.index vals
  s.handle lab.annot lab v

/-- The steps of the driver that do not use the cache. -/
def applyOp (s : CachingDriver A) : DriverOp A → Option (CachingDriver A)
  | .add t v => interpretLabel prog s t v
  | .visit t annot => some { s with currentAnnot := Function.update s.currentAnnot t annot }
  | .setValue e v => s.getGraph.map fun g =>
    s.setGraph { g with value := Function.update g.value e v }
  | .expand e => s.getGraph.map fun g => s.setGraph (g.updateLabel e fun lab =>
    if lab.body.isOptional then { lab with expandable := false, expanded := true } else lab)
  | .touch e f => s.getGraph.map fun g => s.setGraph (g.updateLabel e f)
  | .blockThread bLab => s.getGraph.bind fun g => (g.blockThread bLab).map s.setGraph
  | .removeLast t => s.getGraph.map fun g => s.setGraph (g.removeLast t)
  | .startThread tsLab v => s.getGraph.bind fun g =>
    if tsLab.pos.index = 0 ∧ tsLab.body.isThreadStart then
      if tsLab.pos.thread = g.events.length then
        some (s.setGraph { g with
          events := g.events ++ [[tsLab]], value := Function.update g.value tsLab.pos v })
      else if (g.thread tsLab.pos.thread).length = 1 then
        some (s.setGraph { g.updateLabel tsLab.pos fun _ => tsLab with
          value := Function.update g.value tsLab.pos v })
      else none
    else none
  | .setBarrierInit f => s.getGraph.map fun g => s.setGraph { g with barrierInit := f }
  | .cut keep => s.getGraph.map fun g => s.setGraph (g.cut keep)
  | .push => s.getGraph.map fun g => { s with execStack := g :: s.execStack }
  | .pop => some { s with execStack := s.execStack.tail }
  | .extractState => some { s with seenPrefixes := fun _ _ => none }

/-! ## Scheduling from the cache -/

section Scheduling

variable (choose : CachingDriver A → Event → SVal)
  (rest : CachingDriver A → Event → List (DriverOp A)) (stops : CachingDriver A → Bool)

/-- The handlers do the same with a label of the interpreter and with one of the cache.  `choose` is
the value that the label returns, and `rest` is what the handler goes on to do. -/
def runHandler (s : CachingDriver A) (annot : Option A) (lab : DriverLabel A) :
    Option (CachingDriver A) := do
  let s ← s.handle annot lab (choose s lab.pos)
  PartialRun.exec (applyOp prog) s (rest s lab.pos)

/-- `DriverHandlerDispatcher::visit` for a cached label: the handlers return at once for a label
that is in the graph. -/
def visitCached (s : CachingDriver A) (vlab : DriverLabel A) : Option (CachingDriver A) := do
  let g ← s.getGraph
  if g.isExecutionDrivenByGraph vlab.pos then return s
  else runHandler prog choose rest s (s.currentAnnot vlab.pos.thread) vlab

/-- The loop of `tryOptimizeScheduling` ends when the thread is blocked or the execution is of no
interest any more; `stops` is `isMoot() || isHalting()`. -/
def ends (s : CachingDriver A) (t : ℕ) : Bool :=
  s.getGraph.any (fun g => g.isLastBlock t) || stops s

/-- The loop of `tryOptimizeScheduling`. -/
def replayLabels : List (DriverLabel A) → CachingDriver A → Option (CachingDriver A)
  | [], s => some s
  | vlab :: res, s =>
    if vlab.stamp.isSome then none
    else do
      let s ← visitCached prog choose rest s vlab
      if ends stops s vlab.pos.thread then return s else replayLabels res s

/-- `GenMCDriver::tryOptimizeScheduling`. -/
def tryOptimizeScheduling (s : CachingDriver A) (t : ℕ) : Option (Bool × CachingDriver A) := do
  let g ← s.getGraph
  let next ← g.findNextLabelToAdd t
  let (vals, _) ← g.extractValPrefix next
  match s.seenPrefixes t vals with
  | none => return (false, s)
  | some res =>
    if res.getLast?.all fun bLab => decide (bLab.pos.index < next.index) then return (false, s)
    else return (true, ← replayLabels prog choose rest stops res s)

/-- What the interpreter does instead: the next label of the thread goes to its handler. -/
def interpret (s : CachingDriver A) (t : ℕ) : Option (CachingDriver A) := do
  let g ← s.getGraph
  let next ← g.findNextLabelToAdd t
  let (vals, _) ← g.extractValPrefix next
  let lab ← prog.next t next.index vals
  runHandler prog choose rest s lab.annot lab

/-- The interpreter adds a number of labels of the thread. -/
def interpretMany (t : ℕ) : ℕ → CachingDriver A → Option (CachingDriver A)
  | 0, s => some s
  | n + 1, s => (interpret prog choose rest s t).bind (interpretMany t n)

end Scheduling

end CachingDriver

end GenMC
