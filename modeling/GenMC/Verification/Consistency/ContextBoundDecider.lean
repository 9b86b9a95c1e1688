import GenMC.Lib.BoundedSearch
import GenMC.Support.SVal
import GenMC.Verification.Consistency.SCOrder

/-!
# The context bound

The decider looks for a schedule of the events of a graph with few preemptions: switches away from a
thread that could go on.  It builds the schedules backwards, from a view of the events that are left
and the thread that runs next, and takes events of this thread off the view as long as nothing in
the view comes after them and the thread could not be blocked there (`unfoldPrefix`).

The written values are not part of the labels here; `getVal` gives that of the write at a position.
`none` stands for a failed assertion or for following a null pointer.
-/

namespace GenMC

open ExecutionGraph

namespace ContextBoundDecider

variable (g : ExecutionGraph) (getVal : Event → SVal)

/-! ## Threads at the end of a view -/

/-- `canBlock`: the next event of the thread may have to wait for other threads. -/
def canBlock (s : View) (t : ℕ) : Option Bool := do
  let _ ← g.getEventLabel ⟨t, s.getMax t⟩
  return (g.getNextLabel ⟨t, s.getMax t⟩).any fun nLab =>
    nLab.body.isThreadJoin || nLab.body.isLockCasRead || nLab.body.isBWaitRead

/-- `isEnabled` for a lock: the latest store in the view is an unlock that no completed lock has
read, or there is none and no read of the initializer in the view. -/
def isLockEnabled (v : View) (addr : SAddr) : Option Bool := do
  match (← g.coherence.find? addr).reverse.find? v.contains with
  | none => return (← g.initRfs.find? addr).all fun e => !v.contains e
  | some w =>
    let sLab ← g.getEventLabel w
    return sLab.body.isUnlockWrite && sLab.body.readers.all fun e => !v.contains e.next

/-- `isEnabled` for a barrier: the latest store in the view has written the value that the barrier
was initialized with. -/
def isBarrierEnabled (v : View) (addr : SAddr) : Option Bool := do
  let stores ← g.coherence.find? addr
  let iwLab ← stores.head?
  let wLab ← stores.reverse.find? v.contains
  return decide (getVal iwLab = getVal wLab)

/-- `isEnabled`: the thread could go on after its events in the view. -/
def isEnabled (v : View) (t : ℕ) : Option Bool := do
  let llab ← g.getEventLabel ⟨t, v.getMax t⟩
  if llab.body.isTerminator then return false
  else
    match g.getNextLabel ⟨t, v.getMax t⟩ with
    | none => return false
    | some nLab =>
      if nLab.body.isThreadJoin then return v.contains (← g.tjPred nLab)
      else if nLab.body.isLockCasRead then isLockEnabled g v (← nLab.body.addr)
      else if nLab.body.isBWaitRead then isBarrierEnabled g getVal v (← nLab.body.addr)
      else return true

/-- `isSCMaximal` for the last steps: no store in the view overwrites the write, or the one that the
read reads from. -/
def isStoreMaximal (v : View) (wLab : Event) (addr : SAddr) : Option Bool := do
  let stores ← g.coherence.find? addr
  if stores.isEmpty then return true
  else
    let succLab ← if g.isa LabelBody.isInit wLab then some stores.head? else g.coImmSucc wLab
    return succLab.all fun w => !v.contains w

/-- `isSCMaximal`: no event of the view comes after the last one of the thread. -/
def isSCMaximal (v : View) (t : ℕ) : Option Bool := do
  let lab ← g.getEventLabel ⟨t, v.getMax t⟩
  if lab.body.isThreadFinish then
    return (tjSucc lab).all fun tjLab => !v.contains tjLab
  else
    match lab.body.createdThread with
    | some childId => return decide (v.getMax childId = 0)
    | none =>
      if !lab.body.isAccess then return true
      else if lab.body.isWrite then
        if lab.body.readers.any v.contains then return false
        else isStoreMaximal g v ⟨t, v.getMax t⟩ (← lab.body.addr)
      else isStoreMaximal g v (← lab.body.rf) (← lab.body.addr)

/-- `shrinkViewByOne`. -/
def shrinkViewByOne (v : View) (t : ℕ) : View := v.setMax ⟨t, v.getMax t - 1⟩

/-- The loop of `unfoldPrefix`; every pass takes an event of the thread off the view. -/
def unfoldFrom (t : ℕ) : ℕ → View → Option View
  | 0, v => some v
  | n + 1, v => do
    if v.getMax t = 0 then return v
    else if ← isSCMaximal g v t then
      if ← canBlock g v t then return v else unfoldFrom t n (shrinkViewByOne v t)
    else return v

/-- `unfoldPrefix`. -/
def unfoldPrefix (v : View) (t : ℕ) : Option View := unfoldFrom g t (v.getMax t) v

/-- The threads that the loops of the decider go on with. -/
def candidate (v : View) (tp : ℕ) : Option Bool :=
  if v.getMax tp = 0 then some false else isSCMaximal g v tp

/-- Whether it is a preemption that thread `t` runs next after the events of thread `tp`. -/
def preempts (v : View) (t tp : ℕ) : Option Bool :=
  if tp = t then some false else isEnabled g getVal v tp

/-! ## The decision -/

/-- `ContextBoundDecider::doesPrefixExceedBound`, which is true if the bound is *not* exceeded;
every call takes an event off the view. -/
def doesPrefixExceedBound : ℕ → View → ℕ → ℕ → Option Bool
  | 0, _, _, _ => none
  | fuel + 1, v, t, bound => do
    let v ← unfoldPrefix g v t
    if v.maxs.all (· == 0) then return true
    else
      anyBranch (candidate g v) (fun tp => do
        if ← preempts g getVal v t tp then
          match bound with
          | 0 => return false
          | bound + 1 => doesPrefixExceedBound fuel (shrinkViewByOne v tp) tp bound
        else doesPrefixExceedBound fuel (shrinkViewByOne v tp) tp bound)
        (List.range g.getNumThreads) false

/-- The number of events in a view, and one more. -/
def fuelFor (v : View) : ℕ := ((List.range g.getNumThreads).map v.getMax).sum + 1

/-- `ContextBoundDecider::doesExecutionExceedBound`. -/
def doesExecutionExceedBound (bound : ℕ) : Option Bool :=
  (anyBranch (candidate g g.full) (fun i =>
    doesPrefixExceedBound g getVal (fuelFor g g.full) (shrinkViewByOne g.full i) i bound)
    (List.range g.getNumThreads) false).map not

/-! ## The calculation -/

/-- `ContextBoundDecider::calculate` for a view and the thread that runs next. -/
def calculatePrefix : ℕ → View → ℕ → Option ℕ
  | 0, _, _ => none
  | fuel + 1, v, t => do
    let v ← unfoldPrefix g v t
    if v.maxs.all (· == 0) then return 0
    else
      leastBranch (candidate g v) (fun tp => do
        let bound ← calculatePrefix fuel (shrinkViewByOne v tp) tp
        return bound + if ← preempts g getVal v t tp then 1 else 0)
        (List.range g.getNumThreads) none

/-- `ContextBoundDecider::calculate`. -/
def calculate : Option ℕ :=
  leastBranch (candidate g g.full) (fun i =>
    calculatePrefix g getVal (fuelFor g g.full) (shrinkViewByOne g.full i) i)
    (List.range g.getNumThreads) none

end ContextBoundDecider

end GenMC
