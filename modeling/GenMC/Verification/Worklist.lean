import GenMC.Lib.PartialRun
import GenMC.Lib.PriorityStack
import GenMC.Lib.SortedMap

/-!
# The worklist of the driver

The revisits that wait to be explored.  Every execution of the driver's stack has a queue that maps
stamps to sets of work items.  Adding, popping and pruning happen in different places of the
driver: while an execution runs, when `explore` asks for the next item, and when the execution is
restricted to the stamp of that item.  `explore_worklistLaw` says that over a whole exploration the
queues implement a stack of priority stacks, and that pruning never drops an item.
-/

namespace GenMC

open PartialRun PriorityStack

variable {ι : Type*}

/-- `WorkSet`: the work items of one event. -/
structure WorkSet (ι : Type*) where
  /-- The items, the last one on top. -/
  wset : List ι
deriving DecidableEq

namespace WorkSet

/-- Whether this workset is empty. -/
def empty (w : WorkSet ι) : Bool := w.wset.isEmpty

/-- Adds an item to the workset. -/
def add (w : WorkSet ι) (item : ι) : WorkSet ι := ⟨w.wset ++ [item]⟩

/-- The next item to examine, and the workset without it; an empty workset has none. -/
def getNext (w : WorkSet ι) : Option (ι × WorkSet ι) :=
  w.wset.getLast?.map fun i => (i, ⟨w.wset.dropLast⟩)

/-- The next item is the last one. -/
lemma getNext_eq_some {w w' : WorkSet ι} {i : ι} (h : w.getNext = some (i, w')) :
    w.wset = w'.wset ++ [i] := by
  obtain ⟨j, hj, heq⟩ := Option.map_eq_some_iff.mp h
  obtain ⟨rfl, rfl⟩ := Prod.mk.inj heq
  exact (List.dropLast_append_getLast? _ hj).symm

/-- A workset has a next item if it is not empty. -/
lemma exists_getNext {w : WorkSet ι} (h : w.empty = false) : ∃ r, w.getNext = some r := by
  obtain ⟨ws⟩ := w
  have hne : ws ≠ [] := by simpa [empty] using h
  exact ⟨_, congrArg (Option.map _) (List.getLast?_eq_getLast_of_ne_nil hne)⟩

end WorkSet

/-- `LocalQueueT`: the worksets of one execution by the stamps of their events. -/
abbrev LocalQueue (ι : Type*) := SortedMap ℕ (WorkSet ι)

namespace LocalQueue

/-- Adds an item to the workset of a stamp. -/
def addToWorklist (q : LocalQueue ι) (stamp : ℕ) (item : ι) : LocalQueue ι :=
  q.upsert stamp ⟨[]⟩ fun w => w.add item

/-- Fetches the next item: the worksets are walked through from the highest stamp down, and the
first one that is not empty gives it. -/
def getNextItem (q : LocalQueue ι) : Option ((ℕ × ι) × LocalQueue ι) :=
  (q.entries.reverse.find? fun e => !e.2.empty).bind fun e =>
    e.2.getNext.map fun r => ((e.1, r.1), q.upsert e.1 r.2 fun _ => r.2)

/-- The stamps above the given one whose workset is empty, found from the highest stamp down. -/
def idxsToRemove (q : LocalQueue ι) (stamp : ℕ) : List ℕ :=
  (q.entries.reverse.filter fun e => decide (stamp < e.1) && e.2.empty).map Prod.fst

/-- Erases the empty worksets of the stamps above the given one. -/
def restrictWorklist (q : LocalQueue ι) (stamp : ℕ) : LocalQueue ι :=
  q.eraseAll (q.idxsToRemove stamp)

/-- The items that wait for a stamp. -/
def items (q : LocalQueue ι) (stamp : ℕ) : List ι := ((q.find? stamp).getD ⟨[]⟩).wset

/-- The queue holds the given pending items, each in the workset of its stamp. -/
def Represents (q : LocalQueue ι) (pending : List (ℕ × ι)) : Prop :=
  ∀ stamp, q.items stamp = bucket pending stamp

/-- A new queue holds nothing. -/
lemma represents_empty : Represents (SortedMap.empty : LocalQueue ι) [] := fun _ => rfl

/-- Only the items of the changed stamp are different after a change. -/
lemma items_upsert (q : LocalQueue ι) (k : ℕ) (v : WorkSet ι) (f : WorkSet ι → WorkSet ι)
    (k' : ℕ) : items (q.upsert k v f) k' =
      if k' = k then (f ((q.find? k).getD v)).wset else q.items k' := by
  unfold items
  rw [SortedMap.find?_upsert]
  split <;> simp

/-- An added item waits behind the others. -/
lemma Represents.addToWorklist {q : LocalQueue ι} {pending : List (ℕ × ι)}
    (h : q.Represents pending) (stamp : ℕ) (item : ι) :
    (q.addToWorklist stamp item).Represents (pending ++ [(stamp, item)]) := by
  intro k
  unfold LocalQueue.addToWorklist
  rw [items_upsert, bucket_concat, ← h k]
  split
  · next hk => rw [hk, WorkSet.add, items]
  · rfl

/-- The workset of an entry holds the items of its stamp. -/
lemma items_of_mem {q : LocalQueue ι} {e : ℕ × WorkSet ι} (h : e ∈ q.entries) :
    q.items e.1 = e.2.wset := by
  rw [items, SortedMap.find?_eq_some_iff.mpr h, Option.getD_some]

/-- A stamp for which an item waits has an entry, and its workset is not empty. -/
lemma exists_entry_of_items {q : LocalQueue ι} {k : ℕ} (h : q.items k ≠ []) :
    ∃ w, (k, w) ∈ q.entries ∧ w.empty = false := by
  unfold items at h
  rcases hfind : q.find? k with _ | w
  · rw [hfind] at h
    exact absurd rfl h
  · rw [hfind, Option.getD_some] at h
    exact ⟨w, SortedMap.find?_eq_some_iff.mp hfind, by simpa [WorkSet.empty] using h⟩

/-- What a successful `getNextItem` does: it takes the last item of an entry above which all
worksets are empty. -/
lemma getNextItem_eq_some {q q' : LocalQueue ι} {stamp : ℕ} {item : ι}
    (h : q.getNextItem = some ((stamp, item), q')) :
    ∃ w, q' = q.upsert stamp w (fun _ => w) ∧ q.items stamp = w.wset ++ [item] ∧
      ∀ e ∈ q.entries, e.2.empty = false → e.1 ≤ stamp := by
  obtain ⟨e, hfind, hnext⟩ := Option.bind_eq_some_iff.mp h
  obtain ⟨⟨i, w⟩, hw, heq⟩ := Option.map_eq_some_iff.mp hnext
  obtain ⟨hitem, rfl⟩ := Prod.mk.inj heq
  obtain ⟨rfl, rfl⟩ := Prod.mk.inj hitem
  have hmem : e ∈ q.entries := List.mem_reverse.mp (List.mem_of_find?_eq_some hfind)
  refine ⟨w, rfl, ?_, fun e' he' hne => ?_⟩
  · rw [items_of_mem hmem]
    exact WorkSet.getNext_eq_some hw
  · exact SortedMap.le_of_find?_reverse hfind he' (by rw [hne]; rfl)

/-- `getNextItem` fails only if nothing waits. -/
lemma Represents.eq_nil {q : LocalQueue ι} {pending : List (ℕ × ι)} (h : q.Represents pending)
    (hnone : q.getNextItem = none) : pending = [] := by
  refine eq_nil_of_bucket fun k => ?_
  rw [← h k]
  by_contra hne
  obtain ⟨w, hmem, hw⟩ := exists_entry_of_items hne
  rcases hfind : q.entries.reverse.find? (fun e => !e.2.empty) with _ | e
  · have hall := List.find?_eq_none.mp hfind (k, w) (List.mem_reverse.mpr hmem)
    rw [hw] at hall
    exact hall rfl
  · have he := List.find?_some hfind
    obtain ⟨r, hr⟩ := WorkSet.exists_getNext (w := e.2) (by simpa using he)
    unfold getNextItem at hnone
    rw [hfind, Option.bind_some, hr] at hnone
    exact absurd hnone (Option.some_ne_none _)

/-- A successful `getNextItem` returns the next pending item. -/
lemma Represents.getNextItem {q q' : LocalQueue ι} {pending : List (ℕ × ι)}
    (h : q.Represents pending) {stamp : ℕ} {item : ι}
    (hnext : q.getNextItem = some ((stamp, item), q')) :
    ∃ rest, IsNext pending (stamp, item) rest ∧ q'.Represents rest := by
  obtain ⟨w, rfl, hitems, hmax⟩ := getNextItem_eq_some hnext
  rw [h stamp] at hitems
  obtain ⟨rest, hrest, hbucket⟩ := IsNext.of_bucket hitems fun k hk => by
    rw [← h k] at hk
    obtain ⟨w', hmem, hw'⟩ := exists_entry_of_items hk
    exact hmax _ hmem hw'
  refine ⟨rest, hrest, fun k => ?_⟩
  rw [items_upsert, hbucket, h k]

/-- The stamps that are erased. -/
lemma mem_idxsToRemove {q : LocalQueue ι} {stamp k : ℕ} :
    k ∈ q.idxsToRemove stamp ↔ stamp < k ∧ ∃ w, (k, w) ∈ q.entries ∧ w.empty = true := by
  unfold idxsToRemove
  simp only [List.mem_map, List.mem_filter, List.mem_reverse, Bool.and_eq_true, decide_eq_true_eq]
  constructor
  · rintro ⟨⟨k', w⟩, ⟨hmem, hlt, hw⟩, rfl⟩
    exact ⟨hlt, w, hmem, hw⟩
  · rintro ⟨hlt, w, hmem, hw⟩
    exact ⟨(k, w), ⟨hmem, hlt, hw⟩, rfl⟩

/-- Pruning does not drop an item. -/
lemma items_restrictWorklist (q : LocalQueue ι) (stamp k : ℕ) :
    items (q.restrictWorklist stamp) k = q.items k := by
  unfold items restrictWorklist
  rw [SortedMap.find?_eraseAll]
  split
  · next hk =>
    obtain ⟨_, w, hmem, hw⟩ := mem_idxsToRemove.mp hk
    rw [SortedMap.find?_eq_some_iff.mpr hmem, Option.getD_some]
    exact (by simpa [WorkSet.empty] using hw : w.wset = []).symm
  · rfl

/-- The entries that stay. -/
lemma mem_entries_restrictWorklist {q : LocalQueue ι} {stamp : ℕ} {e : ℕ × WorkSet ι} :
    e ∈ (q.restrictWorklist stamp).entries ↔
      e ∈ q.entries ∧ (e.1 ≤ stamp ∨ e.2.empty = false) := by
  unfold restrictWorklist
  rw [SortedMap.entries_eraseAll, List.mem_filter, decide_eq_true_eq, mem_idxsToRemove, not_and_or,
    not_lt]
  refine and_congr_right fun hmem => or_congr_right ?_
  rw [not_exists]
  constructor
  · intro h
    exact Bool.eq_false_iff.mpr fun hw => h e.2 ⟨hmem, hw⟩
  · rintro hw w ⟨hmem', hw'⟩
    have heq := (SortedMap.find?_eq_some_iff.mpr hmem).symm.trans
      (SortedMap.find?_eq_some_iff.mpr hmem')
    rw [Option.some.inj heq, hw'] at hw
    exact absurd hw (by decide)

/-- The entries that an erasure drops. -/
def dropped (q q' : LocalQueue ι) : List (ℕ × WorkSet ι) :=
  q.entries.filter fun e => decide (e.1 ∉ q'.keys)

/-- No dropped entry holds an item. -/
lemma empty_of_mem_dropped {q : LocalQueue ι} {stamp : ℕ} {e : ℕ × WorkSet ι}
    (h : e ∈ q.dropped (q.restrictWorklist stamp)) : e.2.empty = true := by
  obtain ⟨hmem, hkeys⟩ := List.mem_filter.mp h
  rw [decide_eq_true_eq] at hkeys
  by_contra hne
  refine hkeys (List.mem_map.mpr ⟨e, mem_entries_restrictWorklist.mpr ⟨hmem, Or.inr ?_⟩, rfl⟩)
  exact Bool.eq_false_iff.mpr hne

/-- Restricted to the stamp of the item that was returned last, the queue has no entry above it. -/
lemma le_of_mem_restrictWorklist {q q' : LocalQueue ι} {stamp : ℕ} {item : ι}
    (hnext : q.getNextItem = some ((stamp, item), q')) {e : ℕ × WorkSet ι}
    (he : e ∈ (q'.restrictWorklist stamp).entries) : e.1 ≤ stamp := by
  obtain ⟨w, rfl, -, hmax⟩ := getNextItem_eq_some hnext
  obtain ⟨hmem, hle | hne⟩ := mem_entries_restrictWorklist.mp he
  · exact hle
  · rcases SortedMap.mem_upsertList hmem with hk | hmem
    · exact hk.le
    · exact hmax e hmem hne

end LocalQueue

/-! ## Explorations -/

/-- What an exploration does with the worklist: it adds an item to the queue of the current
execution, it starts an execution with an empty queue, or it asks for the next item. -/
inductive ExploreOp (ι : Type*)
  | addToWorklist (stamp : ℕ) (item : ι)
  | pushExecution
  | getNextItem
deriving DecidableEq

/-- What can be seen of an exploration. -/
inductive WorklistEvent (ι : Type*)
  /-- An item was added. -/
  | added (stamp : ℕ) (item : ι)
  /-- An execution was pushed. -/
  | pushed
  /-- An item was returned; then the queue was restricted to its stamp, which dropped some entries
  and left a queue. -/
  | returned (stamp : ℕ) (item : ι) (dropped : List (ℕ × WorkSet ι)) (left : LocalQueue ι)
  /-- No item was left, so the execution was popped. -/
  | popped

namespace WorklistEvent

/-- The item that was added, with its stamp. -/
def addedItem : WorklistEvent ι → Option (ℕ × ι)
  | added s i => some (s, i)
  | _ => none

/-- The item that was returned, with its stamp. -/
def returnedItem : WorklistEvent ι → Option (ℕ × ι)
  | returned s i _ _ => some (s, i)
  | _ => none

end WorklistEvent

/-- What a worklist is for: the histories of a stack of priority stacks, with the items that are
pending at their end, the current execution first. -/
inductive Serves : List (WorklistEvent ι) → List (List (ℕ × ι)) → Prop
  /-- The driver starts with one execution for which nothing is pending. -/
  | start : Serves [] [[]]
  /-- An added item is pending for the current execution. -/
  | added {h p ps} (stamp : ℕ) (item : ι) (hs : Serves h (p :: ps)) :
      Serves (h ++ [.added stamp item]) ((p ++ [(stamp, item)]) :: ps)
  /-- Nothing is pending for a new execution. -/
  | pushed {h ps} (hs : Serves h ps) : Serves (h ++ [.pushed]) ([] :: ps)
  /-- The item that is returned is the last one added among those of the highest stamp. -/
  | returned {h p ps rest stamp item} (dropped : List (ℕ × WorkSet ι)) (left : LocalQueue ι)
      (hs : Serves h (p :: ps)) (hnext : IsNext p (stamp, item) rest) :
      Serves (h ++ [.returned stamp item dropped left]) (rest :: ps)
  /-- An execution is popped only if nothing is pending for it. -/
  | popped {h ps} (hs : Serves h ([] :: ps)) : Serves (h ++ [.popped]) ps

/-- No item is lost or duplicated: those added are those returned and those pending. -/
lemma Serves.perm {h : List (WorklistEvent ι)} {pending : List (List (ℕ × ι))}
    (hs : Serves h pending) : (h.filterMap WorklistEvent.addedItem).Perm
      (h.filterMap WorklistEvent.returnedItem ++ pending.flatten) := by
  induction hs with
  | start => exact List.Perm.refl _
  | @added h p ps stamp item _ ih =>
    simp only [List.filterMap_append, List.filterMap_cons, List.filterMap_nil,
      WorklistEvent.addedItem, WorklistEvent.returnedItem, List.append_nil, List.flatten_cons]
    refine (ih.append_right _).trans ?_
    rw [List.flatten_cons, List.append_assoc, List.append_assoc, List.append_assoc]
    exact (List.perm_append_comm.append_left p).append_left _
  | pushed _ ih =>
    simpa [List.filterMap_cons, WorklistEvent.addedItem, WorklistEvent.returnedItem] using ih
  | @returned h p ps rest stamp item dropped left _ hnext ih =>
    simp only [List.filterMap_append, List.filterMap_cons, List.filterMap_nil,
      WorklistEvent.addedItem, WorklistEvent.returnedItem, List.append_nil, List.flatten_cons]
    refine ih.trans ?_
    rw [List.flatten_cons, List.append_assoc]
    exact (hnext.perm.append_right _).append_left _
  | popped _ ih =>
    simpa [List.filterMap_cons, WorklistEvent.addedItem, WorklistEvent.returnedItem] using ih

/-- The worklists of the driver, and what has happened to them.  `rotateExecStack` and the queues
that fuzzing moves to other executions are left out. -/
structure Exploration (ι : Type*) where
  /-- The queues of the executions of the stack, the current one first. -/
  execStack : List (LocalQueue ι)
  /-- What has happened so far. -/
  history : List (WorklistEvent ι)

namespace Exploration

/-- The driver starts with one execution. -/
def init : Exploration ι := ⟨[SortedMap.empty], []⟩

/-- `popExecution`: the stack without its current execution, and whether one is left. -/
def popExecution (execStack : List (LocalQueue ι)) : List (LocalQueue ι) × Bool :=
  (execStack.tail, !execStack.tail.isEmpty)

/-- One step of `explore`.  When an item is returned, `restrictAndRevisit` restricts the worklist to
its stamp before anything else happens. -/
def step (d : Exploration ι) : ExploreOp ι → Option (Exploration ι)
  | .addToWorklist stamp item =>
    match d.execStack with
    | [] => none
    | q :: qs => some ⟨q.addToWorklist stamp item :: qs, d.history ++ [.added stamp item]⟩
  | .pushExecution => some ⟨SortedMap.empty :: d.execStack, d.history ++ [.pushed]⟩
  | .getNextItem =>
    match d.execStack with
    | [] => none
    | q :: qs =>
      match q.getNextItem with
      | some ((stamp, item), q') =>
        let left := q'.restrictWorklist stamp
        some ⟨left :: qs, d.history ++ [.returned stamp item (q'.dropped left) left]⟩
      | none => some ⟨(popExecution (q :: qs)).1, d.history ++ [.popped]⟩

/-- The law of the worklist. -/
structure WorklistLaw (d : Exploration ι) : Prop where
  /-- What has happened is a history of a stack of priority stacks, and the queues hold what is
  pending: every returned item is the last one added among those of the highest stamp, and an
  execution is only popped when nothing is pending for it. -/
  serves : ∃ pending, Serves d.history pending ∧
    List.Forall₂ LocalQueue.Represents d.execStack pending ∧
    (d.history.filterMap WorklistEvent.addedItem).Perm
      (d.history.filterMap WorklistEvent.returnedItem ++ pending.flatten)
  /-- When the exploration has ended, the items returned are those added. -/
  exhausted : d.execStack = [] → (d.history.filterMap WorklistEvent.addedItem).Perm
    (d.history.filterMap WorklistEvent.returnedItem)
  /-- Pruning drops only entries without items. -/
  dropped_empty : ∀ stamp item dropped left,
    WorklistEvent.returned stamp item dropped left ∈ d.history → ∀ e ∈ dropped, e.2.empty = true
  /-- After pruning no entry has a stamp above the one of the item that was returned. -/
  no_stale : ∀ stamp item dropped left,
    WorklistEvent.returned stamp item dropped left ∈ d.history → ∀ e ∈ left.entries, e.1 ≤ stamp

/-- What holds in every state of an exploration; the other parts of the law follow from it. -/
structure Lawful (d : Exploration ι) : Prop where
  /-- The queues hold what is pending. -/
  serves : ∃ pending, Serves d.history pending ∧
    List.Forall₂ LocalQueue.Represents d.execStack pending
  /-- Whenever an item was returned, pruning was harmless and complete. -/
  pruned : ∀ stamp item dropped left,
    WorklistEvent.returned stamp item dropped left ∈ d.history →
      (∀ e ∈ dropped, e.2.empty = true) ∧ ∀ e ∈ left.entries, e.1 ≤ stamp

/-- The driver starts lawfully. -/
lemma lawful_init : (init : Exploration ι).Lawful where
  serves := ⟨[[]], Serves.start,
    List.Forall₂.cons LocalQueue.represents_empty List.Forall₂.nil⟩
  pruned := fun _ _ _ _ h => absurd h List.not_mem_nil

/-- An event that returns no item says nothing about pruning. -/
lemma pruned_concat {h : List (WorklistEvent ι)} {e : WorklistEvent ι}
    (hpruned : ∀ stamp item dropped left, WorklistEvent.returned stamp item dropped left ∈ h →
      (∀ e ∈ dropped, e.2.empty = true) ∧ ∀ e ∈ left.entries, e.1 ≤ stamp)
    (hnew : ∀ stamp item dropped left, e = .returned stamp item dropped left →
      (∀ e ∈ dropped, e.2.empty = true) ∧ ∀ e ∈ left.entries, e.1 ≤ stamp) :
    ∀ stamp item dropped left, WorklistEvent.returned stamp item dropped left ∈ h ++ [e] →
      (∀ e ∈ dropped, e.2.empty = true) ∧ ∀ e ∈ left.entries, e.1 ≤ stamp := by
  intro stamp item dropped left hmem
  rcases List.mem_append.mp hmem with hmem | hmem
  · exact hpruned stamp item dropped left hmem
  · exact hnew stamp item dropped left (List.mem_singleton.mp hmem).symm

/-- Adding an item is lawful. -/
lemma Lawful.addToWorklist {d d' : Exploration ι} (hd : d.Lawful) {stamp : ℕ} {item : ι}
    (h : d.step (.addToWorklist stamp item) = some d') : d'.Lawful := by
  obtain ⟨stack, history⟩ := d
  obtain ⟨⟨pending, hserves, hrep⟩, hpruned⟩ := hd
  rcases hrep with _ | ⟨hq, hqs⟩
  · exact absurd h (by simp [step])
  · obtain rfl := Option.some.inj h
    exact ⟨⟨_, hserves.added stamp item, List.Forall₂.cons (hq.addToWorklist stamp item) hqs⟩,
      pruned_concat hpruned fun _ _ _ _ heq => by cases heq⟩

/-- Starting an execution is lawful. -/
lemma Lawful.pushExecution {d d' : Exploration ι} (hd : d.Lawful)
    (h : d.step .pushExecution = some d') : d'.Lawful := by
  obtain ⟨⟨pending, hserves, hrep⟩, hpruned⟩ := hd
  obtain rfl := Option.some.inj h
  exact ⟨⟨_, hserves.pushed, List.Forall₂.cons LocalQueue.represents_empty hrep⟩,
    pruned_concat hpruned fun _ _ _ _ heq => by cases heq⟩

/-- Asking for the next item is lawful. -/
lemma Lawful.getNextItem {d d' : Exploration ι} (hd : d.Lawful)
    (h : d.step .getNextItem = some d') : d'.Lawful := by
  obtain ⟨stack, history⟩ := d
  obtain ⟨⟨pending, hserves, hrep⟩, hpruned⟩ := hd
  rcases hrep with _ | @⟨q, p, qs, ps, hq, hqs⟩
  · exact absurd h (by simp [step])
  · rcases hnext : q.getNextItem with _ | ⟨⟨stamp, item⟩, q'⟩
    · have hd' : d' = ⟨qs, history ++ [.popped]⟩ := by
        simpa [step, hnext, popExecution] using h.symm
      rw [hd']
      rw [hq.eq_nil hnext] at hserves
      exact ⟨⟨ps, hserves.popped, hqs⟩, pruned_concat hpruned fun _ _ _ _ heq => by cases heq⟩
    · have hd' : d' = ⟨q'.restrictWorklist stamp :: qs, history ++ [.returned stamp item
          (q'.dropped (q'.restrictWorklist stamp)) (q'.restrictWorklist stamp)]⟩ := by
        simpa [step, hnext] using h.symm
      rw [hd']
      obtain ⟨rest, hrest, hq'⟩ := hq.getNextItem hnext
      refine ⟨⟨rest :: ps, hserves.returned _ _ hrest, List.Forall₂.cons (fun k => ?_) hqs⟩,
        pruned_concat hpruned fun _ _ _ _ heq => ?_⟩
      · rw [LocalQueue.items_restrictWorklist]
        exact hq' k
      · cases heq
        exact ⟨fun e he => LocalQueue.empty_of_mem_dropped he,
          fun e he => LocalQueue.le_of_mem_restrictWorklist hnext he⟩

/-- Every step is lawful. -/
lemma Lawful.step {d d' : Exploration ι} (hd : d.Lawful) {op : ExploreOp ι}
    (h : d.step op = some d') : d'.Lawful := by
  cases op with
  | addToWorklist stamp item => exact hd.addToWorklist h
  | pushExecution => exact hd.pushExecution h
  | getNextItem => exact hd.getNextItem h

/-- **The law of the worklist.**  In every exploration, whatever is added in whatever order and
whenever executions are pushed, every item that was added has been returned exactly once or is
still pending, and once; each call returns the last item added among those of the highest stamp,
and nothing only if nothing is pending; and restricting the worklist to the stamp of the returned
item drops only entries without items and leaves no entry above that stamp. -/
theorem explore_worklistLaw (ops : List (ExploreOp ι)) (d : Exploration ι)
    (h : exec Exploration.step init ops = some d) : d.WorklistLaw := by
  obtain ⟨⟨pending, hserves, hrep⟩, hpruned⟩ : d.Lawful :=
    exec_invariant (P := fun _ _ => True) (fun _ _ _ hd _ hstep => hd.step hstep) lawful_init
      (meets_of_forall fun _ _ => trivial) h
  refine ⟨⟨pending, hserves, hrep, hserves.perm⟩, fun hnil => ?_, fun s i ds l hmem =>
    (hpruned s i ds l hmem).1, fun s i ds l hmem => (hpruned s i ds l hmem).2⟩
  rw [hnil, List.forall₂_nil_left_iff] at hrep
  simpa [hrep] using hserves.perm

/-- An exploration in which items of one stamp are returned last in, first out, an execution is
pushed and popped, and the worksets of the stamps 5 and 4 are dropped. -/
def sampleOps : List (ExploreOp ℕ) :=
  [.addToWorklist 3 0, .addToWorklist 5 1, .addToWorklist 4 2, .addToWorklist 4 3, .getNextItem,
    .getNextItem, .pushExecution, .addToWorklist 7 4, .getNextItem, .getNextItem, .getNextItem,
    .getNextItem, .getNextItem]

/-- What the sample exploration returns. -/
lemma sampleOps_returned : (exec Exploration.step init sampleOps).map
    (fun d => d.history.filterMap WorklistEvent.returnedItem) =
      some [(5, 1), (4, 3), (7, 4), (4, 2), (3, 0)] := by decide

/-- The sample exploration ends, and obeys the law. -/
theorem sampleOps_worklistLaw : ∃ d, exec Exploration.step init sampleOps = some d ∧
    d.WorklistLaw := by
  obtain ⟨d, hd, -⟩ := Option.map_eq_some_iff.mp sampleOps_returned
  exact ⟨d, hd, explore_worklistLaw _ _ hd⟩

end Exploration

end GenMC
