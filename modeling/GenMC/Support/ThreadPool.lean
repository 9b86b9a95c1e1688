import GenMC.Lib.PartialRun
import Mathlib.Data.List.Perm.Basic
import Mathlib.Data.Multiset.AddSub
import Mathlib.Tactic.Abel

/-!
# The thread pool

Workers pop tasks from a shared queue, run them, and wait on a condition variable while there is
nothing to pop.  A running task submits its subtasks; which ones is given in advance as a tree,
their number and the time of each submission are arbitrary.  The queue and the counter of the
remaining tasks have a mutex each, so that a worker may find the queue empty, then be overtaken by
a submission and its notification, and only then look at the counter.  A step of the pool is what
one worker does inside one critical section, and the steps of the workers interleave freely.
-/

namespace GenMC

open PartialRun

/-- A task with the tasks that it submits while it runs. -/
inductive Task (α : Type*)
  | node (label : α) (subtasks : List (Task α))

namespace Task

variable {α : Type*}

/-- The tasks that a task submits. -/
def subtasks : Task α → List (Task α)
  | node _ ts => ts

mutual

/-- All tasks of a tree. -/
def nodes : Task α → List (Task α)
  | node a ts => node a ts :: nodesOf ts

/-- All tasks of some trees. -/
def nodesOf : List (Task α) → List (Task α)
  | [] => []
  | t :: ts => nodes t ++ nodesOf ts

end

/-- A tree has its root and the trees of the subtasks. -/
lemma nodes_eq (t : Task α) : t.nodes = t :: nodesOf t.subtasks := by
  cases t with
  | node a ts => rw [nodes, subtasks]

@[simp] lemma nodesOf_nil : nodesOf ([] : List (Task α)) = [] := by rw [nodesOf]

@[simp] lemma nodesOf_cons (t : Task α) (ts : List (Task α)) :
    nodesOf (t :: ts) = t.nodes ++ nodesOf ts := by rw [nodesOf]

@[simp] lemma nodesOf_append (ts us : List (Task α)) :
    nodesOf (ts ++ us) = nodesOf ts ++ nodesOf us := by
  induction ts with
  | nil => simp
  | cons t ts ih => rw [List.cons_append, nodesOf_cons, nodesOf_cons, ih, List.append_assoc]

/-- The trees may come in any order. -/
lemma nodesOf_perm {ts us : List (Task α)} (h : ts.Perm us) : (nodesOf ts).Perm (nodesOf us) := by
  induction h with
  | nil => exact List.Perm.refl _
  | cons t _ ih =>
    rw [nodesOf_cons, nodesOf_cons]
    exact ih.append_left _
  | swap t u ts =>
    rw [nodesOf_cons, nodesOf_cons, nodesOf_cons, nodesOf_cons, ← List.append_assoc,
      ← List.append_assoc]
    exact List.perm_append_comm.append_right _
  | trans _ _ ih₁ ih₂ => exact ih₁.trans ih₂

end Task

/-- Where a worker is. -/
inductive Worker (α : Type*)
  /-- In `popTask`, before it tries to pop from the queue. -/
  | popping
  /-- In `popTask`, after it has found the queue empty. -/
  | checking
  /-- In `popTask`, blocked in the wait for the condition variable. -/
  | waiting
  /-- Running a task that has yet to submit some of its subtasks. -/
  | running (task : Task α) (todo : List (Task α))
  /-- Has left its loop. -/
  | exited

namespace Worker

variable {α : Type*}

/-- The worker is blocked in wait. -/
def isWaiting : Worker α → Bool
  | waiting => true
  | _ => false

/-- The worker has left its loop. -/
def isExited : Worker α → Bool
  | exited => true
  | _ => false

/-- The worker will look at the queue before it waits. -/
def isAwake : Worker α → Bool
  | popping => true
  | running .. => true
  | _ => false

/-- The task that the worker runs. -/
def task? : Worker α → Option (Task α)
  | running t _ => some t
  | _ => none

/-- The tasks that the worker has yet to submit. -/
def todo : Worker α → List (Task α)
  | running _ ts => ts
  | _ => []

/-- A notification wakes a waiting worker, which then starts over. -/
def wake : Worker α → Worker α
  | waiting => popping
  | w => w

end Worker

/-- `ThreadPool`, with what has been submitted and executed so far. -/
structure ThreadPool (α : Type*) where
  /-- `GlobalWorkQueue`: the queued tasks, the next one last. -/
  queue : List (Task α)
  /-- `remainingTasks_`, a counter of 32 bits that does not overflow. -/
  remaining : ℕ
  workers : List (Worker α)
  submitted : List (Task α)
  executed : List (Task α)

/-- What a worker does inside a critical section. -/
inductive PoolStep
  /-- `tryPopPoolQueue`. -/
  | pop (w : ℕ)
  /-- The test of the counter in `popTask`, and the wait. -/
  | check (w : ℕ)
  /-- `submit` by a running task, which notifies the given worker if one is waiting. -/
  | submit (w : ℕ) (woken : Option ℕ)
  /-- The end of a task. -/
  | finish (w : ℕ)
  /-- A spurious wake-up. -/
  | wakeUp (w : ℕ)
deriving DecidableEq

/-- A spurious wake-up. -/
def PoolStep.isWakeUp : PoolStep → Bool
  | wakeUp _ => true
  | _ => false

namespace ThreadPool

variable {α : Type*}

/-- The constructor: the first of the workers submits the root. -/
def init (n : ℕ) (root : Task α) : ThreadPool α :=
  let tasks := if n = 0 then [] else [root]
  { queue := tasks, remaining := tasks.length, workers := List.replicate n .popping
    submitted := tasks, executed := [] }

/-- `GlobalWorkQueue::tryPop`. -/
def tryPop (queue : List (Task α)) : Option (Task α × List (Task α)) :=
  queue.getLast?.map fun t => (t, queue.dropLast)

/-- `notify_one`: some waiting worker wakes up, or nobody does if none is waiting. -/
def notifyOne (workers : List (Worker α)) : Option ℕ → Option (List (Worker α))
  | some u =>
    match workers[u]? with
    | some .waiting => some (workers.set u .popping)
    | _ => none
  | none => if workers.any Worker.isWaiting then none else some workers

/-- `notify_all`. -/
def notifyAll (workers : List (Worker α)) : List (Worker α) := workers.map Worker.wake

/-- One step of the pool. -/
def step (p : ThreadPool α) : PoolStep → Option (ThreadPool α)
  | .pop w =>
    match p.workers[w]? with
    | some .popping =>
      match tryPop p.queue with
      | some (t, queue) =>
        some { p with queue := queue, workers := p.workers.set w (.running t t.subtasks) }
      | none => some { p with workers := p.workers.set w .checking }
    | _ => none
  | .check w =>
    match p.workers[w]? with
    | some .checking =>
      if p.remaining = 0 then some { p with workers := p.workers.set w .exited }
      else some { p with workers := p.workers.set w .waiting }
    | _ => none
  | .submit w woken =>
    match p.workers[w]? with
    | some (.running t (s :: ss)) =>
      (notifyOne (p.workers.set w (.running t ss)) woken).map fun workers =>
        { p with
          remaining := p.remaining + 1
          queue := p.queue ++ [s]
          submitted := p.submitted ++ [s]
          workers := workers }
    | _ => none
  | .finish w =>
    match p.workers[w]? with
    | some (.running t []) =>
      if p.remaining - 1 = 0 then
        some { p with
          remaining := p.remaining - 1
          executed := p.executed ++ [t]
          workers := (notifyAll p.workers).set w .exited }
      else
        some { p with
          remaining := p.remaining - 1
          executed := p.executed ++ [t]
          workers := p.workers.set w .popping }
    | _ => none
  | .wakeUp w =>
    match p.workers[w]? with
    | some .waiting => some { p with workers := p.workers.set w .popping }
    | _ => none

/-- The tasks that are running. -/
def running (p : ThreadPool α) : List (Task α) := p.workers.filterMap Worker.task?

/-- The tasks that the running tasks have yet to submit. -/
def todo (p : ThreadPool α) : List (Task α) := p.workers.flatMap Worker.todo

/-! ## Notifications -/

/-- Some waiting workers, counted by `k`, have been woken up. -/
inductive Woken : ℕ → List (Worker α) → List (Worker α) → Prop
  | nil : Woken 0 [] []
  | keep {k ws ws'} (w : Worker α) (h : Woken k ws ws') : Woken k (w :: ws) (w :: ws')
  | wake {k ws ws'} (h : Woken k ws ws') : Woken (k + 1) (.waiting :: ws) (.popping :: ws')

namespace Woken

/-- Nobody has been woken up. -/
lemma refl : ∀ ws : List (Worker α), Woken 0 ws ws
  | [] => nil
  | w :: ws => keep w (refl ws)

/-- Notifying all wakes the waiting workers up. -/
lemma notifyAll : ∀ ws : List (Worker α), ∃ k, Woken k ws (ThreadPool.notifyAll ws)
  | [] => ⟨0, nil⟩
  | w :: ws => by
    obtain ⟨k, h⟩ := notifyAll ws
    cases w with
    | waiting => exact ⟨k + 1, wake h⟩
    | popping => exact ⟨k, keep _ h⟩
    | checking => exact ⟨k, keep _ h⟩
    | running t ts => exact ⟨k, keep _ h⟩
    | exited => exact ⟨k, keep _ h⟩

/-- Waking one worker up. -/
lemma set {ws : List (Worker α)} {u : ℕ} (h : ws[u]? = some .waiting) :
    Woken 1 ws (ws.set u .popping) := by
  induction ws generalizing u with
  | nil => exact absurd h (by simp)
  | cons w ws ih =>
    cases u with
    | zero =>
      obtain rfl : w = .waiting := Option.some.inj h
      exact wake (refl ws)
    | succ u => exact keep w (ih h)

/-- Notifying one wakes at most one worker up. -/
lemma notifyOne {ws ws' : List (Worker α)} {woken : Option ℕ}
    (h : ThreadPool.notifyOne ws woken = some ws') : ∃ k ≤ 1, Woken k ws ws' := by
  cases woken with
  | none =>
    simp only [ThreadPool.notifyOne] at h
    split at h
    · exact absurd h (by simp)
    · exact ⟨0, Nat.zero_le 1, Option.some.inj h ▸ refl ws⟩
  | some u =>
    simp only [ThreadPool.notifyOne] at h
    split at h
    · next hu => exact ⟨1, le_rfl, Option.some.inj h ▸ set hu⟩
    · exact absurd h (by simp)

variable {k : ℕ} {ws ws' : List (Worker α)}

/-- Not more workers are woken up than there are. -/
lemma le_length (h : Woken k ws ws') : k ≤ ws.length := by
  induction h with
  | nil => exact le_rfl
  | keep w _ ih => exact ih.trans (Nat.le_succ _)
  | wake _ ih => exact Nat.succ_le_succ ih

lemma length_eq (h : Woken k ws ws') : ws'.length = ws.length := by
  induction h with
  | nil => rfl
  | keep w _ ih => rw [List.length_cons, List.length_cons, ih]
  | wake _ ih => rw [List.length_cons, List.length_cons, ih]

/-- The running tasks stay the same. -/
lemma filterMap_task? (h : Woken k ws ws') :
    ws'.filterMap Worker.task? = ws.filterMap Worker.task? := by
  induction h with
  | nil => rfl
  | keep w _ ih => rw [List.filterMap_cons, List.filterMap_cons, ih]
  | wake _ ih => exact ih

/-- The tasks that are yet to be submitted stay the same. -/
lemma flatMap_todo (h : Woken k ws ws') : ws'.flatMap Worker.todo = ws.flatMap Worker.todo := by
  induction h with
  | nil => rfl
  | keep w _ ih => rw [List.flatMap_cons, List.flatMap_cons, ih]
  | wake _ ih => exact ih

/-- A worker was there before, or has been woken up. -/
lemma mem_cases (h : Woken k ws ws') {x : Worker α} (hx : x ∈ ws') : x ∈ ws ∨ x = .popping := by
  induction h with
  | nil => exact Or.inl hx
  | keep w _ ih =>
    rcases List.mem_cons.mp hx with rfl | hx
    · exact Or.inl List.mem_cons_self
    · exact (ih hx).imp_left (List.mem_cons_of_mem _)
  | wake _ ih =>
    rcases List.mem_cons.mp hx with rfl | hx
    · exact Or.inr rfl
    · exact (ih hx).imp_left (List.mem_cons_of_mem _)

/-- Only waiting workers are woken up. -/
lemma mem_of_not_waiting (h : Woken k ws ws') {x : Worker α} (hx : x ∈ ws)
    (hne : x.isWaiting = false) : x ∈ ws' := by
  induction h with
  | nil => exact hx
  | keep w _ ih =>
    rcases List.mem_cons.mp hx with rfl | hx
    · exact List.mem_cons_self
    · exact List.mem_cons_of_mem _ (ih hx)
  | wake _ ih =>
    rcases List.mem_cons.mp hx with rfl | hx
    · exact Bool.noConfusion hne
    · exact List.mem_cons_of_mem _ (ih hx)

end Woken

/-! ## What a step does -/

/-- A worker goes from one state to another; `k` workers are woken up, and the list of all workers
becomes `ws`. -/
inductive Move (p : ThreadPool α) (k : ℕ) (ws : List (Worker α)) :
    Worker α → Worker α → ThreadPool α → Prop
  | popTask {t queue} (hk : k = 0) (hqueue : p.queue = queue ++ [t]) :
      Move p k ws .popping (.running t t.subtasks) { p with queue := queue, workers := ws }
  | findEmpty (hk : k = 0) (hqueue : p.queue = []) :
      Move p k ws .popping .checking { p with workers := ws }
  | leave (hk : k = 0) (h : p.remaining = 0) :
      Move p k ws .checking .exited { p with workers := ws }
  | wait (hk : k = 0) (h : p.remaining ≠ 0) :
      Move p k ws .checking .waiting { p with workers := ws }
  | submit {t s ss} (hk : k ≤ 1) :
      Move p k ws (.running t (s :: ss)) (.running t ss)
        { p with
          remaining := p.remaining + 1
          queue := p.queue ++ [s]
          submitted := p.submitted ++ [s]
          workers := ws }
  | finishLast {t} (h : p.remaining - 1 = 0) (hws : ∀ x ∈ ws, x.isWaiting = false) :
      Move p k ws (.running t []) .exited
        { p with remaining := p.remaining - 1, executed := p.executed ++ [t], workers := ws }
  | finish {t} (hk : k = 0) (h : p.remaining - 1 ≠ 0) :
      Move p k ws (.running t []) .popping
        { p with remaining := p.remaining - 1, executed := p.executed ++ [t], workers := ws }
  | wakeUp (hk : k = 0) : Move p k ws .waiting .popping { p with workers := ws }

/-- After a notification of all no worker is waiting. -/
lemma isWaiting_wake (w : Worker α) : w.wake.isWaiting = false := by
  cases w <;> rfl

/-- Every step is a move of one worker, which may wake others up; only a spurious wake-up is a move
of a waiting worker. -/
lemma step_move {p p' : ThreadPool α} {s : PoolStep} (h : p.step s = some p') :
    ∃ w a b k, p.workers[w]? = some a ∧ Woken k (p.workers.set w b) p'.workers ∧
      Move p k p'.workers a b p' ∧ a.isWaiting = s.isWakeUp := by
  cases s with
  | pop w =>
    simp only [step] at h
    split at h
    · next hw =>
      split at h
      · next t queue hpop =>
        obtain rfl := Option.some.inj h
        obtain ⟨t', ht', heq⟩ := Option.map_eq_some_iff.mp hpop
        obtain ⟨rfl, rfl⟩ := Prod.mk.inj heq
        exact ⟨w, _, _, 0, hw, Woken.refl _, Move.popTask rfl
          (List.dropLast_append_getLast? _ ht').symm, rfl⟩
      · next hpop =>
        obtain rfl := Option.some.inj h
        have hempty : p.queue = [] :=
          List.getLast?_eq_none_iff.mp (Option.map_eq_none_iff.mp hpop)
        exact ⟨w, _, _, 0, hw, Woken.refl _, Move.findEmpty rfl hempty, rfl⟩
    · exact absurd h (by simp)
  | check w =>
    simp only [step] at h
    split at h
    · next hw =>
      split at h
      · next hzero =>
        obtain rfl := Option.some.inj h
        exact ⟨w, _, _, 0, hw, Woken.refl _, Move.leave rfl hzero, rfl⟩
      · next hne =>
        obtain rfl := Option.some.inj h
        exact ⟨w, _, _, 0, hw, Woken.refl _, Move.wait rfl hne, rfl⟩
    · exact absurd h (by simp)
  | submit w woken =>
    simp only [step] at h
    split at h
    · next hw =>
      obtain ⟨ws, hws, rfl⟩ := Option.map_eq_some_iff.mp h
      obtain ⟨k, hk, hwoken⟩ := Woken.notifyOne hws
      exact ⟨w, _, _, k, hw, hwoken, Move.submit hk, rfl⟩
    · exact absurd h (by simp)
  | finish w =>
    simp only [step] at h
    split at h
    · next t hw =>
      split at h
      · next hlast =>
        obtain rfl := Option.some.inj h
        have hset : (notifyAll p.workers).set w .exited = notifyAll (p.workers.set w .exited) := by
          rw [notifyAll, notifyAll, List.map_set]
          rfl
        obtain ⟨k, hwoken⟩ := Woken.notifyAll (p.workers.set w .exited)
        rw [← hset] at hwoken
        refine ⟨w, _, _, k, hw, hwoken, Move.finishLast hlast fun x hx => ?_, rfl⟩
        rw [hset] at hx
        obtain ⟨y, -, rfl⟩ := List.mem_map.mp hx
        exact isWaiting_wake y
      · next hne =>
        obtain rfl := Option.some.inj h
        exact ⟨w, _, _, 0, hw, Woken.refl _, Move.finish rfl hne, rfl⟩
    · exact absurd h (by simp)
  | wakeUp w =>
    simp only [step] at h
    split at h
    · next hw =>
      obtain rfl := Option.some.inj h
      exact ⟨w, _, _, 0, hw, Woken.refl _, Move.wakeUp rfl, rfl⟩
    · exact absurd h (by simp)

/-! ## The invariant -/

/-- What holds in every state of a pool of `n` workers that was started with `root`. -/
structure Inv (n : ℕ) (root : Task α) (p : ThreadPool α) : Prop where
  size : p.workers.length = n
  /-- The counter counts the queued and the running tasks. -/
  counter : p.remaining = p.queue.length + p.running.length
  /-- A submitted task is queued, running or has been executed, and only once. -/
  once : p.submitted.Perm (p.executed ++ p.running ++ p.queue)
  /-- A task of the tree is in addition yet to be submitted, or below such a task. -/
  tree : (if n = 0 then [] else root.nodes).Perm
    (p.executed ++ p.running ++ Task.nodesOf (p.queue ++ p.todo))
  /-- While a task is queued some worker will look at the queue. -/
  awake : p.queue ≠ [] → ∃ x ∈ p.workers, x.isAwake = true
  /-- A worker leaves only when no task remains. -/
  left : (∃ x ∈ p.workers, x.isExited = true) → p.remaining = 0
  /-- When no task remains no worker waits. -/
  drained : p.remaining = 0 → ∀ x ∈ p.workers, x.isWaiting = false

/-- A worker and the others. -/
lemma exists_others {ws : List (Worker α)} {w : ℕ} {a : Worker α} (h : ws[w]? = some a) :
    ∃ rest, ws.Perm (a :: rest) ∧ ∀ b, (ws.set w b).Perm (b :: rest) := by
  obtain ⟨hlt, rfl⟩ := List.getElem?_eq_some_iff.mp h
  exact ⟨ws.eraseIdx w, (List.getElem_cons_eraseIdx_perm hlt).symm,
    fun b => List.set_perm_cons_eraseIdx hlt b⟩

/-- The running tasks of one worker and of the others. -/
lemma filterMap_task?_perm {ws rest : List (Worker α)} {a : Worker α} (h : ws.Perm (a :: rest)) :
    (ws.filterMap Worker.task?).Perm (a.task?.toList ++ rest.filterMap Worker.task?) := by
  refine (h.filterMap _).trans (List.Perm.of_eq ?_)
  rw [List.filterMap_cons]
  cases a.task? <;> rfl

/-- What a step does, for one worker and the others. -/
structure Stepped (p p' : ThreadPool α) (ws : List (Worker α)) (k : ℕ) (a b : Worker α)
    (rest : List (Worker α)) : Prop where
  move : Move p k ws a b p'
  workers : p'.workers = ws
  before : p.workers.Perm (a :: rest)
  woken : ∃ mid, mid.Perm (b :: rest) ∧ Woken k mid p'.workers

/-- Every step is a move of one worker, in which the others stay or are woken up. -/
lemma step_stepped {p p' : ThreadPool α} {s : PoolStep} (h : p.step s = some p') :
    ∃ ws k a b rest, Stepped p p' ws k a b rest ∧ a.isWaiting = s.isWakeUp := by
  obtain ⟨w, a, b, k, hw, hwoken, hmove, ha⟩ := step_move h
  obtain ⟨rest, hbefore, hset⟩ := exists_others hw
  exact ⟨_, k, a, b, rest, ⟨hmove, rfl, hbefore, _, hset b, hwoken⟩, ha⟩

namespace Stepped

variable {p p' : ThreadPool α} {ws : List (Worker α)} {k : ℕ} {a b : Worker α}
  {rest : List (Worker α)}

/-- The running tasks before a step. -/
lemma running_perm (h : Stepped p p' ws k a b rest) :
    p.running.Perm (a.task?.toList ++ rest.filterMap Worker.task?) :=
  filterMap_task?_perm h.before

/-- The running tasks after a step. -/
lemma running_perm' (h : Stepped p p' ws k a b rest) :
    p'.running.Perm (b.task?.toList ++ rest.filterMap Worker.task?) := by
  obtain ⟨mid, hmid, hwoken⟩ := h.woken
  rw [running, hwoken.filterMap_task?]
  exact filterMap_task?_perm hmid

/-- The tasks to be submitted before a step. -/
lemma todo_perm (h : Stepped p p' ws k a b rest) :
    p.todo.Perm (a.todo ++ rest.flatMap Worker.todo) :=
  (h.before.flatMap_right _).trans (List.Perm.of_eq List.flatMap_cons)

/-- The tasks to be submitted after a step. -/
lemma todo_perm' (h : Stepped p p' ws k a b rest) :
    p'.todo.Perm (b.todo ++ rest.flatMap Worker.todo) := by
  obtain ⟨mid, hmid, hwoken⟩ := h.woken
  rw [todo, hwoken.flatMap_todo]
  exact (hmid.flatMap_right _).trans (List.Perm.of_eq List.flatMap_cons)

lemma length_eq (h : Stepped p p' ws k a b rest) : p'.workers.length = p.workers.length := by
  obtain ⟨mid, hmid, hwoken⟩ := h.woken
  rw [hwoken.length_eq, hmid.length_eq, h.before.length_eq, List.length_cons, List.length_cons]

/-- Where a worker of the new state comes from. -/
lemma mem_cases (h : Stepped p p' ws k a b rest) {x : Worker α} (hx : x ∈ p'.workers) :
    x = b ∨ x ∈ p.workers ∨ x = .popping := by
  obtain ⟨mid, hmid, hwoken⟩ := h.woken
  rcases hwoken.mem_cases hx with hx | hx
  · rcases List.mem_cons.mp (hmid.mem_iff.mp hx) with hx | hx
    · exact Or.inl hx
    · exact Or.inr (Or.inl (h.before.mem_iff.mpr (List.mem_cons_of_mem _ hx)))
  · exact Or.inr (Or.inr hx)

/-- The worker that has moved is there, unless it waits. -/
lemma mem_moved (h : Stepped p p' ws k a b rest) (hb : b.isWaiting = false) : b ∈ p'.workers := by
  obtain ⟨mid, hmid, hwoken⟩ := h.woken
  exact hwoken.mem_of_not_waiting (hmid.mem_iff.mpr List.mem_cons_self) hb

/-- The other workers are there, unless they waited. -/
lemma mem_other (h : Stepped p p' ws k a b rest) {x : Worker α} (hx : x ∈ p.workers) (hne : x ≠ a)
    (hwait : x.isWaiting = false) : x ∈ p'.workers := by
  obtain ⟨mid, hmid, hwoken⟩ := h.woken
  have hrest := (List.mem_cons.mp (h.before.mem_iff.mp hx)).resolve_left hne
  exact hwoken.mem_of_not_waiting (hmid.mem_iff.mpr (List.mem_cons_of_mem _ hrest)) hwait

variable {n : ℕ} {root : Task α}

/-- While a task runs some task remains. -/
lemma remaining_pos {t : Task α} {ts : List (Task α)} (h : Stepped p p' ws k (.running t ts) b rest)
    (hp : p.Inv n root) : 0 < p.remaining := by
  rw [hp.counter, h.running_perm.length_eq]
  simp [Worker.task?]

/-- A step keeps the counter right. -/
lemma counter (h : Stepped p p' ws k a b rest) (hp : p.Inv n root) :
    p'.remaining = p'.queue.length + p'.running.length := by
  have hc := hp.counter
  have hr := h.running_perm.length_eq
  have hr' := h.running_perm'.length_eq
  rw [List.length_append] at hr hr'
  cases h.move with
  | popTask hk hqueue =>
    rw [hqueue] at hc
    simp only [Worker.task?, Option.toList, List.length_append, List.length_cons,
      List.length_nil] at hc hr hr' ⊢
    omega
  | findEmpty hk hqueue => simpa [Worker.task?, hr, hr'] using hc
  | leave hk hzero => simpa [Worker.task?, hr, hr'] using hc
  | wait hk hne => simpa [Worker.task?, hr, hr'] using hc
  | submit hk =>
    simp only [Worker.task?, Option.toList, List.length_append, List.length_cons,
      List.length_nil] at hc hr hr' ⊢
    omega
  | finishLast hlast hws =>
    simp only [Worker.task?, Option.toList, List.length_cons, List.length_nil] at hc hr hr' ⊢
    omega
  | finish hk hne =>
    simp only [Worker.task?, Option.toList, List.length_cons, List.length_nil] at hc hr hr' ⊢
    omega
  | wakeUp hk => simpa [Worker.task?, hr, hr'] using hc

/-- A step neither loses nor duplicates a submitted task. -/
lemma once (h : Stepped p p' ws k a b rest) (hp : p.Inv n root) :
    p'.submitted.Perm (p'.executed ++ p'.running ++ p'.queue) := by
  have hc := hp.once
  have hr := h.running_perm
  have hr' := h.running_perm'
  rw [← Multiset.coe_eq_coe] at hc hr hr' ⊢
  simp only [← Multiset.coe_add] at hc hr hr' ⊢
  rw [hr] at hc
  rw [hr']
  cases h.move with
  | popTask hk hqueue =>
    rw [hqueue] at hc
    simp only [Worker.task?, Option.toList, ← Multiset.coe_add, Multiset.coe_nil,
      Multiset.coe_singleton, zero_add] at hc ⊢
    rw [hc]
    abel
  | findEmpty hk hqueue => exact hc
  | leave hk hzero => exact hc
  | wait hk hne => exact hc
  | submit hk =>
    simp only [Worker.task?, Option.toList, ← Multiset.coe_add, Multiset.coe_singleton] at hc ⊢
    rw [hc]
    abel
  | finishLast hlast hws =>
    simp only [Worker.task?, Option.toList, ← Multiset.coe_add, Multiset.coe_nil,
      Multiset.coe_singleton, zero_add] at hc ⊢
    rw [hc]
    abel
  | finish hk hne =>
    simp only [Worker.task?, Option.toList, ← Multiset.coe_add, Multiset.coe_nil,
      Multiset.coe_singleton, zero_add] at hc ⊢
    rw [hc]
    abel
  | wakeUp hk => exact hc

/-- A step neither loses nor duplicates a task of the tree. -/
lemma tree (h : Stepped p p' ws k a b rest) (hp : p.Inv n root) :
    (if n = 0 then [] else root.nodes).Perm
      (p'.executed ++ p'.running ++ Task.nodesOf (p'.queue ++ p'.todo)) := by
  have hc := hp.tree
  have hr := h.running_perm
  have hr' := h.running_perm'
  have ht := Task.nodesOf_perm h.todo_perm
  have ht' := Task.nodesOf_perm h.todo_perm'
  rw [Task.nodesOf_append] at hc ht ht' ⊢
  rw [← Multiset.coe_eq_coe] at hc hr hr' ht ht' ⊢
  simp only [← Multiset.coe_add] at hc hr hr' ht ht' ⊢
  rw [hr, ht] at hc
  rw [hr', ht', hc]
  cases h.move with
  | @popTask t queue hk hqueue =>
    rw [hqueue]
    simp only [Worker.task?, Worker.todo, Option.toList, Task.nodesOf_append, Task.nodesOf_cons,
      Task.nodesOf_nil, List.append_nil, ← Multiset.coe_add, Multiset.coe_nil,
      Multiset.coe_singleton, zero_add]
    rw [t.nodes_eq, ← Multiset.cons_coe, ← Multiset.singleton_add]
    abel
  | findEmpty hk hqueue => rfl
  | leave hk hzero => rfl
  | wait hk hne => rfl
  | submit hk =>
    simp only [Worker.task?, Worker.todo, Task.nodesOf_append, Task.nodesOf_cons, Task.nodesOf_nil,
      List.append_nil, ← Multiset.coe_add]
    abel
  | finishLast hlast hws =>
    simp only [Worker.task?, Worker.todo, Option.toList, ← Multiset.coe_add, Multiset.coe_nil,
      zero_add]
    abel
  | finish hk hne =>
    simp only [Worker.task?, Worker.todo, Option.toList, ← Multiset.coe_add, Multiset.coe_nil,
      zero_add]
    abel
  | wakeUp hk => rfl

/-- A step leaves some worker that will look at a queued task. -/
lemma awake (h : Stepped p p' ws k a b rest) (hp : p.Inv n root) (hne : p'.queue ≠ []) :
    ∃ x ∈ p'.workers, x.isAwake = true := by
  have hmoved := h.mem_moved
  have hother := fun x => @mem_other _ p p' ws k a b rest h x
  have hc := hp.counter
  have hr := h.running_perm.length_eq
  cases h.move with
  | popTask hk hqueue => exact ⟨_, hmoved rfl, rfl⟩
  | findEmpty hk hqueue => exact absurd hqueue hne
  | leave hk hzero =>
    have hlen : p.queue.length = 0 := by omega
    exact absurd (List.eq_nil_of_length_eq_zero hlen) hne
  | wait hk hpos =>
    obtain ⟨x, hx, hawake⟩ := hp.awake hne
    have hx' : x ≠ .checking := by
      rintro rfl
      exact Bool.noConfusion hawake
    have hwait : x.isWaiting = false := by
      cases x with
      | waiting => exact Bool.noConfusion hawake
      | _ => rfl
    exact ⟨x, hother x hx hx' hwait, hawake⟩
  | submit hk => exact ⟨_, hmoved rfl, rfl⟩
  | finishLast hlast hws =>
    simp only [Worker.task?, Option.toList, List.length_append, List.length_singleton] at hr
    have hlen : p.queue.length = 0 := by omega
    exact absurd (List.eq_nil_of_length_eq_zero hlen) hne
  | finish hk hpos => exact ⟨_, hmoved rfl, rfl⟩
  | wakeUp hk => exact ⟨_, hmoved rfl, rfl⟩

/-- After a step a worker has left only if no task remains. -/
lemma left (h : Stepped p p' ws k a b rest) (hp : p.Inv n root)
    (hex : ∃ x ∈ p'.workers, x.isExited = true) : p'.remaining = 0 := by
  obtain ⟨x, hx, hexited⟩ := hex
  have hold : b.isExited = false → p.remaining = 0 := by
    intro hb
    rcases h.mem_cases hx with rfl | hx | rfl
    · exact absurd hexited (by rw [hb]; exact Bool.false_ne_true)
    · exact hp.left ⟨x, hx, hexited⟩
    · exact Bool.noConfusion hexited
  have hc := hp.counter
  have hr := h.running_perm.length_eq
  cases h.move with
  | popTask hk hqueue => exact hold rfl
  | findEmpty hk hqueue => exact hold rfl
  | leave hk hzero => exact hzero
  | wait hk hpos => exact hold rfl
  | submit hk =>
    have hzero := hold rfl
    simp only [Worker.task?, Option.toList, List.length_append, List.length_singleton] at hr
    omega
  | finishLast hlast hws => exact hlast
  | finish hk hpos =>
    have hzero := hold rfl
    rw [hzero] at hpos
    exact absurd rfl hpos
  | wakeUp hk => exact hold rfl

/-- After a step no worker waits if no task remains. -/
lemma drained (h : Stepped p p' ws k a b rest) (hp : p.Inv n root) (hzero : p'.remaining = 0) :
    ∀ x ∈ p'.workers, x.isWaiting = false := by
  intro x hx
  have hold : b.isWaiting = false → p.remaining = 0 → x.isWaiting = false := by
    intro hb hzero
    rcases h.mem_cases hx with rfl | hx | rfl
    · exact hb
    · exact hp.drained hzero x hx
    · rfl
  cases h.move with
  | popTask hk hqueue => exact hold rfl hzero
  | findEmpty hk hqueue => exact hold rfl hzero
  | leave hk hzero => exact hold rfl hzero
  | wait hk hpos => exact absurd hzero hpos
  | submit hk => exact absurd hzero (Nat.succ_ne_zero _)
  | finishLast hlast hws => exact hws x hx
  | finish hk hpos => exact absurd hzero hpos
  | wakeUp hk => exact hold rfl hzero

/-- A step keeps the invariant. -/
lemma inv (h : Stepped p p' ws k a b rest) (hp : p.Inv n root) : p'.Inv n root where
  size := h.length_eq.trans hp.size
  counter := h.counter hp
  once := h.once hp
  tree := h.tree hp
  awake := h.awake hp
  left := h.left hp
  drained := h.drained hp

end Stepped

/-- The invariant holds at the start. -/
lemma inv_init (n : ℕ) (root : Task α) : (init n root).Inv n root := by
  have hrun : (init n root).running = [] := by
    simp [running, init, Worker.task?]
  have htodo : (init n root).todo = [] := by
    simp [todo, init, Worker.todo]
  refine ⟨List.length_replicate, ?_, ?_, ?_, ?_, ?_, ?_⟩
  · rw [hrun]
    rfl
  · rw [hrun]
    exact List.Perm.refl _
  · rw [hrun, htodo]
    unfold init
    split <;> simp
  · intro hne
    have hn : n ≠ 0 := by
      rintro rfl
      exact hne rfl
    exact ⟨.popping, List.mem_replicate.mpr ⟨hn, rfl⟩, rfl⟩
  · rintro ⟨x, hx, hexited⟩
    rw [(List.mem_replicate.mp hx).2] at hexited
    exact Bool.noConfusion hexited
  · intro _ x hx
    rw [(List.mem_replicate.mp hx).2]
    rfl

/-- The invariant holds in every state that a run reaches. -/
lemma inv_exec {n : ℕ} {root : Task α} {steps : List PoolStep} {p : ThreadPool α}
    (h : exec step (init n root) steps = some p) : p.Inv n root := by
  refine exec_invariant (P := fun _ _ => True) (fun q s q' hq _ hstep => ?_) (inv_init n root)
    (meets_of_forall fun _ _ => trivial) h
  obtain ⟨ws, k, a, b, rest, hstepped, -⟩ := step_stepped hstep
  exact hstepped.inv hq

/-! ## Progress -/

/-- What a worker has yet to do; a task that is yet to be submitted counts with its tree. -/
def workerCost : Worker α → ℕ
  | .popping => 2
  | .checking => 1
  | .waiting => 0
  | .running _ ts => 3 + 5 * (Task.nodesOf ts).length
  | .exited => 0

/-- What a queued task makes the workers do. -/
def taskCost (t : Task α) : ℕ := 2 + 5 * (Task.nodesOf t.subtasks).length

/-- A bound on the steps that are left, apart from spurious wake-ups and their consequences. -/
def cost (p : ThreadPool α) : ℕ :=
  (p.queue.map taskCost).sum + (p.workers.map workerCost).sum +
    if p.remaining = 0 then 0 else 2 * p.workers.length

/-- A worker that is woken up has two more steps to do. -/
lemma Woken.sum_workerCost {k : ℕ} {ws ws' : List (Worker α)} (h : Woken k ws ws') :
    (ws'.map workerCost).sum = (ws.map workerCost).sum + 2 * k := by
  induction h with
  | nil => rfl
  | keep w _ ih =>
    rw [List.map_cons, List.map_cons, List.sum_cons, List.sum_cons, ih, add_assoc]
  | wake _ ih =>
    rw [List.map_cons, List.map_cons, List.sum_cons, List.sum_cons, ih, workerCost, workerCost]
    omega

/-- Every step but a spurious wake-up brings the end closer. -/
lemma Stepped.cost_lt {n : ℕ} {root : Task α} {p p' : ThreadPool α} {ws : List (Worker α)} {k : ℕ}
    {a b : Worker α} {rest : List (Worker α)} (h : Stepped p p' ws k a b rest)
    (hp : p.Inv n root) (ha : a.isWaiting = false) : p'.cost < p.cost := by
  have hlen := h.length_eq
  obtain ⟨mid, hmid, hwoken⟩ := h.woken
  have hk := hwoken.le_length
  have hb := (h.before.map workerCost).sum_eq
  have hm := (hmid.map workerCost).sum_eq
  have hw := hwoken.sum_workerCost
  have hlength := h.before.length_eq
  have hlength' := hmid.length_eq
  rw [List.map_cons, List.sum_cons] at hb hm
  rw [List.length_cons] at hlength hlength'
  have hpos := fun t ts (ht : a = .running t ts) => (ht ▸ h).remaining_pos hp
  have hws := h.workers
  unfold cost
  rw [hlen]
  cases h.move with
  | popTask hk hqueue =>
    rw [hqueue, List.map_append, List.sum_append, List.map_singleton, List.sum_singleton, taskCost]
    simp only [workerCost] at hb hm hws hw hlen ⊢
    omega
  | findEmpty hk hqueue =>
    simp only [workerCost] at hb hm hws hw hlen ⊢
    omega
  | leave hk hzero =>
    simp only [workerCost] at hb hm hws hw hlen ⊢
    omega
  | wait hk hne =>
    simp only [workerCost] at hb hm hws hw hlen ⊢
    omega
  | @submit t s ss hk =>
    have hrem := hpos t (s :: ss) rfl
    have hnodes := congrArg List.length s.nodes_eq
    simp only [workerCost, taskCost, Task.nodesOf_cons, List.length_append, List.length_cons,
      List.map_append, List.sum_append, List.map_singleton, List.sum_singleton]
      at hnodes hb hm hws hw hlen ⊢
    rw [if_neg (by omega), if_neg (by omega)]
    omega
  | @finishLast t hlast hnone =>
    have hrem := hpos t [] rfl
    simp only [workerCost, Task.nodesOf_nil, List.length_nil] at hb hm hws hw hlen ⊢
    rw [if_pos hlast, if_neg (by omega)]
    omega
  | @finish t hk hne =>
    have hrem := hpos t [] rfl
    simp only [workerCost, Task.nodesOf_nil, List.length_nil] at hb hm hws hw hlen ⊢
    rw [if_neg hne, if_neg (by omega)]
    omega
  | wakeUp hk => exact Bool.noConfusion ha

/-- A spurious wake-up costs two steps. -/
lemma Stepped.cost_wakeUp {p p' : ThreadPool α} {ws : List (Worker α)} {k : ℕ} {a b : Worker α}
    {rest : List (Worker α)} (h : Stepped p p' ws k a b rest) (ha : a.isWaiting = true) :
    p'.cost = p.cost + 2 := by
  have hlen := h.length_eq
  obtain ⟨mid, hmid, hwoken⟩ := h.woken
  have hb := (h.before.map workerCost).sum_eq
  have hm := (hmid.map workerCost).sum_eq
  have hw := hwoken.sum_workerCost
  have hws := h.workers
  rw [List.map_cons, List.sum_cons] at hb hm
  unfold cost
  rw [hlen]
  cases h.move with
  | wakeUp hk =>
    simp only [workerCost] at hb hm hws hw ⊢
    omega
  | _ => exact Bool.noConfusion ha

/-- Some worker can be notified, or none has to be. -/
lemma exists_notifyOne (ws : List (Worker α)) : ∃ woken ws', notifyOne ws woken = some ws' := by
  by_cases h : ws.any Worker.isWaiting
  · obtain ⟨x, hx, hwait⟩ := List.any_eq_true.mp h
    obtain ⟨u, hu⟩ := List.mem_iff_getElem?.mp hx
    cases x with
    | waiting => exact ⟨some u, _, by rw [notifyOne, hu]⟩
    | _ => exact Bool.noConfusion hwait
  · exact ⟨none, ws, by rw [notifyOne, if_neg h]⟩

/-- A worker that is neither waiting nor gone can do a step. -/
lemma exists_step_of_active {p : ThreadPool α} {x : Worker α} (hx : x ∈ p.workers)
    (hwait : x.isWaiting = false) (hexit : x.isExited = false) :
    ∃ s, (p.step s).isSome = true ∧ s.isWakeUp = false := by
  obtain ⟨w, hw⟩ := List.mem_iff_getElem?.mp hx
  cases x with
  | popping =>
    rcases hpop : tryPop p.queue with _ | ⟨t, queue⟩
    · exact ⟨.pop w, by simp [step, hw, hpop], rfl⟩
    · exact ⟨.pop w, by simp [step, hw, hpop], rfl⟩
  | checking =>
    by_cases hzero : p.remaining = 0
    · exact ⟨.check w, by simp [step, hw, hzero], rfl⟩
    · exact ⟨.check w, by simp [step, hw, hzero], rfl⟩
  | waiting => exact Bool.noConfusion hwait
  | running t ts =>
    cases ts with
    | nil =>
      by_cases hlast : p.remaining - 1 = 0
      · exact ⟨.finish w, by simp [step, hw, hlast], rfl⟩
      · exact ⟨.finish w, by simp [step, hw, hlast], rfl⟩
    | cons s ss =>
      obtain ⟨woken, ws', hws'⟩ := exists_notifyOne (p.workers.set w (.running t ss))
      exact ⟨.submit w woken, by simp [step, hw, hws'], rfl⟩
  | exited => exact Bool.noConfusion hexit

/-- When all workers wait or have left, all have left and nothing is queued. -/
lemma Inv.all_exited {n : ℕ} {root : Task α} {p : ThreadPool α} (hp : p.Inv n root)
    (h : ∀ x ∈ p.workers, x.isExited = true ∨ x.isWaiting = true) :
    p.queue = [] ∧ ∀ x ∈ p.workers, x.isExited = true := by
  have hqueue : p.queue = [] := by
    by_contra hne
    obtain ⟨x, hx, hawake⟩ := hp.awake hne
    cases x with
    | popping => exact absurd (h _ hx) (by simp [Worker.isExited, Worker.isWaiting])
    | running t ts => exact absurd (h _ hx) (by simp [Worker.isExited, Worker.isWaiting])
    | _ => exact Bool.noConfusion hawake
  have hrunning : p.running = [] := by
    refine List.filterMap_eq_nil_iff.mpr fun x hx => ?_
    cases x with
    | running t ts => exact absurd (h _ hx) (by simp [Worker.isExited, Worker.isWaiting])
    | _ => rfl
  have hzero : p.remaining = 0 := by
    rw [hp.counter, hqueue, hrunning]
    rfl
  refine ⟨hqueue, fun x hx => (h x hx).resolve_right ?_⟩
  rw [hp.drained hzero x hx]
  exact Bool.false_ne_true

/-- When some worker has left, everything has been executed. -/
lemma Inv.executed_of_exited {n : ℕ} {root : Task α} {p : ThreadPool α} (hp : p.Inv n root)
    (h : ∃ x ∈ p.workers, x.isExited = true) :
    p.executed.Perm p.submitted ∧ p.executed.Perm root.nodes := by
  have hzero := hp.left h
  have hcounter := hp.counter
  have hqueue : p.queue = [] := List.eq_nil_of_length_eq_zero (by omega)
  have hrunning : p.running = [] := List.eq_nil_of_length_eq_zero (by omega)
  have htodo : p.todo = [] := by
    refine List.flatMap_eq_nil_iff.mpr fun x hx => ?_
    cases x with
    | running t ts =>
      have hmem : t ∈ p.running := List.mem_filterMap.mpr ⟨_, hx, rfl⟩
      rw [hrunning] at hmem
      exact absurd hmem List.not_mem_nil
    | _ => rfl
  have honce := hp.once
  have htree := hp.tree
  have hn : n ≠ 0 := by
    obtain ⟨x, hx, -⟩ := h
    rw [← hp.size]
    exact (List.length_pos_of_mem hx).ne'
  rw [hqueue, hrunning, List.append_nil, List.append_nil] at honce
  rw [hqueue, hrunning, htodo, if_neg hn, List.append_nil, List.append_nil, Task.nodesOf_nil,
    List.append_nil] at htree
  exact ⟨honce.symm, htree.symm⟩

/-- The pool can always run to its end. -/
lemma Inv.exists_exec {n : ℕ} {root : Task α} {p : ThreadPool α} (hp : p.Inv n root) :
    ∃ steps p', exec step p steps = some p' ∧ p'.Inv n root ∧
      ∀ x ∈ p'.workers, x.isExited = true := by
  refine exists_exec_of_decreasing cost (fun q hq hgoal => ?_) hp
  obtain ⟨x, hx, hwait, hexit⟩ :
      ∃ x ∈ q.workers, x.isWaiting = false ∧ x.isExited = false := by
    by_contra hnone
    refine hgoal (hq.all_exited fun x hx => ?_).2
    by_contra hboth
    rw [not_or, Bool.not_eq_true, Bool.not_eq_true] at hboth
    exact hnone ⟨x, hx, hboth.2, hboth.1⟩
  obtain ⟨s, hsome, hs⟩ := exists_step_of_active hx hwait hexit
  obtain ⟨q', hstep⟩ := Option.isSome_iff_exists.mp hsome
  obtain ⟨ws, k, a, b, rest, hstepped, ha⟩ := step_stepped hstep
  exact ⟨s, q', hstep, hstepped.inv hq, hstepped.cost_lt hq (ha.trans hs)⟩

/-- The number of steps of a run is bounded, apart from the spurious wake-ups and two steps for
each of them. -/
theorem exec_steps_le {n : ℕ} {root : Task α} {steps : List PoolStep} {p : ThreadPool α}
    (h : exec step (init n root) steps = some p) :
    steps.countP (!·.isWakeUp) ≤ (init n root).cost + 2 * steps.countP (·.isWakeUp) := by
  suffices hrun : ∀ (q : ThreadPool α), q.Inv n root → exec step q steps = some p →
      steps.countP (!·.isWakeUp) ≤ q.cost + 2 * steps.countP (·.isWakeUp) from
    hrun _ (inv_init n root) h
  clear h
  induction steps with
  | nil => exact fun _ _ _ => Nat.zero_le _
  | cons s steps ih =>
    intro q hq hexec
    obtain ⟨q', hstep, hrest⟩ := Option.bind_eq_some_iff.mp hexec
    obtain ⟨ws, k, a, b, rest, hstepped, ha⟩ := step_stepped hstep
    have hle := ih q' (hstepped.inv hq) hrest
    rw [List.countP_cons, List.countP_cons]
    cases hs : s.isWakeUp with
    | true =>
      have hcost := hstepped.cost_wakeUp (ha.trans hs)
      simp only [Bool.not_true, if_true, Bool.false_eq_true, if_false]
      omega
    | false =>
      have hcost := hstepped.cost_lt hq (ha.trans hs)
      simp only [Bool.not_false, if_true, Bool.false_eq_true, if_false]
      omega

/-- The law of the pool, for `n` workers and the tasks of `root`. -/
structure PoolLaw (n : ℕ) (root : Task α) (p : ThreadPool α) : Prop where
  /-- The counter equals the number of queued plus running tasks. -/
  counter : p.remaining = p.queue.length + p.running.length
  /-- Every submitted task is queued, running or has been executed, and only once. -/
  once : p.submitted.Perm (p.executed ++ p.running ++ p.queue)
  /-- When a worker has left, in particular when `popTask` has returned null, every submitted task
  has been executed, and every task of the tree has been submitted. -/
  complete : (∃ x ∈ p.workers, x.isExited = true) →
    p.executed.Perm p.submitted ∧ p.executed.Perm root.nodes
  /-- When every worker that has not left is blocked in wait, no task is queued, and no worker
  waits. -/
  notStuck : (∀ x ∈ p.workers, x.isExited = true ∨ x.isWaiting = true) →
    p.queue = [] ∧ ∀ x ∈ p.workers, x.isWaiting = false
  /-- The pool can still run until all workers have left. -/
  finishes : ∃ steps p', exec step p steps = some p' ∧ ∀ x ∈ p'.workers, x.isExited = true

/-- **The law of the pool.**  It holds in every state that any number of workers reach, whatever
the tree of the tasks and the interleaving of the steps. -/
theorem exec_poolLaw (n : ℕ) (root : Task α) (steps : List PoolStep) (p : ThreadPool α)
    (h : exec step (init n root) steps = some p) : p.PoolLaw n root := by
  have hp := inv_exec h
  refine ⟨hp.counter, hp.once, hp.executed_of_exited, fun hblocked => ?_, ?_⟩
  · obtain ⟨hqueue, hexited⟩ := hp.all_exited hblocked
    refine ⟨hqueue, fun x hx => ?_⟩
    cases x with
    | waiting => exact Bool.noConfusion (hexited _ hx)
    | _ => rfl
  · obtain ⟨steps', p', hexec, -, hexited⟩ := hp.exists_exec
    exact ⟨steps', p', hexec, hexited⟩

/-- Two workers and a task with one subtask: the second worker finds the queue empty, is overtaken
by the submission, and waits; it is woken up and runs the subtask. -/
def sampleSteps : List PoolStep :=
  [.pop 0, .pop 1, .check 1, .submit 0 (some 1), .pop 1, .finish 0, .pop 0, .check 0, .finish 1,
    .pop 0, .check 0]

/-- A task with one subtask. -/
def sampleTask : Task ℕ := .node 0 [.node 1 []]

/-- The sample run executes both tasks, and both workers leave. -/
lemma sampleSteps_executed : (exec step (init 2 sampleTask) sampleSteps).map
    (fun p => (p.executed.length, p.workers.all Worker.isExited)) = some (2, true) := by decide

/-- The sample run obeys the law. -/
theorem sampleSteps_poolLaw : ∃ p, exec step (init 2 sampleTask) sampleSteps = some p ∧
    p.PoolLaw 2 sampleTask := by
  obtain ⟨p, hp, -⟩ := Option.map_eq_some_iff.mp sampleSteps_executed
  exact ⟨p, hp, exec_poolLaw _ _ _ _ hp⟩

end ThreadPool

end GenMC
