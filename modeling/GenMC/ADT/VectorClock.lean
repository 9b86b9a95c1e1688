import Mathlib.Data.Finset.Basic
import Mathlib.Order.Interval.Finset.Nat
import Mathlib.Tactic

/-!
# Vector clocks

An `Event` is a position in an execution graph: a thread and an index.  A `View` records the
largest index seen of every thread and contains everything up to it; threads beyond the size of the
view count as seen up to index 0.  A `DepView` also records holes, the indices below the maximum
that are not seen.
-/

namespace GenMC

/-- The position of a label in an execution graph. -/
@[ext] structure Event where
  /-- The thread of the label. -/
  thread : ℕ
  /-- The index of the label in its thread. -/
  index : ℕ
deriving DecidableEq, Repr

/-- `Event::getInit`. -/
def Event.init : Event := ⟨0, 0⟩

/-- `Event::next`. -/
def Event.next (e : Event) : Event := ⟨e.thread, e.index + 1⟩

/-- A plain vector clock: the largest index seen of every thread. -/
structure View where
  /-- The entries; the vector grows on demand. -/
  maxs : List ℕ
deriving DecidableEq, Repr

namespace View

/-- The view of nothing but the first events. -/
def empty : View := ⟨[]⟩

/-- `View::size`: the number of threads with an entry. -/
def size (v : View) : ℕ := v.maxs.length

/-- `View::getMax`. -/
def getMax (v : View) (thread : ℕ) : ℕ := v.maxs.getD thread 0

/-- `View::contains`. -/
def contains (v : View) (e : Event) : Bool := decide (e.index ≤ v.getMax e.thread)

/-- `View::setMax`. -/
def setMax (v : View) (e : Event) : View :=
  ⟨(v.maxs ++ List.replicate (e.thread + 1 - v.maxs.length) 0).set e.thread e.index⟩

/-- `View::updateIdx`: makes sure that the event is contained. -/
def updateIdx (v : View) (e : Event) : View :=
  if v.getMax e.thread < e.index then v.setMax e else v

/-- `View::update`: adds what another view contains. -/
def update (v w : View) : View :=
  (List.range (max v.size w.size)).foldl
    (fun u i => if u.getMax i < w.getMax i then u.setMax ⟨i, w.getMax i⟩ else u) v

/-- Entries beyond the size count as 0. -/
lemma getMax_eq_zero_of_size_le {v : View} {t : ℕ} (h : v.size ≤ t) : v.getMax t = 0 := by
  unfold getMax
  rw [List.getD_eq_getElem?_getD, List.getElem?_eq_none h, Option.getD_none]

@[simp] lemma getMax_empty (t : ℕ) : empty.getMax t = 0 := getMax_eq_zero_of_size_le (Nat.zero_le t)

/-- Setting the maximum of one thread leaves the others alone. -/
@[simp] lemma getMax_setMax (v : View) (e : Event) (t : ℕ) :
    (v.setMax e).getMax t = if t = e.thread then e.index else v.getMax t := by
  unfold setMax getMax
  simp only [List.getD_eq_getElem?_getD, List.getElem?_set]
  by_cases ht : t = e.thread
  · subst ht
    simp only [if_true, List.length_append, List.length_replicate]
    rw [if_pos (by omega)]
    rfl
  · rw [if_neg (Ne.symm ht), if_neg ht]
    by_cases hlt : t < v.maxs.length
    · rw [List.getElem?_append_left hlt]
    · rw [List.getElem?_append_right (by omega), List.getElem?_eq_none (by omega : _ ≤ t),
        List.getElem?_replicate]
      split <;> rfl

/-- Including an event raises the maximum of its thread. -/
@[simp] lemma getMax_updateIdx (v : View) (e : Event) (t : ℕ) :
    (v.updateIdx e).getMax t = if t = e.thread then max (v.getMax t) e.index else v.getMax t := by
  unfold updateIdx
  by_cases ht : t = e.thread
  · subst ht
    rw [if_pos rfl]
    split
    · rw [getMax_setMax, if_pos rfl]
      omega
    · omega
  · rw [if_neg ht]
    split
    · rw [getMax_setMax, if_neg ht]
    · rfl

/-- The update of two views is their pointwise maximum. -/
@[simp] lemma getMax_update (v w : View) (t : ℕ) :
    (v.update w).getMax t = max (v.getMax t) (w.getMax t) := by
  have h : ∀ n, ((List.range n).foldl
      (fun u i => if u.getMax i < w.getMax i then u.setMax ⟨i, w.getMax i⟩ else u) v).getMax t
        = if t < n then max (v.getMax t) (w.getMax t) else v.getMax t := by
    intro n
    induction n with
    | zero => simp
    | succ n ih =>
      rw [List.range_succ, List.foldl_append, List.foldl_cons, List.foldl_nil]
      generalize (List.range n).foldl
        (fun u i => if u.getMax i < w.getMax i then u.setMax ⟨i, w.getMax i⟩ else u) v = u at ih
      by_cases htn : t = n
      · subst htn
        rw [if_neg (lt_irrefl t)] at ih
        rw [if_pos (Nat.lt_succ_self t)]
        split
        · rw [getMax_setMax, if_pos rfl, max_eq_right (by omega)]
        · omega
      · have hiff : t < n + 1 ↔ t < n := by omega
        simp only [hiff]
        split
        · rw [getMax_setMax, if_neg htn, ih]
        · exact ih
  unfold update
  rw [h]
  split
  · rfl
  · rw [getMax_eq_zero_of_size_le (v := w) (by omega), Nat.max_zero]

/-- An update contains what either view contains. -/
lemma contains_update (v w : View) (e : Event) :
    (v.update w).contains e = (v.contains e || w.contains e) := by
  simp [contains, Bool.decide_or]

end View

/-- A vector clock with holes. -/
structure DepView where
  /-- The largest index seen of every thread. -/
  view : View
  /-- The holes of every thread; the vector grows on demand. -/
  holes : List (Finset ℕ)
deriving DecidableEq

namespace DepView

/-- The clock of nothing but the first events. -/
def empty : DepView := ⟨.empty, []⟩

/-- `DepView::size`. -/
def size (v : DepView) : ℕ := v.view.size

/-- `DepView::getMax`. -/
def getMax (v : DepView) (thread : ℕ) : ℕ := v.view.getMax thread

/-- `DepView::contains`. -/
def contains (v : DepView) (e : Event) : Bool :=
  decide (e.index ≤ v.getMax e.thread) &&
    (decide (e.index = 0) ||
      match v.holes[e.thread]? with
      | some hs => decide (e.index ∉ hs)
      | none => false)

/-- `HoleView::operator[]` on a changing view: grows the vector and changes the holes of one
thread. -/
def modifyHoles (v : DepView) (thread : ℕ) (f : Finset ℕ → Finset ℕ) : DepView :=
  { v with holes :=
      (v.holes ++ List.replicate (thread + 1 - v.holes.length) ∅).modify thread f }

/-- `DepView::addHolesInRange` for a range up to the maximum, where no hole fails its check. -/
def addHolesInRange (v : DepView) (start : Event) (endIdx : ℕ) : DepView :=
  v.modifyHoles start.thread fun hs => hs ∪ Finset.Ico start.index endIdx

/-- `DepView::removeHolesInRange`. -/
def removeHolesInRange (v : DepView) (start : Event) (endIdx : ℕ) : DepView :=
  v.modifyHoles start.thread fun hs => hs \ Finset.Ico start.index endIdx

/-- `DepView::setMax`. -/
def setMax (v : DepView) (e : Event) : DepView :=
  let old := v.getMax e.thread
  let v' := { v with view := v.view.setMax e }
  if old < e.index then v'.addHolesInRange ⟨e.thread, old + 1⟩ e.index
  else v'.removeHolesInRange e (old + 1)

end DepView

/-- A vector clock of either kind. -/
inductive VectorClock
  | view (v : View)
  | depView (v : DepView)
deriving DecidableEq

namespace VectorClock

/-- `VectorClock::size`. -/
def size : VectorClock → ℕ
  | view v => v.size
  | depView v => v.size

/-- `VectorClock::getMax`. -/
def getMax : VectorClock → ℕ → ℕ
  | view v => v.getMax
  | depView v => v.getMax

/-- `VectorClock::contains`. -/
def contains : VectorClock → Event → Bool
  | view v => v.contains
  | depView v => v.contains

/-- `View::update` with a clock; it is a bug if that has holes. -/
def updateView (v : View) : VectorClock → Option View
  | view w => some (v.update w)
  | depView _ => none

/-- A clock contains nothing beyond its maxima. -/
lemma le_getMax_of_contains {v : VectorClock} {e : Event} (h : v.contains e) :
    e.index ≤ v.getMax e.thread := by
  cases v with
  | view v => exact of_decide_eq_true h
  | depView v => exact of_decide_eq_true (Bool.and_eq_true_iff.mp h).1

/-- Entries beyond the size count as 0. -/
lemma getMax_eq_zero_of_size_le {v : VectorClock} {t : ℕ} (h : v.size ≤ t) : v.getMax t = 0 := by
  cases v with
  | view v => exact View.getMax_eq_zero_of_size_le h
  | depView v => exact View.getMax_eq_zero_of_size_le h

/-- Every clock contains the first events. -/
lemma contains_of_index_eq_zero (v : VectorClock) {e : Event} (h : e.index = 0) : v.contains e := by
  cases v with
  | view v => simp [contains, View.contains, h]
  | depView v => simp [contains, DepView.contains, h]

/-- Every clock contains the initializer. -/
@[simp] lemma contains_init (v : VectorClock) : v.contains .init = true :=
  v.contains_of_index_eq_zero rfl

/-- The positions that a loop over the entries of a clock visits: for every thread with an entry
the indices up to the maximum. -/
def positions (v : VectorClock) : List Event :=
  (List.range v.size).flatMap fun i => (List.range (v.getMax i + 1)).map (Event.mk i)

/-- The visited positions. -/
lemma mem_positions {v : VectorClock} {e : Event} :
    e ∈ v.positions ↔ e.thread < v.size ∧ e.index ≤ v.getMax e.thread := by
  unfold positions
  rw [List.mem_flatMap]
  constructor
  · rintro ⟨i, hi, he⟩
    obtain ⟨j, hj, rfl⟩ := List.mem_map.mp he
    exact ⟨List.mem_range.mp hi, Nat.lt_succ_iff.mp (List.mem_range.mp hj)⟩
  · rintro ⟨hi, hj⟩
    exact ⟨e.thread, List.mem_range.mpr hi,
      List.mem_map.mpr ⟨e.index, List.mem_range.mpr (by omega), rfl⟩⟩

/-- A contained event other than a first one is visited by the loops over the clock. -/
lemma mem_positions_of_contains {v : VectorClock} {e : Event} (h : v.contains e)
    (hindex : e.index ≠ 0) : e ∈ v.positions := by
  have hle := le_getMax_of_contains h
  refine mem_positions.mpr ⟨?_, hle⟩
  by_contra hsize
  rw [getMax_eq_zero_of_size_le (not_lt.mp hsize)] at hle
  omega

/-- No position is visited twice. -/
lemma nodup_positions (v : VectorClock) : v.positions.Nodup := by
  unfold positions
  rw [List.nodup_flatMap]
  refine ⟨fun i _ => ?_, ?_⟩
  · exact List.nodup_range.map fun j k h => congrArg Event.index h
  · refine List.nodup_range.imp fun {i k} hne => ?_
    intro e hi hk
    obtain ⟨j, -, rfl⟩ := List.mem_map.mp hi
    obtain ⟨j', -, h⟩ := List.mem_map.mp hk
    exact hne (congrArg Event.thread h).symm

end VectorClock

end GenMC
