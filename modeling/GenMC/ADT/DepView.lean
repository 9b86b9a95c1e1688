import GenMC.ADT.VectorClock
import GenMC.Lib.PartialRun

/-!
# Clocks with holes

The remaining operations of a `DepView` and their effect on what the clock contains.  A clock is
described by the maximum and the holes of every thread (`holesAt`), as long as every thread with a
maximum has an entry for its holes (`WellFormed`, which all operations keep).  The update of two
clocks contains what either of them contains (`contains_updateThread`, `update_spec`).
-/

namespace GenMC

namespace DepView

/-! ## Operations -/

/-- `DepView::empty`. -/
def isEmpty (v : DepView) : Bool := decide (v.size = 0)

/-- `DepView::clear`. -/
def clear (_ : DepView) : DepView := empty

/-- `DepView::addHole`; it is a bug to add a hole behind the maximum. -/
def addHole (v : DepView) (e : Event) : Option DepView :=
  if v.getMax e.thread < e.index then none
  else some (v.modifyHoles e.thread fun hs => insert e.index hs)

/-- The loop of `DepView::addHolesInRange`, with the check of every hole. -/
def addHoles (v : DepView) (start : Event) (endIdx : ℕ) : Option DepView :=
  (List.range' start.index (endIdx - start.index)).foldlM
    (fun v i => v.addHole ⟨start.thread, i⟩) v

/-- `DepView::removeHole`. -/
def removeHole (v : DepView) (e : Event) : DepView :=
  v.modifyHoles e.thread fun hs => hs.erase e.index

/-- `DepView::removeAllHoles`. -/
def removeAllHoles (v : DepView) (thread : ℕ) : DepView := v.modifyHoles thread fun _ => ∅

/-- `DepView::updateIdx`. -/
def updateIdx (v : DepView) (e : Event) : DepView :=
  let old := v.getMax e.thread
  if old < e.index then
    { v with view := v.view.setMax e }.addHolesInRange ⟨e.thread, old + 1⟩ e.index
  else v.removeHole e

/-- The holes of a thread. -/
def holesAt (v : DepView) (thread : ℕ) : Finset ℕ := (v.holes[thread]?).getD ∅

/-- The holes of thread `i` after an update: those of both clocks, and those of the larger clock
behind the maximum of the smaller one. -/
def joinHoles (v w : DepView) (i : ℕ) : Finset ℕ :=
  v.holesAt i ∩ w.holesAt i ∪
    if v.getMax i < w.getMax i then (w.holesAt i).filter (v.getMax i + 1 ≤ ·)
    else (v.holesAt i).filter (w.getMax i + 1 ≤ ·)

/-- The body of the loop of `DepView::update`; it is a bug if the other clock has no entry for the
holes of the thread. -/
def updateThread (w : DepView) (v : DepView) (i : ℕ) : Option DepView :=
  if i < w.holes.length then
    let v' :=
      if v.getMax i < w.getMax i then { v with view := v.view.setMax ⟨i, w.getMax i⟩ } else v
    some (v'.modifyHoles i fun _ => v.joinHoles w i)
  else none

/-- `DepView::update`. -/
def update (v w : DepView) : Option DepView :=
  if w.isEmpty then some v else (List.range w.size).foldlM (updateThread w) v

/-! ## Well-formed clocks -/

/-- Every thread with a maximum has an entry for its holes, and no hole is behind the maximum. -/
structure WellFormed (v : DepView) : Prop where
  size_le : v.view.size ≤ v.holes.length
  hole_le : ∀ t, ∀ i ∈ v.holesAt t, i ≤ v.getMax t

@[simp] lemma getMax_modifyHoles (v : DepView) (t : ℕ) (f : Finset ℕ → Finset ℕ) (t' : ℕ) :
    (v.modifyHoles t f).getMax t' = v.getMax t' := rfl

/-- Changing the holes of one thread leaves the others alone. -/
@[simp] lemma holesAt_modifyHoles (v : DepView) (t : ℕ) (f : Finset ℕ → Finset ℕ) (t' : ℕ) :
    (v.modifyHoles t f).holesAt t' = if t' = t then f (v.holesAt t) else v.holesAt t' := by
  have hgrow (s : ℕ) : ((v.holes ++ List.replicate (t + 1 - v.holes.length) ∅)[s]?).getD ∅ =
      v.holesAt s := by
    unfold holesAt
    by_cases hs : s < v.holes.length
    · rw [List.getElem?_append_left hs]
    · rw [List.getElem?_append_right (not_lt.mp hs), List.getElem?_replicate,
        List.getElem?_eq_none (not_lt.mp hs)]
      split <;> rfl
  unfold modifyHoles
  rw [← hgrow t, ← hgrow t']
  unfold holesAt
  rw [List.getElem?_modify]
  by_cases ht : t' = t
  · subst ht
    have hlt : t' < (v.holes ++ List.replicate (t' + 1 - v.holes.length) ∅).length := by
      rw [List.length_append, List.length_replicate]
      omega
    rw [if_pos rfl, List.getElem?_eq_getElem hlt]
    simp
  · simp [ht, Ne.symm ht]

/-- The entries for the holes grow to the thread. -/
lemma length_modifyHoles (v : DepView) (t : ℕ) (f : Finset ℕ → Finset ℕ) :
    (v.modifyHoles t f).holes.length = max v.holes.length (t + 1) := by
  unfold modifyHoles
  rw [List.length_modify, List.length_append, List.length_replicate]
  omega

/-- A view grows to the thread of a new maximum. -/
lemma size_setMax (v : View) (e : Event) : (v.setMax e).size = max v.size (e.thread + 1) := by
  unfold View.setMax View.size
  rw [List.length_set, List.length_append, List.length_replicate]
  omega

/-- A well-formed clock contains the first events, and what is not behind the maximum and not a
hole. -/
lemma WellFormed.contains_iff {v : DepView} (hv : v.WellFormed) (e : Event) :
    v.contains e = true ↔
      e.index = 0 ∨ (e.index ≤ v.getMax e.thread ∧ e.index ∉ v.holesAt e.thread) := by
  have hmax : v.holes[e.thread]? = none → v.getMax e.thread = 0 := fun h =>
    View.getMax_eq_zero_of_size_le (hv.size_le.trans (List.getElem?_eq_none_iff.mp h))
  unfold contains holesAt
  rw [Bool.and_eq_true_iff, Bool.or_eq_true_iff, decide_eq_true_iff, decide_eq_true_iff]
  cases h : v.holes[e.thread]? with
  | none =>
    rw [hmax h]
    simp
  | some hs =>
    simp only [Option.getD_some, decide_eq_true_iff]
    constructor
    · rintro ⟨hle, hzero | hnot⟩
      · exact Or.inl hzero
      · exact Or.inr ⟨hle, hnot⟩
    · rintro (hzero | ⟨hle, hnot⟩)
      · exact ⟨hzero ▸ Nat.zero_le _, Or.inl hzero⟩
      · exact ⟨hle, Or.inr hnot⟩

/-- The clock of nothing is well-formed. -/
lemma WellFormed.empty : empty.WellFormed :=
  ⟨le_rfl, fun _ i hi => absurd hi (Finset.notMem_empty i)⟩

/-- Changing the holes of a thread to others that are not behind the maximum keeps the clock
well-formed. -/
lemma WellFormed.modifyHoles {v : DepView} (hv : v.WellFormed) {t : ℕ} {f : Finset ℕ → Finset ℕ}
    (hf : ∀ i ∈ f (v.holesAt t), i ≤ v.getMax t) : (v.modifyHoles t f).WellFormed := by
  refine ⟨hv.size_le.trans ?_, ?_⟩
  · rw [length_modifyHoles]
    exact le_max_left _ _
  · intro t' i hi
    rw [holesAt_modifyHoles] at hi
    by_cases ht : t' = t
    · subst ht
      rw [if_pos rfl] at hi
      exact hf i hi
    · rw [if_neg ht] at hi
      exact hv.hole_le t' i hi

/-- Setting a maximum together with the holes of its thread keeps the clock well-formed, if the
holes are not behind the new maximum. -/
lemma WellFormed.setMax_modifyHoles {v : DepView} (hv : v.WellFormed) {e : Event}
    {f : Finset ℕ → Finset ℕ} (hf : ∀ i ∈ f (v.holesAt e.thread), i ≤ e.index) :
    ({ v with view := v.view.setMax e }.modifyHoles e.thread f).WellFormed := by
  refine ⟨?_, ?_⟩
  · rw [length_modifyHoles]
    exact (size_setMax v.view e).trans_le (max_le_max_right _ hv.size_le)
  · intro t i hi
    rw [getMax_modifyHoles]
    unfold getMax
    rw [holesAt_modifyHoles] at hi
    rw [View.getMax_setMax]
    by_cases ht : t = e.thread
    · rw [if_pos ht] at hi ⊢
      exact hf i hi
    · rw [if_neg ht] at hi ⊢
      exact hv.hole_le t i hi

/-- The holes of a thread and those up to a new maximum are not behind it. -/
lemma WellFormed.le_of_mem_grown {v : DepView} (hv : v.WellFormed) {t n i : ℕ}
    (hlt : v.getMax t < n) (hi : i ∈ v.holesAt t ∪ Finset.Ico (v.getMax t + 1) n) : i ≤ n := by
  obtain hi | hi := Finset.mem_union.mp hi
  · exact (hv.hole_le t i hi).trans hlt.le
  · exact (Finset.mem_Ico.mp hi).2.le

/-- `setMax` keeps the clock well-formed. -/
lemma WellFormed.setMax {v : DepView} (hv : v.WellFormed) (e : Event) :
    (v.setMax e).WellFormed := by
  have hle := hv.hole_le e.thread
  unfold DepView.setMax
  simp only
  split
  · exact hv.setMax_modifyHoles fun i hi => hv.le_of_mem_grown ‹_› hi
  · refine hv.setMax_modifyHoles fun i hi => ?_
    rw [Finset.mem_sdiff, Finset.mem_Ico] at hi
    have := hle i hi.1
    omega

/-- `updateIdx` keeps the clock well-formed. -/
lemma WellFormed.updateIdx {v : DepView} (hv : v.WellFormed) (e : Event) :
    (v.updateIdx e).WellFormed := by
  have hle := hv.hole_le e.thread
  unfold DepView.updateIdx
  simp only
  split
  · exact hv.setMax_modifyHoles fun i hi => hv.le_of_mem_grown ‹_› hi
  · exact hv.modifyHoles fun i hi => hle i (Finset.mem_of_mem_erase hi)

/-- `addHole` keeps the clock well-formed. -/
lemma WellFormed.addHole {v v' : DepView} (hv : v.WellFormed) {e : Event}
    (h : v.addHole e = some v') : v'.WellFormed := by
  unfold DepView.addHole at h
  split at h
  · exact absurd h (Option.some_ne_none v').symm
  · obtain rfl := Option.some.inj h
    refine hv.modifyHoles fun i hi => ?_
    obtain rfl | hi := Finset.mem_insert.mp hi
    · omega
    · exact hv.hole_le e.thread i hi

/-- The loop of `addHolesInRange` keeps the clock well-formed. -/
lemma WellFormed.addHoles {v v' : DepView} (hv : v.WellFormed) {start : Event} {endIdx : ℕ}
    (h : v.addHoles start endIdx = some v') : v'.WellFormed :=
  PartialRun.foldlM_invariant (fun _ _ _ _ hu => hu.addHole) hv h

/-- `removeHole` keeps the clock well-formed. -/
lemma WellFormed.removeHole {v : DepView} (hv : v.WellFormed) (e : Event) :
    (v.removeHole e).WellFormed :=
  hv.modifyHoles fun i hi => hv.hole_le e.thread i (Finset.mem_of_mem_erase hi)

/-- `removeAllHoles` keeps the clock well-formed. -/
lemma WellFormed.removeAllHoles {v : DepView} (hv : v.WellFormed) (t : ℕ) :
    (v.removeAllHoles t).WellFormed :=
  hv.modifyHoles fun i hi => absurd hi (Finset.notMem_empty i)

/-- `removeHolesInRange` keeps the clock well-formed. -/
lemma WellFormed.removeHolesInRange {v : DepView} (hv : v.WellFormed) (start : Event)
    (endIdx : ℕ) : (v.removeHolesInRange start endIdx).WellFormed :=
  hv.modifyHoles fun i hi => hv.hole_le start.thread i (Finset.mem_sdiff.mp hi).1

/-- **A new maximum is added to what a clock contains.** -/
lemma WellFormed.contains_setMax {v : DepView} (hv : v.WellFormed) {e : Event}
    (h : v.getMax e.thread < e.index) (e' : Event) :
    (v.setMax e).contains e' = true ↔ e' = e ∨ v.contains e' = true := by
  have hset : v.setMax e = { v with view := v.view.setMax e }.modifyHoles e.thread
      fun hs => hs ∪ Finset.Ico (v.getMax e.thread + 1) e.index := if_pos h
  have hmax : (v.setMax e).getMax e'.thread =
      if e'.thread = e.thread then e.index else v.getMax e'.thread := by
    rw [hset, getMax_modifyHoles]
    exact View.getMax_setMax v.view e e'.thread
  have hholes : (v.setMax e).holesAt e'.thread =
      if e'.thread = e.thread then v.holesAt e.thread ∪ Finset.Ico (v.getMax e.thread + 1) e.index
      else v.holesAt e'.thread := by
    rw [hset, holesAt_modifyHoles]
    rfl
  rw [(hv.setMax e).contains_iff, hv.contains_iff, hmax, hholes]
  by_cases ht : e'.thread = e.thread
  · have heq : e' = e ↔ e'.index = e.index := by
      rw [Event.ext_iff, and_iff_right ht]
    rw [if_pos ht, if_pos ht, heq, ht, Finset.mem_union, Finset.mem_Ico]
    by_cases hmem : e'.index ∈ v.holesAt e.thread
    · have hle := hv.hole_le e.thread e'.index hmem
      simp only [hmem, true_or, not_true_eq_false, and_false, or_false]
      omega
    · simp only [hmem, false_or, not_false_eq_true, and_true]
      omega
  · have hne : e' ≠ e := fun heq => ht (congrArg Event.thread heq)
    rw [if_neg ht, if_neg ht, or_iff_right hne]

/-! ## The update of two clocks -/

/-- The joined holes are in both clocks or behind the maximum of the smaller one. -/
lemma notMem_joinHoles {v w : DepView} (t : ℕ) {i : ℕ} (hi : i ≤ max (v.getMax t) (w.getMax t)) :
    i ∉ v.joinHoles w t ↔
      (i ≤ v.getMax t ∧ i ∉ v.holesAt t) ∨ (i ≤ w.getMax t ∧ i ∉ w.holesAt t) := by
  unfold joinHoles
  split
  · simp only [Finset.mem_union, Finset.mem_inter, Finset.mem_filter]
    by_cases hv : i ∈ v.holesAt t <;> by_cases hw : i ∈ w.holesAt t <;> simp [hv, hw] <;> omega
  · simp only [Finset.mem_union, Finset.mem_inter, Finset.mem_filter]
    by_cases hv : i ∈ v.holesAt t <;> by_cases hw : i ∈ w.holesAt t <;> simp [hv, hw] <;> omega

/-- The joined holes are not behind the larger maximum. -/
lemma le_of_mem_joinHoles {v w : DepView} (hv : v.WellFormed) (hw : w.WellFormed) {t i : ℕ}
    (hi : i ∈ v.joinHoles w t) : i ≤ max (v.getMax t) (w.getMax t) := by
  have hvi : i ∈ v.holesAt t → i ≤ max (v.getMax t) (w.getMax t) :=
    fun h => (hv.hole_le t i h).trans (le_max_left _ _)
  have hwi : i ∈ w.holesAt t → i ≤ max (v.getMax t) (w.getMax t) :=
    fun h => (hw.hole_le t i h).trans (le_max_right _ _)
  unfold joinHoles at hi
  obtain hi | hi := Finset.mem_union.mp hi
  · exact hvi (Finset.mem_inter.mp hi).1
  · split at hi
    · exact hwi (Finset.mem_filter.mp hi).1
    · exact hvi (Finset.mem_filter.mp hi).1

/-- **One step of an update.**  It joins one thread: the clock then contains in this thread what
either clock contains. -/
lemma updateThread_spec {v w : DepView} (hv : v.WellFormed) (hw : w.WellFormed) {i : ℕ}
    (hi : i < w.size) :
    ∃ v', updateThread w v i = some v' ∧ v'.WellFormed ∧
      (∀ t, v'.getMax t = if t = i then max (v.getMax i) (w.getMax i) else v.getMax t) ∧
      ∀ e, v'.contains e =
        if e.thread = i then v.contains e || w.contains e else v.contains e := by
  have hlen : i < w.holes.length := hi.trans_le hw.size_le
  unfold updateThread
  rw [if_pos hlen]
  set u := if v.getMax i < w.getMax i then { v with view := v.view.setMax ⟨i, w.getMax i⟩ } else v
    with hu
  have hmax (t : ℕ) : u.getMax t = if t = i then max (v.getMax i) (w.getMax i) else v.getMax t := by
    rw [hu]
    unfold getMax at *
    split
    · rw [View.getMax_setMax]
      split
      · exact (max_eq_right_of_lt ‹_›).symm
      · rfl
    · split
      · subst t
        exact (max_eq_left (not_lt.mp ‹_›)).symm
      · rfl
  have hholes (t : ℕ) : u.holesAt t = v.holesAt t := by
    rw [hu]
    split <;> rfl
  have hwf : (u.modifyHoles i fun _ => v.joinHoles w i).WellFormed := by
    rw [hu]
    split
    · refine hv.setMax_modifyHoles (e := ⟨i, w.getMax i⟩) fun j hj => ?_
      exact (le_of_mem_joinHoles hv hw hj).trans_eq (max_eq_right_of_lt ‹_›)
    · refine hv.modifyHoles fun j hj => ?_
      exact (le_of_mem_joinHoles hv hw hj).trans_eq (max_eq_left (not_lt.mp ‹_›))
  refine ⟨_, rfl, hwf, hmax, ?_⟩
  intro e
  rw [Bool.eq_iff_iff, hwf.contains_iff, getMax_modifyHoles, holesAt_modifyHoles, hmax, hholes]
  by_cases ht : e.thread = i
  · subst ht
    rw [if_pos rfl, if_pos rfl, if_pos rfl, Bool.or_eq_true_iff, hv.contains_iff, hw.contains_iff]
    constructor
    · rintro (hzero | ⟨hle, hnot⟩)
      · exact Or.inl (Or.inl hzero)
      · exact ((notMem_joinHoles e.thread hle).mp hnot).imp Or.inr Or.inr
    · rintro ((hzero | hnot) | (hzero | hnot))
      · exact Or.inl hzero
      · have hle := hnot.1.trans (le_max_left _ (w.getMax e.thread))
        exact Or.inr ⟨hle, (notMem_joinHoles e.thread hle).mpr (Or.inl hnot)⟩
      · exact Or.inl hzero
      · have hle := hnot.1.trans (le_max_right (v.getMax e.thread) _)
        exact Or.inr ⟨hle, (notMem_joinHoles e.thread hle).mpr (Or.inr hnot)⟩
  · rw [if_neg ht, if_neg ht, if_neg ht, hv.contains_iff]

/-- **An update contains what either clock contains.**  The loop has joined the threads that it
has walked through and left the others alone. -/
lemma update_spec {v w : DepView} (hv : v.WellFormed) (hw : w.WellFormed) :
    ∃ u, v.update w = some u ∧ u.WellFormed ∧ (∀ t, u.getMax t = max (v.getMax t) (w.getMax t)) ∧
      ∀ e, u.contains e = (v.contains e || w.contains e) := by
  have hout {t : ℕ} (ht : ¬ t < w.size) : w.getMax t = 0 :=
    View.getMax_eq_zero_of_size_le (not_lt.mp ht)
  have hfirst {e : Event} (he : ¬ e.thread < w.size) :
      v.contains e = (v.contains e || w.contains e) := by
    rw [Bool.eq_iff_iff, Bool.or_eq_true_iff, hv.contains_iff, hw.contains_iff, hout he]
    refine ⟨Or.inl, fun h => h.elim id fun h => Or.inl ?_⟩
    exact h.elim id fun h => Nat.le_zero.mp h.1
  unfold update
  split
  · have hsize : w.size = 0 := of_decide_eq_true ‹_›
    refine ⟨v, rfl, hv, fun t => ?_, fun e => hfirst (by omega)⟩
    rw [hout (by omega), Nat.max_zero]
  · obtain ⟨u, hu, hwf, hmax, hcon⟩ := PartialRun.foldlM_total (f := updateThread w)
      (List.range w.size)
      (fun done u => u.WellFormed ∧
        (∀ t, u.getMax t = if t ∈ done then max (v.getMax t) (w.getMax t) else v.getMax t) ∧
        ∀ e, u.contains e =
          if e.thread ∈ done then v.contains e || w.contains e else v.contains e)
      (by
        rintro done i rest hrange u ⟨huwf, humax, hucon⟩
        have hi : i < w.size := by
          rw [← List.mem_range, hrange]
          exact List.mem_append_right _ List.mem_cons_self
        obtain ⟨u', hu', hwf', hmax', hcon'⟩ := updateThread_spec huwf hw hi
        refine ⟨u', hu', hwf', fun t => ?_, fun e => ?_⟩
        · rw [hmax', humax, humax]
          by_cases ht : t = i <;> by_cases hd : t ∈ done <;> simp_all
        · rw [hcon', hucon]
          by_cases ht : e.thread = i <;> by_cases hd : e.thread ∈ done <;> simp_all)
      ⟨hv, fun t => by simp, fun e => by simp⟩
    refine ⟨u, hu, hwf, fun t => ?_, fun e => ?_⟩
    · simp only [hmax, List.mem_range]
      split
      · rfl
      · rw [hout ‹_›, Nat.max_zero]
    · simp only [hcon, List.mem_range]
      split
      · rfl
      · exact hfirst ‹_›

/-! ## Clocks built by the operations -/

/-- The clocks that any sequence of the operations builds; an operation that reports a bug builds
nothing. -/
inductive Built : DepView → Prop where
  | empty : Built .empty
  | clear {v} : Built v → Built v.clear
  | setMax {v} e : Built v → Built (v.setMax e)
  | updateIdx {v} e : Built v → Built (v.updateIdx e)
  | addHole {v v'} e : Built v → v.addHole e = some v' → Built v'
  | addHolesInRange {v v'} start endIdx : Built v → v.addHoles start endIdx = some v' → Built v'
  | removeHole {v} e : Built v → Built (v.removeHole e)
  | removeAllHoles {v} t : Built v → Built (v.removeAllHoles t)
  | removeHolesInRange {v} start endIdx : Built v → Built (v.removeHolesInRange start endIdx)
  | update {v w v'} : Built v → Built w → v.update w = some v' → Built v'

/-- **Every clock that the operations build is well-formed.** -/
lemma Built.wellFormed {v : DepView} (hv : Built v) : v.WellFormed := by
  induction hv with
  | empty => exact .empty
  | clear _ _ => exact .empty
  | setMax e _ ih => exact ih.setMax e
  | updateIdx e _ ih => exact ih.updateIdx e
  | addHole e _ h ih => exact ih.addHole h
  | addHolesInRange start endIdx _ h ih => exact ih.addHoles h
  | removeHole e _ ih => exact ih.removeHole e
  | removeAllHoles t _ ih => exact ih.removeAllHoles t
  | removeHolesInRange start endIdx _ ih => exact ih.removeHolesInRange start endIdx
  | update _ _ h ihv ihw =>
    obtain ⟨u, hu, hwf, -⟩ := update_spec ihv ihw
    exact Option.some.inj (hu.symm.trans h) ▸ hwf

/-- **The update is the union.**  The update of two built clocks succeeds; it contains what either
clock contains, and the maxima are the larger ones.  Up to what is contained it is commutative,
associative and idempotent. -/
theorem update_union {a b : DepView} (ha : Built a) (hb : Built b) :
    (∃ u, a.update b = some u ∧ (∀ e, u.contains e = true ↔ a.contains e ∨ b.contains e) ∧
      ∀ t, u.getMax t = max (a.getMax t) (b.getMax t)) ∧
    (a.update b).map contains = (b.update a).map contains ∧
    (∀ c, Built c → ((a.update b).bind fun u => u.update c).map contains =
      ((b.update c).bind fun u => a.update u).map contains) ∧
    (a.update a).map contains = some a.contains := by
  obtain ⟨u, hu, huwf, humax, hucon⟩ := update_spec ha.wellFormed hb.wellFormed
  refine ⟨⟨u, hu, fun e => ?_, humax⟩, ?_, ?_, ?_⟩
  · rw [hucon, Bool.or_eq_true_iff]
  · obtain ⟨u', hu', -, -, hucon'⟩ := update_spec hb.wellFormed ha.wellFormed
    rw [hu, hu', Option.map_some, Option.map_some]
    refine congrArg some (funext fun e => ?_)
    rw [hucon, hucon', Bool.or_comm]
  · intro c hc
    obtain ⟨w, hw, hwwf, -, hwcon⟩ := update_spec hb.wellFormed hc.wellFormed
    obtain ⟨x, hx, -, -, hxcon⟩ := update_spec huwf hc.wellFormed
    obtain ⟨y, hy, -, -, hycon⟩ := update_spec ha.wellFormed hwwf
    rw [hu, hw, Option.bind_some, Option.bind_some, hx, hy, Option.map_some, Option.map_some]
    refine congrArg some (funext fun e => ?_)
    rw [hxcon, hucon, hycon, hwcon, Bool.or_assoc]
  · obtain ⟨w, hw, -, -, hwcon⟩ := update_spec ha.wellFormed ha.wellFormed
    rw [hw, Option.map_some]
    refine congrArg some (funext fun e => ?_)
    rw [hwcon, Bool.or_self]

/-- A clock with holes at 1 and 3 below 4, and one that has seen 3 and nothing before. -/
theorem update_union_holes :
    (∃ u, ((empty.setMax ⟨0, 2⟩).updateIdx ⟨0, 4⟩).update (empty.updateIdx ⟨0, 3⟩) = some u ∧
      (∀ e, u.contains e = true ↔ ((empty.setMax ⟨0, 2⟩).updateIdx ⟨0, 4⟩).contains e ∨
        (empty.updateIdx ⟨0, 3⟩).contains e) ∧
      ∀ t, u.getMax t = max (((empty.setMax ⟨0, 2⟩).updateIdx ⟨0, 4⟩).getMax t)
        ((empty.updateIdx ⟨0, 3⟩).getMax t)) :=
  (update_union (.updateIdx ⟨0, 4⟩ (.setMax ⟨0, 2⟩ .empty)) (.updateIdx ⟨0, 3⟩ .empty)).1

end DepView

end GenMC
