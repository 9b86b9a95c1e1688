import GenMC.ADT.DepView
import GenMC.ExecutionGraph.CopySpec
import GenMC.ExecutionGraph.ReaderRuns

/-!
# Dependency-tracking graphs

A `DepExecutionGraph` is restricted to clocks with holes: a label that is not kept is replaced by an
empty one if the thread goes on behind it.  Its cut in place takes back the sources that are not
kept.  The copy keeps a source whenever its position is copied, also where that becomes a hole;
`getCopyUpTo_readsKept_iff` says when this makes a difference.
-/

namespace GenMC

namespace DepExecutionGraph

open ExecutionGraph

variable {g g' : ExecutionGraph} {v : DepView}

/-- `DepExecutionGraph::getViewFromStamp`. -/
def getViewFromStamp (g : ExecutionGraph) (st : ℕ) : DepView :=
  (g.positions.filter fun e => decide (e.index ≠ 0)).foldl
    (fun v e =>
      if (g.getEventLabel e).any fun lab => decide (lab.getStamp ≤ st) then v.setMax e else v)
    .empty

/-- The part of `cutToStamp` that visits the kept labels up to the maxima of the clock, except the
begins. -/
def cutLabels (g : ExecutionGraph) (preds : VectorClock) : ExecutionGraph :=
  (preds.positions.filter fun e => decide (e.index ≠ 0) && preds.contains e).foldl
    (fun g e => g.updateLabel e (cutPointers preds)) g

/-- A label that is not kept makes room for a hole with a new stamp. -/
def fillHole (g : ExecutionGraph) (e : Event) : ExecutionGraph :=
  { g.nextStamp.2.updateLabel e fun _ =>
      (EventLabel.createHoleLabel e).setStamp g.nextStamp.1 with
    insertionOrder := g.insertionOrder ++ [e] }

/-- The last part of `cutToStamp`: no null pointers stay in the graph. -/
def fillHoles (g : ExecutionGraph) (preds : VectorClock) : ExecutionGraph :=
  (g.positions.filter fun e => !preds.contains e).foldl fillHole g

/-- `DepExecutionGraph::cutToStamp`. -/
def cutToStamp (g : ExecutionGraph) (st : ℕ) : Option ExecutionGraph := do
  let preds := VectorClock.depView (getViewFromStamp g st)
  let g ← g.removeAfter preds
  let g ← (cutLabels (g.cutInsertionOrder preds) preds).eraseTails preds
  return fillHoles g preds

/-- `DepExecutionGraph::DepExecutionGraph`. -/
def initial : ExecutionGraph := new (.depView .empty)

/-- `DepExecutionGraph::getCopyUpTo`. -/
def getCopyUpTo (g : ExecutionGraph) (v : VectorClock) : Option ExecutionGraph :=
  g.copyGraphUpTo v initial

/-! ## The view of a stamp -/

/-- The positions of a thread are visited in their order. -/
lemma positions_pairwise (g : ExecutionGraph) :
    g.positions.Pairwise fun e e' => e.thread = e'.thread → e.index < e'.index := by
  unfold positions
  rw [List.pairwise_flatMap]
  constructor
  · intro t _
    rw [List.pairwise_map]
    refine List.pairwise_lt_range.imp ?_
    intro i i' hlt _
    exact hlt
  · refine List.pairwise_lt_range.imp fun {t t'} hlt e he e' he' hthread => ?_
    obtain ⟨i, -, rfl⟩ := List.mem_map.mp he
    obtain ⟨i', -, rfl⟩ := List.mem_map.mp he'
    exact absurd hthread hlt.ne

/-- The loop of `getViewFromStamp` adds the visited positions that it selects, if every thread is
visited upwards. -/
lemma contains_foldl_setMax {P : Event → Prop} [DecidablePred P] {l : List Event}
    (hl : l.Pairwise fun e e' => e.thread = e'.thread → e.index < e'.index) {v : DepView}
    (hv : v.WellFormed) (hmax : ∀ e ∈ l, v.getMax e.thread < e.index) (e : Event) :
    (l.foldl (fun v e => if P e then v.setMax e else v) v).contains e = true ↔
      v.contains e = true ∨ (e ∈ l ∧ P e) := by
  induction l generalizing v with
  | nil => simp
  | cons e' l ih =>
    rw [List.pairwise_cons] at hl
    have hmax' := hmax e' List.mem_cons_self
    rw [List.foldl_cons]
    split
    next hP =>
      have hnew : ∀ e ∈ l, (v.setMax e').getMax e.thread < e.index := by
        intro e he
        have hset : (v.setMax e').getMax e.thread =
            if e.thread = e'.thread then e'.index else v.getMax e.thread := by
          unfold DepView.setMax
          simp only
          split <;> exact View.getMax_setMax v.view e' e.thread
        rw [hset]
        split
        · exact hl.1 e he (Eq.symm ‹_›)
        · exact hmax e (List.mem_cons_of_mem e' he)
      rw [ih hl.2 (hv.setMax e') hnew, hv.contains_setMax hmax', List.mem_cons]
      constructor
      · rintro ((rfl | hc) | ⟨he, hPe⟩)
        · exact Or.inr ⟨Or.inl rfl, hP⟩
        · exact Or.inl hc
        · exact Or.inr ⟨Or.inr he, hPe⟩
      · rintro (hc | ⟨rfl | he, hPe⟩)
        · exact Or.inl (Or.inr hc)
        · exact Or.inl (Or.inl rfl)
        · exact Or.inr ⟨he, hPe⟩
    next hP =>
      rw [ih hl.2 hv fun e he => hmax e (List.mem_cons_of_mem e' he), List.mem_cons]
      refine or_congr_right (and_congr_left fun hPe => (or_iff_right ?_).symm)
      rintro rfl
      exact hP hPe

/-- **The view of a stamp.**  It contains the first events of the threads and the labels with
stamps up to the given one; a hole has a stamp like any other label. -/
theorem contains_getViewFromStamp_iff (g : ExecutionGraph) (st : ℕ) (e : Event) :
    (getViewFromStamp g st).contains e = true ↔
      e.index = 0 ∨ ∃ lab, g.getEventLabel e = some lab ∧ lab.getStamp ≤ st := by
  have hany (e : Event) : (g.getEventLabel e).any (fun lab => decide (lab.getStamp ≤ st)) = true ↔
      ∃ lab, g.getEventLabel e = some lab ∧ lab.getStamp ≤ st := by
    rw [Option.any_eq_true]
    exact exists_congr fun lab => and_congr_right fun _ => decide_eq_true_iff
  have hnonzero : ∀ e ∈ g.positions.filter (fun e => decide (e.index ≠ 0)),
      DepView.empty.getMax e.thread < e.index := by
    intro e he
    have hne := of_decide_eq_true (List.mem_filter.mp he).2
    exact (View.getMax_empty e.thread).trans_lt (Nat.pos_of_ne_zero hne)
  unfold getViewFromStamp
  rw [contains_foldl_setMax ((positions_pairwise g).filter _) .empty hnonzero, hany,
    DepView.WellFormed.empty.contains_iff, List.mem_filter, mem_positions, decide_eq_true_iff]
  have hzero : DepView.empty.getMax e.thread = 0 := View.getMax_empty e.thread
  rw [hzero]
  constructor
  · rintro ((h | h) | h)
    · exact Or.inl h
    · exact Or.inl (Nat.le_zero.mp h.1)
    · exact Or.inr h.2
  · rintro (h | ⟨lab, hlab, hst⟩)
    · exact Or.inl (Or.inl h)
    · by_cases hindex : e.index = 0
      · exact Or.inl (Or.inl hindex)
      · exact Or.inr ⟨⟨containsPos_iff.mpr ⟨lab, hlab⟩, hindex⟩, lab, hlab, hst⟩

/-! ## The cut in place -/

/-- Filling holes leaves the other labels alone. -/
lemma getEventLabel_foldl_fillHole {l : List Event} {e : Event} (he : e ∉ l) (g : ExecutionGraph) :
    (l.foldl fillHole g).getEventLabel e = g.getEventLabel e := by
  induction l generalizing g with
  | nil => rfl
  | cons e' l ih =>
    rw [List.mem_cons, not_or] at he
    rw [List.foldl_cons, ih he.2]
    exact (getEventLabel_updateLabel (g := g.nextStamp.2) e' _ e).trans (if_neg he.1)

/-- Erasing the ends of the threads leaves the labels up to the maxima alone. -/
lemma getEventLabel_eraseTails {preds : VectorClock} (h : g.eraseTails preds = some g') {e : Event}
    (he : e.index ≤ preds.getMax e.thread) : g'.getEventLabel e = g.getEventLabel e := by
  obtain ⟨-, rfl⟩ := eraseTails_spec h
  unfold getEventLabel
  simp only [List.getD_eq_getElem?_getD, List.getElem?_mapIdx]
  cases g.events[e.thread]? with
  | none => rfl
  | some thr =>
    simp only [Option.map_some, Option.getD_some, List.getElem?_take]
    rw [if_pos (Nat.lt_succ_iff.mpr he)]

/-- **The cut in place takes back cut sources.**  A kept read keeps its source if it is kept, and
has none otherwise. -/
theorem rfOf_cutToStamp (hg : ReaderLists g) {st : ℕ} (h : cutToStamp g st = some g') {r : Event}
    (hr : (getViewFromStamp g st).contains r) :
    g'.rfOf r = (g.rfOf r).filter (getViewFromStamp g st).contains := by
  unfold cutToStamp at h
  obtain ⟨g₁, hremove, h⟩ := Option.bind_eq_some_iff.mp h
  obtain ⟨g₂, herase, h⟩ := Option.bind_eq_some_iff.mp h
  obtain rfl := Option.some.inj h
  set v := getViewFromStamp g st
  have hevents : g₁.getEventLabel r = g.getEventLabel r := by
    obtain ⟨keep, -, rfl⟩ := Option.map_eq_some_iff.mp hremove
    rfl
  have hnodup : ((VectorClock.depView v).positions.filter fun e =>
      decide (e.index ≠ 0) && (VectorClock.depView v).contains e).Nodup :=
    (VectorClock.nodup_positions _).filter _
  have hlabel : (fillHoles g₂ (.depView v)).getEventLabel r =
      if r ∈ (VectorClock.depView v).positions.filter fun e =>
        decide (e.index ≠ 0) && (VectorClock.depView v).contains e
      then (g.getEventLabel r).map (cutPointers (.depView v)) else g.getEventLabel r := by
    unfold fillHoles
    rw [getEventLabel_foldl_fillHole (fun hmem => by
      have hnot := (List.mem_filter.mp hmem).2
      rw [Bool.not_eq_true', show (VectorClock.depView v).contains r = true from hr] at hnot
      cases hnot), getEventLabel_eraseTails herase
        (VectorClock.le_getMax_of_contains (v := .depView v) hr)]
    exact (getEventLabel_foldl_updateLabel (fun _ => cutPointers (.depView v)) hnodup r).trans
      (by rw [← hevents]; rfl)
  unfold rfOf
  rw [hlabel]
  cases hlab : g.getEventLabel r with
  | none => split <;> rfl
  | some lab =>
    split
    · rw [Option.map_some, Option.bind_some, Option.bind_some, cutPointers,
        EventLabel.body_mapFields, LabelBody.rf_mapFields]
      split
      · rfl
      next hread =>
        rw [LabelBody.rf_eq_none (Bool.eq_false_iff.mpr hread)]
        rfl
    next hnot =>
      -- Only begins are not visited, and these are no reads.
      cases hrf : lab.body.rf with
      | none => rw [Option.bind_some, hrf]; rfl
      | some w =>
        exfalso
        have hindex : r.index ≠ 0 := by
          intro hzero
          have hstart := hg.positioned.starts r lab hlab hzero
          cases hb : lab.body <;> simp_all [LabelBody.isThreadStart, LabelBody.rf]
        refine hnot (List.mem_filter.mpr
          ⟨VectorClock.mem_positions_of_contains (v := .depView v) hr hindex, ?_⟩)
        rw [decide_eq_true hindex, Bool.true_and]
        exact hr

/-! ## The copy -/

/-- The sources of a copy: they are kept if their position is copied. -/
lemma rfOf_copies {v pv : VectorClock} (hg : WellFormed g) (h : Copies g v pv g') (r : Event) :
    g'.rfOf r = if v.contains r then (g.rfOf r).filter (g.inRange v) else none := by
  by_cases hinit : r = .init
  · subst hinit
    obtain ⟨lab, hlab, hbody⟩ := isa_iff.mp hg.isa_init
    rw [rfOf_of_getEventLabel h.init, VectorClock.contains_init, if_pos rfl,
      rfOf_of_getEventLabel hlab]
    cases hb : lab.body <;> rw [hb] at hbody <;> first | rfl | cases hbody
  · cases hc : v.contains r with
    | true =>
      unfold rfOf
      rw [h.label r hinit hc, if_pos rfl]
      cases g.getEventLabel r with
      | none => rfl
      | some lab =>
        rw [Option.map_some, Option.bind_some, Option.bind_some, copyPointers,
          EventLabel.body_mapFields, LabelBody.rf_mapFields]
        split
        · rfl
        next hread =>
          rw [LabelBody.rf_eq_none (Bool.eq_false_iff.mpr hread)]
          rfl
    | false =>
      cases hr : g.inRange v r with
      | true =>
        obtain ⟨s, hs⟩ := h.hole r hc hr
        rw [rfOf_of_getEventLabel hs]
        rfl
      | false =>
        unfold rfOf
        rw [h.outside r hr]
        rfl

/-- The writes of a copy are the kept writes. -/
lemma isa_isWrite_copies {v pv : VectorClock} (h : Copies g v pv g') {w : Event}
    (hc : v.contains w) (hw : g.isa LabelBody.isWrite w) (hinit : w ≠ .init) :
    g'.isa LabelBody.isWrite w := by
  obtain ⟨lab, hlab, hwrite⟩ := isa_iff.mp hw
  refine isa_iff.mpr ⟨copyPointers g v lab, ?_, ?_⟩
  · rw [h.label w hinit hc, hlab]
    rfl
  · rw [copyPointers, EventLabel.body_mapFields, LabelBody.isWrite_mapFields]
    exact hwrite

/-- The reads of a restricted graph have their sources among the kept labels: a source is the
initializer or a kept write, and a read whose source is not kept has none. -/
structure ReadsKept (g : ExecutionGraph) (v : DepView) (g' : ExecutionGraph) : Prop where
  /-- Sources are kept writes and the initializer. -/
  sources : ∀ r w, g'.rfOf r = some w → w = .init ∨ v.contains w ∧ g'.isa LabelBody.isWrite w
  /-- A kept read loses a source that is not kept. -/
  cut : ∀ r w, v.contains r → g.rfOf r = some w → v.contains w = false → g'.rfOf r = none

/-- **Sources in holes.**  The copy of a well-formed graph up to a clock within it exists, and its
reads have their sources among the kept labels if and only if no kept read of the original reads
from a write in a hole of the clock. -/
theorem getCopyUpTo_readsKept_iff (hg : WellFormed g) (hv : Within g (.depView v)) :
    ∃ g', getCopyUpTo g (.depView v) = some g' ∧
      (ReadsKept g v g' ↔ ∀ r w, v.contains r → g.rfOf r = some w →
        w.index ≤ v.getMax w.thread → v.contains w) := by
  obtain ⟨g', hg', hcopies⟩ := hg.copyGraphUpTo_copies hv (.depView .empty)
  have hrf := rfOf_copies hg hcopies
  refine ⟨g', hg', fun hkept r w hr hw hindex => ?_, fun hcond => ⟨fun r w hw => ?_, ?_⟩⟩
  · by_contra hnot
    have hnone := hkept.cut r w hr hw (Bool.eq_false_iff.mpr hnot)
    have hsource : g.containsPos w := containsPos_iff.mpr
      ((hg.readerLists.sources r w hw).elim (fun h => (isa_iff.mp h).imp fun _ h => h.1)
        fun h => (isa_iff.mp h).imp fun _ h => h.1)
    obtain ⟨lab, hlab⟩ := containsPos_iff.mp hsource
    have hrange : g.inRange (.depView v) w :=
      inRange_iff.mpr ⟨thread_lt_of_getEventLabel hlab, hindex⟩
    rw [hrf, if_pos (show (VectorClock.depView v).contains r = true from hr), hw,
      Option.filter_some, if_pos hrange] at hnone
    cases hnone
  · rw [hrf] at hw
    split at hw
    next hr =>
      obtain ⟨hw, hrange⟩ := Option.filter_eq_some_iff.mp hw
      have hc := hcond r w hr hw (inRange_iff.mp hrange).2
      rcases hg.readerLists.sources r w hw with hwrite | hinit
      · by_cases hwi : w = .init
        · exact Or.inl hwi
        · exact Or.inr ⟨hc, isa_isWrite_copies hcopies hc hwrite hwi⟩
      · exact Or.inl ((hg.readerLists.positioned.initOnly w).mp hinit)
    next => cases hw
  · intro r w hr hw hc
    rw [hrf, if_pos (show (VectorClock.depView v).contains r = true from hr), hw,
      Option.filter_some, if_neg]
    intro hrange
    rw [hcond r w hr hw (inRange_iff.mp hrange).2] at hc
    cases hc

/-- A write that is added into a hole before a label of its thread, with a read that was there
earlier. -/
def lateWrite : ExecutionGraph :=
  (PartialRun.exec Mutation.apply initial
    [.addLabelToGraph (EventLabel.createHoleLabel ⟨0, 1⟩),
      .addLabelToGraph { pos := ⟨0, 2⟩, body := .plain (.threadCreate 1) },
      .addNewThread,
      .addLabelToGraph { pos := ⟨1, 0⟩, body := .threadStart ⟨0, 2⟩ },
      .addLabelToGraph { pos := ⟨1, 1⟩, body := .read .read { addr := ⟨8⟩ } none false },
      .addLabelToGraph { pos := ⟨0, 1⟩, body := .write .write { addr := ⟨8⟩ } [] },
      .addStoreToCOAfter ⟨0, 1⟩ .init,
      .setRf ⟨1, 1⟩ (some ⟨0, 1⟩)]).getD initial

/-- The graph with the late write is well-formed. -/
lemma wellFormed_lateWrite : WellFormed lateWrite := WellFormed.of_check (by decide +kernel)

/-- The view of the stamp of the read has a hole for the write. -/
theorem lateWrite_readsKept_iff :
    ∃ g', getCopyUpTo lateWrite (.depView (getViewFromStamp lateWrite 4)) = some g' ∧
      (ReadsKept lateWrite (getViewFromStamp lateWrite 4) g' ↔
        ∀ r w, (getViewFromStamp lateWrite 4).contains r → lateWrite.rfOf r = some w →
          w.index ≤ (getViewFromStamp lateWrite 4).getMax w.thread →
          (getViewFromStamp lateWrite 4).contains w) :=
  getCopyUpTo_readsKept_iff wellFormed_lateWrite (by decide +kernel)

/-- Restricted to the stamp of the read, the copy has a read from a hole, while the cut in place has
none. -/
theorem lateWrite_not_readsKept :
    (∃ cut, cutToStamp lateWrite 4 = some cut ∧ cut.rfOf ⟨1, 1⟩ = none) ∧
      ¬ ∀ g v g', WellFormed g → Within g (.depView v) → getCopyUpTo g (.depView v) = some g' →
        ReadsKept g v g' := by
  constructor
  · have hcut : (cutToStamp lateWrite 4).map (fun cut => cut.rfOf ⟨1, 1⟩) = some none := by
      decide +kernel
    exact Option.map_eq_some_iff.mp hcut
  · intro hall
    have hcopy : (getCopyUpTo lateWrite (.depView (getViewFromStamp lateWrite 4))).map
        (fun copy => (copy.rfOf ⟨1, 1⟩, copy.isa LabelBody.isEmpty ⟨0, 1⟩,
          copy.isa LabelBody.isWrite ⟨0, 1⟩)) = some (some ⟨0, 1⟩, true, false) := by
      decide +kernel
    obtain ⟨copy, hcopy, heq⟩ := Option.map_eq_some_iff.mp hcopy
    rw [Prod.mk.injEq, Prod.mk.injEq] at heq
    have hkept := hall lateWrite _ copy wellFormed_lateWrite (by decide +kernel) hcopy
    rcases hkept.sources _ _ heq.1 with hinit | ⟨-, hwrite⟩
    · cases hinit
    · rw [heq.2.2] at hwrite
      cases hwrite

/-- After the late write is cut, its hole is contained in the view of a later stamp. -/
theorem lateWrite_hole_contained :
    (∃ cut, cutToStamp lateWrite 4 = some cut ∧ cut.isa LabelBody.isEmpty ⟨0, 1⟩ = true ∧
      (getViewFromStamp cut 9).contains ⟨0, 1⟩ = true) ∧
    ¬ ∀ g st e, (getViewFromStamp g st).contains e = true ↔
      ∃ lab, g.getEventLabel e = some lab ∧ lab.body.isEmpty = false ∧ lab.getStamp ≤ st := by
  have hcut : (cutToStamp lateWrite 4).any (fun cut => cut.isa LabelBody.isEmpty ⟨0, 1⟩ &&
      (getViewFromStamp cut 9).contains ⟨0, 1⟩) = true := by decide +kernel
  obtain ⟨cut, heq, h⟩ := Option.any_eq_true _ _ |>.mp hcut
  obtain ⟨hempty, hcon⟩ := Bool.and_eq_true_iff.mp h
  refine ⟨⟨cut, heq, hempty, hcon⟩, fun hall => ?_⟩
  obtain ⟨lab, hlab, hnonempty, -⟩ := (hall cut 9 ⟨0, 1⟩).mp hcon
  obtain ⟨lab', hlab', hbody⟩ := isa_iff.mp hempty
  rw [Option.some.inj (hlab.symm.trans hlab'), hbody] at hnonempty
  cases hnonempty

end DepExecutionGraph

end GenMC
