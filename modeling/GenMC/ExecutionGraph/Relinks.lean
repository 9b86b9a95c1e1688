import GenMC.ExecutionGraph.ExecutionGraph
import GenMC.Lib.PartialRun

/-!
# What the graph operations do to the labels

Every operation is described by the labels it leaves at each position.  Most operations only turn
pointers: `Relinks g g'` says that `g'` has the same labels as `g` up to their mutable fields, the
same insertion order and the same timestamp, whatever happened to the links between the labels.
-/

namespace GenMC

/-- The label without its mutable fields. -/
def EventLabel.skeleton : EventLabel → EventLabel :=
  EventLabel.mapFields
    { rf := fun _ => none, readers := fun _ => [], alloc := fun _ => none, free := fun _ => none
      accesses := fun _ => [], freeAlloc := fun _ => none, parentJoin := fun _ => none
      maximal := fun _ => true, ipr := fun _ => false }

/-- Changing mutable fields does not show in the skeleton. -/
@[simp] lemma EventLabel.skeleton_mapFields (m : FieldMap) (lab : EventLabel) :
    (lab.mapFields m).skeleton = lab.skeleton := by
  unfold EventLabel.skeleton EventLabel.mapFields
  rw [LabelBody.mapFields_mapFields]
  rfl

/-- A test of label classes: it does not look at mutable fields. -/
class ClassTest (p : LabelBody → Bool) : Prop where
  /-- Changing mutable fields does not change the answer. -/
  mapFields : ∀ m b, p (b.mapFields m) = p b

instance : ClassTest LabelBody.isRead := ⟨LabelBody.isRead_mapFields⟩

instance : ClassTest LabelBody.isWrite := ⟨LabelBody.isWrite_mapFields⟩

instance : ClassTest LabelBody.isInit := ⟨LabelBody.isInit_mapFields⟩

instance : ClassTest LabelBody.isMalloc := ⟨LabelBody.isMalloc_mapFields⟩

instance : ClassTest LabelBody.isFree := ⟨LabelBody.isFree_mapFields⟩

instance : ClassTest LabelBody.isThreadJoin := ⟨LabelBody.isThreadJoin_mapFields⟩

instance : ClassTest LabelBody.isAccess := ⟨LabelBody.isAccess_mapFields⟩

instance : ClassTest LabelBody.isThreadCreate := ⟨LabelBody.isThreadCreate_mapFields⟩

instance : ClassTest LabelBody.isThreadFinish := ⟨LabelBody.isThreadFinish_mapFields⟩

instance : ClassTest LabelBody.isBlock := ⟨LabelBody.isBlock_mapFields⟩

instance : ClassTest LabelBody.isEmpty := ⟨LabelBody.isEmpty_mapFields⟩

instance : ClassTest LabelBody.isThreadStart := ⟨LabelBody.isThreadStart_mapFields⟩

namespace ExecutionGraph

variable {g g' g'' : ExecutionGraph}

/-! ## Changing one label -/

@[simp] lemma getNumThreads_updateLabel (e : Event) (f : EventLabel → EventLabel) :
    (g.updateLabel e f).getNumThreads = g.getNumThreads := by
  unfold getNumThreads updateLabel
  exact List.length_modify _ _ _

/-- The labels of a thread after changing one label. -/
lemma getD_events_updateLabel (e : Event) (f : EventLabel → EventLabel) (t : ℕ) :
    (g.updateLabel e f).events.getD t [] =
      if t = e.thread then (g.events.getD t []).modify e.index f else g.events.getD t [] := by
  unfold updateLabel
  simp only [List.getD_eq_getElem?_getD, List.getElem?_modify]
  by_cases ht : t = e.thread
  · subst ht
    cases g.events[e.thread]? <;> simp
  · rw [if_neg ht]
    cases g.events[t]? <;> simp [Ne.symm ht]

@[simp] lemma getThreadSize_updateLabel (e : Event) (f : EventLabel → EventLabel) (t : ℕ) :
    (g.updateLabel e f).getThreadSize t = g.getThreadSize t := by
  unfold getThreadSize
  rw [getD_events_updateLabel]
  split <;> simp

/-- The labels after changing one of them. -/
lemma getEventLabel_updateLabel (e : Event) (f : EventLabel → EventLabel) (e' : Event) :
    (g.updateLabel e f).getEventLabel e' =
      if e' = e then (g.getEventLabel e').map f else g.getEventLabel e' := by
  unfold getEventLabel
  rw [getD_events_updateLabel]
  obtain ⟨t, i⟩ := e
  obtain ⟨t', i'⟩ := e'
  simp only [Event.mk.injEq]
  by_cases ht : t' = t
  · subst ht
    by_cases hi : i' = i
    · subst hi
      simp
    · simp [hi, Ne.symm hi]
  · simp [ht]

/-- What the change of a label keeps, it keeps everywhere. -/
lemma map_getEventLabel_updateLabel {α : Type*} {m : EventLabel → EventLabel} {f : EventLabel → α}
    (hm : ∀ lab, f (m lab) = f lab) (e e' : Event) :
    ((g.updateLabel e m).getEventLabel e').map f = (g.getEventLabel e').map f := by
  rw [getEventLabel_updateLabel]
  split
  · rw [Option.map_map]
    exact congrArg (Option.map · _) (funext hm)
  · rfl

/-- Changing a label only depends on what the change does to this label. -/
lemma updateLabel_congr {e : Event} {f f' : EventLabel → EventLabel}
    (h : ∀ lab, g.getEventLabel e = some lab → f lab = f' lab) :
    g.updateLabel e f = g.updateLabel e f' := by
  have hthread : ∀ thr, g.events[e.thread]? = some thr →
      thr.modify e.index f = thr.modify e.index f' := by
    intro thr hthr
    refine List.ext_getElem? fun i => ?_
    rw [List.getElem?_modify, List.getElem?_modify]
    by_cases hi : e.index = i
    · subst hi
      cases hlab : thr[e.index]? with
      | none => rfl
      | some lab =>
        have hget : g.getEventLabel e = some lab := by
          unfold getEventLabel
          rw [List.getD_eq_getElem?_getD, hthr, Option.getD_some, hlab]
        simp [h lab hget]
    · simp [hi]
  unfold updateLabel
  congr 1
  refine List.ext_getElem? fun t => ?_
  rw [List.getElem?_modify, List.getElem?_modify]
  by_cases ht : e.thread = t
  · subst ht
    cases hthr : g.events[e.thread]? with
    | none => rfl
    | some thr => simp [hthread thr hthr]
  · simp [ht]

/-- The labels after changing several of them, each once. -/
lemma getEventLabel_foldl_updateLabel (f : Event → EventLabel → EventLabel) {l : List Event}
    (hl : l.Nodup) (e : Event) :
    (l.foldl (fun g e => g.updateLabel e (f e)) g).getEventLabel e =
      if e ∈ l then (g.getEventLabel e).map (f e) else g.getEventLabel e := by
  induction l generalizing g with
  | nil => simp
  | cons e' l ih =>
    rw [List.nodup_cons] at hl
    rw [List.foldl_cons, ih hl.2, getEventLabel_updateLabel]
    by_cases he : e = e'
    · subst he
      simp [hl.1]
    · simp [he]

/-- A position is contained if it has a label. -/
lemma containsPos_iff {e : Event} : g.containsPos e ↔ ∃ lab, g.getEventLabel e = some lab :=
  Option.isSome_iff_exists

/-- A position has a label if it lies within its thread. -/
lemma containsPos_iff_lt {e : Event} : g.containsPos e ↔ e.index < g.getThreadSize e.thread := by
  unfold containsPos getEventLabel getThreadSize
  simp

/-- Threads that do not exist have no labels. -/
lemma getThreadSize_eq_zero {t : ℕ} (h : g.getNumThreads ≤ t) : g.getThreadSize t = 0 := by
  unfold getThreadSize
  rw [List.getD_eq_getElem?_getD, List.getElem?_eq_none h]
  rfl

/-- Positions with a label lie in a thread of the graph. -/
lemma thread_lt_of_getEventLabel {e : Event} {lab : EventLabel} (h : g.getEventLabel e = some lab) :
    e.thread < g.getNumThreads := by
  by_contra hle
  have hsize := containsPos_iff_lt.mp (containsPos_iff.mpr ⟨lab, h⟩)
  rw [getThreadSize_eq_zero (not_lt.mp hle)] at hsize
  exact Nat.not_lt_zero _ hsize

/-- The class test at a position. -/
lemma isa_iff {p : LabelBody → Bool} {e : Event} :
    g.isa p e ↔ ∃ lab, g.getEventLabel e = some lab ∧ p lab.body := by
  unfold isa
  cases g.getEventLabel e <;> simp

/-- The class test at a position with a label. -/
lemma isa_of_getEventLabel {e : Event} {lab : EventLabel} (h : g.getEventLabel e = some lab)
    (p : LabelBody → Bool) : g.isa p e = p lab.body := by
  unfold isa
  rw [h]
  rfl

/-- A label of the graph is at its position. -/
lemma containsPos_of_isa {p : LabelBody → Bool} {e : Event} (h : g.isa p e) : g.containsPos e := by
  obtain ⟨lab, hlab, -⟩ := isa_iff.mp h
  exact containsPos_iff.mpr ⟨lab, hlab⟩

/-- The source of the read at a position with a label. -/
lemma rfOf_of_getEventLabel {e : Event} {lab : EventLabel} (h : g.getEventLabel e = some lab) :
    g.rfOf e = lab.body.rf := by
  unfold rfOf
  rw [h]
  rfl

/-- The address of the access at a position with a label. -/
lemma addrOf_of_getEventLabel {e : Event} {lab : EventLabel} (h : g.getEventLabel e = some lab) :
    g.addrOf e = lab.body.addr := by
  unfold addrOf
  rw [h]
  rfl

/-- The stamp at a position with a label. -/
lemma stampOf_of_getEventLabel {e : Event} {lab : EventLabel} (h : g.getEventLabel e = some lab) :
    g.stampOf e = lab.getStamp := by
  unfold stampOf
  rw [h]
  rfl

/-- Reads from somewhere have a label. -/
lemma isa_isRead_of_rfOf {r w : Event} (h : g.rfOf r = some w) : g.isa LabelBody.isRead r := by
  obtain ⟨lab, hlab, hrf⟩ := Option.bind_eq_some_iff.mp h
  exact isa_iff.mpr ⟨lab, hlab, LabelBody.isRead_of_rf hrf⟩

/-! ## Graphs that only differ in their links -/

/-- `g'` has the labels of `g` up to their mutable fields, with the same insertion order and
timestamp. -/
structure Relinks (g g' : ExecutionGraph) : Prop where
  /-- The threads are the same. -/
  numThreads : g'.getNumThreads = g.getNumThreads
  /-- The threads have the same sizes. -/
  threadSize : ∀ t, g'.getThreadSize t = g.getThreadSize t
  /-- The labels agree up to their mutable fields. -/
  skeleton : ∀ e,
    (g'.getEventLabel e).map EventLabel.skeleton = (g.getEventLabel e).map EventLabel.skeleton
  /-- The insertion order is the same. -/
  order : g'.insertionOrder = g.insertionOrder
  /-- The timestamp is the same. -/
  timestamp : g'.timestamp = g.timestamp

namespace Relinks

lemma refl (g : ExecutionGraph) : Relinks g g :=
  ⟨rfl, fun _ => rfl, fun _ => rfl, rfl, rfl⟩

lemma trans (h : Relinks g g') (h' : Relinks g' g'') : Relinks g g'' :=
  ⟨h'.numThreads.trans h.numThreads, fun t => (h'.threadSize t).trans (h.threadSize t),
    fun e => (h'.skeleton e).trans (h.skeleton e), h'.order.trans h.order,
    h'.timestamp.trans h.timestamp⟩

/-- Changing mutable fields of a label is a relinking. -/
lemma updateLabel (g : ExecutionGraph) (e : Event) (m : FieldMap) :
    Relinks g (g.updateLabel e (EventLabel.mapFields m)) := by
  refine ⟨getNumThreads_updateLabel _ _, getThreadSize_updateLabel _ _, fun e' => ?_, rfl, rfl⟩
  rw [getEventLabel_updateLabel]
  split
  · rw [Option.map_map]
    exact congrArg (Option.map · _) (funext fun lab => EventLabel.skeleton_mapFields m lab)
  · rfl

/-- Changing mutable fields of several labels is a relinking. -/
lemma foldl_updateLabel (g : ExecutionGraph) (m : Event → FieldMap) (l : List Event) :
    Relinks g (l.foldl (fun g e => g.updateLabel e (EventLabel.mapFields (m e))) g) := by
  induction l generalizing g with
  | nil => exact refl g
  | cons e l ih => exact (updateLabel g e (m e)).trans (ih _)

/-- What a label becomes by a relinking. -/
lemma getEventLabel (h : Relinks g g') {e : Event} {lab : EventLabel}
    (he : g.getEventLabel e = some lab) :
    ∃ lab', g'.getEventLabel e = some lab' ∧ lab'.skeleton = lab.skeleton := by
  have hskel := h.skeleton e
  rw [he, Option.map_some] at hskel
  obtain ⟨lab', hlab', heq⟩ := Option.map_eq_some_iff.mp hskel
  exact ⟨lab', hlab', heq⟩

/-- A function of the skeleton has the same value at every position. -/
lemma map_eq {α : Type*} (h : Relinks g g') {f : EventLabel → α}
    (hf : ∀ lab, f lab.skeleton = f lab) (e : Event) :
    (g'.getEventLabel e).map f = (g.getEventLabel e).map f := by
  have hcomp : f ∘ EventLabel.skeleton = f := funext hf
  have hskel := congrArg (Option.map f) (h.skeleton e)
  rwa [Option.map_map, Option.map_map, hcomp] at hskel

/-- Relinking keeps the classes of the labels. -/
lemma isa (h : Relinks g g') (p : LabelBody → Bool) [ClassTest p] (e : Event) :
    g'.isa p e = g.isa p e := by
  have hmap := h.map_eq (f := fun lab => p lab.body) (fun lab => ClassTest.mapFields _ _) e
  unfold ExecutionGraph.isa
  cases hl : g.getEventLabel e <;> cases hl' : g'.getEventLabel e <;> simp_all

/-- Relinking keeps the addresses of the accesses. -/
lemma addrOf (h : Relinks g g') (e : Event) : g'.addrOf e = g.addrOf e := by
  have hmap := h.map_eq (f := fun lab => lab.body.addr) (fun lab => LabelBody.addr_mapFields _ _) e
  unfold ExecutionGraph.addrOf
  cases hl : g.getEventLabel e <;> cases hl' : g'.getEventLabel e <;> simp_all

/-- Relinking keeps the stamps. -/
lemma stampOf (h : Relinks g g') (e : Event) : g'.stampOf e = g.stampOf e := by
  have hmap := h.map_eq (f := fun lab => lab.getStamp) (fun lab => rfl) e
  unfold ExecutionGraph.stampOf
  rw [hmap]

/-- Relinking keeps the positions. -/
lemma containsPos (h : Relinks g g') (e : Event) : g'.containsPos e = g.containsPos e := by
  have hmap := h.map_eq (f := fun _ => ()) (fun _ => rfl) e
  unfold ExecutionGraph.containsPos
  rw [← Option.isSome_map (f := fun _ => ()), hmap, Option.isSome_map]

/-- Relinking keeps the last position of a thread. -/
lemma lastPos (h : Relinks g g') (t : ℕ) : g'.lastPos t = g.lastPos t := by
  unfold ExecutionGraph.lastPos
  rw [h.threadSize]

end Relinks

/-- The labels are where they should be: every label knows its position, threads start with a begin
label, and there is one initializer. -/
structure Positioned (g : ExecutionGraph) : Prop where
  /-- Every label knows its position. -/
  pos : ∀ e lab, g.getEventLabel e = some lab → lab.pos = e
  /-- Threads start with a begin label. -/
  starts : ∀ e lab, g.getEventLabel e = some lab → e.index = 0 → lab.body.isThreadStart
  /-- There is one initializer. -/
  initOnly : ∀ e, g.isa LabelBody.isInit e ↔ e = .init

/-- Relinking keeps the labels where they are. -/
lemma Positioned.relinks (h : Positioned g) (hrelinks : Relinks g g') : Positioned g' := by
  have hlab : ∀ e lab', g'.getEventLabel e = some lab' →
      ∃ lab, g.getEventLabel e = some lab ∧ lab'.skeleton = lab.skeleton := by
    intro e lab' hlab'
    have hskel := hrelinks.skeleton e
    rw [hlab', Option.map_some, eq_comm, Option.map_eq_some_iff] at hskel
    obtain ⟨lab, hlab, heq⟩ := hskel
    exact ⟨lab, hlab, heq.symm⟩
  refine ⟨fun e lab' hlab' => ?_, fun e lab' hlab' hi => ?_, fun e => ?_⟩
  · obtain ⟨lab, hget, heq⟩ := hlab e lab' hlab'
    exact (congrArg EventLabel.pos heq).trans (h.pos e lab hget)
  · obtain ⟨lab, hget, heq⟩ := hlab e lab' hlab'
    have hbody : lab'.body.isThreadStart = lab.body.isThreadStart := by
      have := congrArg (fun l : EventLabel => l.body.isThreadStart) heq
      simpa [EventLabel.skeleton] using this
    rw [hbody]
    exact h.starts e lab hget hi
  · rw [hrelinks.isa]
    exact h.initOnly e

end ExecutionGraph

end GenMC
