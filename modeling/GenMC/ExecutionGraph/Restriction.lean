import GenMC.ExecutionGraph.Readers

/-!
# Restricting graphs

`Restricts g v g'` says that `g'` is the part of `g` that a view contains: the contained labels with
their links to contained labels, and every order and list restricted to them.  It does not say how
`g'` was made; `cutToStamp` makes such a graph in place.
-/

namespace GenMC

namespace ExecutionGraph

variable {g g' g'' : ExecutionGraph} {v : View}

/-- `g'` is the restriction of `g` to a view.  The initializer may be a new one. -/
structure Restricts (g : ExecutionGraph) (v : View) (g' : ExecutionGraph) : Prop where
  /-- The threads are the same. -/
  numThreads : g'.getNumThreads = g.getNumThreads
  /-- The contained labels stay, without their links to the others. -/
  label : ∀ e, e ≠ .init → g'.getEventLabel e =
    if v.contains e then (g.getEventLabel e).map (cutPointers (.view v)) else none
  /-- The initializer is one, with the stamp of the original. -/
  init : (g'.getEventLabel .init).map (fun lab => (lab.pos, lab.stamp, lab.body)) =
    (g.getEventLabel .init).map fun lab => (lab.pos, lab.stamp, lab.body)
  /-- The insertion order is restricted. -/
  order : g'.insertionOrder = g.insertionOrder.filter v.contains
  /-- The timestamp stays. -/
  timestamp : g'.timestamp = g.timestamp
  /-- The locations of the contained accesses are tracked. -/
  tracked : ∀ a, a ∈ g'.coherence.keys ↔ ∃ e, v.contains e ∧ g.addrOf e = some a
  /-- The two location maps track the same locations. -/
  keys : g'.initRfs.keys = g'.coherence.keys
  /-- The lists of initial readers are restricted. -/
  initReaders : ∀ a, g'.initReaders a = (g.initReaders a).filter v.contains

/-- The coherence orders of `g'` are those of `g`, restricted to a view. -/
def RestrictsCO (g : ExecutionGraph) (v : View) (g' : ExecutionGraph) : Prop :=
  ∀ a, g'.co a = (g.co a).filter v.contains

namespace Restricts

/-- The initializer is contained. -/
lemma contains_init (v : View) : v.contains .init = true := VectorClock.contains_init (.view v)

/-- A contained label in the restriction. -/
lemma getEventLabel (h : Restricts g v g') (hg : Positioned g) {e : Event} {lab : EventLabel}
    (hc : v.contains e) (hlab : g.getEventLabel e = some lab) :
    ∃ lab', g'.getEventLabel e = some lab' ∧ lab'.pos = lab.pos ∧ lab'.stamp = lab.stamp ∧
      lab'.body = lab.body.mapFields (cutMap (.view v)) := by
  by_cases he : e = .init
  · subst he
    have hbase := h.init
    rw [hlab, Option.map_some] at hbase
    obtain ⟨lab', hlab', heq⟩ := Option.map_eq_some_iff.mp hbase
    rw [Prod.mk.injEq, Prod.mk.injEq] at heq
    refine ⟨lab', hlab', heq.1, heq.2.1, ?_⟩
    have hinit := (hg.initOnly .init).mpr rfl
    rw [isa_of_getEventLabel hlab] at hinit
    rw [heq.2.2]
    cases hb : lab.body <;> rw [hb] at hinit <;> first | rfl | cases hinit
  · exact ⟨cutPointers (.view v) lab, by rw [h.label e he, if_pos hc, hlab]; rfl, rfl, rfl, rfl⟩

/-- There are no other labels in the restriction. -/
lemma getEventLabel_eq_none (h : Restricts g v g') {e : Event}
    (hnot : v.contains e = false ∨ g.getEventLabel e = none) : g'.getEventLabel e = none := by
  by_cases he : e = .init
  · subst he
    have hnone := hnot.resolve_left (by rw [contains_init v]; simp)
    have hbase := h.init
    rwa [hnone, Option.map_none, Option.map_eq_none_iff] at hbase
  · rw [h.label e he]
    rcases hnot with hc | hnone
    · rw [hc]
      rfl
    · rw [hnone]
      split <;> rfl

/-- Every label of the restriction is a label of the original with fewer links. -/
lemma label_cases (h : Restricts g v g') (hg : Positioned g) {e : Event} {lab' : EventLabel}
    (hlab' : g'.getEventLabel e = some lab') :
    v.contains e ∧ ∃ lab, g.getEventLabel e = some lab ∧ lab'.pos = lab.pos ∧
      lab'.stamp = lab.stamp ∧ lab'.body = lab.body.mapFields (cutMap (.view v)) := by
  have hc : v.contains e = true := by
    by_contra hnot
    rw [h.getEventLabel_eq_none (Or.inl (Bool.eq_false_iff.mpr hnot))] at hlab'
    cases hlab'
  cases hlab : g.getEventLabel e with
  | none =>
    rw [h.getEventLabel_eq_none (Or.inr hlab)] at hlab'
    cases hlab'
  | some lab =>
    obtain ⟨lab'', hlab'', heq⟩ := h.getEventLabel hg hc hlab
    obtain rfl := Option.some.inj (hlab''.symm.trans hlab')
    exact ⟨hc, lab, rfl, heq⟩

/-- What the labels of the restriction say. -/
lemma elim_eq {α : Type*} (h : Restricts g v g') (hg : Positioned g) (f : LabelBody → α) (d : α)
    (e : Event) : (g'.getEventLabel e).elim d (fun lab => f lab.body) =
      if v.contains e then
        (g.getEventLabel e).elim d fun lab => f (lab.body.mapFields (cutMap (.view v)))
      else d := by
  cases hc : v.contains e with
  | false =>
    rw [h.getEventLabel_eq_none (Or.inl hc)]
    rfl
  | true =>
    rw [if_pos rfl]
    cases hlab : g.getEventLabel e with
    | none =>
      rw [h.getEventLabel_eq_none (Or.inr hlab)]
      rfl
    | some lab =>
      obtain ⟨lab', hlab', -, -, hbody⟩ := h.getEventLabel hg hc hlab
      rw [hlab', Option.elim_some, Option.elim_some, hbody]

/-- The positions of the restriction. -/
lemma containsPos (h : Restricts g v g') (hg : Positioned g) (e : Event) :
    g'.containsPos e = (v.contains e && g.containsPos e) := by
  have helim := h.elim_eq hg (fun _ => true) false e
  have hsome : ∀ o : Option EventLabel, o.isSome = o.elim false fun _ => true := by
    intro o
    cases o <;> rfl
  unfold ExecutionGraph.containsPos
  rw [hsome, helim, hsome]
  split <;> simp [*]

/-- The classes of the labels. -/
lemma isa (h : Restricts g v g') (hg : Positioned g) (p : LabelBody → Bool) [ClassTest p]
    (e : Event) : g'.isa p e = (v.contains e && g.isa p e) := by
  have helim := h.elim_eq hg p false e
  have hany : ∀ o : Option EventLabel, (o.any fun lab => p lab.body) =
      o.elim false fun lab => p lab.body := by
    intro o
    cases o <;> rfl
  unfold ExecutionGraph.isa
  rw [hany, helim, hany]
  simp only [ClassTest.mapFields]
  split <;> simp [*]

/-- The addresses of the accesses. -/
lemma addrOf (h : Restricts g v g') (hg : Positioned g) (e : Event) :
    g'.addrOf e = if v.contains e then g.addrOf e else none := by
  have helim := h.elim_eq hg LabelBody.addr none e
  have hbind : ∀ o : Option EventLabel, (o.bind fun lab => lab.body.addr) =
      o.elim none fun lab => lab.body.addr := by
    intro o
    cases o <;> rfl
  unfold ExecutionGraph.addrOf
  rw [hbind, helim, hbind]
  simp only [LabelBody.addr_mapFields]

/-- The sources of the reads. -/
lemma rfOf (h : Restricts g v g') (hg : Positioned g) (r : Event) :
    g'.rfOf r = if v.contains r then (g.rfOf r).filter v.contains else none := by
  have helim := h.elim_eq hg LabelBody.rf none r
  have hbind : ∀ o : Option EventLabel, (o.bind fun lab => lab.body.rf) =
      o.elim none fun lab => lab.body.rf := by
    intro o
    cases o <;> rfl
  unfold ExecutionGraph.rfOf
  rw [hbind, helim, hbind]
  split
  · cases g.getEventLabel r with
    | none => rfl
    | some lab =>
      rw [Option.elim_some, Option.elim_some, LabelBody.rf_mapFields]
      split
      · rfl
      next hread =>
        rw [LabelBody.rf_eq_none (Bool.eq_false_iff.mpr hread)]
        rfl
  · rfl

/-- The readers of the writes. -/
lemma readersOf (h : Restricts g v g') (hg : Positioned g) (w : Event) :
    g'.readersOf w = if v.contains w then (g.readersOf w).filter v.contains else [] := by
  have helim := h.elim_eq hg LabelBody.readers [] w
  have hget : ∀ o : Option EventLabel, ((o.map fun lab => lab.body.readers).getD []) =
      o.elim [] fun lab => lab.body.readers := by
    intro o
    cases o <;> rfl
  unfold ExecutionGraph.readersOf
  rw [hget, helim, hget]
  split
  · cases g.getEventLabel w with
    | none => rfl
    | some lab =>
      rw [Option.elim_some, Option.elim_some, LabelBody.readers_mapFields]
      split
      · rfl
      next hwrite =>
        rw [LabelBody.readers_eq_nil (Bool.eq_false_iff.mpr hwrite)]
        rfl
  · rfl

/-- The stamps of the contained labels. -/
lemma stampOf (h : Restricts g v g') (hg : Positioned g) {e : Event} (hc : v.contains e) :
    g'.stampOf e = g.stampOf e := by
  cases hlab : g.getEventLabel e with
  | none =>
    unfold ExecutionGraph.stampOf
    rw [h.getEventLabel_eq_none (Or.inr hlab), hlab]
  | some lab =>
    obtain ⟨lab', hlab', -, hstamp, -⟩ := h.getEventLabel hg hc hlab
    rw [stampOf_of_getEventLabel hlab, stampOf_of_getEventLabel hlab', EventLabel.getStamp, hstamp,
      EventLabel.getStamp]

/-- The labels of the restriction are where they should be. -/
lemma positioned (h : Restricts g v g') (hg : Positioned g) : Positioned g' := by
  refine ⟨fun e lab' hlab' => ?_, fun e lab' hlab' hi => ?_, fun e => ?_⟩
  · obtain ⟨-, lab, hlab, hpos, -, -⟩ := h.label_cases hg hlab'
    rw [hpos]
    exact hg.pos e lab hlab
  · obtain ⟨-, lab, hlab, -, -, hbody⟩ := h.label_cases hg hlab'
    rw [hbody, LabelBody.isThreadStart_mapFields]
    exact hg.starts e lab hlab hi
  · rw [h.isa hg, Bool.and_eq_true, hg.initOnly]
    exact ⟨fun he => he.2, fun he => ⟨he ▸ contains_init v, he⟩⟩

/-- The reader lists of the restriction mirror its sources. -/
lemma readerLists (h : Restricts g v g') (hg : ReaderLists g) : ReaderLists g' := by
  have hpositioned := hg.positioned
  have hrf := h.rfOf hpositioned
  have haddr := h.addrOf hpositioned
  have hsourceAt : ∀ w a, v.contains w → g'.sourceAt w a = g.sourceAt w a := by
    intro w a hw
    unfold sourceAt
    rw [h.isa hpositioned, hw, Bool.true_and]
  refine ⟨h.positioned hpositioned, fun r w hw => ?_, ?_, fun e a ha => ?_, h.keys⟩
  · rw [h.isa hpositioned, h.isa hpositioned]
    rw [hrf] at hw
    split at hw
    · obtain ⟨hw, hcw⟩ := Option.filter_eq_some_iff.mp hw
      rw [hcw, Bool.true_and, Bool.true_and]
      exact hg.sources r w hw
    · cases hw
  · -- Both sides are restricted: the sources to the view, the lists of the writes to kept writes.
    refine (hg.mirrors.restrict v.contains (Sum.elim v.contains fun _ => true)).congr
      (fun r => ?_) fun s => ?_
    · unfold sourceOf
      rw [hrf, haddr]
      by_cases hr : v.contains r
      · simp only [hr, if_true]
        cases hsrc : g.rfOf r with
        | none => rfl
        | some w =>
          cases ha : g.addrOf r with
          | none => simp
          | some a =>
            simp only [Option.bind_some, Option.map_some]
            by_cases hw : v.contains w
            · rw [Option.filter_some, if_pos hw, Option.bind_some, hsourceAt w a hw,
                Option.filter_some, if_pos]
              unfold sourceAt
              split
              · rfl
              · exact hw
            · have hnotInit : g.isa LabelBody.isInit w = false := by
                rw [Bool.eq_false_iff]
                intro hi
                rw [(hpositioned.initOnly w).mp hi] at hw
                exact hw (contains_init v)
              rw [Option.filter_some, if_neg hw, Option.bind_none, Option.filter_some, if_neg]
              unfold sourceAt
              rw [hnotInit]
              exact hw
      · simp [hr]
    · cases s with
      | inl w => exact h.readersOf hpositioned w
      | inr a => exact h.initReaders a
  · rw [haddr] at ha
    split at ha
    next he => exact (h.tracked a).mpr ⟨e, he, ha⟩
    next => cases ha

end Restricts

/-! ## Cutting -/

/-- Begin labels have no pointers that a cut could take back. -/
lemma cutPointers_of_isThreadStart (preds : VectorClock) {lab : EventLabel}
    (h : lab.body.isThreadStart) : cutPointers preds lab = lab := by
  obtain ⟨pos, stamp, revisitable, view, body⟩ := lab
  cases body <;> first | rfl | cases h

/-- The labels after a cut of a graph whose threads start with begin labels. -/
lemma Cuts.label_eq {preds : View} {keep : List SAddr} (h : Cuts g preds keep g')
    (hg : Positioned g) (e : Event) : g'.getEventLabel e =
      if preds.contains e then (g.getEventLabel e).map (cutPointers (.view preds)) else none := by
  rw [h.label]
  by_cases hc : preds.contains e
  · simp only [hc, if_true]
    by_cases hmem : e ∈ (VectorClock.view preds).positions
    · rw [if_pos hmem]
    · rw [if_neg hmem]
      have hindex : e.index = 0 := by
        by_contra hne
        exact hmem (VectorClock.mem_positions_of_contains (v := .view preds) hc hne)
      cases hlab : g.getEventLabel e with
      | none => rfl
      | some lab =>
        rw [Option.map_some, cutPointers_of_isThreadStart _ (hg.starts e lab hlab hindex)]
  · rw [if_neg hc, if_neg hc]

/-- A cut leaves the initializer alone. -/
lemma Cuts.getEventLabel_init {preds : View} {keep : List SAddr} (h : Cuts g preds keep g')
    (hg : Positioned g) : g'.getEventLabel .init = g.getEventLabel .init := by
  rw [h.label_eq hg, if_pos (Restricts.contains_init preds)]
  cases hlab : g.getEventLabel .init with
  | none => rfl
  | some lab =>
    rw [Option.map_some, cutPointers_of_isThreadStart _ (hg.starts _ lab hlab rfl)]

/-- The location of a contained access is kept. -/
lemma Cuts.mem_keep {preds : View} {keep : List SAddr} (h : Cuts g preds keep g')
    (hg : Positioned g) {e : Event} {a : SAddr} (he : preds.contains e)
    (ha : g.addrOf e = some a) : a ∈ keep := by
  rw [mem_keptLocs h.keptLocs]
  refine ⟨e, VectorClock.mem_positions_of_contains (v := .view preds) he fun hindex => ?_, ha⟩
  obtain ⟨lab, hlab, hbody⟩ := Option.bind_eq_some_iff.mp ha
  have hstart := hg.starts e lab hlab hindex
  cases hb : lab.body <;>
    simp_all [LabelBody.isThreadStart, LabelBody.addr, LabelBody.memAccess]

/-- The initial readers after a cut. -/
lemma Cuts.initReaders {preds : View} {keep : List SAddr} (h : Cuts g preds keep g')
    (hkeys : g.initRfs.keys = g.coherence.keys) (a : SAddr) :
    g'.initReaders a = if a ∈ keep then (g.initReaders a).filter preds.contains else [] := by
  unfold ExecutionGraph.initReaders
  rw [h.initRfs, ← hkeys, KeyedList.eraseAlong_keys, KeyedList.find?_mapValues,
    KeyedList.find?_filterKeys]
  by_cases ha : a ∈ keep
  · simp only [ha, decide_true, if_true, and_true]
    cases hfind : g.initRfs.find? a with
    | none => rfl
    | some rs =>
      have hmem : a ∈ g.initRfs.keys := KeyedList.mem_keys_iff.mpr ⟨rs, hfind⟩
      simp only [Option.map_some, Option.getD_some, if_pos hmem]
  · simp [ha]

/-- A cut restricts the graph to its view. -/
lemma Cuts.restricts {keep : List SAddr} (h : Cuts g v keep g') (hg : ReaderLists g) :
    Restricts g v g' := by
  have hpositioned := hg.positioned
  have hkeep : ∀ a, a ∈ keep ↔ ∃ e, v.contains e ∧ g.addrOf e = some a := by
    intro a
    constructor
    · intro ha
      obtain ⟨e, he, hae⟩ := (mem_keptLocs h.keptLocs a).mp ha
      exact ⟨e, decide_eq_true (VectorClock.mem_positions.mp he).2, hae⟩
    · rintro ⟨e, he, hae⟩
      exact h.mem_keep hpositioned he hae
  have hkeys : g'.coherence.keys = g.coherence.keys.filter fun a => decide (a ∈ keep) := by
    rw [h.coherence, KeyedList.keys_mapValues, KeyedList.keys_filterKeys]
  refine ⟨h.numThreads, fun e _ => h.label_eq hpositioned e, ?_, h.order, h.timestamp, fun a => ?_,
    ?_, fun a => ?_⟩
  · rw [h.getEventLabel_init hpositioned]
  · rw [hkeys, List.mem_filter, decide_eq_true_iff, hkeep]
    exact ⟨fun ha => ha.2, fun ⟨e, he, hae⟩ => ⟨hg.tracked e a hae, e, he, hae⟩⟩
  · rw [hkeys, h.initRfs, ← hg.keys, KeyedList.eraseAlong_keys, KeyedList.keys_mapValues,
      KeyedList.keys_filterKeys]
  · rw [h.initReaders hg.keys]
    split
    · rfl
    next ha =>
      refine (List.filter_eq_nil_iff.mpr fun r hr hc => ha ?_).symm
      exact h.mem_keep hpositioned hc (hg.addrOf_of_mem_initReaders hr)

/-- A cut restricts the coherence orders of writes. -/
lemma Cuts.restrictsCO {keep : List SAddr} (h : Cuts g v keep g') (hg : Positioned g)
    (hstores : ∀ a, ∀ w ∈ g.co a, g.addrOf w = some a) : RestrictsCO g v g' := by
  intro a
  have hfind : g'.coherence.find? a =
      if a ∈ keep then (g.coherence.find? a).map (List.filter v.contains) else none := by
    rw [h.coherence, KeyedList.find?_mapValues, KeyedList.find?_filterKeys]
    by_cases ha : a ∈ keep <;> simp [ha]
  rw [co, hfind]
  split
  · unfold co
    cases g.coherence.find? a <;> rfl
  next ha =>
    refine (List.filter_eq_nil_iff.mpr fun w hw hc => ha ?_).symm
    exact h.mem_keep hg hc (hstores a w hw)

/-- `cutToStamp` keeps the reader lists. -/
lemma ReaderLists.cutToStamp (hg : ReaderLists g) {st : ℕ} (h : g.cutToStamp st = some g') :
    ReaderLists g' := by
  obtain ⟨keep, hcuts⟩ := cutToStamp_spec h
  exact (hcuts.restricts hg).readerLists hg

end ExecutionGraph

end GenMC
