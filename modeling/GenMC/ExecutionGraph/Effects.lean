import GenMC.ExecutionGraph.Relinks

/-!
# The effects of the mutators

One specification for each mutator of the graph, in terms of the label at each position, the sizes
of the threads, the insertion order and the two location maps.  Later proofs use these and do not
unfold the mutators again.
-/

namespace GenMC

namespace ExecutionGraph

variable {g g' : ExecutionGraph}

/-! ## Reads-from and readers -/

/-- The reader list of the write at a position; empty if there is no write. -/
def readersOf (g : ExecutionGraph) (w : Event) : List Event :=
  ((g.getEventLabel w).map fun lab => lab.body.readers).getD []

/-- The reader list at a position with a label. -/
lemma readersOf_of_getEventLabel {e : Event} {lab : EventLabel}
    (h : g.getEventLabel e = some lab) : g.readersOf e = lab.body.readers := by
  unfold readersOf
  rw [h]
  rfl

/-- Positions without a write have no readers. -/
lemma readersOf_eq_nil {e : Event} (h : g.isa LabelBody.isWrite e = false) :
    g.readersOf e = [] := by
  cases hlab : g.getEventLabel e with
  | none =>
    unfold readersOf
    rw [hlab]
    rfl
  | some lab =>
    rw [readersOf_of_getEventLabel hlab]
    exact LabelBody.readers_eq_nil ((isa_of_getEventLabel hlab _).symm.trans h)

/-- The source of a read after changing the fields of one label. -/
lemma rfOf_updateLabel (m : FieldMap) (e r : Event) :
    (g.updateLabel e (EventLabel.mapFields m)).rfOf r =
      if r = e ∧ g.isa LabelBody.isRead e then m.rf (g.rfOf r) else g.rfOf r := by
  unfold rfOf
  rw [getEventLabel_updateLabel]
  by_cases hr : r = e
  · subst hr
    cases hlab : g.getEventLabel r with
    | none => simp [isa, hlab]
    | some lab =>
      cases hread : lab.body.isRead <;>
        simp [isa, hlab, LabelBody.rf_mapFields, hread, LabelBody.rf_eq_none]
  · simp [hr]

/-- The readers of a write after changing the fields of one label. -/
lemma readersOf_updateLabel (m : FieldMap) (e w : Event) :
    (g.updateLabel e (EventLabel.mapFields m)).readersOf w =
      if w = e ∧ g.isa LabelBody.isWrite e then m.readers (g.readersOf w) else g.readersOf w := by
  unfold readersOf
  rw [getEventLabel_updateLabel]
  by_cases hw : w = e
  · subst hw
    cases hlab : g.getEventLabel w with
    | none => simp [isa, hlab]
    | some lab =>
      cases hwrite : lab.body.isWrite <;>
        simp [isa, hlab, LabelBody.readers_mapFields, hwrite, LabelBody.readers_eq_nil]
  · simp [hw]

/-- Changing fields other than the source leaves the sources alone. -/
lemma rfOf_updateLabel_of_id {m : FieldMap} (hm : m.rf = id) (e r : Event) :
    (g.updateLabel e (EventLabel.mapFields m)).rfOf r = g.rfOf r := by
  rw [rfOf_updateLabel, hm]
  split <;> rfl

/-- Changing fields other than the readers leaves the readers alone. -/
lemma readersOf_updateLabel_of_id {m : FieldMap} (hm : m.readers = id) (e w : Event) :
    (g.updateLabel e (EventLabel.mapFields m)).readersOf w = g.readersOf w := by
  rw [readersOf_updateLabel, hm]
  split <;> rfl

/-! ## Adding labels -/

/-- The effect of putting a label at its position. -/
structure Places (g : ExecutionGraph) (lab : EventLabel) (g' : ExecutionGraph) : Prop where
  /-- The label is at its position, the others stay. -/
  label : ∀ e, g'.getEventLabel e = if e = lab.pos then some lab else g.getEventLabel e
  /-- The position was free, or held an empty label. -/
  free : g.containsPos lab.pos = false ∨ g.isa LabelBody.isEmpty lab.pos
  /-- The thread exists. -/
  thread : lab.pos.thread < g.getNumThreads
  /-- The position is the next one if it was free. -/
  index : g.containsPos lab.pos = false → lab.pos.index = g.getThreadSize lab.pos.thread
  /-- The threads are the same. -/
  numThreads : g'.getNumThreads = g.getNumThreads
  /-- The label is the last one of the insertion order. -/
  order : g'.insertionOrder =
    (if g.containsPos lab.pos then g.insertionOrder.erase lab.pos else g.insertionOrder) ++
      [lab.pos]

/-- The labels of a thread after appending a label to one. -/
lemma getD_events_append (lab : EventLabel) {t : ℕ} (ht : t < g.getNumThreads) (t' : ℕ) :
    (g.events.modify t fun thr => thr ++ [lab]).getD t' [] =
      if t' = t then g.events.getD t' [] ++ [lab] else g.events.getD t' [] := by
  simp only [List.getD_eq_getElem?_getD, List.getElem?_modify]
  by_cases h : t' = t
  · subst h
    rw [if_pos rfl, List.getElem?_eq_getElem ht]
    simp
  · cases g.events[t']? <;> simp [h, Ne.symm h]

/-- A label appended to its thread. -/
lemma getEventLabel_append {lab : EventLabel} (ht : lab.pos.thread < g.getNumThreads)
    (hindex : lab.pos.index = g.getThreadSize lab.pos.thread) {g' : ExecutionGraph}
    (hg' : g'.events = g.events.modify lab.pos.thread fun thr => thr ++ [lab]) (e : Event) :
    g'.getEventLabel e = if e = lab.pos then some lab else g.getEventLabel e := by
  unfold getThreadSize at hindex
  unfold getEventLabel
  rw [hg', getD_events_append lab ht]
  obtain ⟨t, i⟩ := e
  by_cases htt : t = lab.pos.thread
  · subst htt
    have hpos : (⟨lab.pos.thread, i⟩ : Event) = lab.pos ↔ i = lab.pos.index := by
      rw [Event.ext_iff]
      simp
    simp only [if_true, hpos]
    generalize g.events.getD lab.pos.thread [] = thr at hindex
    rcases lt_trichotomy i thr.length with hlt | heq | hgt
    · rw [List.getElem?_append_left hlt, if_neg (by omega)]
    · rw [if_pos (by omega), List.getElem?_append_right (by omega)]
      simp [heq]
    · rw [if_neg (by omega), List.getElem?_eq_none (by simp; omega),
        List.getElem?_eq_none (by omega)]
  · rw [if_neg htt, if_neg (fun h => htt (by rw [← h]))]

/-- What `placeLabel` does where it succeeds. -/
lemma placeLabel_spec {lab : EventLabel} (h : g.placeLabel lab = some g') :
    Places g lab g' ∧ g'.coherence = g.coherence ∧ g'.initRfs = g.initRfs ∧
      g'.timestamp = g.timestamp := by
  unfold placeLabel at h
  split at h
  · cases h
  next hthread =>
  have hthread' : lab.pos.thread < g.getNumThreads := not_le.mp hthread
  split at h
  next eLab hlab =>
    split at h
    next hisEmpty =>
      have hcontains : g.containsPos lab.pos = true := containsPos_iff.mpr ⟨eLab, hlab⟩
      have hempty : g.isa LabelBody.isEmpty lab.pos := by
        rwa [isa_of_getEventLabel hlab]
      obtain rfl := Option.some.inj h
      refine ⟨⟨fun e => ?_, Or.inr hempty, hthread', fun hc => ?_,
        getNumThreads_updateLabel (g := g) _ _, by rw [if_pos hcontains]⟩, rfl, rfl, rfl⟩
      · refine (getEventLabel_updateLabel (g := g) lab.pos (fun _ => lab) e).trans ?_
        split
        · next he => rw [he, hlab, Option.map_some]
        · rfl
      · rw [hcontains] at hc
        cases hc
    · cases h
  next hnone =>
    have hcontains : g.containsPos lab.pos = false := by
      unfold containsPos
      rw [hnone]
      rfl
    split at h
    next hindex =>
      obtain rfl := Option.some.inj h
      refine ⟨⟨getEventLabel_append hthread' hindex rfl, Or.inl hcontains, hthread',
        fun _ => hindex, List.length_modify _ _ _, by rw [if_neg (by simp [hcontains])]⟩,
        rfl, rfl, rfl⟩
    · cases h

/-- The label with the stamp that `addLabelToGraph` gives it. -/
def stamped (g : ExecutionGraph) (lab : EventLabel) : EventLabel := (g.assignStamp lab).1

@[simp] lemma pos_stamped (lab : EventLabel) : (g.stamped lab).pos = lab.pos := by
  unfold stamped assignStamp
  split <;> rfl

@[simp] lemma body_stamped (lab : EventLabel) : (g.stamped lab).body = lab.body := by
  unfold stamped assignStamp
  split <;> rfl

/-- Every label in a graph has a stamp. -/
lemma stamp_stamped_isSome (lab : EventLabel) : (g.stamped lab).stamp.isSome := by
  unfold stamped assignStamp
  split
  · next h => simp [h]
  · rfl

/-- Assigning a stamp only touches the timestamp of the graph. -/
lemma assignStamp_eq (lab : EventLabel) :
    ∃ ts, g.assignStamp lab = (g.stamped lab, { g with timestamp := ts }) := by
  unfold stamped assignStamp
  split
  · exact ⟨g.timestamp, rfl⟩
  · exact ⟨_, rfl⟩

/-- `trackCoherenceAtLoc` succeeds in a graph with an initializer. -/
lemma trackCoherenceAtLoc_eq_some {a : SAddr} :
    g.trackCoherenceAtLoc a = some g' ↔ g.isa LabelBody.isInit .init ∧
      g' = { g with coherence := g.coherence.track a [], initRfs := g.initRfs.track a [] } := by
  unfold trackCoherenceAtLoc
  split
  · next h => simp [h, eq_comm]
  · next h => simp [h]

/-- The effect of `addLabelToGraph`. -/
structure Adds (g : ExecutionGraph) (lab : EventLabel) (g' : ExecutionGraph) : Prop where
  /-- The stamped label is put at its position. -/
  places : Places g (g.stamped lab) g'
  /-- The location of the label is tracked. -/
  coherence : g'.coherence = lab.body.addr.elim g.coherence fun a => g.coherence.track a []
  /-- The location of the label is tracked among the initial readers too. -/
  initRfs : g'.initRfs = lab.body.addr.elim g.initRfs fun a => g.initRfs.track a []
  /-- The timestamp moves on if the label needed a stamp. -/
  timestamp : g'.timestamp = (g.assignStamp lab).2.timestamp

/-- What `addLabelToGraph` does where it succeeds. -/
lemma addLabelToGraph_spec {lab : EventLabel} (h : g.addLabelToGraph lab = some g') :
    Adds g lab g' := by
  obtain ⟨ts, hts⟩ := assignStamp_eq (g := g) lab
  unfold addLabelToGraph at h
  rw [hts] at h
  simp only [body_stamped] at h
  cases haddr : lab.body.addr with
  | none =>
    rw [haddr] at h
    obtain ⟨hplaces, hco, hrfs, htime⟩ := placeLabel_spec h
    refine ⟨⟨hplaces.label, hplaces.free, hplaces.thread, hplaces.index, hplaces.numThreads,
      hplaces.order⟩, ?_, ?_, ?_⟩
    · rw [haddr]
      exact hco
    · rw [haddr]
      exact hrfs
    · rw [hts]
      exact htime
  | some a =>
    rw [haddr] at h
    obtain ⟨g₁, htrack, hplace⟩ := Option.bind_eq_some_iff.mp h
    obtain ⟨-, rfl⟩ := trackCoherenceAtLoc_eq_some.mp htrack
    obtain ⟨hplaces, hco, hrfs, htime⟩ := placeLabel_spec hplace
    refine ⟨⟨hplaces.label, hplaces.free, hplaces.thread, hplaces.index, hplaces.numThreads,
      hplaces.order⟩, ?_, ?_, ?_⟩
    · rw [haddr]
      exact hco
    · rw [haddr]
      exact hrfs
    · rw [hts]
      exact htime

/-! ## Turning the source of a read -/

/-- The effect of changing the reader list of a write, or the initial readers of a location. -/
structure TurnsReaders (g : ExecutionGraph) (w : Event) (a : SAddr) (f : List Event → List Event)
    (g' : ExecutionGraph) : Prop where
  /-- Only links change. -/
  relinks : Relinks g g'
  /-- The changed label is a write or the initializer. -/
  source : g.isa LabelBody.isWrite w ∨ g.isa LabelBody.isInit w
  /-- The sources of the reads stay. -/
  rfOf : ∀ r, g'.rfOf r = g.rfOf r
  /-- The readers of a write. -/
  readersOf : ∀ w', g'.readersOf w' =
    if w' = w ∧ g.isa LabelBody.isWrite w then f (g.readersOf w') else g.readersOf w'
  /-- The initial readers of a location. -/
  initReaders : ∀ a', g'.initReaders a' =
    if a' = a ∧ g.isa LabelBody.isInit w then f (g.initReaders a') else g.initReaders a'
  /-- The coherence order stays. -/
  coherence : g'.coherence = g.coherence
  /-- The tracked locations stay. -/
  keys : a ∈ g.initRfs.keys → g'.initRfs.keys = g.initRfs.keys

/-- A label is not a write and the initializer at once. -/
lemma isa_isInit_eq_false {w : Event} (h : g.isa LabelBody.isWrite w) :
    g.isa LabelBody.isInit w = false := by
  obtain ⟨lab, hlab, hw⟩ := isa_iff.mp h
  rw [isa_of_getEventLabel hlab]
  cases hb : lab.body <;> simp_all [LabelBody.isWrite, LabelBody.isInit]

/-- Changing the reader list of a write. -/
lemma turnsReaders_updateLabel {w : Event} (hw : g.isa LabelBody.isWrite w) (a : SAddr)
    (f : List Event → List Event) :
    TurnsReaders g w a f (g.updateLabel w (EventLabel.mapFields { readers := f })) := by
  have hinit := isa_isInit_eq_false hw
  refine ⟨Relinks.updateLabel g w _, Or.inl hw, rfOf_updateLabel_of_id rfl w,
    readersOf_updateLabel _ w, fun a' => ?_, rfl, fun _ => rfl⟩
  rw [hinit, if_neg (by simp)]
  rfl

/-- Changing the initial readers of a location. -/
lemma turnsReaders_modify {w : Event} (hw : g.isa LabelBody.isInit w) (a : SAddr)
    (f : List Event → List Event) :
    TurnsReaders g w a f { g with initRfs := (g.initRfs.track a []).modify a f } := by
  have hwrite : g.isa LabelBody.isWrite w = false := by
    by_contra h
    have := isa_isInit_eq_false (Bool.eq_true_of_not_eq_false h)
    rw [this] at hw
    cases hw
  refine ⟨⟨rfl, fun _ => rfl, fun _ => rfl, rfl, rfl⟩, Or.inr hw, fun _ => rfl, fun w' => ?_,
    fun a' => ?_, rfl, fun ha => ?_⟩
  · rw [hwrite, if_neg (by simp)]
    rfl
  · rw [hw]
    unfold ExecutionGraph.initReaders
    simp only [KeyedList.find?_modify, KeyedList.find?_track, and_true]
    split <;> rfl
  · simp only [KeyedList.keys_modify]
    rw [KeyedList.track_of_mem ha]

/-- `dropReader` removes the read from the list of its source. -/
lemma dropReader_spec {w r : Event} {a : SAddr} (h : g.dropReader w r a = some g') :
    TurnsReaders g w a (List.filter fun r' => !decide (r' = r)) g' := by
  unfold dropReader at h
  split at h
  next hw =>
    obtain rfl := Option.some.inj h
    exact turnsReaders_updateLabel hw a _
  next =>
    split at h
    next hw =>
      obtain rfl := Option.some.inj h
      exact turnsReaders_modify hw a _
    next => cases h

/-- The reader list that a read with the location `a` and the source `w` belongs to. -/
def readersFrom (g : ExecutionGraph) (w : Event) (a : SAddr) : List Event :=
  if g.isa LabelBody.isInit w then g.initReaders a else g.readersOf w

/-- `pushReader` adds a read that is not listed yet to the list of its source. -/
lemma pushReader_spec {w r : Event} {a : SAddr} (h : g.pushReader w r a = some g') :
    r ∉ g.readersFrom w a ∧ TurnsReaders g w a (fun rs => rs ++ [r]) g' := by
  unfold pushReader at h
  obtain ⟨wLab, hlab, h⟩ := Option.bind_eq_some_iff.mp h
  unfold readersFrom
  split at h
  next hw =>
    rw [← isa_of_getEventLabel hlab LabelBody.isWrite] at hw
    split at h
    next => cases h
    next hr =>
      obtain rfl := Option.some.inj h
      rw [isa_isInit_eq_false hw, if_neg (by simp), readersOf_of_getEventLabel hlab]
      exact ⟨hr, turnsReaders_updateLabel hw a _⟩
  next =>
    split at h
    next hw =>
      rw [← isa_of_getEventLabel hlab LabelBody.isInit] at hw
      split at h
      next => cases h
      next hr =>
        obtain rfl := Option.some.inj h
        rw [if_pos hw]
        exact ⟨hr, turnsReaders_modify hw a _⟩
    next => cases h

/-- What `setRf` does where it succeeds: the source changes, then the read leaves the list of its
old source and joins the list of its new one. -/
lemma setRf_spec {r : Event} {rf : Option Event} (h : g.setRf r rf = some g') :
    ∃ a g₂, g.isa LabelBody.isRead r ∧ g.addrOf r = some a ∧
      (g.updateLabel r (EventLabel.setRfNoCascade rf)).leaveSource (g.rfOf r) r a = some g₂ ∧
      g₂.joinSource rf r a = some g' := by
  unfold setRf at h
  obtain ⟨rLab, hlab, h⟩ := Option.bind_eq_some_iff.mp h
  split at h
  next hread =>
    obtain ⟨a, ha, h⟩ := Option.bind_eq_some_iff.mp h
    obtain ⟨g₂, hleave, hjoin⟩ := Option.bind_eq_some_iff.mp h
    refine ⟨a, g₂, ?_, ?_, ?_, hjoin⟩
    · rwa [isa_of_getEventLabel hlab]
    · rwa [addrOf_of_getEventLabel hlab]
    · rwa [rfOf_of_getEventLabel hlab]
  next => cases h

/-- Leaving a source only changes links. -/
lemma leaveSource_relinks {old : Option Event} {r : Event} {a : SAddr}
    (h : g.leaveSource old r a = some g') : Relinks g g' := by
  unfold leaveSource at h
  split at h
  · split at h
    · exact (dropReader_spec h).relinks
    · exact Option.some.inj h ▸ Relinks.refl g
  · exact Option.some.inj h ▸ Relinks.refl g

/-- Joining a source only changes links. -/
lemma joinSource_relinks {rf : Option Event} {r : Event} {a : SAddr}
    (h : g.joinSource rf r a = some g') : Relinks g g' := by
  unfold joinSource at h
  split at h
  · exact (pushReader_spec h).2.relinks
  · exact Option.some.inj h ▸ Relinks.refl g

/-- `setRf` only changes links. -/
lemma setRf_relinks {r : Event} {rf : Option Event} (h : g.setRf r rf = some g') :
    Relinks g g' := by
  obtain ⟨a, g₂, -, -, hleave, hjoin⟩ := setRf_spec h
  have hset : Relinks g (g.updateLabel r (EventLabel.setRfNoCascade rf)) :=
    Relinks.updateLabel g r _
  exact (hset.trans (leaveSource_relinks hleave)).trans (joinSource_relinks hjoin)

/-! ## Changing the coherence order -/

/-- The effect of changing the coherence order of the location of a write. -/
lemma modifyCO_spec {w : Event} {f : List Event → Option (List Event)}
    (h : g.modifyCO w f = some g') :
    ∃ a ws, g.isa LabelBody.isWrite w ∧ g.addrOf w = some a ∧ f (g.co a) = some ws ∧
      g' = { g with coherence := (g.coherence.track a []).modify a fun _ => ws } := by
  unfold modifyCO at h
  obtain ⟨wLab, hlab, h⟩ := Option.bind_eq_some_iff.mp h
  split at h
  next hw =>
    obtain ⟨a, ha, h⟩ := Option.bind_eq_some_iff.mp h
    obtain ⟨ws, hws, h⟩ := Option.bind_eq_some_iff.mp h
    refine ⟨a, ws, ?_, ?_, hws, (Option.some.inj h).symm⟩
    · rwa [isa_of_getEventLabel hlab]
    · rwa [addrOf_of_getEventLabel hlab]
  next => cases h

/-- The effect of the mutators of the coherence order: they only change coherence, and the order of
one location. -/
structure TurnsCO (g g' : ExecutionGraph) : Prop where
  /-- The labels and the lists of readers stay. -/
  eq : g' = { g with coherence := g'.coherence }
  /-- The tracked locations stay if those of all writes are tracked. -/
  keys : (∀ e a, g.addrOf e = some a → a ∈ g.coherence.keys) →
    g'.coherence.keys = g.coherence.keys

/-- `modifyCO` only changes coherence. -/
lemma modifyCO_turnsCO {w : Event} {f : List Event → Option (List Event)}
    (h : g.modifyCO w f = some g') : TurnsCO g g' := by
  obtain ⟨a, ws, -, ha, -, rfl⟩ := modifyCO_spec h
  refine ⟨rfl, fun hkeys => ?_⟩
  simp only [KeyedList.keys_modify]
  rw [KeyedList.track_of_mem (hkeys w a ha)]

/-- Two changes of coherence after one another. -/
lemma TurnsCO.trans {g'' : ExecutionGraph} (h : TurnsCO g g') (h' : TurnsCO g' g'') :
    TurnsCO g g'' := by
  refine ⟨?_, fun hkeys => ?_⟩
  · rw [h'.eq, h.eq]
  · have hkeys' : ∀ e a, g'.addrOf e = some a → a ∈ g'.coherence.keys := by
      intro e a ha
      rw [h.keys hkeys]
      rw [h.eq] at ha
      exact hkeys e a ha
    rw [h'.keys hkeys', h.keys hkeys]

/-- `addStoreToCOBefore` only changes coherence. -/
lemma addStoreToCOBefore_turnsCO {w s : Event} (h : g.addStoreToCOBefore w s = some g') :
    TurnsCO g g' := modifyCO_turnsCO h

/-- `addStoreToCOAfter` only changes coherence. -/
lemma addStoreToCOAfter_turnsCO {w p : Event} (h : g.addStoreToCOAfter w p = some g') :
    TurnsCO g g' := by
  obtain ⟨predLab, -, h⟩ := Option.bind_eq_some_iff.mp h
  exact modifyCO_turnsCO h

/-- `moveStoreCOBefore` only changes coherence. -/
lemma moveStoreCOBefore_turnsCO {w s : Event} (h : g.moveStoreCOBefore w s = some g') :
    TurnsCO g g' := by
  obtain ⟨g₁, h₁, h⟩ := Option.bind_eq_some_iff.mp h
  exact (modifyCO_turnsCO h₁).trans (addStoreToCOBefore_turnsCO h)

/-- `moveStoreCOAfter` only changes coherence. -/
lemma moveStoreCOAfter_turnsCO {w p : Event} (h : g.moveStoreCOAfter w p = some g') :
    TurnsCO g g' := by
  obtain ⟨g₁, h₁, h⟩ := Option.bind_eq_some_iff.mp h
  exact (modifyCO_turnsCO h₁).trans (addStoreToCOAfter_turnsCO h)

/-- A change of coherence does not touch labels. -/
lemma TurnsCO.relinks (h : TurnsCO g g') : Relinks g g' := by
  rw [h.eq]
  exact ⟨rfl, fun _ => rfl, fun _ => rfl, rfl, rfl⟩

/-! ## Removing the last label of a thread -/

/-- A change of the links that leaves sources, readers and the location maps alone. -/
structure KeepsReads (g g' : ExecutionGraph) : Prop where
  /-- Only links change. -/
  relinks : Relinks g g'
  /-- The coherence order stays. -/
  coherence : g'.coherence = g.coherence
  /-- The initial readers stay. -/
  initRfs : g'.initRfs = g.initRfs
  /-- The sources of the reads stay. -/
  rfOf : ∀ r, g'.rfOf r = g.rfOf r
  /-- The readers of the writes stay. -/
  readersOf : ∀ w, g'.readersOf w = g.readersOf w

lemma KeepsReads.refl (g : ExecutionGraph) : KeepsReads g g :=
  ⟨Relinks.refl g, rfl, rfl, fun _ => rfl, fun _ => rfl⟩

lemma KeepsReads.trans {g'' : ExecutionGraph} (h : KeepsReads g g') (h' : KeepsReads g' g'') :
    KeepsReads g g'' :=
  ⟨h.relinks.trans h'.relinks, h'.coherence.trans h.coherence, h'.initRfs.trans h.initRfs,
    fun r => (h'.rfOf r).trans (h.rfOf r), fun w => (h'.readersOf w).trans (h.readersOf w)⟩

/-- Changing fields other than the source and the readers. -/
lemma keepsReads_updateLabel {m : FieldMap} (hrf : m.rf = id) (hreaders : m.readers = id)
    (e : Event) : KeepsReads g (g.updateLabel e (EventLabel.mapFields m)) :=
  ⟨Relinks.updateLabel g e m, rfl, rfl, rfOf_updateLabel_of_id hrf e,
    readersOf_updateLabel_of_id hreaders e⟩

/-- Taking back the links of a memory access, a free or an allocation leaves the reads alone. -/
lemma unlinkAccess_keepsReads (lab : EventLabel) : KeepsReads g (g.unlinkAccess lab) := by
  unfold unlinkAccess
  split
  · exact keepsReads_updateLabel rfl rfl _
  · exact KeepsReads.refl g

lemma unlinkFree_keepsReads {lab : EventLabel} (h : g.unlinkFree lab = some g') :
    KeepsReads g g' := by
  unfold unlinkFree at h
  split at h
  · obtain ⟨a, -, rfl⟩ := Option.map_eq_some_iff.mp h
    exact keepsReads_updateLabel rfl rfl _
  · exact Option.some.inj h ▸ KeepsReads.refl g

lemma unlinkMalloc_keepsReads (lab : EventLabel) : KeepsReads g (g.unlinkMalloc lab) := by
  unfold unlinkMalloc
  split
  · exact keepsReads_updateLabel rfl rfl _
  · exact KeepsReads.refl g

/-- `unlinkRead` only changes links. -/
lemma unlinkRead_relinks (lab : EventLabel) : Relinks g (g.unlinkRead lab) := by
  unfold unlinkRead
  split
  · split
    · exact Relinks.updateLabel g _ _
    · exact Relinks.refl g
  · exact Relinks.refl g

/-- The links that `removeLast` takes back after those of a read. -/
lemma unlinkLast_eq {lab : EventLabel} (h : g.unlinkLast lab = some g') :
    Relinks g g' ∧ (lab.body.readers = [] → KeepsReads (g.unlinkRead lab) g') := by
  obtain ⟨g₁, hfree, rfl⟩ := Option.map_eq_some_iff.mp h
  have hkeeps : KeepsReads ((g.unlinkRead lab).unlinkWrite lab) (g₁.unlinkMalloc lab) :=
    ((unlinkAccess_keepsReads lab).trans (unlinkFree_keepsReads hfree)).trans
      (unlinkMalloc_keepsReads lab)
  refine ⟨((unlinkRead_relinks lab).trans (Relinks.foldl_updateLabel _ (fun _ => _) _)).trans
      hkeeps.relinks,
    fun hreaders => ?_⟩
  unfold unlinkWrite at hkeeps
  rw [hreaders] at hkeeps
  exact hkeeps

/-- The sources stay when a read leaves the list of its source. -/
lemma rfOf_unlinkRead (lab : EventLabel) (r : Event) : (g.unlinkRead lab).rfOf r = g.rfOf r := by
  unfold unlinkRead
  split
  · split
    · exact rfOf_updateLabel_of_id rfl _ r
    · rfl
  · rfl

/-- The reader lists after a read has left the one of its source. -/
lemma readersOf_unlinkRead (lab : EventLabel) (w : Event) :
    (g.unlinkRead lab).readersOf w =
      if lab.body.rf = some w then (g.readersOf w).filter fun r => !decide (r = lab.pos)
      else g.readersOf w := by
  unfold unlinkRead
  cases hrf : lab.body.rf with
  | none => simp
  | some w' =>
    simp only [Option.some.injEq]
    split
    next hw' =>
      refine (readersOf_updateLabel _ w' w).trans ?_
      simp only [hw', and_true, eq_comm (a := w)]
    next hw' =>
      split
      next heq =>
        rw [readersOf_eq_nil (by rw [← heq]; exact Bool.eq_false_iff.mpr hw')]
        rfl
      next => rfl

/-- The labels after erasing the end of a thread. -/
lemma getEventLabel_take (g : ExecutionGraph) (t n : ℕ) (order : List Event) (e : Event) :
    ({ g with
        events := g.events.modify t fun thr => thr.take n
        insertionOrder := order } : ExecutionGraph).getEventLabel e =
      if e.thread = t ∧ n ≤ e.index then none else g.getEventLabel e := by
  unfold getEventLabel
  simp only [List.getD_eq_getElem?_getD, List.getElem?_modify]
  by_cases ht : e.thread = t
  · subst ht
    simp only [true_and, if_true]
    cases g.events[e.thread]? with
    | none => simp
    | some thr =>
      simp only [Option.map_eq_map, Option.map_some, Option.getD_some, List.getElem?_take]
      split <;> split <;> first | rfl | omega
  · cases g.events[e.thread]? <;> simp [ht, Ne.symm ht]

/-- The effect of `removeLast`, for a label at its own position. -/
structure RemovesLast (g : ExecutionGraph) (lab : EventLabel) (g₁ g' : ExecutionGraph) : Prop where
  /-- The links of the label are taken back. -/
  unlink : g.unlinkLast lab = some g₁
  /-- The label is gone, the others stay. -/
  label : ∀ e, g'.getEventLabel e = if e = lab.pos then none else g₁.getEventLabel e
  /-- The threads are the same. -/
  numThreads : g'.getNumThreads = g.getNumThreads
  /-- The label leaves the insertion order. -/
  order : g'.insertionOrder = g.insertionOrder.erase lab.pos
  /-- The coherence order stays. -/
  coherence : g'.coherence = g₁.coherence
  /-- The initial readers stay. -/
  initRfs : g'.initRfs = g₁.initRfs
  /-- The timestamp stays. -/
  timestamp : g'.timestamp = g.timestamp

/-- What `removeLast` does where it succeeds. -/
lemma removeLast_spec {t : ℕ} (h : g.removeLast t = some g')
    (hpos : ∀ e lab, g.getEventLabel e = some lab → lab.pos = e) :
    ∃ lab g₁, g.getEventLabel (g.lastPos t) = some lab ∧ lab.pos = g.lastPos t ∧
      RemovesLast g lab g₁ g' := by
  unfold removeLast at h
  obtain ⟨lab, hlab, h⟩ := Option.bind_eq_some_iff.mp h
  obtain ⟨g₁, hunlink, h⟩ := Option.bind_eq_some_iff.mp h
  obtain rfl := Option.some.inj h
  have hlabpos := hpos _ lab hlab
  obtain ⟨hrelinks, -⟩ := unlinkLast_eq hunlink
  refine ⟨lab, g₁, hlab, hlabpos, hunlink, fun e => ?_, ?_, ?_, rfl, rfl, hrelinks.timestamp⟩
  · refine (getEventLabel_take g₁ _ _ _ e).trans ?_
    by_cases he : e = lab.pos
    · rw [if_pos he, if_pos (by rw [he]; exact ⟨rfl, le_rfl⟩)]
    · rw [if_neg he]
      split
      next hge =>
        -- Behind the last label there is none.
        rw [eq_comm, ← Option.not_isSome_iff_eq_none]
        intro hsome
        have hlt := containsPos_iff_lt.mp hsome
        rw [hrelinks.threadSize] at hlt
        refine he (Event.ext hge.1 (le_antisymm ?_ hge.2))
        rw [hlabpos]
        rw [hlabpos] at hge
        unfold lastPos at hge ⊢
        simp only at hge ⊢
        rw [hge.1] at hlt
        omega
      next => rfl
  · exact (List.length_modify _ _ _).trans hrelinks.numThreads
  · simp only [hrelinks.order]

/-! ## Cutting -/

/-- The largest index with a small stamp is one of the thread. -/
lemma lastUpTo_lt {thr : List EventLabel} {st j : ℕ} (h : lastUpTo thr st = some j) :
    j < thr.length := by
  have hmem := List.mem_of_find?_eq_some h
  rwa [List.mem_reverse, List.mem_range] at hmem

/-- The maxima of the view of a stamp. -/
lemma getMax_getViewFromStamp (g : ExecutionGraph) (st t : ℕ) :
    (g.getViewFromStamp st).getMax t = (lastUpTo (g.events.getD t []) st).getD 0 := by
  have h : ∀ n, ((List.range n).foldl
      (fun (v : View) i =>
        (lastUpTo (g.events.getD i []) st).elim v fun j => v.setMax ⟨i, j⟩) View.empty).getMax t
      = if t < n then (lastUpTo (g.events.getD t []) st).getD 0 else 0 := by
    intro n
    induction n with
    | zero => simp
    | succ n ih =>
      rw [List.range_succ, List.foldl_append, List.foldl_cons, List.foldl_nil]
      by_cases htn : t = n
      · subst htn
        rw [if_pos (Nat.lt_succ_self t)]
        rw [if_neg (lt_irrefl t)] at ih
        cases lastUpTo (g.events.getD t []) st with
        | some j => exact (View.getMax_setMax ..).trans (if_pos rfl)
        | none => exact ih
      · have hiff : t < n + 1 ↔ t < n := by omega
        simp only [hiff]
        cases lastUpTo (g.events.getD n []) st with
        | some j => rw [Option.elim_some, View.getMax_setMax, if_neg htn, ih]
        | none => exact ih
  have hfold : g.getViewFromStamp st = (List.range g.getNumThreads).foldl (fun v i =>
      (lastUpTo (g.events.getD i []) st).elim v fun j => v.setMax ⟨i, j⟩) .empty := by
    unfold getViewFromStamp
    congr 1
    funext v i
    cases lastUpTo (g.events.getD i []) st <;> rfl
  rw [hfold, h]
  split
  · rfl
  next hge =>
    have hnil : g.events.getD t [] = [] := by
      rw [List.getD_eq_getElem?_getD, List.getElem?_eq_none (not_lt.mp hge)]
      rfl
    rw [hnil]
    rfl

/-- The view of a stamp lies within the threads. -/
lemma getMax_getViewFromStamp_le (g : ExecutionGraph) (st t : ℕ) :
    (g.getViewFromStamp st).getMax t ≤ g.getThreadSize t - 1 := by
  rw [getMax_getViewFromStamp]
  cases h : lastUpTo (g.events.getD t []) st with
  | none => exact Nat.zero_le _
  | some j =>
    have := lastUpTo_lt h
    unfold getThreadSize
    rw [Option.getD_some]
    omega

/-- The kept locations are those of the accesses up to the maxima of the clock. -/
lemma mem_keptLocs {preds : VectorClock} {keep : List SAddr} (h : g.keptLocs preds = some keep)
    (a : SAddr) : a ∈ keep ↔ ∃ e ∈ preds.positions, g.addrOf e = some a := by
  obtain ⟨labs, hlabs, rfl⟩ := Option.map_eq_some_iff.mp h
  rw [List.mem_filterMap]
  constructor
  · rintro ⟨lab, hlab, ha⟩
    obtain ⟨e, he, hget⟩ := (PartialRun.mem_of_mapM hlabs lab).mp hlab
    exact ⟨e, he, by rw [addrOf_of_getEventLabel hget, ha]⟩
  · rintro ⟨e, he, ha⟩
    obtain ⟨lab, hget, hlab⟩ := Option.bind_eq_some_iff.mp ha
    exact ⟨lab, (PartialRun.mem_of_mapM hlabs lab).mpr ⟨e, he, hget⟩, hlab⟩

/-- The effect of `cutToStamp`, for the view `preds` of the stamp. -/
structure Cuts (g : ExecutionGraph) (preds : View) (keep : List SAddr) (g' : ExecutionGraph) :
    Prop where
  /-- The locations that are kept. -/
  keptLocs : g.keptLocs (.view preds) = some keep
  /-- The labels up to the maxima stay, without their pointers to the others. -/
  label : ∀ e, g'.getEventLabel e =
    if preds.contains e then
      if e ∈ (VectorClock.view preds).positions then
        (g.getEventLabel e).map (cutPointers (.view preds))
      else g.getEventLabel e
    else none
  /-- The threads are the same. -/
  numThreads : g'.getNumThreads = g.getNumThreads
  /-- No thread was empty. -/
  nonempty : ∀ t < g.getNumThreads, 0 < g.getThreadSize t
  /-- The insertion order is restricted. -/
  order : g'.insertionOrder = g.insertionOrder.filter preds.contains
  /-- The timestamp stays. -/
  timestamp : g'.timestamp = g.timestamp
  /-- The coherence orders of the kept locations are restricted. -/
  coherence : g'.coherence = (g.coherence.filterKeys fun a => decide (a ∈ keep)).mapValues
    fun _ ws => ws.filter preds.contains
  /-- The initial readers of the kept locations are restricted. -/
  initRfs : g'.initRfs =
    (g.initRfs.eraseAlong (fun a => decide (a ∈ keep)) g.coherence.keys).mapValues
      fun a rs => if a ∈ g.coherence.keys ∧ a ∈ keep then rs.filter preds.contains else rs

/-- The labels after erasing the ends of all threads. -/
lemma getEventLabel_mapIdx_take (g : ExecutionGraph) (v : View) (e : Event) :
    ({ g with events := g.events.mapIdx fun i thr => thr.take (v.getMax i + 1) } :
      ExecutionGraph).getEventLabel e = if v.contains e then g.getEventLabel e else none := by
  unfold getEventLabel View.contains
  simp only [List.getD_eq_getElem?_getD, List.getElem?_mapIdx]
  cases g.events[e.thread]? with
  | none => simp
  | some thr =>
    simp only [Option.map_some, Option.getD_some, List.getElem?_take, decide_eq_true_eq]
    split <;> split <;> first | rfl | omega

/-- Visiting the labels of a cut only changes links, and not the location maps. -/
lemma cutLabels_eq (g : ExecutionGraph) (preds : VectorClock) :
    Relinks g (g.cutLabels preds) ∧ (g.cutLabels preds).coherence = g.coherence ∧
      (g.cutLabels preds).initRfs = g.initRfs := by
  refine ⟨Relinks.foldl_updateLabel g (fun _ => _) _, ?_⟩
  unfold cutLabels
  generalize preds.positions = l
  induction l generalizing g with
  | nil => exact ⟨rfl, rfl⟩
  | cons e l ih => exact ih _

/-- Erasing the ends of the threads. -/
lemma eraseTails_spec {preds : VectorClock} (h : g.eraseTails preds = some g') :
    (∀ t < g.getNumThreads, 0 < g.getThreadSize t) ∧
      g' = { g with events := g.events.mapIdx fun i thr => thr.take (preds.getMax i + 1) } := by
  unfold eraseTails at h
  split at h
  · cases h
  next hempty =>
    refine ⟨fun t ht => ?_, (Option.some.inj h).symm⟩
    unfold getThreadSize
    rw [List.getD_eq_getElem?_getD, List.getElem?_eq_getElem ht, Option.getD_some]
    rw [List.any_eq_true] at hempty
    refine List.length_pos_iff.mpr fun hnil => hempty ⟨_, List.getElem_mem ht, ?_⟩
    rw [hnil]
    rfl

/-- What `cutToStamp` does where it succeeds. -/
lemma cutToStamp_spec {st : ℕ} (h : g.cutToStamp st = some g') :
    ∃ keep, Cuts g (g.getViewFromStamp st) keep g' := by
  unfold cutToStamp at h
  obtain ⟨g₁, hremove, h⟩ := Option.bind_eq_some_iff.mp h
  obtain ⟨keep, hkeep, hg₁⟩ := Option.map_eq_some_iff.mp hremove
  set preds := g.getViewFromStamp st
  obtain ⟨hrelinks, hco, hrfs⟩ := cutLabels_eq (g₁.cutInsertionOrder (.view preds)) (.view preds)
  obtain ⟨hsize, rfl⟩ := eraseTails_spec h
  have hevents : g₁.getEventLabel = g.getEventLabel := by
    rw [← hg₁]
    rfl
  refine ⟨keep, hkeep, fun e => ?_, ?_, fun t ht => ?_, ?_, ?_, ?_, ?_⟩
  · refine (getEventLabel_mapIdx_take _ preds e).trans ?_
    split
    · refine (getEventLabel_foldl_updateLabel (fun _ => cutPointers _)
        (VectorClock.nodup_positions _) e).trans ?_
      rw [← hevents]
      rfl
    · rfl
  · refine (List.length_mapIdx ..).trans (hrelinks.numThreads.trans ?_)
    rw [← hg₁]
    rfl
  · have := hsize t (by
      rw [hrelinks.numThreads, ← hg₁]
      exact ht)
    rw [hrelinks.threadSize, ← hg₁] at this
    exact this
  · refine hrelinks.order.trans ?_
    rw [← hg₁]
    rfl
  · refine hrelinks.timestamp.trans ?_
    rw [← hg₁]
    rfl
  · refine hco.trans ?_
    rw [← hg₁]
    rfl
  · refine hrfs.trans ?_
    rw [← hg₁]
    rfl

end ExecutionGraph

end GenMC
