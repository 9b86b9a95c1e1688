import GenMC.Verification.PrefixViews

/-!
# The invariant of the driver

Between the calls of the driver a graph is well-formed, its stamps, sources and prefix views fit
together, and every read has a source.  Restricting a graph takes sources away, so that within a
call reads may dangle (`Repairable`).  This module has the invariant and what the mutators that
several calls share do to it: adding a label with its views, taking one back, and turning a read.
-/

namespace GenMC

/-- What an access says besides its links to allocations. -/
structure AccessState where
  /-- Whether it is a read or a write. -/
  isRead : Bool
  /-- The address. -/
  addr : SAddr
  /-- The source of a read. -/
  rf : Option Event
  /-- Whether it may be revisited. -/
  revisitable : Bool
  /-- Whether it was added maximally. -/
  addedMax : Bool
  /-- The stamp. -/
  stamp : ℕ

/-- What the access label at an address says. -/
def EventLabel.accessState (lab : EventLabel) (a : SAddr) : AccessState where
  isRead := lab.body.isRead
  addr := a
  rf := lab.body.rf
  revisitable := lab.revisitable
  addedMax := lab.body.addedMax
  stamp := lab.getStamp

namespace ExecutionGraph

variable {g g' : ExecutionGraph}

/-- A graph in which reads may dangle, but only where they are the last labels of their threads. -/
structure Repairable (g : ExecutionGraph) : Prop where
  /-- The parts of well-formedness that every mutator keeps. -/
  linked : Linked g
  /-- The parts that every call restores. -/
  settled : Settled g
  /-- Stamps, sources and prefix views fit together. -/
  closed : PrefixClosed g
  /-- A read without a source is the last label of its thread. -/
  dangling : ∀ r, g.isa LabelBody.isRead r → g.rfOf r = none → g.containsPos r.next = false

/-- What holds of every graph of the driver between its calls. -/
structure DriverInvariant (g : ExecutionGraph) : Prop where
  /-- The parts of well-formedness that every mutator keeps. -/
  linked : Linked g
  /-- The parts that every call restores. -/
  settled : Settled g
  /-- Stamps, sources and prefix views fit together. -/
  closed : PrefixClosed g
  /-- Every read has a source. -/
  sourced : ∀ r, g.isa LabelBody.isRead r → (g.rfOf r).isSome

/-- The graph of the driver is well-formed. -/
lemma DriverInvariant.wellFormed (hg : DriverInvariant g) : WellFormed g :=
  hg.linked.wellFormed hg.settled

/-- In the graph of the driver no read dangles. -/
lemma DriverInvariant.repairable (hg : DriverInvariant g) : Repairable g := by
  refine ⟨hg.linked, hg.settled, hg.closed, fun r hr hnone => ?_⟩
  have hsome := hg.sourced r hr
  rw [hnone] at hsome
  cases hsome

/-- A graph in which no read dangles is one of the driver. -/
lemma Repairable.driverInvariant (hg : Repairable g)
    (h : ∀ r, g.isa LabelBody.isRead r → (g.rfOf r).isSome) : DriverInvariant g :=
  ⟨hg.linked, hg.settled, hg.closed, h⟩

/-! ## Accesses -/

/-- The access at a position. -/
def accessAt (g : ExecutionGraph) (e : Event) : Option AccessState :=
  (g.getEventLabel e).bind fun lab => lab.body.addr.map lab.accessState

/-- The access at a position with an access label. -/
lemma accessAt_of_getEventLabel {e : Event} {lab : EventLabel} {a : SAddr}
    (hlab : g.getEventLabel e = some lab) (ha : lab.body.addr = some a) :
    g.accessAt e = some (lab.accessState a) := by
  unfold accessAt
  rw [hlab, Option.bind_some, ha]
  rfl

/-- The label of an access. -/
lemma getEventLabel_of_accessAt {e : Event} {s : AccessState} (h : g.accessAt e = some s) :
    ∃ lab, g.getEventLabel e = some lab ∧ lab.body.addr = some s.addr ∧
      s = lab.accessState s.addr := by
  obtain ⟨lab, hlab, h⟩ := Option.bind_eq_some_iff.mp h
  obtain ⟨a, ha, rfl⟩ := Option.map_eq_some_iff.mp h
  exact ⟨lab, hlab, ha, rfl⟩

/-- The accesses only depend on addresses, marks, classes, sources and stamps. -/
lemma accessAt_congr {e : Event} (haddr : g'.addrOf e = g.addrOf e)
    (hmarks : g'.marksOf e = g.marksOf e)
    (hread : g'.isa LabelBody.isRead e = g.isa LabelBody.isRead e) (hrf : g'.rfOf e = g.rfOf e)
    (hstamp : g'.stampOf e = g.stampOf e) : g'.accessAt e = g.accessAt e := by
  unfold accessAt addrOf marksOf isa rfOf stampOf at *
  cases hl : g.getEventLabel e with
  | none =>
    cases hl' : g'.getEventLabel e with
    | none => rfl
    | some lab' => simp_all
  | some lab =>
    cases hl' : g'.getEventLabel e with
    | none => simp_all
    | some lab' => cases ha : lab.body.addr <;> simp_all [EventLabel.accessState, EventLabel.marks]

/-- Every access of `g'` is one of `g`, and the coherence orders are the same. -/
structure SameAccesses (g g' : ExecutionGraph) : Prop where
  /-- The accesses. -/
  accessAt : ∀ e s, g'.accessAt e = some s → g.accessAt e = some s
  /-- The accesses that are followed by others. -/
  followed : ∀ e s s', g'.accessAt e.next = some s' → g.accessAt e = some s →
    g'.accessAt e = some s
  /-- The coherence orders. -/
  co : ∀ a, g'.co a = g.co a

namespace SameAccesses

lemma refl (g : ExecutionGraph) : SameAccesses g g :=
  ⟨fun _ _ h => h, fun _ _ _ _ h => h, fun _ => rfl⟩

lemma trans {g'' : ExecutionGraph} (h : SameAccesses g g') (h' : SameAccesses g' g'') :
    SameAccesses g g'' :=
  ⟨fun e s hs => h.accessAt e s (h'.accessAt e s hs),
    fun e s s' hnext hs => h'.followed e s s' hnext (h.followed e s s' (h'.accessAt _ _ hnext) hs),
    fun a => (h'.co a).trans (h.co a)⟩

/-- Changing other links. -/
lemma of_keepsReads (h : KeepsReads g g') (hmarks : ∀ e, g'.marksOf e = g.marksOf e) :
    SameAccesses g g' := by
  have heq : ∀ e, g'.accessAt e = g.accessAt e := fun e =>
    accessAt_congr (h.relinks.addrOf e) (hmarks e) (h.relinks.isa _ e) (h.rfOf e)
      (h.relinks.stampOf e)
  exact ⟨fun e s hs => heq e ▸ hs, fun e s _ _ hs => (heq e).trans hs,
    fun a => by unfold ExecutionGraph.co; rw [h.coherence]⟩

/-- Taking back a label. -/
lemma of_takesBack {t : ℕ} (h : TakesBack g t g') : SameAccesses g g' := by
  have heq : ∀ {e}, e ≠ g.lastPos t → g'.accessAt e = g.accessAt e := fun hne =>
    accessAt_congr (by rw [h.addrOf, if_neg hne]) (by rw [h.marks, if_neg hne])
      (by rw [h.isa, if_neg hne]) (by rw [h.rfOf, if_neg hne]) (h.stampOf hne)
  refine ⟨fun e s hs => ?_, fun e s s' hnext hs => ?_, h.co⟩
  · by_cases hne : e = g.lastPos t
    · obtain ⟨lab, hlab, haddr, -⟩ := getEventLabel_of_accessAt hs
      have hnone := h.addrOf e
      rw [addrOf_of_getEventLabel hlab, haddr, if_pos hne] at hnone
      cases hnone
    · rw [← heq hne]
      exact hs
  · rw [heq]
    · exact hs
    · rintro rfl
      obtain ⟨lab, hlab, -⟩ := getEventLabel_of_accessAt hnext
      have hc := ((h.containsPos_iff _).mp (containsPos_iff.mpr ⟨lab, hlab⟩)).2
      rw [containsPos_next_lastPos] at hc
      cases hc

/-- The reads. -/
lemma reads (h : SameAccesses g g') {r : Event} (hr : g'.isa LabelBody.isRead r) :
    g.isa LabelBody.isRead r ∧ g'.rfOf r = g.rfOf r := by
  obtain ⟨lab', hlab', hread'⟩ := isa_iff.mp hr
  obtain ⟨a, ha⟩ : ∃ a, lab'.body.addr = some a := by
    rw [← Option.isSome_iff_exists, LabelBody.addr_isSome, hread']
    rfl
  obtain ⟨lab, hlab, -, heq⟩ :=
    getEventLabel_of_accessAt (h.accessAt r _ (accessAt_of_getEventLabel hlab' ha))
  simp only [EventLabel.accessState, AccessState.mk.injEq, true_and] at heq
  rw [rfOf_of_getEventLabel hlab', rfOf_of_getEventLabel hlab]
  exact ⟨isa_iff.mpr ⟨lab, hlab, heq.1.symm.trans hread'⟩, heq.2.1⟩

/-- All writes stay in the coherence orders. -/
lemma placed (h : SameAccesses g g') (hg : Settled g) (w : Event) (a : SAddr)
    (hw : g'.isa LabelBody.isWrite w) (ha : g'.addrOf w = some a) : w ∈ g'.co a := by
  obtain ⟨lab', hlab', hwrite'⟩ := isa_iff.mp hw
  rw [addrOf_of_getEventLabel hlab'] at ha
  obtain ⟨lab, hlab, haddr, heq⟩ :=
    getEventLabel_of_accessAt (h.accessAt w _ (accessAt_of_getEventLabel hlab' ha))
  simp only [EventLabel.accessState, AccessState.mk.injEq, true_and] at heq haddr
  have hclass := LabelBody.addr_isSome (b := lab.body)
  have hread' : lab'.body.isRead = false := by
    cases hb : lab'.body <;> simp_all [LabelBody.isRead, LabelBody.isWrite]
  rw [haddr, ← heq.1, hread', Bool.false_or, Option.isSome_some] at hclass
  rw [h.co]
  exact hg.placed w a (isa_iff.mpr ⟨lab, hlab, hclass.symm⟩)
    ((addrOf_of_getEventLabel hlab).trans haddr)

/-- All reads keep their sources. -/
lemma sourced (h : SameAccesses g g') (hg : DriverInvariant g) (r : Event)
    (hr : g'.isa LabelBody.isRead r) : (g'.rfOf r).isSome := by
  obtain ⟨hr', hrf⟩ := h.reads hr
  rw [hrf]
  exact hg.sourced r hr'

end SameAccesses

/-! ## Adding a label with its view -/

/-- The effect of a handler that adds a label. -/
structure GrowsBy (g : ExecutionGraph) (lab : EventLabel) (g' : ExecutionGraph) : Prop where
  /-- The threads are the same. -/
  numThreads : g'.getNumThreads = g.getNumThreads
  /-- The thread exists. -/
  thread : lab.pos.thread < g.getNumThreads
  /-- The position is new. -/
  fresh : g.containsPos lab.pos = false
  /-- The positions. -/
  containsPos : ∀ e, g'.containsPos e ↔ e = lab.pos ∨ g.containsPos e
  /-- The classes. -/
  isa : ∀ (p : LabelBody → Bool) [ClassTest p] e,
    g'.isa p e = if e = lab.pos then p lab.body else g.isa p e
  /-- The addresses. -/
  addrOf : ∀ e, g'.addrOf e = if e = lab.pos then lab.body.addr else g.addrOf e
  /-- The sources. -/
  rfOf : ∀ r, g'.rfOf r = if r = lab.pos then none else g.rfOf r
  /-- The coherence orders. -/
  co : ∀ a, g'.co a = g.co a
  /-- The stamps. -/
  stampOf : ∀ e, g'.stampOf e = if e = lab.pos then g.timestamp else g.stampOf e
  /-- The marks. -/
  marks : ∀ e, g'.marksOf e = if e = lab.pos then some lab.marks else g.marksOf e
  /-- The timestamp moves on. -/
  timestamp : g'.timestamp = g.timestamp + 1

namespace GrowsBy

variable {lab : EventLabel}

/-- Adding a label without its view. -/
lemma of_adds (h : Adds g lab g') (hnew : New lab) (hroom : g.timestamp + 1 < stampSize)
    (hfree : g.containsPos lab.pos = false) : GrowsBy g lab g' := by
  refine ⟨h.places.numThreads, ?_, hfree, h.containsPos, fun p _ e => h.isa p e, h.addrOf,
    h.rfOf hnew.fresh, h.co, h.stampOf hnew.stamp, fun e => ?_, ?_⟩
  · have hthread := h.places.thread
    rwa [pos_stamped] at hthread
  · unfold marksOf
    rw [h.getEventLabel]
    split
    · unfold stamped assignStamp
      rw [hnew.stamp]
      rfl
    · rfl
  · rw [h.timestamp]
    unfold assignStamp nextStamp
    rw [hnew.stamp]
    exact Nat.mod_eq_of_lt hroom

/-- Changing links afterwards. -/
lemma keepsReads {g'' : ExecutionGraph} (h : GrowsBy g lab g') (h' : KeepsReads g' g'')
    (hmarks : ∀ e, g''.marksOf e = g'.marksOf e) : GrowsBy g lab g'' := by
  refine ⟨h'.relinks.numThreads.trans h.numThreads, h.thread, h.fresh, fun e => ?_, fun p _ e => ?_,
    fun e => (h'.relinks.addrOf e).trans (h.addrOf e), fun r => (h'.rfOf r).trans (h.rfOf r),
    fun a => ?_, fun e => (h'.relinks.stampOf e).trans (h.stampOf e),
    fun e => (hmarks e).trans (h.marks e), h'.relinks.timestamp.trans h.timestamp⟩
  · rw [h'.relinks.containsPos]
    exact h.containsPos e
  · rw [h'.relinks.isa]
    exact h.isa p e
  · rw [← h.co]
    unfold ExecutionGraph.co
    rw [h'.coherence]

/-- Changing views afterwards. -/
lemma sameBodies {g'' : ExecutionGraph} (h : GrowsBy g lab g') (h' : SameBodies g' g'')
    (hstamp : ∀ e, g''.stampOf e = g'.stampOf e) (hmarks : ∀ e, g''.marksOf e = g'.marksOf e)
    (htime : g''.timestamp = g'.timestamp) : GrowsBy g lab g'' := by
  refine ⟨h'.numThreads.trans h.numThreads, h.thread, h.fresh, fun e => ?_, fun p _ e => ?_,
    fun e => (h'.addrOf e).trans (h.addrOf e), fun r => (h'.rfOf r).trans (h.rfOf r),
    fun a => (h'.co a).trans (h.co a), fun e => (hstamp e).trans (h.stampOf e),
    fun e => (hmarks e).trans (h.marks e), htime.trans h.timestamp⟩
  · rw [h'.containsPos]
    exact h.containsPos e
  · rw [h'.isa]
    exact h.isa p e

/-- The other accesses stay. -/
lemma accessAt (h : GrowsBy g lab g') {e : Event} (hne : e ≠ lab.pos) :
    g'.accessAt e = g.accessAt e :=
  accessAt_congr (by rw [h.addrOf, if_neg hne]) (by rw [h.marks, if_neg hne])
    (by rw [h.isa, if_neg hne]) (by rw [h.rfOf, if_neg hne]) (by rw [h.stampOf, if_neg hne])

/-- The accesses from before stay. -/
lemma accessAt_of_some (h : GrowsBy g lab g') {e : Event} {s : AccessState}
    (hs : g.accessAt e = some s) : g'.accessAt e = some s := by
  rw [h.accessAt]
  · exact hs
  · rintro rfl
    obtain ⟨lab', hlab', -⟩ := getEventLabel_of_accessAt hs
    have hc := containsPos_iff.mpr ⟨lab', hlab'⟩
    rw [h.fresh] at hc
    cases hc

/-- Adding a label that is not an access. -/
lemma sameAccesses (h : GrowsBy g lab g') (haddr : lab.body.addr = none) :
    SameAccesses g g' := by
  refine ⟨fun e s hs => ?_, fun e s _ _ hs => h.accessAt_of_some hs, h.co⟩
  by_cases hne : e = lab.pos
  · obtain ⟨lab', hlab', haddr', -⟩ := getEventLabel_of_accessAt hs
    have hnone := h.addrOf e
    rw [addrOf_of_getEventLabel hlab', haddr', if_pos hne, haddr] at hnone
    cases hnone
  · rw [← h.accessAt hne]
    exact hs

/-- The threads have labels. -/
lemma started (h : GrowsBy g lab g') (hg : Settled g) (t : ℕ) (ht : t < g'.getNumThreads) :
    g'.containsPos ⟨t, 0⟩ :=
  (h.containsPos _).mpr (Or.inr (hg.started t (h.numThreads ▸ ht)))

end GrowsBy

/-- Setting the view of a label. -/
lemma viewOf_setPrefixView {e : Event} (he : g.containsPos e) (c : VectorClock) (e' : Event) :
    (g.updateLabel e (EventLabel.setPrefixView c)).viewOf e' =
      if e' = e then some c else g.viewOf e' := by
  unfold viewOf
  rw [getEventLabel_updateLabel]
  split
  next heq =>
    obtain ⟨lab, hlab⟩ := containsPos_iff.mp he
    rw [heq, hlab]
    rfl
  next => rfl

/-- What `findAllocatingLabel` finds is an allocation. -/
lemma isa_isMalloc_of_find {addr : SAddr} {a : Event} (h : g.findAllocatingLabel addr = some a) :
    g.isa LabelBody.isMalloc a := by
  unfold findAllocatingLabel at h
  split at h
  · cases h
  · obtain ⟨lab, hlab, hbody⟩ := isa_iff.mp (List.find?_some h)
    refine isa_iff.mpr ⟨lab, hlab, ?_⟩
    cases hb : lab.body <;> rw [hb] at hbody <;> first | rfl | cases hbody

/-- Setting the allocation of an access changes no list of accesses. -/
lemma accessesOf_setAlloc (m : Event) (alloc : Option Event) (b : Event) :
    (g.updateLabel m (EventLabel.setAlloc alloc)).accessesOf b = g.accessesOf b := by
  have hmap := map_getEventLabel_updateLabel (g := g) (m := EventLabel.setAlloc alloc)
    (f := fun lab => lab.body.accesses) (fun lab => by cases hb : lab.body <;>
      simp [EventLabel.setAlloc, EventLabel.mapFields, LabelBody.mapFields,
        LabelBody.accesses, hb]) m b
  exact congrArg (fun o => o.getD []) hmap

/-- Setting the allocation of an access. -/
lemma allocOf_setAlloc {m : Event} (hm : g.isa LabelBody.isAccess m) (alloc : Option Event)
    (x : Event) : (g.updateLabel m (EventLabel.setAlloc alloc)).allocOf x =
      if x = m then alloc else g.allocOf x := by
  obtain ⟨mLab, hmLab, haccess⟩ := isa_iff.mp hm
  unfold allocOf
  rw [getEventLabel_updateLabel]
  split
  next hx =>
    rw [hx, hmLab, Option.map_some, Option.bind_some, EventLabel.setAlloc,
      EventLabel.body_mapFields, LabelBody.alloc_mapFields, if_pos]
    unfold LabelBody.isAccess at haccess
    unfold LabelBody.addr
    rwa [Option.isSome_map]
  next => rfl

/-- Listing an access at an allocation. -/
lemma accessesOf_addAccess {a : Event} (ha : g.isa LabelBody.isMalloc a) (m b : Event) :
    (g.updateLabel a (EventLabel.addAccess m)).accessesOf b =
      if b = a then g.accessesOf b ++ [m] else g.accessesOf b := by
  obtain ⟨lab, hlab, hbody⟩ := isa_iff.mp ha
  unfold accessesOf
  rw [getEventLabel_updateLabel]
  split
  next hb =>
    rw [hb, hlab]
    simp [EventLabel.addAccess, LabelBody.accesses_mapFields, hbody]
  next => rfl

/-- Listing an access changes no allocation. -/
lemma allocOf_addAccess (a m x : Event) :
    (g.updateLabel a (EventLabel.addAccess m)).allocOf x = g.allocOf x := by
  have hmap := map_getEventLabel_updateLabel (g := g) (m := EventLabel.addAccess m)
    (f := fun lab => lab.body.alloc) (fun lab => by cases hb : lab.body <;>
      simp [EventLabel.addAccess, EventLabel.mapFields, LabelBody.mapFields,
        LabelBody.alloc, LabelBody.memAccess, hb]) a x
  unfold allocOf
  cases hx : g.getEventLabel x <;>
    cases hx' : (g.updateLabel a (EventLabel.addAccess m)).getEventLabel x <;> simp_all

/-- Listing an access at its allocation. -/
lemma addAlloc_spec (hg : AllLinks g) (hl : Listed g) {aLab : Option Event} {m : Event}
    (ha : ∀ a, aLab = some a → g.isa LabelBody.isMalloc a) (hm : g.isa LabelBody.isAccess m)
    (halloc : g.allocOf m = none) (h : g.addAlloc aLab m = some g') :
    (KeepsReads g g' ∧ ∀ e, g'.marksOf e = g.marksOf e) ∧ AllLinks g' ∧ Listed g' := by
  unfold addAlloc at h
  split at h
  · exact Option.some.inj h ▸ ⟨⟨KeepsReads.refl g, fun _ => rfl⟩, hg, hl⟩
  next a =>
    split at h
    · cases h
    next hnot =>
      obtain rfl := Option.some.inj h
      set g₁ := g.updateLabel m (EventLabel.setAlloc (some a)) with hg₁
      have hkeeps₁ : KeepsReads g g₁ := keepsReads_updateLabel rfl rfl m
      have hlinks₁ : AllLinks g₁ := hg.updateLabel fun lab hlab => by
        have hold := hg m lab hlab
        exact AllocLinks.mapFields hold.accesses
          (fun a' ha' => Option.some.inj ha' ▸ ha a rfl) hold.free hold.freeAlloc hold.parentJoin
      have hmalloc : g₁.isa LabelBody.isMalloc a := (hkeeps₁.relinks.isa _ a).trans (ha a rfl)
      have hmarks : ∀ e, (g₁.updateLabel a (EventLabel.addAccess m)).marksOf e = g.marksOf e :=
        fun e => (marksOf_updateLabel (m := { accesses := _ }) rfl a e).trans
          (marksOf_updateLabel (m := { alloc := _ }) rfl m e)
      refine ⟨⟨hkeeps₁.trans (keepsReads_updateLabel rfl rfl a), hmarks⟩, hlinks₁.updateLabel
        fun lab hlab => ?_, fun b x hx => ?_⟩
      · have hold := hlinks₁ a lab hlab
        have hfree : m ∉ lab.body.accesses := by
          rw [← accessesOf_of_getEventLabel hlab, hg₁, accessesOf_setAlloc]
          exact hnot
        refine AllocLinks.mapFields ⟨?_, fun e he => ?_⟩ hold.alloc hold.free hold.freeAlloc
          hold.parentJoin
        · exact List.nodup_append.mpr ⟨hold.accesses.1, List.nodup_singleton m,
            fun x hx y hy heq => hfree (by rw [← List.mem_singleton.mp hy, ← heq]; exact hx)⟩
        · rcases List.mem_append.mp he with he | he
          · exact hold.accesses.2 e he
          · rw [List.mem_singleton.mp he, hkeeps₁.relinks.isa]
            exact hm
      · rw [allocOf_addAccess, allocOf_setAlloc hm]
        rw [accessesOf_addAccess hmalloc, accessesOf_setAlloc] at hx
        -- The access is listed at its allocation only.
        by_cases hxm : x = m
        · rw [if_pos hxm]
          split at hx
          next hb => rw [hb]
          next =>
            have hold := hl b x hx
            rw [hxm, halloc] at hold
            cases hold
        · rw [if_neg hxm]
          split at hx
          next hb =>
            rcases List.mem_append.mp hx with hx | hx
            · exact hl b x hx
            · exact absurd (List.mem_singleton.mp hx) hxm
          next => exact hl b x hx

/-- A label that is added has no view yet, so that the views are those of the graph before. -/
lemma viewOf_of_adds {lab : EventLabel} (h : Adds g lab g') (hnew : New lab)
    (hfree : g.containsPos lab.pos = false) (e : Event) : g'.viewOf e = g.viewOf e := by
  unfold viewOf
  rw [h.getEventLabel]
  split
  next heq =>
    have hnone : g.getEventLabel e = none := by
      rw [heq]
      unfold ExecutionGraph.containsPos at hfree
      simpa using hfree
    rw [hnone, Option.bind_some]
    unfold stamped assignStamp
    rw [hnew.stamp]
    exact hnew.prefixView
  next => rfl

/-- A label with nothing but its position and its body is new. -/
lemma addsNext_of_body {pos : Event} {body : LabelBody}
    (hindex : pos.index = g.getThreadSize pos.thread) (hrf : body.rf = none)
    (hreaders : body.readers = []) (hinit : body.isInit = false) (hlinks : body.NoLinks)
    (hpos : pos.index ≠ 0) (hthread : DriverCall.Scheduled g pos.thread) :
    DriverCall.AddsNext g { pos := pos, body := body } :=
  ⟨⟨⟨hrf, hreaders, hinit, fun hzero => absurd hzero hpos⟩, rfl, rfl, hlinks⟩, hindex, hthread⟩

/-- What is before a label that can be added: the thread has not been joined, and a create of it is
there. -/
structure Extends (g : ExecutionGraph) (pos : Event) : Prop where
  /-- The position is the next one of its thread. -/
  index : pos.index = g.getThreadSize pos.thread
  /-- The thread has not been joined. -/
  unjoined : ∀ j, g.isa (LabelBody.isJoinOf pos.thread) j = false
  /-- The create of the thread is there. -/
  created : ∀ pLab c, g.getEventLabel ⟨pos.thread, pos.index - 1⟩ = some pLab →
    pLab.body.parentCreate = some c → g.isa LabelBody.reachesOthers c

/-- A thread that runs has not ended. -/
lemma isThreadFinish_eq_false {t : ℕ} (h : g.isa LabelBody.isTerminator (g.lastPos t) = false) :
    g.isa LabelBody.isThreadFinish (g.lastPos t) = false := by
  rw [Bool.eq_false_iff]
  intro hfinish
  obtain ⟨lab, hlab, hbody⟩ := isa_iff.mp hfinish
  rw [isa_of_getEventLabel hlab, LabelBody.isTerminator, hbody] at h
  simp at h

/-- A thread that runs can be extended. -/
lemma extends_of_addsNext (hc : PrefixClosed g) {lab : EventLabel}
    (h : DriverCall.AddsNext g lab) : Extends g lab.pos := by
  refine ⟨h.index, hc.unjoined (isThreadFinish_eq_false h.scheduled.running),
    fun pLab c hpLab hc => ?_⟩
  rw [h.index] at hpLab
  rcases h.scheduled.created pLab hpLab c hc with hcreate | hinit
  · obtain ⟨cLab, hcLab, hbody⟩ := isa_iff.mp hcreate
    exact isa_iff.mpr ⟨cLab, hcLab, by simp [LabelBody.reachesOthers, hbody]⟩
  · obtain ⟨cLab, hcLab, hbody⟩ := isa_iff.mp hinit
    exact isa_iff.mpr ⟨cLab, hcLab, by simp [LabelBody.reachesOthers, hbody]⟩

/-- **Adding a label.**  The label is put behind the last one of its thread, with the view of its
prefix and the link to its allocation. -/
lemma addLabelWithViews_spec (hg : Linked g) (hc : PrefixClosed g) {lab : EventLabel}
    (hnew : New lab) (hroom : g.timestamp + 1 < stampSize) (hext : Extends g lab.pos)
    (hblock : lab.body.isBlock = false) (h : g.addLabelWithViews lab = some g')
    (hjoined : ∀ t, lab.body.isJoinOf t → g'.isa LabelBody.isThreadFinish (g'.lastPos t)) :
    Linked g' ∧ PrefixClosed g' ∧ GrowsBy g lab g' := by
  obtain ⟨g₁, hadd, h⟩ := Option.bind_eq_some_iff.mp h
  obtain ⟨v, hv, h⟩ := Option.bind_eq_some_iff.mp h
  have hadds := addLabelToGraph_spec hadd
  have hlinked₁ := hg.addLabelToGraph hnew hroom hext.index hadd
  have hfree := containsPos_eq_false hext.index
  have hgrows₁ := GrowsBy.of_adds hadds hnew hroom hfree
  have hview₁ := viewOf_of_adds hadds hnew hfree
  have hpre : PorfPrefix g lab.pos v :=
    (calcPPoRfBefore_spec hv).of_adds hadds hnew.fresh hview₁ hext.unjoined
  set g₂ := g₁.updateLabel lab.pos (EventLabel.setPrefixView (.view v)) with hg₂
  have hcontains₁ : g₁.containsPos lab.pos := (hadds.containsPos _).mpr (Or.inl rfl)
  have hbodies : SameBodies g₁ g₂ :=
    sameBodies_updateLabel (f := EventLabel.setPrefixView (.view v)) (fun _ => ⟨rfl, rfl⟩) _
  have hlabels : ∀ e, (g₂.getEventLabel e).map (fun lab => (lab.pos, lab.stamp, lab.body)) =
      (g₁.getEventLabel e).map fun lab => (lab.pos, lab.stamp, lab.body) :=
    map_getEventLabel_updateLabel (m := EventLabel.setPrefixView (.view v)) (fun _ => rfl) lab.pos
  have hstamped₂ : Stamped g₂ := hlinked₁.stamped.congr hlabels rfl rfl
  have hlinked₂ := hlinked₁.sameBodies hbodies hstamped₂
  have hstamp₂ : ∀ e, g₂.stampOf e = g₁.stampOf e := by
    intro e
    have hmap := congrArg (Option.map fun p : Event × Option ℕ × LabelBody => p.2.1.getD 0)
      (hlabels e)
    rw [Option.map_map, Option.map_map] at hmap
    exact congrArg (fun o => o.getD 0) hmap
  have hmarks₂ : ∀ e, g₂.marksOf e = g₁.marksOf e :=
    map_getEventLabel_updateLabel (m := EventLabel.setPrefixView (.view v)) (fun _ => rfl) lab.pos
  have hgrows₂ := hgrows₁.sameBodies hbodies hstamp₂ hmarks₂ rfl
  have hadds₂ : AddsView g lab (some v) g₂ := by
    refine ⟨fun e => ?_, hgrows₂.containsPos, hgrows₂.stampOf, hgrows₂.rfOf, hgrows₂.isa, by
      simp [hblock]⟩
    rw [hg₂, viewOf_setPrefixView hcontains₁, hview₁]
    rfl
  have hclosed₂ : (∀ t, lab.body.isJoinOf t → g₂.isa LabelBody.isThreadFinish (g₂.lastPos t)) →
      PrefixClosed g₂ := fun hjoined₂ =>
    hc.addsView hg.readerLists hg.stamped.order hadds₂ hext.index
      ⟨hext.unjoined, fun _ => hext.created, hjoined₂⟩ fun u hu => Option.some.inj hu ▸ hpre
  cases haddr : lab.body.addr with
  | none =>
    rw [haddr] at h
    obtain rfl := Option.some.inj h
    exact ⟨hlinked₂, hclosed₂ hjoined, hgrows₂⟩
  | some addr =>
    rw [haddr] at h
    have haccess : g₂.isa LabelBody.isAccess lab.pos := by
      rw [hgrows₂.isa, if_pos rfl]
      unfold LabelBody.addr at haddr
      obtain ⟨a, ha, -⟩ := Option.map_eq_some_iff.mp haddr
      unfold LabelBody.isAccess
      rw [ha]
      rfl
    have halloc : g₂.allocOf lab.pos = none := by
      obtain ⟨lab₂, hlab₂⟩ := containsPos_iff.mp ((hgrows₂.containsPos lab.pos).mpr (Or.inl rfl))
      have hmap := hbodies.map_eq LabelBody.alloc lab.pos
      rw [hlab₂, hadds.getEventLabel, if_pos rfl, Option.map_some, Option.map_some,
        body_stamped] at hmap
      rw [allocOf_of_getEventLabel hlab₂, Option.some.inj hmap]
      exact congrArg (fun l => l.1) hnew.links
    obtain ⟨⟨hkeeps, hmarks⟩, hlinks, hlisted⟩ := addAlloc_spec hlinked₂.links hlinked₂.listed
      (fun a ha => isa_isMalloc_of_find ha) haccess halloc h
    have hclosed := hclosed₂ fun t ht => by
      have hfinish := hjoined t ht
      rwa [hkeeps.relinks.lastPos, hkeeps.relinks.isa] at hfinish
    exact ⟨hlinked₂.keepsReads hkeeps hlinks hlisted,
      hclosed.relinks hlinked₂.readerLists hkeeps.relinks fun r _ => hkeeps.rfOf r,
      hgrows₂.keepsReads hkeeps hmarks⟩

/-! ## Calls in general -/

/-- The new graph. -/
lemma driverInvariant_initial : DriverInvariant initial := by
  have hlabel : ∀ e lab, initial.getEventLabel e = some lab → lab.body = .init ∧ e = .init := by
    intro e lab hlab
    rw [getEventLabel_initial] at hlab
    split at hlab
    next he => exact ⟨by rw [← Option.some.inj hlab]; rfl, he⟩
    next => cases hlab
  have hisa : ∀ {p : LabelBody → Bool} {e : Event}, initial.isa p e → p .init := by
    intro p e he
    obtain ⟨lab, hlab, hp⟩ := isa_iff.mp he
    rwa [(hlabel e lab hlab).1] at hp
  refine ⟨⟨readerLists_initial, stamped_initial, fun e lab hlab => ?_, fun a m hm => ?_,
    ⟨fun a => List.nodup_nil, fun a w hw => by cases hw⟩⟩, ⟨fun t ht => ?_, fun w a hw => ?_⟩,
    PrefixClosed.initial, fun r hr => ?_⟩
  · rw [(hlabel e lab hlab).1]
    exact AllocLinks.of_noLinks rfl
  · cases hlab : initial.getEventLabel a with
    | none =>
      unfold accessesOf at hm
      rw [hlab] at hm
      cases hm
    | some lab =>
      rw [accessesOf_of_getEventLabel hlab, (hlabel a lab hlab).1] at hm
      cases hm
  · obtain rfl : t = 0 := Nat.lt_one_iff.mp ht
    rfl
  · cases hisa hw
  · cases hisa hr

namespace DriverInvariant

/-- Changing links and flags other than sources and readers. -/
lemma keepsReads (hg : DriverInvariant g) (h : KeepsReads g g') (hlinks : AllLinks g')
    (hlisted : Listed g') : DriverInvariant g' := by
  refine ⟨hg.linked.keepsReads h hlinks hlisted, hg.settled.relinks h.relinks h.coherence,
    hg.closed.relinks hg.linked.readerLists h.relinks fun r _ => h.rfOf r, fun r hr => ?_⟩
  rw [h.relinks.isa] at hr
  rw [h.rfOf]
  exact hg.sourced r hr

end DriverInvariant

/-! ## Turning the last read of a thread -/

/-- `g'` is `g` where `r` reads from `w`; `flag` is what becomes of the mark of `r`. -/
structure Assigns (g : ExecutionGraph) (r w : Event) (flag : Bool → Bool)
    (g' : ExecutionGraph) : Prop where
  /-- Only links and flags change. -/
  relinks : Relinks g g'
  /-- No other source changes. -/
  rfOf : ∀ r', g'.rfOf r' = if r' = r then some w else g.rfOf r'
  /-- No other mark changes. -/
  marks : ∀ e, g'.marksOf e =
    if e = r then (g.marksOf e).map (Prod.map id flag) else g.marksOf e
  /-- The coherence orders stay. -/
  coherence : g'.coherence = g.coherence

/-- All reads have sources if all but the one that is turned have. -/
lemma Assigns.sourced {r w : Event} {flag : Bool → Bool} (h : Assigns g r w flag g')
    (hg : ∀ r', r' ≠ r → g.isa LabelBody.isRead r' → (g.rfOf r').isSome) (r' : Event)
    (hr' : g'.isa LabelBody.isRead r') : (g'.rfOf r').isSome := by
  rw [h.rfOf]
  split
  · rfl
  next hne => exact hg r' hne (h.relinks.isa LabelBody.isRead r' ▸ hr')

/-- The marks after setting the flags of an access. -/
lemma marksOf_setFlag {e : Event} (he : g.isa LabelBody.isAccess e) (maximal ipr : Bool → Bool)
    (e' : Event) :
    (g.updateLabel e (EventLabel.mapFields { maximal := maximal, ipr := ipr })).marksOf e' =
      if e' = e then (g.marksOf e').map (Prod.map id maximal) else g.marksOf e' := by
  obtain ⟨lab, hlab, haccess⟩ := isa_iff.mp he
  unfold marksOf
  rw [getEventLabel_updateLabel]
  split
  next heq =>
    rw [heq, hlab]
    cases hb : lab.body with
    | read | write =>
      simp [EventLabel.marks, LabelBody.addedMax, LabelBody.memAccess, EventLabel.mapFields,
        LabelBody.mapFields, hb]
    | _ =>
      rw [hb] at haccess
      cases haccess
  next => rfl

namespace Repairable

/-- Turning the source of the last read of a thread. -/
lemma setRf (hg : Repairable g) {r w : Event} (hlast : g.containsPos r.next = false)
    (h : g.setRf r (some w) = some g') : Repairable g' ∧ Assigns g r w id g' := by
  have hturns := setRf_turnsReads h
  have hrelinks := hturns.relinks
  refine ⟨⟨hg.linked.setRf h, hg.settled.relinks hrelinks hturns.coherence,
    hg.closed.relinks hg.linked.readerLists hrelinks fun r' hnext => ?_, fun r' hr' hnone => ?_⟩,
    hrelinks, rfOf_setRf h, fun e => ?_, hturns.coherence⟩
  · rw [rfOf_setRf h, if_neg]
    rintro rfl
    rw [hlast] at hnext
    cases hnext
  · rw [rfOf_setRf h] at hnone
    rw [hrelinks.isa] at hr'
    rw [hrelinks.containsPos]
    split at hnone
    · cases hnone
    · exact hg.dangling r' hr' hnone
  · rw [hturns.marks, Prod.map_id, Option.map_id, id, ite_self]

/-- Setting the flags of a label. -/
lemma setFlag (hg : Repairable g) (maximal ipr : Bool → Bool) (e : Event) :
    Repairable (g.updateLabel e (EventLabel.mapFields { maximal := maximal, ipr := ipr })) ∧
      KeepsReads g
        (g.updateLabel e (EventLabel.mapFields { maximal := maximal, ipr := ipr })) := by
  have hlinks := links_updateLabel (g := g) (m := { maximal := maximal, ipr := ipr }) rfl rfl rfl
    rfl rfl e
  have hkeeps : KeepsReads g
      (g.updateLabel e (EventLabel.mapFields { maximal := maximal, ipr := ipr })) :=
    keepsReads_updateLabel rfl rfl e
  refine ⟨⟨hg.linked.keepsReads hkeeps (hg.linked.links.congr hlinks fun p hp e' he' =>
      (hkeeps.relinks.isa_linkTargets p hp e').trans he') (hg.linked.listed.congr hlinks),
    hg.settled.relinks hkeeps.relinks rfl,
    hg.closed.relinks hg.linked.readerLists hkeeps.relinks fun r _ => hkeeps.rfOf r,
    fun r hr hnone => ?_⟩, hkeeps⟩
  rw [hkeeps.relinks.isa] at hr
  rw [hkeeps.rfOf] at hnone
  rw [hkeeps.relinks.containsPos]
  exact hg.dangling r hr hnone

/-- Setting the flags of the read that has been turned. -/
lemma assigns_setFlag (hg : Repairable g') {r w : Event} {flag : Bool → Bool}
    (hr : g'.isa LabelBody.isRead r) (h : Assigns g r w flag g') (maximal ipr : Bool → Bool) :
    Repairable (g'.updateLabel r (EventLabel.mapFields { maximal := maximal, ipr := ipr })) ∧
      Assigns g r w (maximal ∘ flag)
        (g'.updateLabel r (EventLabel.mapFields { maximal := maximal, ipr := ipr })) := by
  obtain ⟨hg', hkeeps⟩ := hg.setFlag maximal ipr r
  have haccess : g'.isa LabelBody.isAccess r := by
    obtain ⟨lab, hlab, hread⟩ := isa_iff.mp hr
    refine isa_iff.mpr ⟨lab, hlab, ?_⟩
    cases hb : lab.body with
    | read => rfl
    | _ =>
      rw [hb] at hread
      cases hread
  refine ⟨hg', h.relinks.trans hkeeps.relinks, fun r' => (hkeeps.rfOf r').trans (h.rfOf r'),
    fun e => ?_, hkeeps.coherence.trans h.coherence⟩
  rw [marksOf_setFlag haccess, h.marks]
  split
  · rw [Option.map_map]
    rfl
  · rfl

/-- Turning the source of the last read of a thread and setting its flags. -/
lemma assigns (hg : Repairable g) {r w : Event} {g₁ : ExecutionGraph}
    (hlast : g.containsPos r.next = false) (h : g.setRf r (some w) = some g₁)
    (maximal ipr : Bool) {g' : ExecutionGraph}
    (hg' : g' = (g₁.updateLabel r (EventLabel.setAddedMax maximal)).updateLabel r
      (EventLabel.setIPRStatus ipr)) :
    Repairable g' ∧ Assigns g r w (fun _ => maximal) g' := by
  obtain ⟨hg₁, hassigns₁⟩ := hg.setRf hlast h
  obtain ⟨-, -, hr, -⟩ := setRf_spec h
  have hr₁ : g₁.isa LabelBody.isRead r := (hassigns₁.relinks.isa _ r).trans hr
  obtain ⟨hg₂, hassigns₂⟩ := hg₁.assigns_setFlag hr₁ hassigns₁ (fun _ => maximal) id
  have hr₂ := (hassigns₂.relinks.isa LabelBody.isRead r).trans hr
  rw [hg']
  exact hg₂.assigns_setFlag hr₂ hassigns₂ id (fun _ => ipr)

/-- Taking back the last label of a thread, a block label or a read. -/
lemma removeLast (hg : Repairable g) {t : ℕ}
    (hclass : g.isa LabelBody.isBlock (g.lastPos t) ∨ DriverCall.TakenBack g (g.lastPos t))
    (h : g.removeLast t = some g') : Repairable g' ∧ TakesBack g t g' := by
  have hpositioned := hg.linked.stamped.positioned
  obtain ⟨lab, hlab⟩ : ∃ lab, g.getEventLabel (g.lastPos t) = some lab :=
    containsPos_iff.mp (hclass.elim containsPos_of_isa fun h => containsPos_of_isa h.1)
  have hindex : (g.lastPos t).index ≠ 0 := by
    intro hzero
    have hstart := hpositioned.starts _ lab hlab hzero
    rcases hclass with hblock | ⟨hread, -⟩
    · rw [isa_of_getEventLabel hlab] at hblock
      cases hb : lab.body <;> simp_all [LabelBody.isThreadStart, LabelBody.isBlock]
    · rw [isa_of_getEventLabel hlab] at hread
      cases hb : lab.body <;> simp_all [LabelBody.isThreadStart, LabelBody.isRead]
  have hinit : g.lastPos t ≠ .init := fun heq => hindex (congrArg Event.index heq)
  have ht : Removable g t := by
    rcases hclass with hblock | ⟨hread, hrf⟩
    · exact removable_of_isBlock hinit (Or.inl hblock)
    · refine ⟨hinit, fun p hp => ?_, hrf⟩
      rw [isa_of_getEventLabel hlab] at hread ⊢
      simp only [linkedClasses, List.mem_cons, List.not_mem_nil, or_false] at hp
      cases hb : lab.body with
      | read => rcases hp with rfl | rfl | rfl | rfl <;> rfl
      | _ =>
        rw [hb] at hread
        cases hread
  have hreaches : g.isa LabelBody.reachesOthers (g.lastPos t) = false := by
    have hbody : lab.body.isBlock ∨ lab.body.isRead := hclass.imp
      (fun h => (isa_of_getEventLabel hlab _).symm.trans h)
      fun h => (isa_of_getEventLabel hlab _).symm.trans h.1
    rw [isa_of_getEventLabel hlab]
    cases hb : lab.body with
    | plain k => cases k <;> simp_all [LabelBody.isBlock, LabelBody.isRead] <;> rfl
    | _ => simp_all [LabelBody.isBlock, LabelBody.isRead] <;> rfl
  have hback := hg.linked.removeLast_takesBack ht h
  refine ⟨⟨hg.linked.removeLast ht h, ⟨fun t' ht' => ?_,
    (SameAccesses.of_takesBack hback).placed hg.settled⟩,
    hg.closed.takesBack hg.linked.readerLists hback ht hreaches, fun r hr hnone => ?_⟩, hback⟩
  · rw [hback.numThreads] at ht'
    exact (hback.containsPos_iff _).mpr
      ⟨fun heq => hindex (congrArg Event.index heq).symm, hg.settled.started t' ht'⟩
  · rw [hback.isa] at hr
    split at hr
    · cases hr
    next hne =>
      rw [hback.rfOf, if_neg hne] at hnone
      rw [Bool.eq_false_iff]
      intro hnext
      have hold := hg.dangling r hr hnone
      rw [((hback.containsPos_iff _).mp hnext).2] at hold
      cases hold

end Repairable

/-- Taking back the last label of a thread, a block label or a read. -/
lemma DriverInvariant.removeLast (hg : DriverInvariant g) {t : ℕ}
    (hclass : g.isa LabelBody.isBlock (g.lastPos t) ∨ DriverCall.TakenBack g (g.lastPos t))
    (h : g.removeLast t = some g') : DriverInvariant g' ∧ TakesBack g t g' := by
  obtain ⟨hg', hback⟩ := hg.repairable.removeLast hclass h
  exact ⟨hg'.driverInvariant ((SameAccesses.of_takesBack hback).sourced hg), hback⟩

end ExecutionGraph

end GenMC
