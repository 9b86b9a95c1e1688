import GenMC.ExecutionGraph.Readers

/-!
# Well-formed graphs

What the restriction of a graph relies on: reads and reader lists agree, links lead to labels of the
right classes, the coherence orders list the writes of their locations, and the insertion order is
sorted by stamps.  `WellFormed.of_check` establishes it for a concrete graph.
-/

namespace GenMC

namespace ExecutionGraph

variable {g : ExecutionGraph}

/-- The accesses of the allocation at a position; empty if there is none. -/
def accessesOf (g : ExecutionGraph) (m : Event) : List Event :=
  ((g.getEventLabel m).map fun lab => lab.body.accesses).getD []

/-- The accesses at a position with a label. -/
lemma accessesOf_of_getEventLabel {e : Event} {lab : EventLabel}
    (h : g.getEventLabel e = some lab) : g.accessesOf e = lab.body.accesses := by
  unfold accessesOf
  rw [h]
  rfl

/-- The links of a label lead to labels of the right classes, and no list has duplicates. -/
structure LinksTo (g : ExecutionGraph) (lab : EventLabel) : Prop where
  /-- Readers are reads. -/
  readers : lab.body.readers.Nodup ∧ ∀ r ∈ lab.body.readers, g.isa LabelBody.isRead r
  /-- Accesses of an allocation are memory accesses. -/
  accesses : lab.body.accesses.Nodup ∧ ∀ e ∈ lab.body.accesses, g.isa LabelBody.isAccess e
  /-- The allocation of an access is an allocation. -/
  alloc : ∀ a, lab.body.alloc = some a → g.isa LabelBody.isMalloc a
  /-- The free of an allocation is a free. -/
  free : ∀ d, lab.body.getFree = some d → g.isa LabelBody.isFree d
  /-- The allocation of a free is an allocation. -/
  freeAlloc : ∀ a, lab.body.freeAlloc = some a → g.isa LabelBody.isMalloc a
  /-- The join of a thread's end is a join. -/
  parentJoin : ∀ j, lab.body.parentJoin = some j → g.isa LabelBody.isThreadJoin j

/-- A label without links. -/
lemma LinksTo.of_threadStart (g : ExecutionGraph) {lab : EventLabel}
    (h : lab.body.isThreadStart ∨ lab.body.isEmpty) : LinksTo g lab := by
  obtain ⟨pos, stamp, revisitable, view, body⟩ := lab
  cases body <;> first
    | (simp [LabelBody.isThreadStart, LabelBody.isEmpty] at h; done)
    | exact ⟨⟨List.nodup_nil, by simp [LabelBody.readers]⟩,
        ⟨List.nodup_nil, by simp [LabelBody.accesses]⟩,
        by simp [LabelBody.alloc, LabelBody.memAccess], by simp [LabelBody.getFree],
        by simp [LabelBody.freeAlloc], by simp [LabelBody.parentJoin]⟩

/-- Cloning a label only empties its lists. -/
lemma LinksTo.clone {lab : EventLabel} (h : LinksTo g lab) : LinksTo g lab.clone := by
  obtain ⟨pos, stamp, revisitable, view, body⟩ := lab
  obtain ⟨-, -, halloc, hfree, hfreeAlloc, hjoin⟩ := h
  refine ⟨?_, ?_, ?_, ?_, ?_, ?_⟩ <;> cases body <;>
    first
      | exact ⟨List.nodup_nil, by simp [EventLabel.clone, EventLabel.mapFields,
          LabelBody.mapFields, LabelBody.readers, LabelBody.accesses]⟩
      | assumption

/-- The coherence order consists of writes, each listed once at its location. -/
structure Stores (g : ExecutionGraph) : Prop where
  /-- No store is listed twice. -/
  nodup : ∀ a, (g.co a).Nodup
  /-- The listed labels are writes of the location. -/
  stores : ∀ a, ∀ w ∈ g.co a, g.isa LabelBody.isWrite w ∧ g.addrOf w = some a

/-- No write is listed at two locations. -/
lemma Stores.nodup_all (h : Stores g) : (g.coherence.keys.flatMap g.co).Nodup :=
  KeyedList.nodup_flatMap_keys g.coherence.nodup_keys (fun a _ w hw => (h.stores a w hw).2)
    fun a _ => h.nodup a

/-- The lists of initial readers consist of reads, each listed once at its location. -/
structure InitReads (g : ExecutionGraph) : Prop where
  /-- No read is listed twice. -/
  nodup : ∀ a, (g.initReaders a).Nodup
  /-- The listed labels are reads of the location. -/
  reads : ∀ a, ∀ r ∈ g.initReaders a, g.isa LabelBody.isRead r ∧ g.addrOf r = some a
  /-- The two maps track the same locations. -/
  keys : g.initRfs.keys = g.coherence.keys

/-- No read is listed at two locations. -/
lemma InitReads.nodup_all (h : InitReads g) : (g.coherence.keys.flatMap g.initReaders).Nodup :=
  KeyedList.nodup_flatMap_keys g.coherence.nodup_keys (fun a _ r hr => (h.reads a r hr).2)
    fun a _ => h.nodup a

/-- A well-formed graph, with holes or without. -/
structure WellFormed (g : ExecutionGraph) : Prop where
  /-- Reads and reader lists are mutually inverse. -/
  readerLists : ReaderLists g
  /-- The initializer came first. -/
  initStamp : g.stampOf .init = 0
  /-- Every label has a stamp. -/
  stamped : ∀ e lab, g.getEventLabel e = some lab → lab.stamp.isSome
  /-- Every thread has a label. -/
  nonempty : ∀ t < g.getNumThreads, 0 < g.getThreadSize t
  /-- The insertion order has the labels of the graph. -/
  members : ∀ e, e ∈ g.insertionOrder ↔ g.containsPos e
  /-- The insertion order is sorted by stamps. -/
  sorted : g.insertionOrder.Pairwise fun e e' => g.stampOf e < g.stampOf e'
  /-- The next stamp is larger than those of the labels. -/
  bounded : ∀ e, g.containsPos e → g.stampOf e < g.timestamp
  /-- Links lead to labels of the right classes. -/
  links : ∀ e lab, g.getEventLabel e = some lab → LinksTo g lab
  /-- The coherence order of a location lists writes of the location. -/
  stores : Stores g
  /-- It lists all of them. -/
  allStores : ∀ w a, g.isa LabelBody.isWrite w → g.addrOf w = some a → w ∈ g.co a

namespace WellFormed

/-- The insertion order has no duplicates. -/
lemma nodup_order (hg : WellFormed g) : g.insertionOrder.Nodup :=
  hg.sorted.imp fun h heq => by rw [heq] at h; exact lt_irrefl _ h

/-- No two labels have the same stamp. -/
lemma stampOf_injective (hg : WellFormed g) {e e' : Event} (he : g.containsPos e)
    (he' : g.containsPos e') (h : g.stampOf e = g.stampOf e') : e = e' := by
  have hnodup : (g.insertionOrder.map g.stampOf).Nodup := by
    rw [List.Nodup, List.pairwise_map]
    exact hg.sorted.imp fun h => ne_of_lt h
  exact List.inj_on_of_nodup_map hnodup ((hg.members e).mpr he) ((hg.members e').mpr he') h

/-- There is an initializer. -/
lemma isa_init (hg : WellFormed g) : g.isa LabelBody.isInit .init :=
  (hg.readerLists.positioned.initOnly _).mpr rfl

/-- The initializer is no read. -/
lemma not_isRead_init (hg : WellFormed g) : ¬g.isa LabelBody.isRead .init := by
  obtain ⟨lab, hlab, hinit⟩ := isa_iff.mp hg.isa_init
  rw [isa_of_getEventLabel hlab]
  cases hb : lab.body <;> rw [hb] at hinit <;> first | exact Bool.false_ne_true | cases hinit

/-- Only the first labels of the threads start them. -/
lemma index_pos (hg : WellFormed g) {p : LabelBody → Bool} {e : Event} (h : g.isa p e)
    (hp : ∀ b, p b → b.isThreadStart = false) : 0 < e.index := by
  obtain ⟨lab, hlab, hbody⟩ := isa_iff.mp h
  by_contra hzero
  have hstart := hg.readerLists.positioned.starts e lab hlab (by omega)
  rw [hp _ hbody] at hstart
  exact Bool.false_ne_true hstart

/-- There is a thread. -/
lemma numThreads_pos (hg : WellFormed g) : 0 < g.getNumThreads := by
  obtain ⟨lab, hlab, -⟩ := isa_iff.mp hg.isa_init
  exact thread_lt_of_getEventLabel hlab

/-- The lists of initial readers. -/
lemma initReads (hg : WellFormed g) : InitReads g :=
  ⟨fun a => hg.readerLists.mirrors.nodup (.inr a), fun a _ hr =>
    ⟨hg.readerLists.isRead_of_mem (s := .inr a) hr, hg.readerLists.addrOf_of_mem_initReaders hr⟩,
    hg.readerLists.keys⟩

end WellFormed

/-! ## Checking a concrete graph -/

/-- The positions of the graph. -/
def positions (g : ExecutionGraph) : List Event :=
  (List.range g.getNumThreads).flatMap fun t => (List.range (g.getThreadSize t)).map (Event.mk t)

/-- The positions of the graph have labels. -/
lemma mem_positions {e : Event} : e ∈ g.positions ↔ g.containsPos e := by
  unfold positions
  rw [containsPos_iff_lt, List.mem_flatMap]
  constructor
  · rintro ⟨t, -, he⟩
    obtain ⟨i, hi, rfl⟩ := List.mem_map.mp he
    exact List.mem_range.mp hi
  · intro he
    refine ⟨e.thread, List.mem_range.mpr ?_, List.mem_map.mpr ⟨e.index, List.mem_range.mpr he, rfl⟩⟩
    obtain ⟨lab, hlab⟩ := containsPos_iff.mp (containsPos_iff_lt.mpr he)
    exact thread_lt_of_getEventLabel hlab

/-- What is checked of a label. -/
structure LabelCheck (g : ExecutionGraph) (e : Event) (lab : EventLabel) : Prop where
  pos : lab.pos = e
  stamped : lab.stamp.isSome
  bounded : lab.getStamp < g.timestamp
  member : e ∈ g.insertionOrder
  starts : e.index = 0 → lab.body.isThreadStart
  initOnly : lab.body.isInit → e = .init
  source : ∀ w ∈ lab.body.rf, (g.isa LabelBody.isWrite w ∨ g.isa LabelBody.isInit w) ∧
    ∀ a ∈ lab.body.addr, e ∈ g.readersAt (g.sourceAt w a)
  readers : ∀ r ∈ lab.body.readers, g.rfOf r = some e
  tracked : ∀ a ∈ lab.body.addr, a ∈ g.coherence.keys ∧ (lab.body.isWrite → e ∈ g.co a)
  links : LinksTo g lab

/-- What is checked of a location. -/
structure LocationCheck (g : ExecutionGraph) (a : SAddr) : Prop where
  nodup : (g.co a).Nodup
  stores : ∀ w ∈ g.co a, g.isa LabelBody.isWrite w ∧ g.addrOf w = some a
  nodupReaders : (g.initReaders a).Nodup
  initReaders : ∀ r ∈ g.initReaders a, g.rfOf r = some .init ∧ g.addrOf r = some a

/-- What is checked of a graph. -/
structure Check (g : ExecutionGraph) : Prop where
  init : g.isa LabelBody.isInit .init
  initStamp : g.stampOf .init = 0
  nonempty : ∀ t < g.getNumThreads, 0 < g.getThreadSize t
  order : ∀ e ∈ g.insertionOrder, g.containsPos e
  sorted : g.insertionOrder.Pairwise fun e e' => g.stampOf e < g.stampOf e'
  keys : g.initRfs.keys = g.coherence.keys
  labels : ∀ e ∈ g.positions, ∀ lab ∈ g.getEventLabel e, g.LabelCheck e lab
  locations : ∀ a ∈ g.coherence.keys, g.LocationCheck a

instance (g : ExecutionGraph) : DecidablePred (LinksTo g) := fun lab =>
  decidable_of_iff
    ((lab.body.readers.Nodup ∧ ∀ r ∈ lab.body.readers, g.isa LabelBody.isRead r) ∧
      (lab.body.accesses.Nodup ∧ ∀ e ∈ lab.body.accesses, g.isa LabelBody.isAccess e) ∧
      (∀ a ∈ lab.body.alloc, g.isa LabelBody.isMalloc a) ∧
      (∀ d ∈ lab.body.getFree, g.isa LabelBody.isFree d) ∧
      (∀ a ∈ lab.body.freeAlloc, g.isa LabelBody.isMalloc a) ∧
      ∀ j ∈ lab.body.parentJoin, g.isa LabelBody.isThreadJoin j)
    ⟨fun ⟨h₁, h₂, h₃, h₄, h₅, h₆⟩ => ⟨h₁, h₂, h₃, h₄, h₅, h₆⟩,
      fun ⟨h₁, h₂, h₃, h₄, h₅, h₆⟩ => ⟨h₁, h₂, h₃, h₄, h₅, h₆⟩⟩

instance (g : ExecutionGraph) (e : Event) : DecidablePred (LabelCheck g e) := fun lab =>
  decidable_of_iff
    (lab.pos = e ∧ lab.stamp.isSome ∧ lab.getStamp < g.timestamp ∧ e ∈ g.insertionOrder ∧
      (e.index = 0 → lab.body.isThreadStart) ∧ (lab.body.isInit → e = .init) ∧
      (∀ w ∈ lab.body.rf, (g.isa LabelBody.isWrite w ∨ g.isa LabelBody.isInit w) ∧
        ∀ a ∈ lab.body.addr, e ∈ g.readersAt (g.sourceAt w a)) ∧
      (∀ r ∈ lab.body.readers, g.rfOf r = some e) ∧
      (∀ a ∈ lab.body.addr, a ∈ g.coherence.keys ∧ (lab.body.isWrite → e ∈ g.co a)) ∧
      LinksTo g lab)
    ⟨fun ⟨h₁, h₂, h₃, h₄, h₅, h₆, h₇, h₈, h₉, h⟩ => ⟨h₁, h₂, h₃, h₄, h₅, h₆, h₇, h₈, h₉, h⟩,
      fun ⟨h₁, h₂, h₃, h₄, h₅, h₆, h₇, h₈, h₉, h⟩ => ⟨h₁, h₂, h₃, h₄, h₅, h₆, h₇, h₈, h₉, h⟩⟩

instance (g : ExecutionGraph) : DecidablePred (LocationCheck g) := fun a =>
  decidable_of_iff
    ((g.co a).Nodup ∧ (∀ w ∈ g.co a, g.isa LabelBody.isWrite w ∧ g.addrOf w = some a) ∧
      (g.initReaders a).Nodup ∧
      ∀ r ∈ g.initReaders a, g.rfOf r = some .init ∧ g.addrOf r = some a)
    ⟨fun ⟨h₁, h₂, h₃, h₄⟩ => ⟨h₁, h₂, h₃, h₄⟩, fun ⟨h₁, h₂, h₃, h₄⟩ => ⟨h₁, h₂, h₃, h₄⟩⟩

instance : DecidablePred Check := fun g =>
  decidable_of_iff
    (g.isa LabelBody.isInit .init ∧ g.stampOf .init = 0 ∧
      (∀ t < g.getNumThreads, 0 < g.getThreadSize t) ∧ (∀ e ∈ g.insertionOrder, g.containsPos e) ∧
      g.insertionOrder.Pairwise (fun e e' => g.stampOf e < g.stampOf e') ∧
      g.initRfs.keys = g.coherence.keys ∧
      (∀ e ∈ g.positions, ∀ lab ∈ g.getEventLabel e, g.LabelCheck e lab) ∧
      ∀ a ∈ g.coherence.keys, g.LocationCheck a)
    ⟨fun ⟨h₁, h₂, h₃, h₄, h₅, h₆, h₇, h₈⟩ => ⟨h₁, h₂, h₃, h₄, h₅, h₆, h₇, h₈⟩,
      fun ⟨h₁, h₂, h₃, h₄, h₅, h₆, h₇, h₈⟩ => ⟨h₁, h₂, h₃, h₄, h₅, h₆, h₇, h₈⟩⟩

namespace Check

/-- The check of a label. -/
lemma label (h : Check g) {e : Event} {lab : EventLabel} (hlab : g.getEventLabel e = some lab) :
    g.LabelCheck e lab :=
  h.labels e (mem_positions.mpr (containsPos_iff.mpr ⟨lab, hlab⟩)) lab hlab

/-- There is one initializer. -/
lemma isInit_iff (h : Check g) (e : Event) : g.isa LabelBody.isInit e ↔ e = .init := by
  constructor
  · intro he
    obtain ⟨lab, hlab, hinit⟩ := isa_iff.mp he
    exact (h.label hlab).initOnly hinit
  · rintro rfl
    exact h.init

/-- The initial readers of a location. -/
lemma of_mem_initReaders (h : Check g) {a : SAddr} {r : Event} (hr : r ∈ g.initReaders a) :
    g.rfOf r = some .init ∧ g.addrOf r = some a := by
  have ha : a ∈ g.coherence.keys := by
    rw [← h.keys]
    by_contra hnot
    rw [ExecutionGraph.initReaders, KeyedList.find?_eq_none_iff.mpr hnot] at hr
    cases hr
  exact (h.locations a ha).initReaders r hr

/-- The readers of a write. -/
lemma of_mem_readersOf (h : Check g) {w r : Event} (hr : r ∈ g.readersOf w) :
    g.isa LabelBody.isWrite w ∧ g.rfOf r = some w := by
  have hw : g.isa LabelBody.isWrite w := by
    by_contra hnot
    rw [readersOf_eq_nil (Bool.eq_false_iff.mpr hnot)] at hr
    cases hr
  obtain ⟨lab, hlab, -⟩ := isa_iff.mp hw
  rw [readersOf_of_getEventLabel hlab] at hr
  exact ⟨hw, (h.label hlab).readers r hr⟩

/-- No reader is listed twice. -/
lemma nodup_readersAt (h : Check g) (s : Event ⊕ SAddr) : (g.readersAt s).Nodup := by
  cases s with
  | inl w =>
    change (g.readersOf w).Nodup
    cases hlab : g.getEventLabel w with
    | none =>
      unfold readersOf
      rw [hlab]
      exact List.nodup_nil
    | some lab =>
      rw [readersOf_of_getEventLabel hlab]
      exact (h.label hlab).links.readers.1
  | inr a =>
    change (g.initReaders a).Nodup
    by_cases ha : a ∈ g.coherence.keys
    · exact (h.locations a ha).nodupReaders
    · rw [← h.keys] at ha
      rw [ExecutionGraph.initReaders, KeyedList.find?_eq_none_iff.mpr ha]
      exact List.nodup_nil

/-- The readers in a list are those whose source it belongs to. -/
lemma mem_readersAt_iff (h : Check g) (s : Event ⊕ SAddr) (r : Event) :
    r ∈ g.readersAt s ↔ g.sourceOf r = some s := by
  unfold sourceOf
  constructor
  · intro hr
    cases s with
    | inl w =>
      obtain ⟨hw, hrf⟩ := h.of_mem_readersOf hr
      obtain ⟨lab, hlab, hread⟩ := isa_iff.mp (isa_isRead_of_rfOf hrf)
      obtain ⟨a, ha⟩ : ∃ a, g.addrOf r = some a := by
        rw [← Option.isSome_iff_exists, addrOf_of_getEventLabel hlab, LabelBody.addr_isSome, hread]
        rfl
      rw [hrf, ha, Option.bind_some, Option.map_some, sourceAt, isa_isInit_eq_false hw]
      rfl
    | inr a =>
      obtain ⟨hrf, ha⟩ := h.of_mem_initReaders hr
      rw [hrf, ha, Option.bind_some, Option.map_some, sourceAt, h.init]
      rfl
  · intro hs
    obtain ⟨w, hrf, hs⟩ := Option.bind_eq_some_iff.mp hs
    obtain ⟨a, ha, rfl⟩ := Option.map_eq_some_iff.mp hs
    obtain ⟨lab, hlab, -⟩ := isa_iff.mp (isa_isRead_of_rfOf hrf)
    rw [rfOf_of_getEventLabel hlab] at hrf
    rw [addrOf_of_getEventLabel hlab] at ha
    exact ((h.label hlab).source w hrf).2 a ha

/-- The reader lists of a checked graph. -/
lemma readerLists (h : Check g) : ReaderLists g := by
  refine ⟨⟨fun e lab hlab => (h.label hlab).pos, fun e lab hlab => (h.label hlab).starts,
    h.isInit_iff⟩, fun r w hrf => ?_, Mirrors.of_mem h.nodup_readersAt h.mem_readersAt_iff,
    fun e a ha => ?_, h.keys⟩
  · obtain ⟨lab, hlab, -⟩ := isa_iff.mp (isa_isRead_of_rfOf hrf)
    rw [rfOf_of_getEventLabel hlab] at hrf
    exact ((h.label hlab).source w hrf).1
  · obtain ⟨lab, hlab, hbody⟩ := Option.bind_eq_some_iff.mp ha
    exact ((h.label hlab).tracked a hbody).1

end Check

/-- A graph that passes the check is well-formed. -/
theorem WellFormed.of_check (h : Check g) : WellFormed g := by
  have hlocation : ∀ a, ∀ w ∈ g.co a, a ∈ g.coherence.keys := by
    intro a w hw
    by_contra hnot
    rw [co, KeyedList.find?_eq_none_iff.mpr hnot] at hw
    cases hw
  refine ⟨h.readerLists, h.initStamp, fun e lab hlab => (h.label hlab).stamped, h.nonempty,
    fun e => ?_, h.sorted, fun e he => ?_, fun e lab hlab => (h.label hlab).links,
    ⟨fun a => ?_, fun a w hw => (h.locations a (hlocation a w hw)).stores w hw⟩,
    fun w a hw ha => ?_⟩
  · refine ⟨h.order e, fun he => ?_⟩
    obtain ⟨lab, hlab⟩ := containsPos_iff.mp he
    exact (h.label hlab).member
  · obtain ⟨lab, hlab⟩ := containsPos_iff.mp he
    rw [stampOf_of_getEventLabel hlab]
    exact (h.label hlab).bounded
  · by_cases ha : a ∈ g.coherence.keys
    · exact (h.locations a ha).nodup
    · rw [co, KeyedList.find?_eq_none_iff.mpr ha]
      exact List.nodup_nil
  · obtain ⟨lab, hlab, hwrite⟩ := isa_iff.mp hw
    rw [addrOf_of_getEventLabel hlab] at ha
    exact ((h.label hlab).tracked a ha).2 hwrite

end ExecutionGraph

end GenMC
