import GenMC.ExecutionGraph.CopyMaps
import GenMC.ExecutionGraph.WellFormed

/-!
# What a copy is

`Copies g v pv g'` describes the copy of a graph up to a vector clock at every position and
location. The copy of a well-formed graph up to a clock within it exists and is described so.
-/

namespace GenMC

namespace ExecutionGraph

variable {g g' other s s' : ExecutionGraph} {v pv : VectorClock}

/-- A clock that lies within a graph. -/
def Within (g : ExecutionGraph) (v : VectorClock) : Prop :=
  ∀ t < g.getNumThreads, v.getMax t < g.getThreadSize t

instance (g : ExecutionGraph) : DecidablePred (Within g) := fun v =>
  inferInstanceAs (Decidable (∀ t < g.getNumThreads, v.getMax t < g.getThreadSize t))

/-- What the links of a label become in a copy. -/
def copyPointers (g : ExecutionGraph) (v : VectorClock) : EventLabel → EventLabel :=
  EventLabel.mapFields
    { rf := Option.filter (g.inRange v)
      readers := List.filter v.contains
      alloc := Option.filter fun a => v.contains a && g.isa LabelBody.isMalloc a
      free := Option.filter fun d => v.contains d && g.isa LabelBody.isFree d
      accesses := List.filter v.contains
      freeAlloc := Option.filter fun a => v.contains a && g.isa LabelBody.isMalloc a
      parentJoin := Option.filter fun j => v.contains j && g.isa LabelBody.isThreadJoin j }

/-- The copy of a graph up to a clock, at every position and location. -/
structure Copies (g : ExecutionGraph) (v pv : VectorClock) (g' : ExecutionGraph) : Prop where
  /-- The threads are those of the original. -/
  numThreads : g'.getNumThreads = g.getNumThreads
  /-- The copy has an initializer of its own. -/
  init : g'.getEventLabel .init = some ((EventLabel.initLabel pv).setStamp 0)
  /-- A contained label is copied, with its links to kept labels. -/
  label : ∀ e, e ≠ .init → v.contains e →
    g'.getEventLabel e = (g.getEventLabel e).map (copyPointers g v)
  /-- At any other position in range is a hole. -/
  hole : ∀ e, v.contains e = false → g.inRange v e →
    ∃ s, g'.getEventLabel e = some ((EventLabel.createHoleLabel e).setStamp s)
  /-- There are no other positions. -/
  outside : ∀ e, g.inRange v e = false → g'.getEventLabel e = none
  /-- The insertion order is restricted. -/
  order : g'.insertionOrder = g.insertionOrder.filter (g.inRange v)
  /-- Without holes the timestamp is that of the original. -/
  timestamp : (∀ e, g.inRange v e → v.contains e) → g'.timestamp = g.timestamp
  /-- The locations of the contained accesses are tracked. -/
  tracked : ∀ a, a ∈ g'.coherence.keys ↔ ∃ e, v.contains e ∧ g.addrOf e = some a
  /-- The two location maps track the same locations. -/
  keys : g'.initRfs.keys = g'.coherence.keys
  /-- The coherence orders are restricted. -/
  co : ∀ a, g'.co a = (g.co a).filter v.contains
  /-- The lists of initial readers are restricted. -/
  initReaders : ∀ a, g'.initReaders a = (g.initReaders a).filter v.contains

/-- Where a copy succeeds, it is made of the added labels with other links, and its insertion order
is the one of the original up to the maxima of the clock. -/
lemma copyGraphUpTo_relinks (hpos : ∀ e lab, g.getEventLabel e = some lab → lab.pos = e)
    (hstamped : ∀ e lab, g.getEventLabel e = some lab → lab.stamp.isSome)
    (hn : 0 < g.getNumThreads) (h : g.copyGraphUpTo v (new pv) = some g') :
    ∃ other, CopyState.Complete g v pv other ∧
      Relinks { other with insertionOrder := g.insertionOrder.filter (fun e =>
        v.contains e || decide (e.index ≤ v.getMax e.thread)) } g' := by
  unfold copyGraphUpTo at h
  obtain ⟨other, hother, hrest⟩ := Option.bind_eq_some_iff.mp h
  obtain ⟨ordered, horder, hrest'⟩ := Option.bind_eq_some_iff.mp hrest
  obtain ⟨linked, hlinks, hmaps⟩ := Option.bind_eq_some_iff.mp hrest'
  obtain ⟨stored, hstores, hreaders⟩ := Option.bind_eq_some_iff.mp hmaps
  refine ⟨other, copyThreads_spec hpos hstamped hn hother, ?_⟩
  unfold copyInsertionOrder at horder
  dsimp only at horder
  split at horder
  · obtain rfl := Option.some.inj horder
    exact ((relinkLabels_relinks hlinks).trans (copyCoherence_relinks hstores)).trans
      (copyInitRfs_relinks hreaders)
  · cases horder

/-- Rebuilding the links of a cloned label. -/
lemma relinkMap_clone {e : Event} {lab : EventLabel} (h : g.getEventLabel e = some lab) :
    lab.clone.mapFields (g.relinkMap v e) = copyPointers g v lab := by
  refine congrArg (fun b => { lab with body := b }) ?_
  refine (LabelBody.mapFields_mapFields _ _).trans ?_
  refine LabelBody.mapFields_congr rfl (fun _ => ?_) rfl rfl (fun _ => ?_) rfl rfl rfl rfl
  · exact congrArg (List.filter v.contains) (readersOf_of_getEventLabel h)
  · exact congrArg (List.filter v.contains) (accessesOf_of_getEventLabel h)

namespace WellFormed

/-- The positions in range of a clock within the graph. -/
lemma containsPos_of_inRange (hwithin : Within g v) {e : Event} (he : g.inRange v e) :
    g.containsPos e := by
  obtain ⟨hthread, hindex⟩ := inRange_iff.mp he
  exact containsPos_iff_lt.mpr (lt_of_le_of_lt hindex (hwithin _ hthread))

/-- The shape of the copy after its labels have been added. -/
lemma copyShape (hg : WellFormed g) (hwithin : Within g v)
    (h : CopyState.Complete g v pv other) : CopyShape g v other :=
  ⟨fun _ _ hlab => h.pos hg.readerLists.positioned.pos hlab,
    h.containsPos_eq (fun _ he _ => containsPos_of_inRange hwithin he) hg.numThreads_pos,
    fun p _ hp e => h.isa_eq hg.isa_init p hp e⟩

/-- The added labels have no links yet, or those of the original. -/
lemma copyLinks (hg : WellFormed g) (h : CopyState.Complete g v pv other) {e : Event}
    {lab : EventLabel} (hlab : other.getEventLabel e = some lab) : LinksTo g lab := by
  by_cases he : e = .init
  · subst he
    rw [h.init] at hlab
    exact LinksTo.of_threadStart g (Or.inl (by rw [← Option.some.inj hlab]; rfl))
  · by_cases hmem : e ∈ copyPositions g.getNumThreads v
    · cases hc : v.contains e with
      | true =>
        rw [h.label e hmem hc] at hlab
        obtain ⟨gLab, hgLab, rfl⟩ := Option.map_eq_some_iff.mp hlab
        exact (hg.links e gLab hgLab).clone
      | false =>
        obtain ⟨stamp, hs⟩ := h.hole e hmem hc
        rw [hs] at hlab
        exact LinksTo.of_threadStart g (Or.inr (by rw [← Option.some.inj hlab]; rfl))
    · rw [h.outside e hmem he] at hlab
      cases hlab

/-- The accesses of the copy. -/
lemma copyAddr (hg : WellFormed g) (h : CopyState.Complete g v pv other) {e : Event}
    (hc : v.contains e) : other.addrOf e = g.addrOf e := by
  by_cases he : e = .init
  · subst he
    obtain ⟨lab, hlab, hbody⟩ := isa_iff.mp hg.isa_init
    rw [addrOf_of_getEventLabel h.init, addrOf_of_getEventLabel hlab]
    cases hb : lab.body <;> rw [hb] at hbody <;> first | rfl | cases hbody
  · by_cases hmem : e ∈ copyPositions g.getNumThreads v
    · unfold addrOf
      rw [h.label e hmem hc]
      cases g.getEventLabel e with
      | none => rfl
      | some lab => exact LabelBody.addr_mapFields _ _
    · have hnone : g.getEventLabel e = none := by
        rw [← Option.not_isSome_iff_eq_none]
        intro hsome
        exact hmem (CopyState.mem_copyPositions_iff.mpr ⟨inRange_of_contains hc hsome, he⟩)
      unfold addrOf
      rw [h.outside e hmem he, hnone]

/-- The locations that the copy tracks. -/
lemma copyTracked (hg : WellFormed g) (h : CopyState.Complete g v pv other) (a : SAddr) :
    a ∈ other.coherence.keys ↔ ∃ e, v.contains e ∧ g.addrOf e = some a := by
  rw [h.tracked]
  constructor
  · rintro ⟨e, -, he⟩
    exact ⟨e, he⟩
  · rintro ⟨e, hc, ha⟩
    obtain ⟨lab, hlab, hbody⟩ := Option.bind_eq_some_iff.mp ha
    refine ⟨e, CopyState.mem_copyPositions_iff.mpr
      ⟨inRange_of_contains hc (containsPos_iff.mpr ⟨lab, hlab⟩), ?_⟩, hc, ha⟩
    rintro rfl
    obtain ⟨lab', hlab', hinit⟩ := isa_iff.mp hg.isa_init
    obtain rfl := Option.some.inj (hlab.symm.trans hlab')
    cases hb : lab.body <;> simp_all [LabelBody.isInit, LabelBody.addr, LabelBody.memAccess]

/-- The insertion order of the copy. -/
lemma copyInsertionOrder_eq (hg : WellFormed g) (hs : CopyShape g v other) :
    g.copyInsertionOrder v other =
      some { other with insertionOrder := g.insertionOrder.filter (g.inRange v) } := by
  have hfilter : (g.insertionOrder.filter fun e =>
      v.contains e || decide (e.index ≤ v.getMax e.thread)) =
      g.insertionOrder.filter (g.inRange v) := by
    refine List.filter_congr fun e he => ?_
    obtain ⟨lab, hlab⟩ := containsPos_iff.mp ((hg.members e).mp he)
    have hthread := thread_lt_of_getEventLabel hlab
    unfold inRange
    rw [decide_eq_true hthread, Bool.true_and]
    cases hc : v.contains e with
    | true => rw [Bool.true_or, decide_eq_true (VectorClock.le_getMax_of_contains hc)]
    | false => rw [Bool.false_or]
  unfold copyInsertionOrder
  simp only [hfilter]
  rw [if_pos]
  rw [List.all_eq_true]
  intro e he
  rw [hs.containsPos]
  exact (List.mem_filter.mp he).2

/-- The copy after its links have been rebuilt, with empty location maps. -/
structure CopiesLinks (g : ExecutionGraph) (v pv : VectorClock) (s : ExecutionGraph) : Prop where
  /-- The copy is ready for its location maps. -/
  target : CopyTarget g v s
  /-- The threads are those of the original. -/
  numThreads : s.getNumThreads = g.getNumThreads
  /-- The copy has an initializer of its own. -/
  init : s.getEventLabel .init = some ((EventLabel.initLabel pv).setStamp 0)
  /-- A contained label is copied. -/
  label : ∀ e, e ≠ .init → v.contains e →
    s.getEventLabel e = (g.getEventLabel e).map (copyPointers g v)
  /-- At any other position in range is a hole. -/
  hole : ∀ e, v.contains e = false → g.inRange v e →
    ∃ stamp, s.getEventLabel e = some ((EventLabel.createHoleLabel e).setStamp stamp)
  /-- The insertion order is restricted. -/
  order : s.insertionOrder = g.insertionOrder.filter (g.inRange v)
  /-- Without holes the timestamp is that of the original. -/
  timestamp : (∀ e, g.inRange v e → v.contains e) → s.timestamp = g.timestamp
  /-- The locations of the contained accesses are tracked. -/
  tracked : ∀ a, a ∈ s.coherence.keys ↔ ∃ e, v.contains e ∧ g.addrOf e = some a
  /-- The two location maps track the same locations. -/
  keys : s.initRfs.keys = s.coherence.keys
  /-- The coherence orders are empty. -/
  co : ∀ a, s.co a = []
  /-- There are no initial readers. -/
  initReaders : ∀ a, s.initReaders a = []

/-- Rebuilding the links leaves the location maps alone. -/
lemma foldl_relinkMap_maps (l : List Event) (s : ExecutionGraph) :
    let s' := l.foldl (fun s e => s.updateLabel e (EventLabel.mapFields (g.relinkMap v e))) s
    s'.coherence = s.coherence ∧ s'.initRfs = s.initRfs := by
  induction l generalizing s with
  | nil => exact ⟨rfl, rfl⟩
  | cons e l ih => exact ih _

/-- Rebuilding the links of the added labels. -/
lemma relinked_spec (hg : WellFormed g) (hwithin : Within g v)
    (h : CopyState.Complete g v pv other) :
    CopiesLinks g v pv ((g.insertionOrder.filter (g.inRange v)).foldl
      (fun s e => s.updateLabel e (EventLabel.mapFields (g.relinkMap v e)))
      { other with insertionOrder := g.insertionOrder.filter (g.inRange v) }) := by
  set order := g.insertionOrder.filter (g.inRange v) with horder
  set ordered : ExecutionGraph := { other with insertionOrder := order } with hordered
  set s := order.foldl
    (fun s e => s.updateLabel e (EventLabel.mapFields (g.relinkMap v e))) ordered with hs
  have hshape := hg.copyShape hwithin h
  have hrelinks : Relinks ordered s := Relinks.foldl_updateLabel _ (g.relinkMap v) _
  obtain ⟨hcoherence, hinitRfs⟩ := foldl_relinkMap_maps (g := g) (v := v) order ordered
  have hlabels : ∀ e, s.getEventLabel e = if e ∈ order then
      (other.getEventLabel e).map (EventLabel.mapFields (g.relinkMap v e))
      else other.getEventLabel e :=
    getEventLabel_foldl_updateLabel (g := ordered)
      (fun e => EventLabel.mapFields (g.relinkMap v e)) (hg.nodup_order.filter _)
  have hrange : ∀ e, g.inRange v e → e ∈ order := fun e he =>
    List.mem_filter.mpr ⟨(hg.members e).mpr (containsPos_of_inRange hwithin he), he⟩
  refine ⟨⟨?_, ?_, fun e hc => ?_, fun e a hc ha => ?_⟩,
    hrelinks.numThreads.trans h.numThreads, ?_, fun e hinit hc => ?_, fun e hc he => ?_,
    hrelinks.order, fun hcontained => ?_, fun a => ?_, ?_, fun a => ?_, fun a => ?_⟩
  · exact CopyShape.relinks (s := ordered) ⟨hshape.pos, hshape.containsPos, hshape.isa⟩ hrelinks
  · rw [hrelinks.isa]
    exact h.isa_init
  · rw [hrelinks.addrOf]
    exact hg.copyAddr h hc
  · rw [hcoherence]
    exact (hg.copyTracked h a).mpr ⟨e, hc, ha⟩
  · rw [hlabels, h.init]
    split <;> rfl
  · rw [hlabels]
    cases hlab : g.getEventLabel e with
    | none =>
      have hnot : g.inRange v e = false := by
        rw [Bool.eq_false_iff]
        intro he
        obtain ⟨lab, hlab'⟩ := containsPos_iff.mp (containsPos_of_inRange hwithin he)
        rw [hlab] at hlab'
        cases hlab'
      have hnone : other.getEventLabel e = none := by
        rw [← hshape.containsPos, containsPos] at hnot
        simpa using hnot
      rw [hnone]
      split <;> rfl
    | some lab =>
      have he := inRange_of_contains hc (containsPos_iff.mpr ⟨lab, hlab⟩)
      rw [if_pos (hrange e he), h.label e (CopyState.mem_copyPositions_iff.mpr ⟨he, hinit⟩) hc,
        hlab, Option.map_some, Option.map_some, relinkMap_clone hlab, Option.map_some]
  · obtain ⟨stamp, hhole⟩ := h.hole e (CopyState.mem_copyPositions_iff.mpr
      ⟨he, fun hinit => by rw [hinit, VectorClock.contains_init] at hc; cases hc⟩) hc
    refine ⟨stamp, ?_⟩
    rw [hlabels, if_pos (hrange e he), hhole]
    rfl
  · rw [hrelinks.timestamp]
    exact h.timestamp fun e he => hcontained e (CopyState.mem_copyPositions_iff.mp he).1
  · rw [hcoherence]
    exact hg.copyTracked h a
  · rw [hinitRfs, hcoherence]
    exact h.keys
  · rw [ExecutionGraph.co, hcoherence]
    exact h.co a
  · rw [ExecutionGraph.initReaders, hinitRfs]
    exact h.initReaders a

/-- **Copies.**  The copy of a well-formed graph up to a clock within it exists; it has the labels
that the clock contains, holes at the other positions up to its maxima, and every link, list and
order restricted to what is kept. -/
theorem copyGraphUpTo_copies (hg : WellFormed g) (hwithin : Within g v) (pv : VectorClock) :
    ∃ g', g.copyGraphUpTo v (new pv) = some g' ∧ Copies g v pv g' := by
  have hpositioned := hg.readerLists.positioned
  -- The labels, the insertion order and the links.
  obtain ⟨other, hother⟩ := copyThreads_isSome pv hpositioned.pos hg.stamped
    hg.numThreads_pos hwithin
  have hcomplete := copyThreads_spec hpositioned.pos hg.stamped hg.numThreads_pos hother
  have hshape := hg.copyShape hwithin hcomplete
  have horder := hg.copyInsertionOrder_eq hshape
  have hlinks := hg.relinked_spec hwithin hcomplete
  have hrelink := CopyShape.relinkLabels_eq
    (s := { other with insertionOrder := g.insertionOrder.filter (g.inRange v) })
    ⟨hshape.pos, hshape.containsPos, hshape.isa⟩ hg.links
    (fun e lab hlab => hg.copyLinks hcomplete hlab) (hg.nodup_order.filter _)
    (fun e he => (hshape.containsPos e).trans (List.mem_filter.mp he).2)
  -- The location maps.
  obtain ⟨s, hs, hsEq, hsKeys, hsCo⟩ := copyCoherence_spec hlinks.target hg.stores hlinks.co
  set linked := (g.insertionOrder.filter (g.inRange v)).foldl
    (fun s e => s.updateLabel e (EventLabel.mapFields (g.relinkMap v e)))
    { other with insertionOrder := g.insertionOrder.filter (g.inRange v) }
  have htarget : CopyTarget g v s := by
    obtain ⟨⟨hpos, hcontains, hisa⟩, hsInit, hsAddr, hsTracked⟩ := hlinks.target
    rw [hsEq]
    exact ⟨⟨hpos, hcontains, hisa⟩, hsInit, hsAddr, fun e a hc ha => by
      rw [hsKeys]
      exact hsTracked e a hc ha⟩
  have hsRfs : s.initRfs = linked.initRfs := by rw [hsEq]
  obtain ⟨g', hg', hEq, hKeys, hReaders⟩ := copyInitRfs_spec htarget hg.initReads
    (by rw [hsRfs, hsKeys]; exact hlinks.keys)
    (fun a => by rw [initReaders, hsRfs]; exact hlinks.initReaders a)
  have hlabels : g'.getEventLabel = linked.getEventLabel := by
    rw [hEq, hsEq]
    rfl
  have hcoherence : g'.coherence = s.coherence := by rw [hEq]
  refine ⟨g', ?_, ?_, ?_, fun e => ?_, fun e => ?_, fun e he => ?_, ?_, fun hcontained => ?_,
    fun a => ?_, ?_, fun a => ?_, hReaders⟩
  · unfold copyGraphUpTo
    simp only [hother, horder, hrelink, hs, hg', Option.bind_eq_bind, Option.bind_some]
  · have hthreads : g'.getNumThreads = linked.getNumThreads := by
      rw [hEq, hsEq]
      rfl
    exact hthreads.trans hlinks.numThreads
  · rw [hlabels]
    exact hlinks.init
  · rw [hlabels]
    exact hlinks.label e
  · rw [hlabels]
    exact hlinks.hole e
  · rw [← hlinks.target.containsPos, containsPos] at he
    rw [hlabels]
    simpa using he
  · have hfinal : g'.insertionOrder = linked.insertionOrder := by rw [hEq, hsEq]
    exact hfinal.trans hlinks.order
  · have htime : g'.timestamp = linked.timestamp := by rw [hEq, hsEq]
    exact htime.trans (hlinks.timestamp hcontained)
  · rw [hcoherence, hsKeys]
    exact hlinks.tracked a
  · rw [hKeys, hsRfs, hcoherence, hsKeys]
    exact hlinks.keys
  · rw [co, hcoherence]
    exact hsCo a

end WellFormed

end ExecutionGraph

end GenMC
