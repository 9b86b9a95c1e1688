import GenMC.ExecutionGraph.CopySpec
import GenMC.ExecutionGraph.ReaderRuns

/-!
# Copies and cuts are restrictions

Both ways of restricting a well-formed graph to a view, the copy and the cut in place, succeed and
yield the restriction of the graph, which is well-formed again.  Two restrictions of a graph to the
same view are isomorphic, hence the two ways agree.
-/

namespace GenMC

namespace ExecutionGraph

variable {g g' g'' : ExecutionGraph} {v : View}

/-! ## Restrictions of well-formed graphs -/

/-- The links of a label that stay in a restriction. -/
lemma Restricts.linksTo (h : Restricts g v g') (hg : Positioned g) {lab lab' : EventLabel}
    (hlinks : LinksTo g lab) (hbody : lab'.body = lab.body.mapFields (cutMap (.view v))) :
    LinksTo g' lab' := by
  have hisa : ∀ (p : LabelBody → Bool) [ClassTest p] (e : Event), v.contains e → g.isa p e →
      g'.isa p e := by
    intro p _ e hc he
    rw [h.isa hg, hc, he]
    rfl
  have hfilter : ∀ (p : LabelBody → Bool) [ClassTest p] (o : Option Event) (b : Bool),
      (∀ e, o = some e → g.isa p e) → ∀ e,
        (if b then o.filter v.contains else none) = some e → g'.isa p e := by
    intro p _ o b ho e he
    split at he
    · obtain ⟨heo, hc⟩ := Option.filter_eq_some_iff.mp he
      exact hisa p e hc (ho e heo)
    · cases he
  have hlist : ∀ (p : LabelBody → Bool) [ClassTest p] (l : List Event) (b : Bool),
      l.Nodup ∧ (∀ e ∈ l, g.isa p e) →
        (if b then l.filter v.contains else []).Nodup ∧
          ∀ e ∈ if b then l.filter v.contains else [], g'.isa p e := by
    intro p _ l b hl
    split
    · refine ⟨hl.1.filter _, fun e he => ?_⟩
      obtain ⟨hel, hc⟩ := List.mem_filter.mp he
      exact hisa p e hc (hl.2 e hel)
    · exact ⟨List.nodup_nil, by simp⟩
  refine ⟨?_, ?_, fun e he => ?_, fun e he => ?_, fun e he => ?_, fun e he => ?_⟩
  · rw [hbody, LabelBody.readers_mapFields]
    exact hlist LabelBody.isRead _ _ hlinks.readers
  · rw [hbody, LabelBody.accesses_mapFields]
    exact hlist LabelBody.isAccess _ _ hlinks.accesses
  · rw [hbody, LabelBody.alloc_mapFields] at he
    exact hfilter LabelBody.isMalloc _ _ hlinks.alloc e he
  · rw [hbody, LabelBody.getFree_mapFields] at he
    exact hfilter LabelBody.isFree _ _ hlinks.free e he
  · rw [hbody, LabelBody.freeAlloc_mapFields] at he
    exact hfilter LabelBody.isMalloc _ _ hlinks.freeAlloc e he
  · rw [hbody] at he
    refine hfilter LabelBody.isThreadJoin _ true hlinks.parentJoin e ?_
    cases hb : lab.body <;> rw [hb] at he <;> exact he

/-- The restriction of a well-formed graph is well-formed. -/
lemma Restricts.wellFormed (h : Restricts g v g') (hco : RestrictsCO g v g') (hg : WellFormed g) :
    WellFormed g' := by
  have hpositioned := hg.readerLists.positioned
  have hcontains := h.containsPos hpositioned
  refine ⟨h.readerLists hg.readerLists, ?_, fun e lab hlab => ?_, fun t ht => ?_, fun e => ?_, ?_,
    fun e he => ?_, fun e lab hlab => ?_, ⟨fun a => ?_, fun a w hw => ?_⟩, fun w a hw ha => ?_⟩
  · rw [h.stampOf hpositioned (contains_init v)]
    exact hg.initStamp
  · obtain ⟨-, lab₀, hlab₀, -, hstamp, -⟩ := h.label_cases hpositioned hlab
    rw [hstamp]
    exact hg.stamped e lab₀ hlab₀
  · rw [h.numThreads] at ht
    have hfirst : g'.containsPos ⟨t, 0⟩ := by
      rw [hcontains, Bool.and_eq_true]
      exact ⟨VectorClock.contains_of_index_eq_zero (.view v) rfl,
        containsPos_iff_lt.mpr (hg.nonempty t ht)⟩
    exact containsPos_iff_lt.mp hfirst
  · rw [h.order, List.mem_filter, hcontains, Bool.and_eq_true, hg.members, and_comm]
  · rw [h.order, List.pairwise_filter]
    refine hg.sorted.imp fun hlt hc hc' => ?_
    rwa [h.stampOf hpositioned hc, h.stampOf hpositioned hc']
  · rw [hcontains, Bool.and_eq_true] at he
    rw [h.stampOf hpositioned he.1, h.timestamp]
    exact hg.bounded e he.2
  · obtain ⟨-, lab₀, hlab₀, -, -, hbody⟩ := h.label_cases hpositioned hlab
    exact h.linksTo hpositioned (hg.links e lab₀ hlab₀) hbody
  · rw [hco]
    exact (hg.stores.nodup a).filter _
  · rw [hco] at hw
    obtain ⟨hw, hc⟩ := List.mem_filter.mp hw
    obtain ⟨hwrite, haddr⟩ := hg.stores.stores a w hw
    rw [h.isa hpositioned, h.addrOf hpositioned, hc, hwrite]
    exact ⟨rfl, haddr⟩
  · rw [h.isa hpositioned, Bool.and_eq_true] at hw
    rw [h.addrOf hpositioned, if_pos hw.1] at ha
    rw [hco, List.mem_filter]
    exact ⟨hg.allStores w a hw.2 ha, hw.1⟩

/-! ## Copies -/

/-- In a well-formed graph, the links that a copy keeps are those to contained labels. -/
lemma copyPointers_eq (hg : WellFormed g) {e : Event} {lab : EventLabel}
    (hlab : g.getEventLabel e = some lab) :
    copyPointers g (.view v) lab = cutPointers (.view v) lab := by
  have hlinks := hg.links e lab hlab
  have hfilter : ∀ (o : Option Event) (p q : Event → Bool), (∀ e, o = some e → p e = q e) →
      o.filter p = o.filter q := by
    intro o p q h
    cases o with
    | none => rfl
    | some e => rw [Option.filter_some, Option.filter_some, h e rfl]
  have htyped : ∀ (o : Option Event) (p : LabelBody → Bool), (∀ e, o = some e → g.isa p e) →
      (o.filter fun e => (VectorClock.view v).contains e && g.isa p e) =
        o.filter (VectorClock.view v).contains := by
    intro o p ho
    refine hfilter o _ _ fun e he => ?_
    rw [ho e he, Bool.and_true]
  refine congrArg (fun b => { lab with body := b }) ?_
  refine LabelBody.mapFields_congr (hfilter _ _ _ fun w hw => ?_) (fun _ => rfl)
    (htyped _ _ hlinks.alloc) (htyped _ _ hlinks.free) (fun _ => rfl) (htyped _ _ hlinks.freeAlloc)
    (htyped _ _ hlinks.parentJoin) rfl rfl
  -- The source of a read is a label of the graph, so that its thread exists.
  have hsource : g.containsPos w := by
    rw [← rfOf_of_getEventLabel hlab] at hw
    rcases hg.readerLists.sources e w hw with hw | hw
    · exact containsPos_iff.mpr ((isa_iff.mp hw).imp fun _ h => h.1)
    · exact containsPos_iff.mpr ((isa_iff.mp hw).imp fun _ h => h.1)
  obtain ⟨wLab, hwLab⟩ := containsPos_iff.mp hsource
  unfold inRange
  rw [decide_eq_true (thread_lt_of_getEventLabel hwLab), Bool.true_and]
  rfl

/-- A copy without holes is a restriction. -/
lemma Copies.restricts {pv : VectorClock} (h : Copies g (.view v) pv g') (hg : WellFormed g) :
    Restricts g v g' ∧ RestrictsCO g v g' := by
  have hrange : ∀ e, g.containsPos e → g.inRange (.view v) e = v.contains e := by
    intro e he
    obtain ⟨lab, hlab⟩ := containsPos_iff.mp he
    unfold inRange
    rw [decide_eq_true (thread_lt_of_getEventLabel hlab), Bool.true_and]
    rfl
  refine ⟨⟨h.numThreads, fun e he => ?_, ?_, ?_, h.timestamp fun e he => ?_, h.tracked, h.keys,
    h.initReaders⟩, h.co⟩
  · cases hc : v.contains e with
    | true =>
      rw [h.label e he hc, if_pos rfl]
      exact Option.map_congr fun lab hlab => copyPointers_eq hg hlab
    | false =>
      refine h.outside e (Bool.eq_false_iff.mpr fun hr => ?_)
      have : v.contains e = true := decide_eq_true (inRange_iff.mp hr).2
      rw [hc] at this
      cases this
  · obtain ⟨lab, hlab, hbody⟩ := isa_iff.mp hg.isa_init
    have hpos := hg.readerLists.positioned.pos _ lab hlab
    have hstamp : lab.stamp = some 0 := by
      obtain ⟨s, hs⟩ := Option.isSome_iff_exists.mp (hg.stamped _ lab hlab)
      have hzero := hg.initStamp
      rw [stampOf_of_getEventLabel hlab, EventLabel.getStamp, hs, Option.getD_some] at hzero
      rw [hs, hzero]
    have hinit : lab.body = .init := by
      cases hb : lab.body <;> rw [hb] at hbody <;> first | rfl | cases hbody
    rw [h.init, hlab, Option.map_some, Option.map_some, hpos, hstamp, hinit]
    rfl
  · rw [h.order]
    exact List.filter_congr fun e he => hrange e ((hg.members e).mp he)
  · exact decide_eq_true (inRange_iff.mp he).2

/-- The copy of a well-formed graph up to a view is its restriction. -/
lemma getCopyUpTo_restricts (hg : WellFormed g) (hv : Within g (.view v)) :
    ∃ g', g.getCopyUpTo (.view v) = some g' ∧ Restricts g v g' ∧ RestrictsCO g v g' := by
  obtain ⟨g', hg', hcopies⟩ := hg.copyGraphUpTo_copies hv (.view .empty)
  exact ⟨g', hg', hcopies.restricts hg⟩

/-! ## Cuts -/

/-- The largest number below a bound that passes a test is at least any other one. -/
lemma find?_reverse_range {p : ℕ → Bool} {n i : ℕ} (hi : i < n) (hp : p i) :
    ∃ j, (List.range n).reverse.find? p = some j ∧ i ≤ j := by
  induction n with
  | zero => exact absurd hi (Nat.not_lt_zero i)
  | succ n ih =>
    rw [List.range_succ, List.reverse_append, List.reverse_singleton, List.singleton_append,
      List.find?_cons]
    cases hpn : p n with
    | true => exact ⟨n, rfl, Nat.lt_succ_iff.mp hi⟩
    | false =>
      have hne : i ≠ n := by
        rintro rfl
        rw [hp] at hpn
        cases hpn
      exact ih (by omega)

/-- The view of a stamp contains the labels up to it. -/
lemma contains_getViewFromStamp {e : Event} {lab : EventLabel} {st : ℕ}
    (hlab : g.getEventLabel e = some lab) (hst : lab.getStamp ≤ st) :
    (g.getViewFromStamp st).contains e := by
  obtain ⟨j, hj, hle⟩ := find?_reverse_range (n := (g.events.getD e.thread []).length)
    (p := fun j => (g.events.getD e.thread [])[j]?.any fun lab => decide (lab.getStamp ≤ st))
    (containsPos_iff_lt.mp (containsPos_iff.mpr ⟨lab, hlab⟩)) (by
      unfold getEventLabel at hlab
      rw [hlab]
      exact decide_eq_true hst)
  refine decide_eq_true ?_
  rw [getMax_getViewFromStamp]
  unfold lastUpTo
  rw [hj]
  exact hle

/-- The view of a stamp lies within a well-formed graph. -/
lemma within_getViewFromStamp (hg : WellFormed g) (st : ℕ) :
    Within g (.view (g.getViewFromStamp st)) := by
  intro t ht
  have hle := getMax_getViewFromStamp_le g st t
  have hpos := hg.nonempty t ht
  exact lt_of_le_of_lt hle (by omega)

/-- Growing a view to an event. -/
lemma size_setMax (v : View) (e : Event) : (v.setMax e).size = max v.size (e.thread + 1) := by
  unfold View.setMax View.size
  rw [List.length_set, List.length_append, List.length_replicate]
  omega

/-- The view of a stamp has no entries for other threads. -/
lemma size_getViewFromStamp_le (g : ExecutionGraph) (st : ℕ) :
    (g.getViewFromStamp st).size ≤ g.getNumThreads := by
  unfold getViewFromStamp
  generalize g.getNumThreads = n
  induction n with
  | zero => exact le_rfl
  | succ n ih =>
    rw [List.range_succ, List.foldl_append, List.foldl_cons, List.foldl_nil]
    split
    · rw [size_setMax]
      exact max_le (by omega) le_rfl
    · omega

/-- `cutToStamp` succeeds on a well-formed graph. -/
lemma cutToStamp_isSome (hg : WellFormed g) (st : ℕ) : ∃ g', g.cutToStamp st = some g' := by
  set v := g.getViewFromStamp st with hv
  have hpositions : ∀ e ∈ (VectorClock.view v).positions, g.containsPos e := by
    intro e he
    obtain ⟨hthread, hindex⟩ := VectorClock.mem_positions.mp he
    refine containsPos_iff_lt.mpr (lt_of_le_of_lt hindex (within_getViewFromStamp hg st _ ?_))
    exact lt_of_lt_of_le hthread (size_getViewFromStamp_le g st)
  have hlabs := PartialRun.mapM_eq_some_filterMap hpositions
  obtain ⟨g₁, hg₁, hevents⟩ : ∃ g₁, g.removeAfter (.view v) = some g₁ ∧ g₁.events = g.events := by
    unfold removeAfter keptLocs
    rw [hlabs]
    exact ⟨_, rfl, rfl⟩
  have htails : ∀ g₁ : ExecutionGraph, g₁.getNumThreads = g.getNumThreads →
      (∀ t, g₁.getThreadSize t = g.getThreadSize t) → ∃ g', g₁.eraseTails (.view v) = some g' := by
    intro g₁ hthreads hsizes
    unfold eraseTails
    rw [if_neg]
    · exact ⟨_, rfl⟩
    · rw [List.any_eq_true]
      rintro ⟨thr, hthr, hempty⟩
      obtain ⟨t, ht, rfl⟩ := List.getElem_of_mem hthr
      have hsize := hg.nonempty t (hthreads ▸ ht)
      rw [← hsizes, getThreadSize, List.getD_eq_getElem?_getD,
        List.getElem?_eq_getElem ht, Option.getD_some, List.isEmpty_iff.mp hempty] at hsize
      exact lt_irrefl _ hsize
  obtain ⟨hrelinks, -⟩ := cutLabels_eq (g₁.cutInsertionOrder (.view v)) (.view v)
  obtain ⟨g', hg'⟩ := htails _
      (hrelinks.numThreads.trans (congrArg List.length hevents)) fun t => by
    rw [hrelinks.threadSize]
    exact congrArg (fun events : List (List EventLabel) => (events.getD t []).length) hevents
  refine ⟨g', ?_⟩
  unfold cutToStamp
  simp only [← hv, hg₁, Option.bind_eq_bind, Option.bind_some]
  exact hg'

/-- The cut of a well-formed graph is its restriction to the view of the stamp. -/
lemma cutToStamp_restricts (hg : WellFormed g) (st : ℕ) :
    ∃ g', g.cutToStamp st = some g' ∧ Restricts g (g.getViewFromStamp st) g' ∧
      RestrictsCO g (g.getViewFromStamp st) g' := by
  obtain ⟨g', hg'⟩ := cutToStamp_isSome hg st
  obtain ⟨keep, hcuts⟩ := cutToStamp_spec hg'
  exact ⟨g', hg', hcuts.restricts hg.readerLists,
    hcuts.restrictsCO hg.readerLists.positioned fun a w hw => (hg.stores.stores a w hw).2⟩

/-! ## The two ways agree -/

/-- Two graphs with the same labels, orders and lists.  The initializer may be another one. -/
structure Isomorphic (g g' : ExecutionGraph) : Prop where
  /-- The threads are the same. -/
  numThreads : g'.getNumThreads = g.getNumThreads
  /-- The labels are the same. -/
  label : ∀ e, e ≠ .init → g'.getEventLabel e = g.getEventLabel e
  /-- The initializer is one, with the same stamp. -/
  init : (g'.getEventLabel .init).map (fun lab => (lab.pos, lab.stamp, lab.body)) =
    (g.getEventLabel .init).map fun lab => (lab.pos, lab.stamp, lab.body)
  /-- The insertion order is the same. -/
  order : g'.insertionOrder = g.insertionOrder
  /-- The timestamp is the same. -/
  timestamp : g'.timestamp = g.timestamp
  /-- The coherence orders are the same. -/
  co : ∀ a, g'.co a = g.co a
  /-- The lists of initial readers are the same. -/
  initReaders : ∀ a, g'.initReaders a = g.initReaders a

/-- Two restrictions of a graph to the same view are isomorphic. -/
lemma Restricts.isomorphic (h' : Restricts g v g') (hco' : RestrictsCO g v g')
    (h'' : Restricts g v g'') (hco'' : RestrictsCO g v g'') : Isomorphic g' g'' where
  numThreads := h''.numThreads.trans h'.numThreads.symm
  label := fun e he => (h''.label e he).trans (h'.label e he).symm
  init := h''.init.trans h'.init.symm
  order := h''.order.trans h'.order.symm
  timestamp := h''.timestamp.trans h'.timestamp.symm
  co := fun a => (hco'' a).trans (hco' a).symm
  initReaders := fun a => (h''.initReaders a).trans (h'.initReaders a).symm

/-- In a graph whose labels are all contained, nothing is restricted. -/
lemma Restricts.isomorphic_self (h : Restricts g v g') (hco : RestrictsCO g v g')
    (hg : WellFormed g) (hall : ∀ e, g.containsPos e → v.contains e) : Isomorphic g g' := by
  have hisa : ∀ (p : LabelBody → Bool) (e : Event), g.isa p e → v.contains e := fun p e he =>
    hall e (containsPos_iff.mpr ((isa_iff.mp he).imp fun _ h => h.1))
  have hlist : ∀ (p : LabelBody → Bool) (l : List Event), (∀ e ∈ l, g.isa p e) →
      l.filter v.contains = l := fun p l hl =>
    List.filter_eq_self.mpr fun e he => hisa p e (hl e he)
  have hopt : ∀ (p : LabelBody → Bool) (o : Option Event), (∀ e, o = some e → g.isa p e) →
      o.filter v.contains = o := by
    intro p o ho
    cases o with
    | none => rfl
    | some e => rw [Option.filter_some, if_pos (hisa p e (ho e rfl))]
  refine ⟨h.numThreads, fun e he => ?_, h.init, ?_, h.timestamp, fun a => ?_, fun a => ?_⟩
  · rw [h.label e he]
    cases hlab : g.getEventLabel e with
    | none => split <;> rfl
    | some lab =>
      rw [if_pos (hall e (containsPos_iff.mpr ⟨lab, hlab⟩)), Option.map_some]
      have hlinks := hg.links e lab hlab
      have hrf : lab.body.rf.filter v.contains = lab.body.rf := by
        cases hrf : lab.body.rf with
        | none => rfl
        | some w =>
          rw [← rfOf_of_getEventLabel hlab] at hrf
          have hw := (hg.readerLists.sources e w hrf).elim (hisa _ w) (hisa _ w)
          exact (Option.filter_some ..).trans (if_pos hw)
      have hbody : lab.body.mapFields (cutMap (.view v)) = lab.body.mapFields {} :=
        LabelBody.mapFields_congr hrf (fun _ => hlist _ _ hlinks.readers.2)
          (hopt _ _ hlinks.alloc) (hopt _ _ hlinks.free) (fun _ => hlist _ _ hlinks.accesses.2)
          (hopt _ _ hlinks.freeAlloc) (hopt _ _ hlinks.parentJoin) rfl rfl
      have hid : lab.body.mapFields {} = lab.body := by cases lab.body <;> rfl
      exact congrArg (fun b => some { lab with body := b }) (hbody.trans hid)
  · rw [h.order, List.filter_eq_self]
    exact fun e he => hall e ((hg.members e).mp he)
  · rw [hco]
    exact hlist LabelBody.isWrite _ fun w hw => (hg.stores.stores a w hw).1
  · rw [h.initReaders]
    exact hlist LabelBody.isRead _ fun r hr =>
      hg.readerLists.isRead_of_mem (s := .inr a) hr

/-- `g'` is the part of `g` that a view contains, and it is closed: its reads and reader lists
agree, and the links of its labels lead to its labels. -/
structure SubGraph (g : ExecutionGraph) (v : View) (g' : ExecutionGraph) : Prop where
  /-- The labels are the contained ones, which include the begins of all threads. -/
  contains : ∀ e, g'.containsPos e ↔ g.containsPos e ∧ v.contains e
  /-- Kept labels have the same class, position and stamp, and their links to kept labels. -/
  label : ∀ e lab, g.getEventLabel e = some lab → v.contains e →
    ∃ lab', g'.getEventLabel e = some lab' ∧ lab'.pos = lab.pos ∧ lab'.stamp = lab.stamp ∧
      lab'.body = lab.body.mapFields (cutMap (.view v))
  /-- Kept reads keep their source if it is kept, and have none otherwise. -/
  rf : ∀ r, v.contains r → g'.rfOf r = (g.rfOf r).filter v.contains
  /-- The coherence orders are filtered. -/
  co : ∀ a, g'.co a = (g.co a).filter v.contains
  /-- Reads and reader lists agree. -/
  readers : ReadersExact g'
  /-- The links of the labels lead to labels of the part. -/
  links : ∀ e lab, g'.getEventLabel e = some lab → LinksTo g' lab
  /-- The insertion order is filtered. -/
  order : g'.insertionOrder = g.insertionOrder.filter v.contains
  /-- The begins of all threads stay, with the positions of their creates. -/
  begins : ∀ t lab, g.getEventLabel ⟨t, 0⟩ = some lab →
    ∃ lab', g'.getEventLabel ⟨t, 0⟩ = some lab' ∧ lab'.body.parentCreate = lab.body.parentCreate

/-- The restriction of a well-formed graph is a part of it. -/
lemma Restricts.subGraph (h : Restricts g v g') (hco : RestrictsCO g v g') (hg : WellFormed g) :
    SubGraph g v g' := by
  have hpositioned := hg.readerLists.positioned
  have hg' := h.wellFormed hco hg
  refine ⟨fun e => ?_, fun e lab hlab hc => h.getEventLabel hpositioned hc hlab,
    fun r hr => ?_, hco,
    hg'.readerLists.exact, hg'.links, h.order, fun t lab hlab => ?_⟩
  · rw [h.containsPos hpositioned, Bool.and_eq_true, and_comm]
  · rw [h.rfOf hpositioned, if_pos hr]
  · obtain ⟨lab', hlab', -, -, hbody⟩ := h.getEventLabel hpositioned
      (VectorClock.contains_of_index_eq_zero (.view v) rfl) hlab
    refine ⟨lab', hlab', ?_⟩
    rw [hbody]
    cases lab.body <;> rfl

/-- **Copying is restricting.**  The copy of a well-formed graph up to a view of it is the part of
the graph that the view contains, and it is well-formed again.  The clone of the graph is isomorphic
to it. -/
theorem getCopyUpTo_subGraph (hg : WellFormed g) (hv : Within g (.view v)) :
    (∃ g', g.getCopyUpTo (.view v) = some g' ∧ SubGraph g v g' ∧ WellFormed g') ∧
      ∃ g', g.clone = some g' ∧ Isomorphic g g' := by
  constructor
  · obtain ⟨g', hg', h, hco⟩ := getCopyUpTo_restricts hg hv
    exact ⟨g', hg', h.subGraph hco hg, h.wellFormed hco hg⟩
  · obtain ⟨g', hg', h, hco⟩ := getCopyUpTo_restricts hg
      (within_getViewFromStamp hg g.timestamp)
    refine ⟨g', hg', h.isomorphic_self hco hg fun e he => ?_⟩
    obtain ⟨lab, hlab⟩ := containsPos_iff.mp he
    refine contains_getViewFromStamp hlab (le_of_lt ?_)
    rw [← stampOf_of_getEventLabel hlab]
    exact hg.bounded e he

/-- A write and a read of a heap cell that is allocated and freed, and a read of another cell from
the initializer, in two threads. -/
def sampleGraph : ExecutionGraph :=
  (PartialRun.exec Mutation.apply initial
    [.addLabelToGraph
        { pos := ⟨0, 1⟩, body := .malloc ⟨8⟩ 1 (some ⟨0, 4⟩) [⟨0, 3⟩] },
      .addLabelToGraph { pos := ⟨0, 2⟩, body := .plain (.threadCreate 1) },
      .addNewThread,
      .addLabelToGraph { pos := ⟨1, 0⟩, body := .threadStart ⟨0, 2⟩ },
      .addLabelToGraph
        { pos := ⟨0, 3⟩, body := .write .write { addr := ⟨8⟩, alloc := some ⟨0, 1⟩ } [] },
      .addStoreToCOAfter ⟨0, 3⟩ .init,
      .addLabelToGraph { pos := ⟨0, 4⟩, body := .free .free ⟨8⟩ (some ⟨0, 1⟩) },
      .addLabelToGraph { pos := ⟨1, 1⟩, body := .read .read { addr := ⟨16⟩ } none false },
      .setRf ⟨1, 1⟩ (some .init),
      .addLabelToGraph { pos := ⟨1, 2⟩, body := .read .read { addr := ⟨8⟩ } none false },
      .setRf ⟨1, 2⟩ (some ⟨0, 3⟩)]).getD initial

/-- The sample graph is well-formed. -/
lemma wellFormed_sampleGraph : WellFormed sampleGraph := WellFormed.of_check (by decide +kernel)

/-- The copy of the sample graph that cuts the create, the write and the free. -/
theorem sampleGraph_copied :
    (∃ g', sampleGraph.getCopyUpTo (.view ⟨[1, 2]⟩) = some g' ∧ SubGraph sampleGraph ⟨[1, 2]⟩ g' ∧
      WellFormed g') ∧ ∃ g', sampleGraph.clone = some g' ∧ Isomorphic sampleGraph g' :=
  getCopyUpTo_subGraph wellFormed_sampleGraph (by decide +kernel)

/-- The create that a thread's begin points to is in the graph. -/
def CreatesKept (g : ExecutionGraph) : Prop :=
  ∀ e lab, g.getEventLabel e = some lab → ∀ c ∈ lab.body.parentCreate, g.containsPos c

/-- The begin of a thread is copied also where its create is cut. -/
theorem sampleGraph_createCut :
    ¬ ∀ g v g', WellFormed g → CreatesKept g → Within g (.view v) →
      g.getCopyUpTo (.view v) = some g' → CreatesKept g' := by
  intro hall
  have hcreates : CreatesKept sampleGraph := by
    have hcheck : ∀ e ∈ sampleGraph.positions, ∀ lab ∈ sampleGraph.getEventLabel e,
        ∀ c ∈ lab.body.parentCreate, sampleGraph.containsPos c := by decide +kernel
    exact fun e lab hlab => hcheck e (mem_positions.mpr (containsPos_iff.mpr ⟨lab, hlab⟩)) lab hlab
  -- Thread 1 is copied with its begin, but thread 0 only up to the label before the create.
  have hcopy : ((sampleGraph.getCopyUpTo (.view ⟨[1, 2]⟩)).map fun g' =>
      ((g'.getEventLabel ⟨1, 0⟩).map fun lab => lab.body.parentCreate, g'.containsPos ⟨0, 2⟩)) =
      some (some (some ⟨0, 2⟩), false) := by decide +kernel
  obtain ⟨g', hg', heq⟩ := Option.map_eq_some_iff.mp hcopy
  rw [Prod.mk.injEq] at heq
  obtain ⟨lab, hlab, hcreate⟩ := Option.map_eq_some_iff.mp heq.1
  have hkept := hall sampleGraph ⟨[1, 2]⟩ g' wellFormed_sampleGraph hcreates (by decide +kernel) hg'
    ⟨1, 0⟩ lab hlab ⟨0, 2⟩ hcreate
  rw [heq.2] at hkept
  cases hkept

/-- **The two ways of restricting agree.**  For every well-formed graph and every stamp, the cut in
place and the copy up to the view of the stamp succeed and yield isomorphic graphs that track the
same locations; a kept read loses its source exactly if that is cut. -/
theorem cutToStamp_isomorphic_copy (hg : WellFormed g) (st : ℕ) :
    ∃ cut copy, g.cutToStamp st = some cut ∧
      g.getCopyUpTo (.view (g.getViewFromStamp st)) = some copy ∧ Isomorphic cut copy ∧
      (∀ r, cut.rfOf r = if (g.getViewFromStamp st).contains r then
        (g.rfOf r).filter (g.getViewFromStamp st).contains else none) ∧
      ∀ a, (a ∈ cut.coherence.keys ↔ a ∈ copy.coherence.keys) ∧
        (a ∈ cut.initRfs.keys ↔ a ∈ copy.initRfs.keys) := by
  obtain ⟨cut, hcut, h, hco⟩ := cutToStamp_restricts hg st
  obtain ⟨copy, hcopy, h', hco'⟩ := getCopyUpTo_restricts hg (within_getViewFromStamp hg st)
  have htracked : ∀ a, a ∈ cut.coherence.keys ↔ a ∈ copy.coherence.keys := fun a =>
    (h.tracked a).trans (h'.tracked a).symm
  refine ⟨cut, copy, hcut, hcopy, h.isomorphic hco h' hco',
    h.rfOf hg.readerLists.positioned, fun a => ⟨htracked a, ?_⟩⟩
  rw [h.keys, h'.keys]
  exact htracked a

/-- Both ways restrict the sample graph before its last read. -/
theorem sampleGraph_cut :
    ∃ cut copy, sampleGraph.cutToStamp 5 = some cut ∧
      sampleGraph.getCopyUpTo (.view (sampleGraph.getViewFromStamp 5)) = some copy ∧
      Isomorphic cut copy ∧
      (∀ r, cut.rfOf r = if (sampleGraph.getViewFromStamp 5).contains r then
        (sampleGraph.rfOf r).filter (sampleGraph.getViewFromStamp 5).contains else none) ∧
      ∀ a, (a ∈ cut.coherence.keys ↔ a ∈ copy.coherence.keys) ∧
        (a ∈ cut.initRfs.keys ↔ a ∈ copy.initRfs.keys) :=
  cutToStamp_isomorphic_copy wellFormed_sampleGraph 5

end ExecutionGraph

end GenMC
