import GenMC.ExecutionGraph.StampRuns
import GenMC.ExecutionGraph.SubGraph

/-!
# Graphs under construction

Between the calls of the driver a graph is well-formed, but not between the mutators of one call: a
write that has just been added is in no coherence order, and a thread that has just been made has no
label.  `Linked` is what every mutator keeps; `Settled` is what a call has to restore at its end, so
that the graph is well-formed again (`Linked.wellFormed`).
-/

namespace GenMC

namespace LabelBody

/-- The links between accesses, allocations, frees and joins. -/
def links (b : LabelBody) :
    Option Event × List Event × Option Event × Option Event × Option Event :=
  (b.alloc, b.accesses, b.getFree, b.freeAlloc, b.parentJoin)

/-- The classes that these links lead to. -/
def linkTargets : List (LabelBody → Bool) := [isAccess, isMalloc, isFree, isThreadJoin]

/-- The links of a new label. -/
def NoLinks (b : LabelBody) : Prop := b.links = (none, [], none, none, none)

instance : DecidablePred NoLinks := fun b => inferInstanceAs (Decidable (b.links = _))

/-- Changing sources, readers and flags leaves the other links alone. -/
lemma links_mapFields {m : FieldMap} (halloc : m.alloc = id) (hfree : m.free = id)
    (haccesses : m.accesses = id) (hfreeAlloc : m.freeAlloc = id) (hparentJoin : m.parentJoin = id)
    (b : LabelBody) : (b.mapFields m).links = b.links := by
  cases b <;>
    simp [links, mapFields, alloc, memAccess, accesses, getFree, freeAlloc, parentJoin, halloc,
      hfree, haccesses, hfreeAlloc, hparentJoin]

/-- `wasAddedMax` of an access; any other label counts as added maximally. -/
def addedMax (b : LabelBody) : Bool := b.memAccess.all fun a => a.maximal

/-- Changes that leave the flag of an access alone. -/
lemma addedMax_mapFields {m : FieldMap} (hmaximal : m.maximal = id) (b : LabelBody) :
    (b.mapFields m).addedMax = b.addedMax := by
  cases b <;> simp [addedMax, mapFields, memAccess, hmaximal]

/-- The links of a label when an access has left the lists of the allocations. -/
def linksWithout (m : Event) (b : LabelBody) :
    Option Event × List Event × Option Event × Option Event × Option Event :=
  (b.alloc, b.accesses.filter fun m' => !decide (m' = m), b.getFree, b.freeAlloc, b.parentJoin)

/-- Where the access is not listed, the links are the same. -/
lemma linksWithout_of_notMem {m : Event} {b : LabelBody} (h : m ∉ b.accesses) :
    b.linksWithout m = b.links := by
  have hfilter : b.accesses.filter (fun m' => !decide (m' = m)) = b.accesses := by
    refine List.filter_eq_self.mpr fun m' hm' => ?_
    rw [Bool.not_eq_true', decide_eq_false_iff_not]
    rintro rfl
    exact h hm'
  unfold linksWithout links
  rw [hfilter]

end LabelBody

/-- The marks of a label that the revisits look at: whether it may be revisited, and whether it was
added maximally. -/
def EventLabel.marks (lab : EventLabel) : Bool × Bool := (lab.revisitable, lab.body.addedMax)

namespace ExecutionGraph

variable {g g' : ExecutionGraph}

/-- The marks of the label at a position. -/
def marksOf (g : ExecutionGraph) (e : Event) : Option (Bool × Bool) :=
  (g.getEventLabel e).map EventLabel.marks

/-- Changes that leave the flags of accesses alone. -/
lemma marksOf_updateLabel {m : FieldMap} (hmaximal : m.maximal = id) (e e' : Event) :
    (g.updateLabel e (EventLabel.mapFields m)).marksOf e' = g.marksOf e' := by
  have hmarks : ∀ lab, (EventLabel.mapFields m lab).marks = lab.marks := fun lab =>
    Prod.ext rfl (LabelBody.addedMax_mapFields hmaximal lab.body)
  exact map_getEventLabel_updateLabel hmarks e e'

/-! ## Links -/

/-- The links of a label between accesses, allocations, frees and joins lead to labels of the right
classes, and the accesses have no duplicates. -/
structure AllocLinks (g : ExecutionGraph) (b : LabelBody) : Prop where
  /-- Accesses of an allocation are memory accesses. -/
  accesses : b.accesses.Nodup ∧ ∀ e ∈ b.accesses, g.isa LabelBody.isAccess e
  /-- The allocation of an access is an allocation. -/
  alloc : ∀ a, b.alloc = some a → g.isa LabelBody.isMalloc a
  /-- The free of an allocation is a free. -/
  free : ∀ d, b.getFree = some d → g.isa LabelBody.isFree d
  /-- The allocation of a free is an allocation. -/
  freeAlloc : ∀ a, b.freeAlloc = some a → g.isa LabelBody.isMalloc a
  /-- The join of a thread's end is a join. -/
  parentJoin : ∀ j, b.parentJoin = some j → g.isa LabelBody.isThreadJoin j

namespace AllocLinks

/-- The links stay right where they stay the same and their targets keep their classes. -/
lemma congr {b b' : LabelBody} (h : AllocLinks g b) (hlinks : b'.links = b.links)
    (hisa : ∀ p ∈ LabelBody.linkTargets, ∀ e, g.isa p e → g'.isa p e) : AllocLinks g' b' := by
  simp only [LabelBody.links, Prod.mk.injEq] at hlinks
  obtain ⟨halloc, haccesses, hfree, hfreeAlloc, hjoin⟩ := hlinks
  refine ⟨?_, fun a ha => ?_, fun d hd => ?_, fun a ha => ?_, fun j hj => ?_⟩
  · rw [haccesses]
    exact ⟨h.accesses.1, fun e he =>
      hisa _ (by simp [LabelBody.linkTargets]) e (h.accesses.2 e he)⟩
  · exact hisa _ (by simp [LabelBody.linkTargets]) a (h.alloc a (halloc ▸ ha))
  · exact hisa _ (by simp [LabelBody.linkTargets]) d (h.free d (hfree ▸ hd))
  · exact hisa _ (by simp [LabelBody.linkTargets]) a (h.freeAlloc a (hfreeAlloc ▸ ha))
  · exact hisa _ (by simp [LabelBody.linkTargets]) j (h.parentJoin j (hjoin ▸ hj))

/-- A label without links. -/
lemma of_noLinks {b : LabelBody} (h : b.NoLinks) : AllocLinks g b := by
  simp only [LabelBody.NoLinks, LabelBody.links, Prod.mk.injEq] at h
  obtain ⟨halloc, haccesses, hfree, hfreeAlloc, hjoin⟩ := h
  exact ⟨by simp [haccesses], by simp [halloc], by simp [hfree], by simp [hfreeAlloc],
    by simp [hjoin]⟩

/-- Changing the links of a label. -/
lemma mapFields {b : LabelBody} {m : FieldMap}
    (haccesses : (m.accesses b.accesses).Nodup ∧
      ∀ e ∈ m.accesses b.accesses, g.isa LabelBody.isAccess e)
    (halloc : ∀ a, m.alloc b.alloc = some a → g.isa LabelBody.isMalloc a)
    (hfree : ∀ d, m.free b.getFree = some d → g.isa LabelBody.isFree d)
    (hfreeAlloc : ∀ a, m.freeAlloc b.freeAlloc = some a → g.isa LabelBody.isMalloc a)
    (hparentJoin : ∀ j, m.parentJoin b.parentJoin = some j → g.isa LabelBody.isThreadJoin j) :
    AllocLinks g (b.mapFields m) := by
  refine ⟨?_, fun a ha => ?_, fun d hd => ?_, fun a ha => ?_, fun j hj => ?_⟩
  · rw [LabelBody.accesses_mapFields]
    split
    · exact haccesses
    · exact ⟨List.nodup_nil, by simp⟩
  · rw [LabelBody.alloc_mapFields] at ha
    split at ha
    · exact halloc a ha
    · cases ha
  · rw [LabelBody.getFree_mapFields] at hd
    split at hd
    · exact hfree d hd
    · cases hd
  · rw [LabelBody.freeAlloc_mapFields] at ha
    split at ha
    · exact hfreeAlloc a ha
    · cases ha
  · cases b <;> first
      | exact hparentJoin j hj
      | cases hj

end AllocLinks

/-- Every label has links of the right classes. -/
def AllLinks (g : ExecutionGraph) : Prop :=
  ∀ e lab, g.getEventLabel e = some lab → AllocLinks g lab.body

/-- The links of all labels stay right where they stay the same. -/
lemma AllLinks.congr (h : AllLinks g)
    (hlinks : ∀ e, (g'.getEventLabel e).map (fun lab => lab.body.links) =
      (g.getEventLabel e).map fun lab => lab.body.links)
    (hisa : ∀ p ∈ LabelBody.linkTargets, ∀ e, g.isa p e → g'.isa p e) : AllLinks g' := by
  intro e lab' hlab'
  have hmap := hlinks e
  rw [hlab', Option.map_some, eq_comm, Option.map_eq_some_iff] at hmap
  obtain ⟨lab, hlab, heq⟩ := hmap
  exact (h e lab hlab).congr heq.symm hisa

/-- The links of all labels after changing those of one. -/
lemma AllLinks.updateLabel (h : AllLinks g) {m : FieldMap} {e : Event}
    (hlab : ∀ lab, g.getEventLabel e = some lab → AllocLinks g (lab.body.mapFields m)) :
    AllLinks (g.updateLabel e (EventLabel.mapFields m)) := by
  have hrelinks := Relinks.updateLabel g e m
  have hisa : ∀ p ∈ LabelBody.linkTargets, ∀ e', g.isa p e' →
      (g.updateLabel e (EventLabel.mapFields m)).isa p e' := by
    intro p hp e' he'
    simp only [LabelBody.linkTargets, List.mem_cons, List.not_mem_nil, or_false] at hp
    rcases hp with rfl | rfl | rfl | rfl <;> rwa [hrelinks.isa]
  intro e' lab' hlab'
  rw [getEventLabel_updateLabel] at hlab'
  split at hlab'
  next heq =>
    obtain ⟨lab, hget, rfl⟩ := Option.map_eq_some_iff.mp hlab'
    exact (hlab lab (heq ▸ hget)).congr rfl hisa
  next => exact (h e' lab' hlab').congr rfl hisa

/-- The allocation of the access at a position. -/
def allocOf (g : ExecutionGraph) (m : Event) : Option Event :=
  (g.getEventLabel m).bind fun lab => lab.body.alloc

/-- The allocation of an access at a position with a label. -/
lemma allocOf_of_getEventLabel {e : Event} {lab : EventLabel} (h : g.getEventLabel e = some lab) :
    g.allocOf e = lab.body.alloc := by
  unfold allocOf
  rw [h]
  rfl

/-- An allocation only lists accesses that know it. -/
def Listed (g : ExecutionGraph) : Prop := ∀ a m, m ∈ g.accessesOf a → g.allocOf m = some a

/-- The lists of the allocations stay right where links stay the same. -/
lemma Listed.congr (h : Listed g)
    (hlinks : ∀ e, (g'.getEventLabel e).map (fun lab => lab.body.links) =
      (g.getEventLabel e).map fun lab => lab.body.links) : Listed g' := by
  have haccesses : ∀ a, g'.accessesOf a = g.accessesOf a := by
    intro a
    have hmap := congrArg (Option.map fun l => l.2.1) (hlinks a)
    rw [Option.map_map, Option.map_map] at hmap
    exact congrArg (fun o => o.getD []) hmap
  have halloc : ∀ m, g'.allocOf m = g.allocOf m := by
    intro m
    have hmap := congrArg (Option.map fun l => l.1) (hlinks m)
    rw [Option.map_map, Option.map_map] at hmap
    unfold allocOf
    cases hl : g.getEventLabel m <;> cases hl' : g'.getEventLabel m <;> simp_all [LabelBody.links]
  intro a m hm
  rw [haccesses] at hm
  rw [halloc]
  exact h a m hm

/-- The lists of the allocations after changing other links of a label. -/
lemma Listed.updateLabel (h : Listed g) {m : FieldMap} (haccesses : m.accesses = id)
    (halloc : m.alloc = id) (e : Event) : Listed (g.updateLabel e (EventLabel.mapFields m)) := by
  have hlists : ∀ a, (g.updateLabel e (EventLabel.mapFields m)).accessesOf a = g.accessesOf a := by
    intro a
    have hmap := map_getEventLabel_updateLabel (g := g) (m := EventLabel.mapFields m)
      (f := fun lab => lab.body.accesses) (fun lab => by
        cases hb : lab.body <;>
          simp [EventLabel.mapFields, LabelBody.mapFields, LabelBody.accesses, haccesses, hb]) e a
    exact congrArg (fun o => o.getD []) hmap
  have hallocs : ∀ x, (g.updateLabel e (EventLabel.mapFields m)).allocOf x = g.allocOf x := by
    intro x
    have hmap := map_getEventLabel_updateLabel (g := g) (m := EventLabel.mapFields m)
      (f := fun lab => lab.body.alloc) (fun lab => by
        cases hb : lab.body <;> simp [EventLabel.mapFields, LabelBody.mapFields, LabelBody.alloc,
          LabelBody.memAccess, halloc, hb]) e x
    unfold allocOf
    cases hl : g.getEventLabel x <;>
      cases hl' : (g.updateLabel e (EventLabel.mapFields m)).getEventLabel x <;> simp_all
  intro a x hx
  rw [hlists] at hx
  rw [hallocs]
  exact h a x hx

/-- Relinking keeps the classes of link targets. -/
lemma Relinks.isa_linkTargets (h : Relinks g g') (p : LabelBody → Bool)
    (hp : p ∈ LabelBody.linkTargets) (e : Event) : g'.isa p e = g.isa p e := by
  simp only [LabelBody.linkTargets, List.mem_cons, List.not_mem_nil, or_false] at hp
  rcases hp with rfl | rfl | rfl | rfl <;> exact h.isa _ e

/-! ## The parts of well-formedness -/

/-- What every mutator keeps. -/
structure Linked (g : ExecutionGraph) : Prop where
  /-- Reads and reader lists are mutually inverse. -/
  readerLists : ReaderLists g
  /-- The stamps are in order. -/
  stamped : Stamped g
  /-- Links lead to labels of the right classes. -/
  links : AllLinks g
  /-- Allocations only list accesses that know them. -/
  listed : Listed g
  /-- The coherence order of a location lists writes of the location. -/
  stores : Stores g

/-- What a call of the driver restores: every thread has a label, and the coherence orders list all
writes. -/
structure Settled (g : ExecutionGraph) : Prop where
  /-- Every thread has a label. -/
  started : ∀ t < g.getNumThreads, g.containsPos ⟨t, 0⟩
  /-- The coherence order of a location lists all writes of the location. -/
  placed : ∀ w a, g.isa LabelBody.isWrite w → g.addrOf w = some a → w ∈ g.co a

/-- The two parts make a well-formed graph. -/
lemma Linked.wellFormed (h : Linked g) (hs : Settled g) : WellFormed g := by
  refine ⟨h.readerLists, h.stamped.initStamp, h.stamped.stamps, fun t ht => ?_,
    h.stamped.order.members, h.stamped.order.sorted, h.stamped.order.bounded,
    fun e lab hlab => ?_, h.stores, hs.placed⟩
  · exact containsPos_iff_lt.mp (hs.started t ht)
  · have hlinks := h.links e lab hlab
    have hreaders : g.readersAt (.inl e) = lab.body.readers := readersOf_of_getEventLabel hlab
    refine ⟨⟨?_, fun r hr => ?_⟩, hlinks.accesses, hlinks.alloc, hlinks.free, hlinks.freeAlloc,
      hlinks.parentJoin⟩
    · rw [← hreaders]
      exact h.readerLists.mirrors.nodup _
    · rw [← hreaders] at hr
      exact h.readerLists.isRead_of_mem hr

namespace WellFormed

/-- A well-formed graph whose stamps are in order is linked if the lists of its allocations are
right. -/
lemma linked (hg : WellFormed g) (hs : Stamped g) (hl : Listed g) : Linked g :=
  ⟨hg.readerLists, hs, fun e lab hlab =>
    have h := hg.links e lab hlab
    ⟨h.accesses, h.alloc, h.free, h.freeAlloc, h.parentJoin⟩, hl, hg.stores⟩

/-- A well-formed graph is settled. -/
lemma settled (hg : WellFormed g) : Settled g :=
  ⟨fun t ht => containsPos_iff_lt.mpr (hg.nonempty t ht), hg.allStores⟩

end WellFormed

/-! ## Changes that keep the bodies of the labels -/

/-- `g'` differs from `g` in stamps, views and revisit marks. -/
structure SameBodies (g g' : ExecutionGraph) : Prop where
  /-- The labels have the same positions and bodies. -/
  label : ∀ e, (g'.getEventLabel e).map (fun lab => (lab.pos, lab.body)) =
    (g.getEventLabel e).map fun lab => (lab.pos, lab.body)
  /-- The threads are the same. -/
  numThreads : g'.getNumThreads = g.getNumThreads
  /-- The coherence orders are the same. -/
  coherence : g'.coherence = g.coherence
  /-- The initial readers are the same. -/
  initRfs : g'.initRfs = g.initRfs

namespace SameBodies

/-- A function of the bodies has the same value at every position. -/
lemma map_eq {α : Type*} (h : SameBodies g g') (f : LabelBody → α) (e : Event) :
    (g'.getEventLabel e).map (fun lab => f lab.body) =
      (g.getEventLabel e).map fun lab => f lab.body := by
  have hmap := congrArg (Option.map fun p : Event × LabelBody => f p.2) (h.label e)
  rwa [Option.map_map, Option.map_map] at hmap

/-- The positions are the same. -/
lemma containsPos (h : SameBodies g g') (e : Event) : g'.containsPos e = g.containsPos e := by
  unfold ExecutionGraph.containsPos
  rw [← Option.isSome_map (f := fun _ => ()), h.map_eq (fun _ => ()), Option.isSome_map]

/-- The classes are the same. -/
lemma isa (h : SameBodies g g') (p : LabelBody → Bool) (e : Event) : g'.isa p e = g.isa p e := by
  have hmap := h.map_eq p e
  unfold ExecutionGraph.isa
  cases hl : g.getEventLabel e <;> cases hl' : g'.getEventLabel e <;> simp_all

/-- The sources of the reads are the same. -/
lemma rfOf (h : SameBodies g g') (r : Event) : g'.rfOf r = g.rfOf r := by
  have hmap := h.map_eq LabelBody.rf r
  unfold ExecutionGraph.rfOf
  cases hl : g.getEventLabel r <;> cases hl' : g'.getEventLabel r <;> simp_all

/-- The addresses of the accesses are the same. -/
lemma addrOf (h : SameBodies g g') (e : Event) : g'.addrOf e = g.addrOf e := by
  have hmap := h.map_eq LabelBody.addr e
  unfold ExecutionGraph.addrOf
  cases hl : g.getEventLabel e <;> cases hl' : g'.getEventLabel e <;> simp_all

/-- The readers of the writes are the same. -/
lemma readersOf (h : SameBodies g g') (w : Event) : g'.readersOf w = g.readersOf w := by
  unfold ExecutionGraph.readersOf
  rw [h.map_eq LabelBody.readers]

/-- The coherence orders of the locations are the same. -/
lemma co (h : SameBodies g g') (a : SAddr) : g'.co a = g.co a := by
  unfold ExecutionGraph.co
  rw [h.coherence]

end SameBodies

/-- The reader lists only depend on the sources, the readers, the addresses and the classes. -/
lemma ReaderLists.of_eq (hg : ReaderLists g) (hpositioned : Positioned g')
    (hrf : ∀ r, g'.rfOf r = g.rfOf r) (hreaders : ∀ w, g'.readersOf w = g.readersOf w)
    (haddr : ∀ e, g'.addrOf e = g.addrOf e)
    (hwrite : ∀ e, g'.isa LabelBody.isWrite e = g.isa LabelBody.isWrite e)
    (hinit : ∀ e, g'.isa LabelBody.isInit e = g.isa LabelBody.isInit e)
    (hco : g'.coherence = g.coherence) (hrfs : g'.initRfs = g.initRfs) : ReaderLists g' := by
  refine ⟨hpositioned, fun r w hw => ?_, hg.mirrors.congr (fun r => ?_) fun s => ?_,
    fun e a ha => ?_, by rw [hrfs, hco, hg.keys]⟩
  · rw [hwrite, hinit]
    exact hg.sources r w (hrf r ▸ hw)
  · unfold sourceOf sourceAt
    simp only [hrf, haddr, hinit]
  · cases s with
    | inl w => exact hreaders w
    | inr a =>
      unfold readersAt initReaders
      rw [hrfs]
  · rw [hco]
    exact hg.tracked e a (haddr e ▸ ha)

namespace Linked

/-- Changing stamps, views and revisit marks, with the stamps in order again. -/
lemma sameBodies (hg : Linked g) (h : SameBodies g g') (hs : Stamped g') : Linked g' := by
  refine ⟨hg.readerLists.of_eq hs.positioned h.rfOf h.readersOf h.addrOf (h.isa _) (h.isa _)
    h.coherence h.initRfs, hs, ?_, hg.listed.congr (h.map_eq LabelBody.links),
    ⟨fun a => ?_, fun a w hw => ?_⟩⟩
  · exact hg.links.congr (h.map_eq LabelBody.links) fun p _ e he => (h.isa p e).trans he
  · rw [h.co]
    exact hg.stores.nodup a
  · rw [h.co] at hw
    rw [h.isa, h.addrOf]
    exact hg.stores.stores a w hw

end Linked

/-- Changing stamps, views and revisit marks. -/
lemma Settled.sameBodies (hg : Settled g) (h : SameBodies g g') : Settled g' := by
  refine ⟨fun t ht => ?_, fun w a hw ha => ?_⟩
  · rw [h.containsPos]
    exact hg.started t (h.numThreads ▸ ht)
  · rw [h.isa] at hw
    rw [h.addrOf] at ha
    rw [h.co]
    exact hg.placed w a hw ha

/-- Compressing stamps. -/
lemma Compresses.sameBodies {st : ℕ} (h : Compresses g st g') : SameBodies g g' := by
  obtain ⟨events, hgraph⟩ := h.graph
  refine ⟨fun e => ?_, h.numThreads, by rw [hgraph], by rw [hgraph]⟩
  rw [h.label, Option.map_map]
  rfl

/-- Changing the view or the revisit mark of a label. -/
lemma sameBodies_updateLabel {f : EventLabel → EventLabel}
    (hf : ∀ lab, (f lab).pos = lab.pos ∧ (f lab).body = lab.body) (e : Event) :
    SameBodies g (g.updateLabel e f) := by
  exact ⟨map_getEventLabel_updateLabel (fun lab => Prod.ext (hf lab).1 (hf lab).2) e,
    getNumThreads_updateLabel _ _, rfl, rfl⟩

/-- The stamps stay in order where positions, stamps and bodies stay. -/
lemma Stamped.congr (hg : Stamped g)
    (hlabel : ∀ e, (g'.getEventLabel e).map (fun lab => (lab.pos, lab.stamp, lab.body)) =
      (g.getEventLabel e).map fun lab => (lab.pos, lab.stamp, lab.body))
    (horder : g'.insertionOrder = g.insertionOrder) (htime : g'.timestamp = g.timestamp) :
    Stamped g' := by
  have hcases : ∀ e lab', g'.getEventLabel e = some lab' → ∃ lab, g.getEventLabel e = some lab ∧
      lab.pos = lab'.pos ∧ lab.stamp = lab'.stamp ∧ lab.body = lab'.body := by
    intro e lab' hlab'
    have hmap := hlabel e
    rw [hlab', Option.map_some, eq_comm, Option.map_eq_some_iff] at hmap
    obtain ⟨lab, hlab, heq⟩ := hmap
    simp only [Prod.mk.injEq] at heq
    exact ⟨lab, hlab, heq⟩
  have hstamp : ∀ e, (g'.getEventLabel e).map (·.getStamp) =
      (g.getEventLabel e).map (·.getStamp) := by
    intro e
    have hmap := congrArg
      (Option.map fun p : Event × Option ℕ × LabelBody => p.2.1.getD 0) (hlabel e)
    rwa [Option.map_map, Option.map_map] at hmap
  refine ⟨⟨fun e lab' hlab' => ?_, fun e lab' hlab' hindex => ?_, fun e => ?_⟩,
    fun e lab' hlab' => ?_, ?_, hg.order.congr hstamp horder htime, htime ▸ hg.range⟩
  · obtain ⟨lab, hlab, hpos, -, -⟩ := hcases e lab' hlab'
    rw [← hpos]
    exact hg.positioned.pos e lab hlab
  · obtain ⟨lab, hlab, -, -, hbody⟩ := hcases e lab' hlab'
    rw [← hbody]
    exact hg.positioned.starts e lab hlab hindex
  · rw [← hg.positioned.initOnly]
    have hmap := congrArg
      (Option.map fun p : Event × Option ℕ × LabelBody => p.2.2.isInit) (hlabel e)
    rw [Option.map_map, Option.map_map] at hmap
    unfold isa
    cases hl : g.getEventLabel e <;> cases hl' : g'.getEventLabel e <;> simp_all
  · obtain ⟨lab, hlab, -, hst, -⟩ := hcases e lab' hlab'
    rw [← hst]
    exact hg.stamps e lab hlab
  · unfold stampOf
    rw [hstamp]
    exact hg.initStamp

end ExecutionGraph

end GenMC
