import GenMC.ExecutionGraph.IsPrefixOf
import GenMC.Verification.NavigationRuns

/-!
# Cycles after a revisit

When the driver has revisited a label it checks the execution at that label only.  This is enough
for sequential consistency: all cycles go through the labels that come directly after the revisited
one (`Unchecked.overwrites`).  The same holds of the copies that are made before the execution has
been checked, and what is older than the revisited label has no cycles (`Unchecked.younger`).
-/

namespace GenMC

namespace ExecutionGraph

variable {g g' : ExecutionGraph} {X : Set Event}

/-! ## Checks -/

/-- If a checked label leads to the labels that all cycles go through there are no cycles. -/
lemma NavigationInvariant.acyclic_of_isConsistent (hg : NavigationInvariant g) {e : Event}
    (he : g.containsPos e) (hinit : e ≠ .init) (hX : FeedbackSet g.SCBefore X)
    (hreach : ∀ x ∈ X, Relation.ReflTransGen g.SCBefore e x)
    (hcheck : SCChecker.isConsistent g e = some true) : Acyclic g.SCBefore :=
  hX.acyclic fun x hx => SCChecker.not_cycle_of_isConsistent hg.navigable hg.links.toThreaded he
    hinit hcheck (hreach x hx)

/-- A consistent execution passes the check at every label. -/
lemma NavigationInvariant.isConsistent_of_acyclic (hg : NavigationInvariant g) {e : Event}
    (he : g.containsPos e) (hinit : e ≠ .init) (hacyclic : Acyclic g.SCBefore) :
    SCChecker.isConsistent g e = some true := by
  obtain ⟨b, hb, hiff⟩ := Visitor.visit_spec hg.navigable SCChecker.proper_visitConsAcyclic1
    (q := 0) (by simp [SCChecker.visitConsAcyclic1]) he
  refine hb.trans (congrArg some (hiff.mpr fun hcycle => ?_))
  obtain ⟨a, -, ha⟩ := (SCChecker.exists_cycle_iff hg.navigable hg.links.toThreaded hinit).mp hcycle
  exact hacyclic a ha

/-- The labels that have something after them are in the graph. -/
lemma Linked.feedbackSet_of_contained (hg : Linked g) {Y : Set Event}
    (hX : FeedbackSet g.SCBefore X) (hXY : ∀ x ∈ X, g.containsPos x → x ∈ Y) :
    FeedbackSet g.SCBefore Y :=
  hX.of_related fun x hx _ hb =>
    hXY x hx (containsPos_of_scBefore hg.readerLists hg.stores hb).1

/-! ## The write of a read-modify-write -/

section ReadModifyWrite

variable {lab : EventLabel} {pred : Event} {a : SAddr} {s t : List Event}
  (h : AddsStore g lab pred g') (hg : NavigationInvariant g) (hg' : NavigationInvariant g')
  (hindex : lab.pos.index ≠ 0) (hrf : g.rfOf lab.pos.prev = some pred)
  (haddr : g.addrOf lab.pos.prev = lab.body.addr)
include h hindex hrf

/-- The read before the write is another label. -/
lemma AddsStore.prev_ne : lab.pos.prev ≠ lab.pos ∧ g'.rfOf lab.pos.prev = some pred := by
  have hprev : lab.pos.prev ≠ lab.pos := fun heq => by
    have hless : lab.pos.index - 1 = lab.pos.index := congrArg Event.index heq
    omega
  refine ⟨hprev, ?_⟩
  rw [h.rfOf, if_neg hprev]
  exact hrf

include hg hg' haddr

/-- A write right behind the source of the read before it overwrites what the read has read, and so
does what is behind the write. -/
lemma AddsStore.fr_prev_iff (ha : lab.body.addr = some a) (hcoa : g'.co a = s ++ lab.pos :: t)
    (hpred : s.getLast? = some pred ∨ s = [] ∧ g.isa LabelBody.isWrite pred = false) (b : Event) :
    g'.Fr lab.pos.prev b ↔ b ∈ lab.pos :: t := by
  obtain ⟨hprev, hread⟩ := h.prev_ne hindex hrf
  have haddr' : g'.addrOf lab.pos.prev = some a := by
    rw [h.addrOf, if_neg hprev]
    exact haddr.trans ha
  have hstores := hg'.linked.stores
  obtain hlast | ⟨rfl, hno⟩ := hpred
  · obtain ⟨s', rfl⟩ := List.getLast?_eq_some_iff.mp hlast
    have hsplit : g'.co a = s' ++ pred :: lab.pos :: t := by
      rw [hcoa, List.append_assoc]
      rfl
    rw [← co_iff_mem hg'.linked.readerLists hstores hsplit]
    refine ⟨fun ⟨w, hw, hfr⟩ => ?_, fun hco => ⟨pred, hread, .inl hco⟩⟩
    obtain rfl := Option.some.inj (hread.symm.trans hw)
    refine hfr.resolve_right fun hinit => hg'.linked.init_notMem_co a ?_
    rw [← hinit.1, hsplit]
    exact List.mem_append_right s' List.mem_cons_self
  · -- the read reads from the initializer, so that the write is the first one
    have hinit : pred = .init := (hg.linked.stamped.positioned.initOnly pred).mp
      ((hg.linked.readerLists.sources _ pred hrf).resolve_left fun hyes => by
        rw [hno] at hyes
        cases hyes)
    refine ⟨fun ⟨w, hw, hfr⟩ => ?_, fun hb => ⟨pred, hread, .inr ⟨hinit, a, haddr', ?_⟩⟩⟩
    · obtain rfl := Option.some.inj (hread.symm.trans hw)
      obtain ⟨a', -, hco⟩ | ⟨-, a', ha', hb⟩ := hfr
      · rw [hinit] at hco
        exact absurd (hco.subset List.mem_cons_self) (hg'.linked.init_notMem_co a')
      · obtain rfl := Option.some.inj (haddr'.symm.trans ha')
        rwa [hcoa] at hb
    · rwa [hcoa]

/-- **A write right behind the source of the read before it** adds no cycle: every path through the
write can go through the read. -/
lemma AddsStore.acyclic_of_rmw (hwrite : lab.body.isWrite) (hpart : PartOutside {lab.pos} g g')
    (hacyclic : Acyclic g.SCBefore) : Acyclic g'.SCBefore := by
  have hwf' := hg'.wellFormed
  obtain ⟨hprev, hread⟩ := h.prev_ne hindex hrf
  obtain ⟨a, s, t, ha, -, hco, hpred⟩ := h.co
  have hcoa : g'.co a = s ++ lab.pos :: t := by rw [hco, if_pos rfl]
  have hfr := h.fr_prev_iff hg hg' hindex hrf haddr ha hcoa hpred
  set w := lab.pos with hw
  have hwa : w ∈ g'.co a := hcoa ▸ List.mem_append_right s List.mem_cons_self
  have hclass := (hwf'.stores.stores a w hwa).1
  have hafter : ∀ {b}, g'.SCBefore w b → b ∈ t := fun hb =>
    h.mem_of_scBefore hg.linked hg'.linked hwrite hcoa hb
  have hcoAfter : ∀ {b}, b ∈ t → g'.Co w b := fun hb =>
    co_of_split hwf'.readerLists hwf'.stores hcoa hb
  have hne : ∀ {b}, b ∈ t → b ≠ w := by
    rintro b hb rfl
    exact hwf'.stores.co_irrefl w (hcoAfter hb)
  have hprevIn : g'.containsPos w.prev := containsPos_of_isa (isa_isRead_of_rfOf hread)
  -- the read comes before all that comes after the write
  have hprevBefore : ∀ {b}, b ∈ t → g'.SCBefore w.prev b := fun hb =>
    .inr (.inr (.inr (.inl ((hfr _).mpr (List.mem_cons_of_mem w hb)))))
  have hset : FeedbackSet g'.SCBefore {w} :=
    Set.empty_union {w} ▸ hpart.feedbackSet (feedbackSet_empty.mpr hacyclic)
  refine hset.acyclic_of_bypass (fun hself => hne (hafter hself) rfl) fun p b hp hb => ?_
  have hbt := hafter hb
  have hpw : p ≠ w := by
    rintro rfl
    exact hne (hafter hp) rfl
  -- a step to the write can be a step to what comes after it, or to the read
  have hdirect : g'.SCBefore p b → Relation.TransGen (Outside g'.SCBefore {w}) p b :=
    fun hpb => .single ⟨hpb, hpw, hne hbt⟩
  have hthrough : g'.SCBefore p w.prev → Relation.TransGen (Outside g'.SCBefore {w}) p b :=
    fun hpr => .head ⟨hpr, hpw, hprev⟩ (.single ⟨hprevBefore hbt, hprev, hne hbt⟩)
  obtain ⟨hthread, hlt, -⟩ | hsource | hcoBefore | ⟨w', hw', hfrBefore⟩ | ⟨hcreate, -, hparent⟩ |
    ⟨-, child, hchild, -⟩ := hp
  · obtain heq | hless := Nat.eq_or_lt_of_le (Nat.le_sub_one_of_lt hlt)
    · obtain rfl : p = w.prev := Event.ext hthread heq
      exact hdirect (hprevBefore hbt)
    · exact hthrough (.inl ⟨hthread, hless, hprevIn⟩)
  · rw [Rf, h.rfOf, if_pos rfl] at hsource
    cases hsource
  · exact hdirect (.inr (.inr (.inl (hwf'.co_trans hcoBefore (hcoAfter hbt)))))
  · refine hdirect (.inr (.inr (.inr (.inl ⟨w', hw', ?_⟩))))
    obtain hcoBefore | ⟨hinit, a', ha', hmem⟩ := hfrBefore
    · exact .inl (hwf'.co_trans hcoBefore (hcoAfter hbt))
    · obtain rfl : a' = a := Option.some.inj
        ((hwf'.stores.stores a' w hmem).2.symm.trans (hwf'.stores.stores a w hwa).2)
      exact .inr ⟨hinit, a', ha', hcoa ▸ List.mem_append_right s (List.mem_cons_of_mem w hbt)⟩
  · exact hthrough (.inr (.inr (.inr (.inr (.inl ⟨hcreate, hprevIn, hparent⟩)))))
  · -- writes do not join
    obtain ⟨lab', hlab', hjoin⟩ := Option.bind_eq_some_iff.mp hchild
    rw [isa_of_getEventLabel hlab'] at hclass
    rw [(LabelBody.threads_of_addr (.inr hclass)).2.2] at hjoin
    cases hjoin

end ReadModifyWrite

/-! ## Executions that have not been checked -/

/-- What comes directly after an access because it overwrites it or what it has read; the write of
the same read-modify-write does not count. -/
def Overwrites (g : ExecutionGraph) (e x : Event) : Prop := g.Fr e x ∧ x ≠ e.next ∨ g.Co e x

/-- A label that a restriction to what is older than `e` takes away. -/
def NotOlder (g : ExecutionGraph) (e x : Event) : Prop :=
  g.containsPos x ∧ x.index ≠ 0 ∧ g.stampOf e ≤ g.stampOf x

/-- The labels that such a restriction changes: it also takes away the sources of reads. -/
def Cutoff (g : ExecutionGraph) (e : Event) : Set Event :=
  {x | g.NotOlder e x ∨ ∃ w ∈ g.rfOf x, g.NotOlder e w}

/-- The write of a revisited access: the access itself or that of its read-modify-write. -/
def IsWriteOf (g : ExecutionGraph) (e w : Event) : Prop :=
  g.isa LabelBody.isWrite w ∧ (w = e ∨ g.isa LabelBody.isRead e ∧ w = e.next)

/-- A read gets the coherence-last store of its location. -/
def ReadsLast (g : ExecutionGraph) (r : Event) : Prop :=
  ∀ a ∈ g.addrOf r, g.rfOf r = some (g.coLast a)

instance (g : ExecutionGraph) : DecidablePred g.ReadsLast := fun _ =>
  inferInstanceAs (Decidable (∀ _ ∈ _, _))

/-- An execution that has not been checked since an access has been revisited. -/
structure Unchecked (g : ExecutionGraph) (e : Event) : Prop where
  /-- The label is an access. -/
  access : g.isa LabelBody.isRead e ∨ g.isa LabelBody.isWrite e
  /-- All cycles go through what the access leads to. -/
  overwrites : FeedbackSet g.SCBefore {x | g.Overwrites e x}
  /-- A restriction to what is older cuts all cycles. -/
  cutoff : FeedbackSet g.SCBefore (g.Cutoff e)
  /-- The write of a read-modify-write is right behind what has been read. -/
  paired : g.isa LabelBody.isRead e → g.isa LabelBody.isWrite e.next →
    ∀ x, g.Fr e x ↔ x = e.next ∨ g.Co e.next x

/-- Accesses are not the first labels of their threads. -/
lemma Linked.index_ne_zero (hg : Linked g) {e : Event}
    (he : g.isa LabelBody.isRead e ∨ g.isa LabelBody.isWrite e) : e.index ≠ 0 := by
  intro hzero
  obtain ⟨lab, hlab⟩ := containsPos_iff.mp (he.elim containsPos_of_isa containsPos_of_isa)
  have hstart := hg.readerLists.positioned.starts e lab hlab hzero
  rw [isa_of_getEventLabel hlab, isa_of_getEventLabel hlab] at he
  rw [(LabelBody.threads_of_addr he).1] at hstart
  cases hstart

/-- Writes have no sources. -/
lemma rfOf_of_isWrite {w : Event} (hw : g.isa LabelBody.isWrite w) : g.rfOf w = none := by
  rw [← Option.not_isSome_iff_eq_none]
  intro hsome
  obtain ⟨s, hs⟩ := Option.isSome_iff_exists.mp hsome
  rw [(isa_of_isRead (isa_isRead_of_rfOf hs)).1] at hw
  cases hw

/-- The write of a revisited read is behind the read. -/
lemma IsWriteOf.containsPos_next {e w : Event} (h : g.IsWriteOf e w)
    (hread : g.isa LabelBody.isRead e) : g.containsPos e.next := by
  obtain ⟨hwrite, rfl | ⟨-, rfl⟩⟩ := h
  · rw [(isa_of_isRead hread).1] at hwrite
    cases hwrite
  · exact containsPos_of_isa hwrite

/-- Only writes overwrite and are overwritten. -/
lemma Linked.isa_of_co (hg : Linked g) {w w' : Event} (h : g.Co w w') :
    g.isa LabelBody.isWrite w ∧ g.isa LabelBody.isWrite w' := by
  obtain ⟨a, -, hsub⟩ := h
  exact ⟨(hg.stores.stores a w (hsub.subset List.mem_cons_self)).1,
    (hg.stores.stores a w' (hsub.subset (List.mem_cons_of_mem w List.mem_cons_self))).1⟩

/-- A last read only leads to what overwrites what it has read. -/
lemma Linked.fr_of_scBefore (hg : Linked g) {r b : Event} (hr : g.isa LabelBody.isRead r)
    (hlast : g.containsPos r.next = false) (h : g.SCBefore r b) : g.Fr r b := by
  obtain ⟨hwrite, hinit, hcreate, hfinish⟩ := isa_of_isRead hr
  obtain hrf | hco | hfr | hb | hb := scBefore_cases_of_last hlast h
  · obtain hsource | hsource := hg.readerLists.sources b r hrf
    · rw [hwrite] at hsource
      cases hsource
    · rw [hinit] at hsource
      cases hsource
  · rw [(hg.isa_of_co hco).1] at hwrite
    cases hwrite
  · exact hfr
  · rw [hb.1] at hcreate
    cases hcreate
  · rw [hb.1] at hfinish
    cases hfinish

/-- A last write only leads to its readers and to what overwrites it. -/
lemma Linked.rf_or_co_of_scBefore {w b : Event} (hw : g.isa LabelBody.isWrite w)
    (hlast : g.containsPos w.next = false) (h : g.SCBefore w b) : g.Rf w b ∨ g.Co w b := by
  obtain hrf | hco | ⟨s, hs, -⟩ | hb | hb := scBefore_cases_of_last hlast h
  · exact .inl hrf
  · exact .inr hco
  · rw [rfOf_of_isWrite hw] at hs
    cases hs
  all_goals
    obtain ⟨lab, hlab, hwrite⟩ := isa_iff.mp hw
    have hclass := hb.1
    rw [isa_of_getEventLabel hlab] at hclass
    cases hbody : lab.body <;> simp_all [LabelBody.isWrite, LabelBody.isThreadCreate,
      LabelBody.isThreadFinish]

namespace Unchecked

variable {e w : Event}

/-- What a revisited access leads to comes after its write. -/
lemma overwrites_iff (h : Unchecked g e) (hg : Linked g) (hw : g.IsWriteOf e w)
    (x : Event) : g.Overwrites e x ↔ g.Co w x := by
  obtain ⟨hwrite, rfl | ⟨hread, rfl⟩⟩ := hw
  · refine or_iff_right ?_
    rintro ⟨⟨s, hs, -⟩, -⟩
    rw [rfOf_of_isWrite hwrite] at hs
    cases hs
  · unfold Overwrites
    rw [h.paired hread hwrite]
    constructor
    · rintro (⟨heq | hco, hne⟩ | hco)
      · exact absurd heq hne
      · exact hco
      · have hclass := (hg.isa_of_co hco).1
        rw [(isa_of_isRead hread).1] at hclass
        cases hclass
    · intro hco
      refine .inl ⟨.inr hco, ?_⟩
      rintro rfl
      exact hg.stores.co_irrefl _ hco

/-- A revisited read at the end of its thread. -/
lemma of_read (hg : Linked g) (hr : g.isa LabelBody.isRead e) (hlast : g.containsPos e.next = false)
    (hover : FeedbackSet g.SCBefore ({x | g.Overwrites e x} ∪ {e}))
    (hcutoff : FeedbackSet g.SCBefore (g.Cutoff e)) : Unchecked g e := by
  refine ⟨.inl hr, hover.drop fun s hs hout b hb => ?_, hcutoff, fun _ hnext => ?_⟩
  · obtain rfl := Set.mem_singleton_iff.mp (hs.resolve_left hout)
    refine .inl ⟨hg.fr_of_scBefore hr hlast hb, ?_⟩
    rintro rfl
    rw [(containsPos_of_scBefore hg.readerLists hg.stores hb).2] at hlast
    cases hlast
  · rw [containsPos_of_isa hnext] at hlast
    cases hlast

/-- An access is cut off with itself. -/
lemma mem_cutoff (hg : Linked g) (he : g.isa LabelBody.isRead e ∨ g.isa LabelBody.isWrite e) :
    e ∈ g.Cutoff e :=
  .inl ⟨he.elim containsPos_of_isa containsPos_of_isa, hg.index_ne_zero he, le_rfl⟩

/-- A revisited read that all cycles go through. -/
lemma of_feedbackSet_read (hg : Linked g) (hr : g.isa LabelBody.isRead e)
    (hlast : g.containsPos e.next = false) (hset : FeedbackSet g.SCBefore {e}) : Unchecked g e :=
  of_read hg hr hlast (hset.mono Set.subset_union_right)
    (hset.mono (Set.singleton_subset_iff.mpr (mem_cutoff hg (.inl hr))))

/-- A revisited write where all cycles go through it or its readers. -/
lemma of_feedbackSet_write (hg : NavigationInvariant g) (hw : g.isa LabelBody.isWrite e)
    (hlast : g.containsPos e.next = false)
    (hreaders : ∀ r, g.rfOf r = some e → g.containsPos r.next = false)
    (hset : FeedbackSet g.SCBefore ({e} ∪ {r | g.rfOf r = some e})) : Unchecked g e := by
  have hreads : FeedbackSet g.SCBefore ({x | g.Overwrites e x} ∪ {r | g.rfOf r = some e}) := by
    refine (hset.mono (Set.union_subset_union_left {r | g.rfOf r = some e}
      (Set.subset_union_right (s := {x | g.Overwrites e x}))) : FeedbackSet g.SCBefore
        (({x | g.Overwrites e x} ∪ {e}) ∪ {r | g.rfOf r = some e})).drop fun s hs hout b hb => ?_
    obtain rfl : s = e := by
      obtain (hs | hs) | hs := hs
      · exact absurd (.inl hs) hout
      · exact Set.mem_singleton_iff.mp hs
      · exact absurd (.inr hs) hout
    obtain hrf | hco := Linked.rf_or_co_of_scBefore hw hlast hb
    · exact .inr hrf
    · exact .inl (.inr hco)
  refine ⟨.inr hw, hreads.drop fun r hr hout b hb => ?_, hset.mono ?_, fun hread => ?_⟩
  · have hr := hr.resolve_left hout
    -- a reader leads to what overwrites the write
    obtain ⟨w, hw', hfr⟩ :=
      hg.linked.fr_of_scBefore (isa_isRead_of_rfOf hr) (hreaders r hr) hb
    obtain rfl := Option.some.inj (hr.symm.trans hw')
    refine .inr (hfr.resolve_right fun hinit => ?_)
    rw [hinit.1] at hw
    exact absurd rfl (hg.linked.index_ne_zero (.inr hw))
  · refine Set.union_subset (Set.singleton_subset_iff.mpr (mem_cutoff hg.linked (.inr hw))) ?_
    intro r hr
    exact .inr ⟨e, hr, containsPos_of_isa hw, hg.linked.index_ne_zero (.inr hw), le_rfl⟩
  · rw [(isa_of_isRead hread).1] at hw
    cases hw

end Unchecked

/-! ## Parts of unchecked executions -/

namespace PartOf

variable (h : PartOf g g')
include h

/-- The coherence order of a part. -/
lemma co_iff (w x : Event) : g'.Co w x ↔ g.Co w x ∧ g'.containsPos w ∧ g'.containsPos x := by
  constructor
  · rintro ⟨a, ha, hsub⟩
    rw [h.co] at hsub
    have hw := List.of_mem_filter (hsub.subset List.mem_cons_self)
    have hx := List.of_mem_filter (hsub.subset (List.mem_cons_of_mem w List.mem_cons_self))
    exact ⟨⟨a, (h.addrOf w hw).symm.trans ha, hsub.trans List.filter_sublist⟩, hw, hx⟩
  · rintro ⟨⟨a, ha, hsub⟩, hw, hx⟩
    refine ⟨a, (h.addrOf w hw).trans ha, ?_⟩
    rw [h.co]
    have hfilter := hsub.filter g'.containsPos
    rwa [List.filter_cons_of_pos hw, List.filter_cons_of_pos hx] at hfilter

/-- What overwrites the source of a read of a part. -/
lemma fr_iff (hg' : Linked g') {e : Event} (he : g'.containsPos e) (hrf : g'.rfOf e = g.rfOf e)
    (x : Event) : g'.Fr e x ↔ g.Fr e x ∧ g'.containsPos x := by
  have hmem : ∀ a, x ∈ g'.co a ↔ x ∈ g.co a ∧ g'.containsPos x := fun a => by
    rw [h.co, List.mem_filter]
  constructor
  · rintro ⟨w, hw, hco | ⟨hinit, a, ha, hx⟩⟩
    · obtain ⟨hco, -, hx⟩ := (h.co_iff w x).mp hco
      exact ⟨⟨w, hrf ▸ hw, .inl hco⟩, hx⟩
    · obtain ⟨hco, hx⟩ := (hmem a).mp hx
      exact ⟨⟨w, hrf ▸ hw, .inr ⟨hinit, a, (h.addrOf e he).symm.trans ha, hco⟩⟩, hx⟩
  · rintro ⟨⟨w, hw, hfr⟩, hx⟩
    have hw' : g'.rfOf e = some w := hrf.trans hw
    refine ⟨w, hw', hfr.imp (fun hco => ?_) ?_⟩
    · exact (h.co_iff w x).mpr ⟨hco, hg'.readerLists.containsPos_of_rfOf hw', hx⟩
    · rintro ⟨hinit, a, ha, hco⟩
      exact ⟨hinit, a, (h.addrOf e he).trans ha, (hmem a).mpr ⟨hco, hx⟩⟩

/-- What is cut off from a part. -/
lemma mem_cutoff (hg' : Linked g') {e x b : Event} (he : g'.containsPos e)
    (hx : x ∈ g.Cutoff e) (hb : g'.SCBefore x b) : x ∈ g'.Cutoff e := by
  have hnotOlder : ∀ {y}, g'.containsPos y → g.NotOlder e y → g'.NotOlder e y := by
    rintro y hy ⟨-, hindex, hle⟩
    exact ⟨hy, hindex, not_lt.mp fun hlt => absurd ((h.order y e hy he).mp hlt) (not_lt.mpr hle)⟩
  refine hx.imp (hnotOlder (containsPos_of_scBefore hg'.readerLists hg'.stores hb).1) ?_
  rintro ⟨w, hw, hold⟩
  have hw' : g'.rfOf x = some w := (h.rfOf x b hb).trans hw
  exact ⟨w, hw', hnotOlder (hg'.readerLists.containsPos_of_rfOf hw') hold⟩

end PartOf

namespace Unchecked

variable {e w : Event} (h : Unchecked g e) (hpart : PartOf g g') (hcycles : AddsNoCycle g g')
  (hg' : Linked g')
include h hpart hcycles hg'

/-- A part of an unchecked execution with the revisited access and its write. -/
lemma part (hw : g.IsWriteOf e w) (hwIn : g'.containsPos w) :
    Unchecked g' e ∧ g'.IsWriteOf e w := by
  have hisa : ∀ (p : LabelBody → Bool) [ClassTest p] {x}, g'.containsPos x →
      g'.isa p x = g.isa p x := fun p _ x hx => by rw [hpart.isa, hx, Bool.true_and]
  have heIn : g'.containsPos e := by
    obtain ⟨-, rfl | ⟨-, rfl⟩⟩ := hw
    · exact hwIn
    · exact containsPos_iff_lt.mpr ((Nat.lt_succ_self e.index).trans (containsPos_iff_lt.mp hwIn))
  have hrf : g'.rfOf e = g.rfOf e := by
    obtain ⟨hwrite, rfl | ⟨-, rfl⟩⟩ := hw
    · rw [rfOf_of_isWrite hwrite, rfOf_of_isWrite ((hisa _ hwIn).trans hwrite)]
    · exact hpart.rfOf e e.next (.inl ⟨rfl, Nat.lt_succ_self _, hwIn⟩)
  have hfr := hpart.fr_iff hg' heIn hrf
  refine ⟨⟨?_, ?_, ?_, fun hread hnext x => ?_⟩, (hisa _ hwIn).trans hw.1, hw.2.imp_right
    (And.imp_left (hisa _ heIn).trans)⟩
  · rw [hisa _ heIn, hisa _ heIn]
    exact h.access
  · refine hg'.feedbackSet_of_contained (hcycles _ h.overwrites) fun x hx hxIn => ?_
    refine hx.imp (fun hx => ⟨(hfr x).mpr ⟨hx.1, hxIn⟩, hx.2⟩) fun hco => ?_
    exact (hpart.co_iff e x).mpr ⟨hco, heIn, hxIn⟩
  · exact (hcycles _ h.cutoff).of_related fun x hx b hb => hpart.mem_cutoff hg' heIn hx hb
  · have hnextIn := containsPos_of_isa hnext
    rw [hfr, hpart.co_iff, h.paired ((hisa _ heIn).symm.trans hread)
      ((hisa _ hnextIn).symm.trans hnext)]
    constructor
    · rintro ⟨heq | hco, hx⟩
      · exact .inl heq
      · exact .inr ⟨hco, hnextIn, hx⟩
    · rintro (rfl | ⟨hco, -, hx⟩)
      · exact ⟨.inl rfl, hnextIn⟩
      · exact ⟨.inr hco, hx⟩

/-- **Backtracking.**  What is older than the revisited access has no cycles. -/
lemma acyclic_of_cut
    (hcut : ∀ x, g'.containsPos x → x.index ≠ 0 → g.stampOf x < g.stampOf e) :
    Acyclic g'.SCBefore := by
  refine feedbackSet_empty.mp ((hcycles _ h.cutoff).of_related fun x hx b hb => ?_)
  have hout : ∀ {y}, g'.containsPos y → ¬g.NotOlder e y := fun hy hold =>
    absurd (hcut _ hy hold.2.1) (not_lt.mpr hold.2.2)
  obtain hold | ⟨w, hw, hold⟩ := hx
  · exact absurd hold (hout (containsPos_of_scBefore hg'.readerLists hg'.stores hb).1)
  · exact absurd hold (hout (hg'.readerLists.containsPos_of_rfOf ((hpart.rfOf x b hb).trans hw)))

/-- What is not younger than the revisited access has cycles through the access and its readers
only. -/
lemma feedbackSet_of_cut (hg : NavigationInvariant g)
    (hcut : ∀ x, g'.containsPos x → x.index ≠ 0 → g.stampOf x ≤ g.stampOf e) :
    FeedbackSet g'.SCBefore ({e} ∪ {r | g'.rfOf r = some e}) := by
  refine (hcycles _ h.cutoff).of_related fun x hx b hb => ?_
  have heIn : g.containsPos e := h.access.elim containsPos_of_isa containsPos_of_isa
  have heq : ∀ {y}, g'.containsPos y → g.NotOlder e y → y = e := fun hy hold =>
    hg.wellFormed.stampOf_injective hold.1 heIn ((hcut _ hy hold.2.1).antisymm hold.2.2)
  obtain hold | ⟨w, hw, hold⟩ := hx
  · exact .inl (heq (containsPos_of_scBefore hg'.readerLists hg'.stores hb).1 hold)
  · have hw' := (hpart.rfOf x b hb).trans hw
    exact .inr (heq (hg'.readerLists.containsPos_of_rfOf hw') hold ▸ hw')

end Unchecked

/-! ## Copies of unchecked executions -/

/-- **Copies.**  When an execution is copied for a backward revisit by the write of the revisited
access, all cycles of the copy go through what the new read leads to. -/
lemma Unchecked.copy {rep : ExecutionGraph} {e w r : Event} {flag : Bool → Bool}
    (h : Unchecked g e) (hg : NavigationInvariant g) (hw : g.IsWriteOf e w) (hpart : PartOf g rep)
    (hcycles : AddsNoCycle g rep) (hrep : Linked rep) (hout : PartOutside {r} rep g')
    (hassigns : Assigns rep r w flag g') (hg' : Linked g') (hlast : rep.containsPos r.next = false)
    (hlt : g.stampOf r < g.stampOf e) : Unchecked g' r := by
  have hrf : g'.rfOf r = some w := by rw [hassigns.rfOf, if_pos rfl]
  have hr := isa_isRead_of_rfOf hrf
  have hcontains : ∀ x, g'.containsPos x = rep.containsPos x := hassigns.relinks.containsPos
  have hlast' : g'.containsPos r.next = false := by rw [hcontains, hlast]
  have hrIn : rep.containsPos r := hcontains r ▸ containsPos_of_isa hr
  have hwIn : rep.containsPos w := hcontains w ▸ hg'.readerLists.containsPos_of_rfOf hrf
  have hco : ∀ a, g'.co a = rep.co a := fun a => by
    unfold ExecutionGraph.co
    rw [hassigns.coherence]
  refine .of_read hg' hr hlast' ?_ ?_
  · refine hg'.feedbackSet_of_contained (hout.feedbackSet (hcycles _ h.overwrites))
      fun x hx hxIn => hx.imp_left fun hx => ?_
    obtain ⟨a, ha, hsub⟩ := (hpart.co_iff w x).mpr
      ⟨(h.overwrites_iff hg.linked hw x).mp hx, hwIn, hcontains x ▸ hxIn⟩
    refine .inl ⟨⟨w, hrf, .inl ⟨a, (hassigns.relinks.addrOf w).trans ha, hco a ▸ hsub⟩⟩, ?_⟩
    rintro rfl
    rw [hxIn] at hlast'
    cases hlast'
  · -- what was not older than the revisited access is younger than the read
    have hnotOlder : ∀ {y}, rep.containsPos y → g.NotOlder e y → g'.NotOlder r y := by
      rintro y hy ⟨-, hindex, hle⟩
      refine ⟨(hcontains y).trans hy, hindex, ?_⟩
      rw [hassigns.relinks.stampOf, hassigns.relinks.stampOf]
      exact ((hpart.order r y hrIn hy).mpr (hlt.trans_le hle)).le
    have hkept : FeedbackSet rep.SCBefore
        {x | g'.NotOlder r x ∨ ∃ w' ∈ rep.rfOf x, g'.NotOlder r w'} := by
      refine (hcycles _ h.cutoff).of_related fun x hx b hb => ?_
      refine hx.imp (hnotOlder (containsPos_of_scBefore hrep.readerLists hrep.stores hb).1) ?_
      rintro ⟨w', hw', hold⟩
      have hrf' := (hpart.rfOf x b hb).trans hw'
      exact ⟨w', hrf', hnotOlder (hrep.readerLists.containsPos_of_rfOf hrf') hold⟩
    refine (hout.feedbackSet hkept).mono (Set.union_subset (fun x hx => ?_)
      (Set.singleton_subset_iff.mpr (mem_cutoff hg' (.inl hr))))
    by_cases hxr : x = r
    · rw [hxr]
      exact mem_cutoff hg' (.inl hr)
    · refine hx.imp_right ?_
      rintro ⟨w', hw', hold⟩
      refine ⟨w', ?_, hold⟩
      rw [hassigns.rfOf, if_neg hxr]
      exact hw'

/-! ## Completing a revisit -/

/-- What overwrites the source of a read still does. -/
lemma Fr.of_kept {e x : Event} (h : g.Fr e x) (hrf : g'.rfOf e = g.rfOf e)
    (haddr : g'.addrOf e = g.addrOf e) (hco : ∀ w, g.Co w x → g'.Co w x)
    (hmem : ∀ a, x ∈ g.co a → x ∈ g'.co a) : g'.Fr e x := by
  obtain ⟨w, hw, hfr⟩ := h
  refine ⟨w, hrf.trans hw, hfr.imp (hco w) ?_⟩
  rintro ⟨hinit, a, ha, hx⟩
  exact ⟨hinit, a, haddr.trans ha, hmem a hx⟩

namespace Unchecked

variable {e : Event} (h : Unchecked g e)
include h

/-- Changing labels that only lead to what the revisited access leads to. -/
lemma changed {S : Set Event} (hout : PartOutside S g g')
    (haccess : g'.isa LabelBody.isRead e ∨ g'.isa LabelBody.isWrite e)
    (hover : ∀ x, g.Overwrites e x → g'.Overwrites e x)
    (hcutoff : ∀ x ∈ g.Cutoff e, x ∈ g'.Cutoff e)
    (hS : ∀ s ∈ S, s ∈ g'.Cutoff e ∧ ∀ b, g'.SCBefore s b → g'.Overwrites e b)
    (hpaired : g'.isa LabelBody.isRead e → g'.isa LabelBody.isWrite e.next →
      ∀ x, g'.Fr e x ↔ x = e.next ∨ g'.Co e.next x) : Unchecked g' e := by
  refine ⟨haccess, ?_, (hout.feedbackSet h.cutoff).mono
    (Set.union_subset hcutoff fun s hs => (hS s hs).1), hpaired⟩
  have hset : FeedbackSet g'.SCBefore ({x | g'.Overwrites e x} ∪ S) :=
    (hout.feedbackSet h.overwrites).mono (Set.union_subset_union_left S hover)
  exact hset.drop fun s hs hno b hb => (hS s (hs.resolve_left hno)).2 b hb

/-- The check of the revisited access finds all cycles. -/
lemma acyclic_of_isConsistent (hg : NavigationInvariant g)
    (hcheck : SCChecker.isConsistent g e = some true) : Acyclic g.SCBefore := by
  refine hg.acyclic_of_isConsistent (h.access.elim containsPos_of_isa containsPos_of_isa) ?_
    h.overwrites (fun x hx => .single ?_) hcheck
  · rintro rfl
    exact hg.linked.index_ne_zero h.access rfl
  · obtain ⟨hfr, -⟩ | hco := hx
    · exact .inr (.inr (.inr (.inl hfr)))
    · exact .inr (.inr (.inl hco))

/-- There are no cycles if nothing overwrites what the revisited read has read. -/
lemma acyclic_of_readsLast (hg : NavigationInvariant g) (hread : g.isa LabelBody.isRead e)
    (hlast : g.ReadsLast e) : Acyclic g.SCBefore := by
  obtain ⟨a, ha⟩ := exists_addrOf hread
  have hrf := hlast a ha
  refine feedbackSet_empty.mp (h.overwrites.mono fun x hx => ?_)
  obtain ⟨hfr, -⟩ | hco := hx
  · exact hg.linked.not_fr_of_coLast hrf ha (hg.links.locations e _ hrf) hfr
  · have hwrite := (hg.linked.isa_of_co hco).1
    rw [(isa_of_isRead hread).1] at hwrite
    cases hwrite

end Unchecked

section Adding

variable {w e : Event} (hfresh : g.containsPos w = false)
  (hcontains : ∀ x, g'.containsPos x ↔ x = w ∨ g.containsPos x)
  (hstamp : ∀ x, g'.stampOf x = if x = w then g.timestamp else g.stampOf x) (he : g.containsPos e)
include hfresh hcontains hstamp he

/-- A label that is added is cut off, and so is what has been cut off before. -/
lemma mem_cutoff_of_added (hg : StampInvariant g) (hindex : w.index ≠ 0)
    (hrf : ∀ r, g'.rfOf r = if r = w then none else g.rfOf r) :
    w ∈ g'.Cutoff e ∧ ∀ x ∈ g.Cutoff e, x ∈ g'.Cutoff e := by
  have hold : ∀ {x}, g.containsPos x → x ≠ w := by
    rintro x hx rfl
    rw [hfresh] at hx
    cases hx
  have hnotOlder : ∀ {y}, g.NotOlder e y → g'.NotOlder e y := by
    rintro y ⟨hy, hyIndex, hle⟩
    refine ⟨(hcontains y).mpr (.inr hy), hyIndex, ?_⟩
    rw [hstamp, if_neg (hold he), hstamp, if_neg (hold hy)]
    exact hle
  refine ⟨.inl ⟨(hcontains w).mpr (.inl rfl), hindex, ?_⟩, fun x hx => hx.imp hnotOlder ?_⟩
  · rw [hstamp, if_neg (hold he), hstamp, if_pos rfl]
    exact (hg.bounded e he).le
  · rintro ⟨s, hs, hsOld⟩
    refine ⟨s, ?_, hnotOlder hsOld⟩
    rw [hrf, if_neg (hold (containsPos_of_isa (isa_isRead_of_rfOf hs)))]
    exact hs

end Adding

/-- Writes stay in order when a write is added. -/
lemma AddsStore.kept {lab : EventLabel} {pred : Event} (h : AddsStore g lab pred g')
    (hg : Linked g) : (∀ w x, g.Co w x → g'.Co w x) ∧ ∀ a x, x ∈ g.co a → x ∈ g'.co a := by
  obtain ⟨a, s, t, -, hsplit, hco, -⟩ := h.co
  have hsub : ∀ b (l : List Event), l.Sublist (g.co b) → l.Sublist (g'.co b) := by
    intro b l hl
    rw [hco]
    split
    next heq =>
      rw [heq, hsplit] at hl
      exact hl.trans ((List.sublist_cons_self _ t).append_left s)
    next => exact hl
  refine ⟨fun w x ⟨b, hb, hl⟩ => ⟨b, ?_, hsub b _ hl⟩, fun b x hx => (hsub b _
    (List.singleton_sublist.mpr hx)).subset List.mem_cons_self⟩
  rw [h.addrOf, if_neg]
  · exact hb
  · rintro rfl
    have hc := containsPos_of_isa (hg.stores.stores b _ (hl.subset List.mem_cons_self)).1
    rw [h.fresh] at hc
    cases hc

/-- **`completeRevisitedRMW`.**  The write of the read-modify-write is added right behind what the
revisited read has read. -/
lemma AddsStore.unchecked {lab : EventLabel} {pred e : Event} (h : AddsStore g lab pred g')
    (hu : Unchecked g e) (hg : NavigationInvariant g) (hg' : NavigationInvariant g')
    (hwrite : lab.body.isWrite) (hout : PartOutside {lab.pos} g g') (hnext : lab.pos = e.next)
    (hrf : g.rfOf e = some pred) (haddr : g.addrOf e = lab.body.addr) : Unchecked g' e := by
  have hprev : lab.pos.prev = e := by rw [hnext]; rfl
  have hindex : lab.pos.index ≠ 0 := by rw [hnext]; exact Nat.succ_ne_zero _
  obtain ⟨a, s, t, ha, -, hco, hpred⟩ := h.co
  have hcoa : g'.co a = s ++ lab.pos :: t := by rw [hco, if_pos rfl]
  have hfr := h.fr_prev_iff hg hg' hindex (hprev ▸ hrf) (hprev ▸ haddr) ha hcoa hpred
  rw [hprev] at hfr
  have hmem : ∀ x, g'.Co lab.pos x ↔ x ∈ t := fun x =>
    co_iff_mem hg'.linked.readerLists hg'.linked.stores hcoa
  have heIn : g.containsPos e := containsPos_of_isa (isa_isRead_of_rfOf hrf)
  have he : e ≠ lab.pos := by
    rintro rfl
    rw [h.fresh] at heIn
    cases heIn
  obtain ⟨hkept, hkeptMem⟩ := h.kept hg.linked
  obtain ⟨hcut, hcutoff⟩ := mem_cutoff_of_added h.fresh h.containsPos h.stampOf heIn
    hg.linked.stamped.order hindex h.rfOf
  refine hu.changed hout ?_ (fun x hx => ?_) hcutoff (fun x hx => ?_) fun _ _ x => ?_
  · rw [h.isa, if_neg he, h.isa, if_neg he]
    exact hu.access
  · refine hx.imp (And.imp_left fun hx => hx.of_kept ?_ ?_ (hkept · x) (hkeptMem · x)) (hkept e x)
    · rw [h.rfOf, if_neg he]
    · rw [h.addrOf, if_neg he]
  · obtain rfl := Set.mem_singleton_iff.mp hx
    refine ⟨hcut, fun b hb => .inl ⟨?_, ?_⟩⟩
    · exact (hfr b).mpr (List.mem_cons_of_mem _
        (h.mem_of_scBefore hg.linked hg'.linked hwrite hcoa hb))
    · rintro rfl
      have hself := (hmem _).mpr (h.mem_of_scBefore hg.linked hg'.linked hwrite hcoa hb)
      rw [← hnext] at hself
      exact hg'.linked.stores.co_irrefl _ hself
  · rw [hfr, List.mem_cons, ← hnext, hmem]

/-- A new label that nothing comes after and that is no write. -/
lemma GrowsBy.unchecked {lab : EventLabel} {e : Event} (h : GrowsBy g lab g')
    (hu : Unchecked g e) (hg : Linked g) (hindex : lab.pos.index = g.getThreadSize lab.pos.thread)
    (hpos : lab.pos.index ≠ 0) (hwrite : lab.body.isWrite = false)
    (hlead : g'.NothingAfter lab.pos) : Unchecked g' e := by
  have hold : ∀ {x}, g.containsPos x → x ≠ lab.pos := by
    rintro x hx rfl
    rw [h.fresh] at hx
    cases hx
  have heIn : g.containsPos e := hu.access.elim containsPos_of_isa containsPos_of_isa
  have he := hold heIn
  obtain ⟨hcut, hcutoff⟩ := mem_cutoff_of_added h.fresh h.containsPos h.stampOf heIn
    hg.stamped.order hpos h.rfOf
  have hco : ∀ w x, g'.Co w x ↔ g.Co w x := by
    intro w x
    have haddr : ∀ a, [w, x].Sublist (g.co a) → g'.addrOf w = g.addrOf w := fun a hsub => by
      rw [h.addrOf, if_neg (hold (containsPos_of_isa
        (hg.stores.stores a w (hsub.subset List.mem_cons_self)).1))]
    constructor
    · rintro ⟨a, ha, hsub⟩
      rw [h.co] at hsub
      exact ⟨a, (haddr a hsub).symm.trans ha, hsub⟩
    · rintro ⟨a, ha, hsub⟩
      exact ⟨a, (haddr a hsub).trans ha, h.co a ▸ hsub⟩
  have hfr : ∀ x, g'.Fr e x ↔ g.Fr e x := by
    have hrf : g'.rfOf e = g.rfOf e := by rw [h.rfOf, if_neg he]
    have haddr : g'.addrOf e = g.addrOf e := by rw [h.addrOf, if_neg he]
    exact fun x => ⟨fun hx => hx.of_kept hrf.symm haddr.symm (fun w hw => (hco w x).mp hw)
      fun a hx => h.co a ▸ hx, fun hx => hx.of_kept hrf haddr (fun w hw => (hco w x).mpr hw)
      fun a hx => (h.co a).symm ▸ hx⟩
  refine hu.changed (h.partOutside hg.readerLists hindex) ?_ (fun x hx => ?_) hcutoff
    (fun x hx => ?_) fun hread hnext x => ?_
  · rw [h.isa, if_neg he, h.isa, if_neg he]
    exact hu.access
  · exact hx.imp (And.imp_left (hfr x).mpr) (hco e x).mpr
  · obtain rfl := Set.mem_singleton_iff.mp hx
    exact ⟨hcut, fun b hb => absurd hb (hlead b)⟩
  · rw [h.isa, if_neg he] at hread
    rw [h.isa] at hnext
    split at hnext
    · rw [hwrite] at hnext
      cases hnext
    · rw [hfr, hco]
      exact hu.paired hread hnext x

/-- **In-place revisits** by the write of the revisited access. -/
lemma Assigns.unchecked {e r w : Event} {flag : Bool → Bool} (h : Assigns g r w flag g')
    (hu : Unchecked g e) (hg : Linked g) (hg' : Linked g')
    (hout : PartOutside {r} g g') (hw : g.IsWriteOf e w) (hne : r ≠ e)
    (hlast : g.containsPos r.next = false) : Unchecked g' e := by
  have hrf : g'.rfOf r = some w := by rw [h.rfOf, if_pos rfl]
  have hrfOf : ∀ {x}, x ≠ r → g'.rfOf x = g.rfOf x := fun hx => by rw [h.rfOf, if_neg hx]
  have hco : ∀ a, g'.co a = g.co a := fun a => by
    unfold ExecutionGraph.co
    rw [h.coherence]
  have hcoIff : ∀ x y, g'.Co x y ↔ g.Co x y := fun x y => by
    unfold ExecutionGraph.Co
    rw [h.relinks.addrOf]
    simp only [hco]
  have hfr : ∀ x, g'.Fr e x ↔ g.Fr e x := fun x =>
    ⟨fun hx => hx.of_kept (hrfOf hne.symm).symm (h.relinks.addrOf e).symm
      (fun y hy => (hcoIff y x).mp hy) fun a hy => hco a ▸ hy,
    fun hx => hx.of_kept (hrfOf hne.symm) (h.relinks.addrOf e)
      (fun y hy => (hcoIff y x).mpr hy) fun a hy => (hco a).symm ▸ hy⟩
  have hnotOlder : ∀ y, g.NotOlder e y → g'.NotOlder e y := by
    rintro y ⟨hy, hindex, hle⟩
    refine ⟨(h.relinks.containsPos y).trans hy, hindex, ?_⟩
    rw [h.relinks.stampOf, h.relinks.stampOf]
    exact hle
  have heIn : g.containsPos e := hu.access.elim containsPos_of_isa containsPos_of_isa
  have hwOld : g'.NotOlder e w := by
    refine hnotOlder w ⟨containsPos_of_isa hw.1, hg.index_ne_zero (.inr hw.1), ?_⟩
    obtain ⟨hwrite, rfl | ⟨-, rfl⟩⟩ := hw
    · exact le_rfl
    · exact (hg.stamped.order.threads e e.next heIn (containsPos_of_isa hwrite) rfl
        (Nat.lt_succ_self _)).le
  have hover : ∀ x, g.Overwrites e x → g'.Overwrites e x := fun x hx =>
    hx.imp (And.imp_left (hfr x).mpr) (hcoIff e x).mpr
  refine hu.changed hout ?_ hover (fun x hx => ?_) (fun x hx => ?_) fun hread hwrite x => ?_
  · rw [h.relinks.isa, h.relinks.isa]
    exact hu.access
  · by_cases hxr : x = r
    · exact .inr ⟨w, hxr ▸ hrf, hwOld⟩
    · refine hx.imp (hnotOlder x) ?_
      rintro ⟨s, hs, hsOld⟩
      exact ⟨s, (hrfOf hxr).trans hs, hnotOlder s hsOld⟩
  · obtain rfl := Set.mem_singleton_iff.mp hx
    refine ⟨.inr ⟨w, hrf, hwOld⟩, fun b hb => ?_⟩
    have hlast' : g'.containsPos x.next = false := (h.relinks.containsPos _).trans hlast
    obtain ⟨w', hw', hafter⟩ := hg'.fr_of_scBefore (isa_isRead_of_rfOf hrf) hlast' hb
    obtain rfl := Option.some.inj (hrf.symm.trans hw')
    refine hover b ((hu.overwrites_iff hg hw b).mpr ((hcoIff w b).mp (hafter.resolve_right ?_)))
    rintro ⟨rfl, -⟩
    exact hg.index_ne_zero (.inr hw.1) rfl
  · rw [h.relinks.isa] at hread hwrite
    rw [hfr, hcoIff]
    exact hu.paired hread hwrite x

/-- **In-place revisits at barriers** by the write of the revisited access. -/
lemma RevisitsBarrier.unchecked {rLab : EventLabel} {e w : Event} {g₁ g₂ g₃ : ExecutionGraph}
    (h : RevisitsBarrier g rLab w g₁ g₂ g₃ g') (hu : Unchecked g e) (hg' : Linked g')
    (hread : rLab.body.isRead) (hold : g.isa LabelBody.isRead rLab.pos) (hw : g.IsWriteOf e w) :
    Unchecked g' e ∧ g'.IsWriteOf e w := by
  obtain ⟨⟨hg₁, hcycles₁, hpart₁⟩, ⟨hg₂, hcycles₂, hpart₂⟩, ⟨hg₃, hgrows⟩, hindex, ⟨hlead, hlast⟩,
    hout, flag, hassigns⟩ := h
  have hrf : g'.rfOf rLab.pos = some w := by rw [hassigns.rfOf, if_pos rfl]
  -- the write is there at all stages
  have hne : w ≠ rLab.pos := by
    rintro rfl
    have hwrite := hw.1
    rw [(isa_of_isRead hold).1] at hwrite
    cases hwrite
  have hwIn : g₂.containsPos w := by
    have hw' := hg'.readerLists.containsPos_of_rfOf hrf
    rw [hassigns.relinks.containsPos] at hw'
    exact ((hgrows.containsPos w).mp hw').resolve_left hne
  obtain ⟨hu₁, hw₁⟩ := hu.part hpart₁ hcycles₁ hg₁.linked hw (hpart₂.containsPos w hwIn)
  obtain ⟨hu₂, hw₂⟩ := hu₁.part hpart₂ hcycles₂ hg₂.linked hw₁ hwIn
  have he : e ≠ rLab.pos := by
    rintro rfl
    have heIn := hu₂.access.elim containsPos_of_isa containsPos_of_isa
    rw [hgrows.fresh] at heIn
    cases heIn
  have hpos : rLab.pos.index ≠ 0 := hg'.index_ne_zero (.inl (isa_isRead_of_rfOf hrf))
  have hu₃ := hgrows.unchecked hu₂ hg₂.linked hindex hpos (LabelBody.classes_of_isRead hread).2.2
    hlead
  have hw₃ : g₃.IsWriteOf e w := by
    refine ⟨?_, hw₂.2.imp_right (And.imp_left fun hr => ?_)⟩
    · rw [hgrows.isa, if_neg hne]
      exact hw₂.1
    · rw [hgrows.isa, if_neg he]
      exact hr
  refine ⟨hassigns.unchecked hu₃ hg₃ hg' hout hw₃ he.symm hlast, ?_⟩
  exact ⟨(hassigns.relinks.isa _ _).trans hw₃.1,
    hw₃.2.imp_right (And.imp_left (hassigns.relinks.isa _ _).trans)⟩

/-! ## Revisits -/

/-- All cycles go through a label or its readers. -/
def CyclesThrough (g : ExecutionGraph) (x : Event) : Prop :=
  FeedbackSet g.SCBefore ({x} ∪ {r | g.rfOf r = some x})

/-- The labels of a restriction. -/
lemma RepairedCut.stampOf_le {st : ℕ} (h : RepairedCut g st g') (hg : StampInvariant g) {x : Event}
    (hx : g'.containsPos x) (hindex : x.index ≠ 0) : g.stampOf x ≤ st := by
  rw [h.containsPos, Bool.and_eq_true] at hx
  exact (stampOf_le_of_contains hg hx.1 hindex).2

namespace NavigationInvariant

variable (hg : NavigationInvariant g)
include hg

/-- A restriction of an unchecked execution for another revisit. -/
lemma cyclesThrough_of_restrictTo {e x : Event} (hu : Unchecked g e)
    (hx : g.stampOf x < g.stampOf e ∨ x = e) (h : g.restrictTo x = some g') :
    g'.CyclesThrough x := by
  obtain ⟨hg', hcycles⟩ := hg.restrictTo h
  obtain ⟨-, -, hcut⟩ := hg.toDriverInvariant.restrictTo h
  have hle : ∀ y, g'.containsPos y → y.index ≠ 0 → g.stampOf y ≤ g.stampOf x := fun y hy hindex =>
    hcut.stampOf_le hg.linked.stamped.order hy hindex
  have hpart := hcut.partOf hg.linked hg'
  obtain hlt | rfl := hx
  · exact (feedbackSet_empty.mpr (hu.acyclic_of_cut hpart hcycles hg'.linked fun y hy hindex =>
      (hle y hy hindex).trans_lt hlt)).mono (Set.empty_subset _)
  · exact hu.feedbackSet_of_cut hpart hcycles hg'.linked hg hle

/-- After `revisitRead` all cycles go through the read. -/
lemma feedbackSet_revisitReadForward {r rev : Event} {isMaximal : Bool}
    (hloc : g.isa LabelBody.isWrite rev → g.addrOf rev = g.addrOf r)
    (h : g.revisitReadForward r rev isMaximal = some g')
    (hbase : ∀ g₁, g.restrictTo r = some g₁ → g₁.CyclesThrough r) :
    Unchecked g' r ∧ FeedbackSet g'.SCBefore {r} := by
  obtain ⟨hg', g₁, flag, hrestrict, hg₁, -, hout, hassigns⟩ := hg.revisitReadForward hloc h
  obtain ⟨-, hlast, -⟩ := hg.toDriverInvariant.restrictTo hrestrict
  have hr : g'.isa LabelBody.isRead r := isa_isRead_of_rfOf (w := rev) (by
    rw [hassigns.rfOf, if_pos rfl])
  have hset : FeedbackSet g'.SCBefore {r} := by
    refine (hout.feedbackSet (hbase g₁ hrestrict)).mono (Set.union_subset (Set.union_subset
      Set.Subset.rfl fun r' hr' => ?_) Set.Subset.rfl)
    -- reads have no readers
    rw [hassigns.relinks.isa] at hr
    obtain ⟨hwrite, hinit, -, -⟩ := isa_of_isRead hr
    obtain hsource | hsource := hg₁.linked.readerLists.sources r' r hr'
    · rw [hwrite] at hsource
      cases hsource
    · rw [hinit] at hsource
      cases hsource
  exact ⟨.of_feedbackSet_read hg'.linked hr ((hassigns.relinks.containsPos _).trans hlast) hset,
    hset⟩

/-- After `revisitWrite` all cycles go through what the write leads to. -/
lemma unchecked_revisitWrite {w pred : Event} (h : g.revisitWrite w pred = some g')
    (hbase : ∀ g₁, g.restrictTo w = some g₁ → g₁.CyclesThrough w) : Unchecked g' w := by
  obtain ⟨hg', g₁, hrestrict, hg₁, -, hout, hrelinks, hrf, hw⟩ := hg.revisitWrite h
  obtain ⟨-, hlast, hcut⟩ := hg.toDriverInvariant.restrictTo hrestrict
  refine .of_feedbackSet_write hg' hw ((hrelinks.containsPos _).trans hlast) (fun r hr => ?_) ?_
  · -- what is behind a reader would be younger than the write
    rw [hrf] at hr
    rw [hrelinks.containsPos, Bool.eq_false_iff]
    intro hnext
    have hwIn := hg₁.linked.readerLists.containsPos_of_rfOf hr
    have hlt := (hg₁.closed.sources r w hr hnext).1
    rw [(hcut.partOf hg.linked hg₁).order w r.next hwIn hnext] at hlt
    exact absurd (hcut.stampOf_le hg.linked.stamped.order hnext (Nat.succ_ne_zero _))
      (not_le.mpr hlt)
  · simp only [hrf]
    exact (hout.feedbackSet (hbase g₁ hrestrict)).mono (Set.union_self _).subset

/-- After a backward revisit all cycles of the copy go through what the read leads to. -/
lemma unchecked_backwardRevisit {r w : Event} {u : View} (hmay : MayRevisit g r w u)
    (hloc : g.addrOf w = g.addrOf r) (h : g.backwardRevisit r w = some g') :
    (Acyclic g.SCBefore → Unchecked g' r ∧ FeedbackSet g'.SCBefore {r}) ∧
      ∀ e, Unchecked g e → g.IsWriteOf e w → g.stampOf r < g.stampOf e → Unchecked g' r := by
  obtain ⟨hg', copy, rep, flag, hcuts, hrepairs, hrep, hcycles, hout, hassigns⟩ :=
    hg.backwardRevisit hmay hloc h
  have hlast : rep.containsPos r.next = false := by
    rw [hrepairs.relinks.containsPos, hcuts.containsPos,
      hmay.not_contains_next hg.linked.stamped.order, Bool.false_and]
  have hr : g'.isa LabelBody.isRead r := isa_isRead_of_rfOf (w := w) (by
    rw [hassigns.rfOf, if_pos rfl])
  refine ⟨fun hacyclic => ?_, fun e hu hw hlt => ?_⟩
  · have hset : FeedbackSet g'.SCBefore {r} := Set.empty_union {r} ▸
      hout.feedbackSet (hcycles ∅ (feedbackSet_empty.mpr hacyclic))
    exact ⟨.of_feedbackSet_read hg'.linked hr ((hassigns.relinks.containsPos _).trans hlast) hset,
      hset⟩
  · exact hu.copy hg hw (hcuts.partOf hrepairs hg.linked hrep) hcycles hrep.linked hout hassigns
      hg'.linked hlast hlt

end NavigationInvariant

end ExecutionGraph

end GenMC
