import GenMC.Verification.GraphChanges

/-!
# Stages of a call

The consistency checks step along the sources of the reads, the coherence orders and the links
between threads.  `RightLinks` says that these links are right, and `AddsNoCycle` that a change
leaves the cycles of the order of sequential consistency as they are.  This module has what the
stages of the driver's calls do to both: adding a label, taking one back, cutting, repairing and
turning a read, and placing a write.
-/

namespace GenMC

namespace ExecutionGraph

variable {g g' g'' : ExecutionGraph} {S : Set Event}

/-- The links that the checkers follow. -/
structure RightLinks (g : ExecutionGraph) : Prop extends ThreadLinks g where
  /-- A read reads from a write of its location. -/
  locations : ∀ r w, g.rfOf r = some w → g.isa LabelBody.isWrite w → g.addrOf w = g.addrOf r

/-- Writes have addresses. -/
lemma exists_addrOf_of_isWrite {w : Event} (hw : g.isa LabelBody.isWrite w) :
    ∃ a, g.addrOf w = some a := by
  obtain ⟨lab, hlab, hwrite⟩ := isa_iff.mp hw
  rw [← Option.isSome_iff_exists, addrOf_of_getEventLabel hlab, LabelBody.addr_isSome, hwrite,
    Bool.or_true]

/-- The reads that are not changed read from the same locations. -/
lemma PartOutside.locations (h : PartOutside S g g')
    (hg : ∀ r w, g.rfOf r = some w → g.isa LabelBody.isWrite w → g.addrOf w = g.addrOf r)
    (hS : ∀ r ∈ S, ∀ w, g'.rfOf r = some w → g'.isa LabelBody.isWrite w →
      g'.addrOf w = g'.addrOf r) (r w : Event) (hrf : g'.rfOf r = some w)
    (hw : g'.isa LabelBody.isWrite w) : g'.addrOf w = g'.addrOf r := by
  by_cases hr : r ∈ S
  · exact hS r hr w hrf hw
  · obtain ⟨hold, hwS⟩ := h.rfOf r w hrf hr
    obtain ⟨a, ha⟩ := exists_addrOf_of_isWrite hw
    obtain ⟨b, hb⟩ := exists_addrOf (isa_isRead_of_rfOf hrf)
    have hloc := hg r w hold (h.isa _ w hw hwS)
    rw [h.addrOf w a ha hwS, h.addrOf r b hb hr] at hloc
    rw [ha, hb, hloc]

/-! ## Cycles -/

/-- Nothing comes after the label. -/
def NothingAfter (g : ExecutionGraph) (e : Event) : Prop := ∀ b, ¬g.SCBefore e b

/-- The sets that meet all cycles still do. -/
def AddsNoCycle (g g' : ExecutionGraph) : Prop :=
  ∀ X, FeedbackSet g.SCBefore X → FeedbackSet g'.SCBefore X

namespace AddsNoCycle

lemma refl (g : ExecutionGraph) : AddsNoCycle g g := fun _ h => h

lemma trans (h : AddsNoCycle g g') (h' : AddsNoCycle g' g'') : AddsNoCycle g g'' :=
  fun X hX => h' X (h X hX)

/-- Without cycles before there are none. -/
lemma acyclic (h : AddsNoCycle g g') (hg : Acyclic g.SCBefore) : Acyclic g'.SCBefore :=
  feedbackSet_empty.mp (h ∅ (feedbackSet_empty.mpr hg))

end AddsNoCycle

/-- Changing labels that lead nowhere. -/
lemma PartOutside.addsNoCycle (h : PartOutside S g g') (hS : ∀ s ∈ S, g'.NothingAfter s) :
    AddsNoCycle g g' := by
  intro X hX
  refine (h.feedbackSet hX).drop fun s hs hsX b hb => ?_
  exact absurd hb (hS s (hs.resolve_left hsX) b)

/-- What is before the last label of a thread. -/
lemma next_of_po {e b : Event} (h : g.Po e b) : g.containsPos e.next := by
  obtain ⟨hthread, hlt, hc⟩ := h
  have hsize := containsPos_iff_lt.mp hc
  refine containsPos_iff_lt.mpr ?_
  rw [← hthread] at hsize
  exact lt_of_le_of_lt (Nat.succ_le_of_lt hlt) hsize

/-- The last label of a thread leads nowhere but as an access, a create or the end of the
thread. -/
lemma scBefore_cases_of_last {e b : Event} (hlast : g.containsPos e.next = false)
    (h : g.SCBefore e b) : g.Rf e b ∨ g.Co e b ∨ g.Fr e b ∨ g.Creates e b ∨ g.Joins e b := by
  refine h.resolve_left fun hpo => ?_
  rw [next_of_po hpo] at hlast
  cases hlast

/-- A last label that is neither a write nor a create, and neither overwritten nor joined. -/
lemma Linked.nothingAfter_of_last (hg : Linked g) {e : Event}
    (hlast : g.containsPos e.next = false) (hinit : e ≠ .init)
    (hwrite : g.isa LabelBody.isWrite e = false) (hfr : ∀ b, ¬g.Fr e b)
    (hcreate : g.isa LabelBody.isThreadCreate e = false) (hjoin : ∀ b, ¬g.Joins e b) :
    g.NothingAfter e := by
  intro b hb
  obtain hrf | ⟨a, -, hco⟩ | hb | hb | hb := scBefore_cases_of_last hlast hb
  · obtain hsource | hsource := hg.readerLists.sources b e hrf
    · rw [hwrite] at hsource
      cases hsource
    · exact hinit ((hg.stamped.positioned.initOnly e).mp hsource)
  · rw [(hg.stores.stores a e (hco.subset List.mem_cons_self)).1] at hwrite
    cases hwrite
  · exact hfr b hb
  · rw [hb.1] at hcreate
    cases hcreate
  · exact hjoin b hb

/-- The other classes that a read is not in. -/
lemma isa_of_isRead {r : Event} (hr : g.isa LabelBody.isRead r) :
    g.isa LabelBody.isWrite r = false ∧ g.isa LabelBody.isInit r = false ∧
      g.isa LabelBody.isThreadCreate r = false ∧ g.isa LabelBody.isThreadFinish r = false := by
  obtain ⟨lab, hlab, hread⟩ := isa_iff.mp hr
  simp only [isa_of_getEventLabel hlab]
  cases hb : lab.body with
  | read => exact ⟨rfl, rfl, rfl, rfl⟩
  | _ =>
    rw [hb] at hread
    cases hread

/-- A last read whose source has not been overwritten. -/
lemma Linked.nothingAfter_of_isRead (hg : Linked g) {r : Event} (hr : g.isa LabelBody.isRead r)
    (hlast : g.containsPos r.next = false) (hfr : ∀ b, ¬g.Fr r b) : g.NothingAfter r := by
  obtain ⟨hwrite, hinit, hcreate, hfinish⟩ := isa_of_isRead hr
  refine hg.nothingAfter_of_last hlast ?_ hwrite hfr hcreate fun b hb => ?_
  · rintro rfl
    rw [(hg.stamped.positioned.initOnly .init).mpr rfl] at hinit
    cases hinit
  · rw [hb.1] at hfinish
    cases hfinish

/-- The initializer is in no coherence order. -/
lemma Linked.init_notMem_co (hg : Linked g) (a : SAddr) : .init ∉ g.co a := by
  intro hmem
  have hwrite := (hg.stores.stores a .init hmem).1
  obtain ⟨lab, hlab, hinit⟩ := isa_iff.mp ((hg.stamped.positioned.initOnly .init).mpr rfl)
  rw [isa_of_getEventLabel hlab] at hwrite
  cases hb : lab.body with
  | init =>
    rw [hb] at hwrite
    cases hwrite
  | _ =>
    rw [hb] at hinit
    cases hinit

/-- The coherence-last store of a location. -/
def coLast (g : ExecutionGraph) (a : SAddr) : Event := (g.co a).getLast?.getD .init

/-- What `coMax` finds. -/
lemma coLast_of_coMax {a : SAddr} {w : Event} (h : g.coMax a = some w) : g.coLast a = w := by
  obtain ⟨ws, hws, rfl⟩ := Option.map_eq_some_iff.mp h
  unfold coLast co
  rw [hws, Option.getD_some]

/-- It only depends on the order. -/
lemma coLast_congr {a : SAddr} (h : g'.co a = g.co a) : g'.coLast a = g.coLast a := by
  unfold coLast
  rw [h]

/-- Nothing comes after the coherence-last store of a location. -/
lemma Linked.not_co_of_coLast (hg : Linked g) {a : SAddr} {b : Event}
    (ha : g.addrOf (g.coLast a) = some a) : ¬g.Co (g.coLast a) b := by
  intro hco
  obtain ⟨a', ha', s, t, hsplit, hw⟩ := co_iff_split.mp hco
  obtain rfl := Option.some.inj (ha.symm.trans ha')
  unfold coLast at hw
  rw [hsplit, List.getLast?_append_of_ne_nil _ (List.cons_ne_nil b t),
    List.getLast?_eq_some_getLast (List.cons_ne_nil b t), Option.getD_some] at hw
  have hnodup := hg.stores.nodup a
  rw [hsplit] at hnodup
  exact (List.nodup_append.mp hnodup).2.2 _ hw _ (List.getLast_mem (List.cons_ne_nil b t)) rfl

/-- Nothing overwrites what reads from the coherence-last store of its location. -/
lemma Linked.not_fr_of_coLast (hg : Linked g) {r b : Event} {a : SAddr}
    (hrf : g.rfOf r = some (g.coLast a)) (ha : g.addrOf r = some a)
    (hloc : g.isa LabelBody.isWrite (g.coLast a) → g.addrOf (g.coLast a) = g.addrOf r) :
    ¬g.Fr r b := by
  rintro ⟨w, hw, hafter⟩
  obtain rfl := Option.some.inj (hrf.symm.trans hw)
  obtain hco | ⟨hinit, a', ha', hmem⟩ := hafter
  · have hco' := hco
    obtain ⟨a', -, hsub⟩ := hco
    have hw := (hg.stores.stores a' _ (hsub.subset List.mem_cons_self)).1
    exact hg.not_co_of_coLast ((hloc hw).trans ha) hco'
  · obtain rfl := Option.some.inj (ha.symm.trans ha')
    unfold coLast at hinit
    rw [List.getLast?_eq_some_getLast (List.ne_nil_of_mem hmem), Option.getD_some] at hinit
    exact hg.init_notMem_co a (hinit ▸ List.getLast_mem (List.ne_nil_of_mem hmem))

/-! ## Adding labels -/

/-- A new label that does not begin a thread is not the first one. -/
lemma New.index_ne_zero {lab : EventLabel} (h : New lab) (hstart : lab.body.isThreadStart = false) :
    lab.pos.index ≠ 0 := by
  intro hzero
  rw [h.fresh.starts hzero] at hstart
  cases hstart

/-- A label of a handler runs on a thread. -/
lemma runsOn_of_addsNext {lab : EventLabel} (h : DriverCall.AddsNext g lab)
    (hstart : lab.body.isThreadStart = false) : RunsOn g lab :=
  ⟨h.index, h.new.index_ne_zero hstart, h.scheduled.running⟩

/-- Block labels begin, create and join no threads. -/
lemma LabelBody.threads_of_isBlock {b : LabelBody} (h : b.isBlock) :
    b.isThreadStart = false ∧ b.createdThread = none ∧ b.joinedThread = none := by
  cases b with
  | plain k => cases k <;> simp_all [LabelBody.isBlock, LabelBody.isThreadStart,
      LabelBody.createdThread, LabelBody.joinedThread]
  | _ => simp_all [LabelBody.isBlock]

/-- Accesses begin, create and join no threads. -/
lemma LabelBody.threads_of_addr {b : LabelBody} (h : b.isRead ∨ b.isWrite) :
    b.isThreadStart = false ∧ b.createdThread = none ∧ b.joinedThread = none := by
  cases b <;> simp_all [LabelBody.isRead, LabelBody.isWrite, LabelBody.isThreadStart,
    LabelBody.createdThread, LabelBody.joinedThread]

/-- Nothing is behind a new label. -/
lemma GrowsBy.containsPos_next {lab : EventLabel} (h : GrowsBy g lab g') (hlab : RunsOn g lab) :
    g'.containsPos lab.pos.next = false := by
  rw [Bool.eq_false_iff]
  intro hnext
  obtain heq | hold := (h.containsPos _).mp hnext
  · exact absurd (congrArg Event.index heq) (Nat.succ_ne_self _)
  · have hlt : lab.pos.index + 1 < g.getThreadSize lab.pos.thread := containsPos_iff_lt.mp hold
    have hindex := hlab.index
    omega

section Growing

variable {lab : EventLabel} (h : GrowsBy g lab g') (hlab : RunsOn g lab) (hg : Linked g)
include h hlab hg

/-- **New labels** lead nowhere. -/
lemma GrowsBy.nothingAfter (hc : PrefixClosed g) (hcreate : lab.body.createdThread = none)
    (hjoin : ∀ t, lab.body.joinedThread = some t → t ≠ lab.pos.thread) :
    g'.NothingAfter lab.pos := by
  intro b hb
  obtain hrf | ⟨a, -, hco⟩ | ⟨w, hw, -⟩ | hb | hb :=
    scBefore_cases_of_last (h.containsPos_next hlab) hb
  · rw [Rf, h.rfOf] at hrf
    split at hrf
    · cases hrf
    · have hfree := h.fresh
      rw [hg.readerLists.containsPos_of_rfOf hrf] at hfree
      cases hfree
  · rw [h.co] at hco
    have hfree := h.fresh
    rw [containsPos_of_isa (hg.stores.stores a _ (hco.subset List.mem_cons_self)).1] at hfree
    cases hfree
  · rw [h.rfOf, if_pos rfl] at hw
    cases hw
  · have hclass := hb.1
    rw [h.isa, if_pos rfl] at hclass
    cases hb : lab.body with
    | plain k =>
      cases k with
      | threadCreate =>
        rw [hb] at hcreate
        cases hcreate
      | _ =>
        rw [hb] at hclass
        cases hclass
    | _ =>
      rw [hb] at hclass
      cases hclass
  · obtain ⟨-, t, ht, heq⟩ := hb
    have hthread : lab.pos.thread = t := congrArg Event.thread heq
    obtain ⟨-, ht⟩ | ht := h.joinedOf.mp ht
    · exact hjoin t ht hthread.symm
    · exact hlab.thread_ne hc ht hthread.symm

/-- The links after adding a label that neither creates nor joins. -/
lemma RightLinks.grows (hlinks : RightLinks g) (hc : PrefixClosed g)
    (hstart : lab.body.isThreadStart = false) (hcreate : lab.body.createdThread = none)
    (hjoin : lab.body.joinedThread = none)
    (hpj : ∀ f, g'.parentJoinOf f = if f = lab.pos then none else g.parentJoinOf f) :
    RightLinks g' := by
  refine ⟨h.threadLinks hlab hc hlinks.toThreadLinks hstart hcreate hjoin hpj, ?_⟩
  refine (h.partOutside hg.readerLists hlab.index).locations hlinks.locations
    fun r hr w hrf _ => ?_
  rw [h.rfOf, if_pos (Set.mem_singleton_iff.mp hr)] at hrf
  cases hrf

end Growing

/-! ## Parts of a graph -/

/-- The links of a part of a graph. -/
lemma KeepsThreads.rightLinks {K : Set Event} (h : KeepsThreads K g g') (hpart : PartOutside S g g')
    (hc : PrefixClosed g) (hlinks : RightLinks g)
    (hS : ∀ r ∈ S, ∀ w, g'.rfOf r = some w → g'.isa LabelBody.isWrite w →
      g'.addrOf w = g'.addrOf r) : RightLinks g' :=
  ⟨h.threadLinks hc hlinks.toThreadLinks, hpart.locations hlinks.locations hS⟩

/-- **Parts of a graph** have the right links and no new cycles. -/
lemma RightLinks.part {K : Set Event} (hlinks : RightLinks g) (hc : PrefixClosed g)
    (h : KeepsThreads K g g') (hpart : PartOutside ∅ g g') :
    RightLinks g' ∧ AddsNoCycle g g' := by
  refine ⟨h.rightLinks hpart hc hlinks fun r hr => ?_, hpart.addsNoCycle fun s hs => ?_⟩
  · exact absurd hr (Set.notMem_empty r)
  · exact absurd hs (Set.notMem_empty s)

/-! ## Turning reads -/

section Turning

variable {r w : Event} {flag : Bool → Bool} (h : Assigns g r w flag g') (hjoins : SameJoins g g')
  (hg : Linked g) (hlinks : RightLinks g) (hr : g.isa LabelBody.isRead r)
include h hjoins hg hlinks hr

/-- The links after turning a read. -/
lemma Assigns.rightLinks (hc : PrefixClosed g)
    (hloc : g.isa LabelBody.isWrite w → g.addrOf w = g.addrOf r) : RightLinks g' := by
  refine (KeepsThreads.of_relinks h.relinks hjoins).rightLinks
    (h.partOutside hlinks.toThreaded hg.readerLists hr hjoins) hc hlinks fun r' hr' w' hrf hw => ?_
  obtain rfl := Set.mem_singleton_iff.mp hr'
  rw [h.rfOf, if_pos rfl] at hrf
  obtain rfl := Option.some.inj hrf
  rw [h.relinks.isa] at hw
  rw [h.relinks.addrOf, h.relinks.addrOf]
  exact hloc hw

/-- **Turning a last read to the coherence-last store** of its location. -/
lemma Assigns.addsNoCycle (hg' : Linked g') (hlinks' : RightLinks g') {a : SAddr}
    (hlast : g.containsPos r.next = false) (ha : g.addrOf r = some a) (hmax : g.coLast a = w) :
    AddsNoCycle g g' := by
  refine (h.partOutside hlinks.toThreaded hg.readerLists hr hjoins).addsNoCycle fun s hs => ?_
  obtain rfl := Set.mem_singleton_iff.mp hs
  have hmax' : g'.coLast a = w := by
    rw [← hmax]
    exact coLast_congr (by unfold co; rw [h.coherence])
  have hrf : g'.rfOf s = some (g'.coLast a) := by rw [h.rfOf, if_pos rfl, hmax']
  refine hg'.nothingAfter_of_isRead (isa_isRead_of_rfOf hrf) ?_ fun b =>
    hg'.not_fr_of_coLast hrf ((h.relinks.addrOf s).trans ha) (hlinks'.locations s _ hrf)
  rw [h.relinks.containsPos]
  exact hlast

end Turning

/-! ## Repairing -/

section Repairing

variable (h : Repairs g g') (hjoins : SameJoins g g') (hg : Linked g) (hlinks : RightLinks g)
include h hjoins hg hlinks

/-- The links after repairing. -/
lemma Repairs.rightLinks (hc : PrefixClosed g) : RightLinks g' := by
  refine (KeepsThreads.of_relinks h.relinks hjoins).rightLinks
    (h.partOutside hlinks.toThreaded hg.readerLists hjoins) hc hlinks fun r hr w hrf hw => ?_
  obtain ⟨hsame, -⟩ | ⟨-, a, w', ha, hmax, hrf'⟩ := h.changed r
  · exact absurd hsame hr
  · -- a write that is the last one of the order is one of the location
    obtain rfl := Option.some.inj (hrf.symm.trans hrf')
    have hlast := coLast_of_coMax hmax
    unfold coLast at hlast
    rw [h.relinks.addrOf, h.relinks.addrOf, ha]
    rw [h.relinks.isa] at hw
    cases hne : (g.co a).getLast? with
    | none =>
      rw [hne, Option.getD_none] at hlast
      have hinit := (hg.stamped.positioned.initOnly .init).mpr rfl
      obtain ⟨lab, hlab, hwrite⟩ := isa_iff.mp (hlast ▸ hw)
      rw [isa_of_getEventLabel hlab] at hinit
      cases hb : lab.body <;> simp_all [LabelBody.isWrite, LabelBody.isInit]
    | some v =>
      rw [hne, Option.getD_some] at hlast
      exact (hg.stores.stores a w (hlast ▸ List.mem_of_getLast? hne)).2

end Repairing

/-- Nothing comes after a read that is repaired. -/
lemma Repairs.nothingAfter (h : Repairs g g') (hg' : Linked g') (hlinks' : RightLinks g')
    (hdangling : ∀ r, g.isa LabelBody.isRead r → g.rfOf r = none → g.containsPos r.next = false)
    {r : Event} (hr : g'.rfOf r ≠ g.rfOf r) : g'.NothingAfter r := by
  obtain ⟨hsame, -⟩ | ⟨hnone, a, w, ha, hmax, hrf⟩ := h.changed r
  · exact absurd hsame hr
  · have hread := isa_isRead_of_rfOf hrf
    obtain rfl : g'.coLast a = w :=
      (coLast_congr (by unfold co; rw [h.coherence])).trans (coLast_of_coMax hmax)
    refine hg'.nothingAfter_of_isRead hread ?_ fun b =>
      hg'.not_fr_of_coLast hrf ((h.relinks.addrOf r).trans ha) (hlinks'.locations r _ hrf)
    rw [h.relinks.isa] at hread
    rw [h.relinks.containsPos]
    exact hdangling r hread hnone

/-- **Repairing** adds no cycles. -/
lemma Repairs.addsNoCycle (h : Repairs g g') (hjoins : SameJoins g g') (hg : Linked g)
    (hlinks : RightLinks g) (hg' : Linked g') (hlinks' : RightLinks g')
    (hdangling : ∀ r, g.isa LabelBody.isRead r → g.rfOf r = none → g.containsPos r.next = false) :
    AddsNoCycle g g' :=
  (h.partOutside hlinks.toThreaded hg.readerLists hjoins).addsNoCycle fun _ hr =>
    h.nothingAfter hg' hlinks' hdangling hr

/-! ## Placing writes -/

/-- Where `insertAfter` inserts. -/
lemma insertAfter_splits {p w : Event} {ws ws' : List Event} (h : insertAfter p w ws = some ws') :
    ∃ s t, ws = s ++ p :: t ∧ ws' = s ++ p :: w :: t := by
  induction ws generalizing ws' with
  | nil => cases h
  | cons x ws ih =>
    unfold insertAfter at h
    split at h
    next heq => exact ⟨[], ws, by rw [heq]; rfl, by rw [← Option.some.inj h, heq]; rfl⟩
    next =>
      obtain ⟨ws₁, hws₁, rfl⟩ := Option.map_eq_some_iff.mp h
      obtain ⟨s, t, rfl, rfl⟩ := ih hws₁
      exact ⟨x :: s, t, rfl, rfl⟩

/-- Where `addStoreToCOAfter` places a write. -/
lemma addStoreToCOAfter_splits (hg : ReaderLists g) {w pred : Event}
    (h : g.addStoreToCOAfter w pred = some g') : ∃ a s t, g.isa LabelBody.isWrite w ∧
      g.addrOf w = some a ∧ g.co a = s ++ t ∧
      (∀ b, g'.co b = if b = a then s ++ w :: t else g.co b) ∧
      (s.getLast? = some pred ∨ g.isa LabelBody.isWrite pred = false ∧ s = []) := by
  obtain ⟨predLab, hpred, h⟩ := Option.bind_eq_some_iff.mp h
  obtain ⟨a, ws, hw, ha, hws, hco⟩ := co_modifyCO hg h
  split at hws
  · obtain ⟨s, t, hsplit, rfl⟩ := insertAfter_splits hws
    refine ⟨a, s ++ [pred], t, hw, ha, ?_, fun b => ?_, .inl ?_⟩
    · rw [hsplit, List.append_assoc]
      rfl
    · rw [hco, List.append_assoc]
      rfl
    · rw [List.getLast?_concat]
  next hwrite =>
    refine ⟨a, [], g.co a, hw, ha, rfl, fun b => ?_, .inr ⟨?_, rfl⟩⟩
    · rw [hco, ← Option.some.inj hws]
      rfl
    · rw [isa_of_getEventLabel hpred]
      exact Bool.eq_false_iff.mpr hwrite

/-- The other writes of a coherence order stay in order. -/
lemma sublist_of_insert {l s t : List Event} {w : Event} (h : l.Sublist (s ++ w :: t))
    (hw : w ∉ l) : l.Sublist (s ++ t) := by
  obtain ⟨l₁, l₂, rfl, h₁, h₂⟩ := List.sublist_append_iff.mp h
  refine h₁.append ?_
  obtain h₂ | ⟨l₃, rfl, -⟩ := List.sublist_cons_iff.mp h₂
  · exact h₂
  · exact absurd (List.mem_append_right l₁ List.mem_cons_self) hw

/-- Placing a write leaves the other writes in order. -/
lemma addStoreToCOAfter_sublist (hg : ReaderLists g) {w pred : Event}
    (h : g.addStoreToCOAfter w pred = some g') {b : SAddr} {l : List Event}
    (hl : l.Sublist (g'.co b)) (hw : w ∉ l) : l.Sublist (g.co b) := by
  obtain ⟨a, s, t, -, -, hsplit, hco, -⟩ := addStoreToCOAfter_splits hg h
  rw [hco] at hl
  split at hl
  next heq =>
    rw [heq, hsplit]
    exact sublist_of_insert hl hw
  next => exact hl

/-- Moving a write leaves the other writes in order. -/
lemma moveStoreCOAfter_sublist (hg : ReaderLists g) {w pred : Event}
    (h : g.moveStoreCOAfter w pred = some g') {b : SAddr} {l : List Event}
    (hl : l.Sublist (g'.co b)) (hw : w ∉ l) : l.Sublist (g.co b) := by
  obtain ⟨g₁, hremove, hadd⟩ := Option.bind_eq_some_iff.mp h
  obtain ⟨a, ws, -, -, hws, hco⟩ := co_modifyCO hg hremove
  have hl₁ := addStoreToCOAfter_sublist (hg.turnsCO (modifyCO_turnsCO hremove)) hadd hl hw
  rw [hco] at hl₁
  split at hl₁
  next heq =>
    rw [← Option.some.inj hws] at hl₁
    rw [heq]
    exact hl₁.trans List.erase_sublist
  next => exact hl₁

namespace TurnsCO

variable (h : TurnsCO g g') (hlinks : RightLinks g)
include h

/-- The sources stay. -/
lemma rfOf (r : Event) : g'.rfOf r = g.rfOf r := by
  rw [h.eq]
  rfl

include hlinks

/-- The links after changing coherence orders. -/
lemma rightLinks (hc : PrefixClosed g) : RightLinks g' := by
  refine ⟨(KeepsThreads.of_relinks h.relinks (.turnsCO h)).threadLinks hc hlinks.toThreadLinks,
    fun r w hrf hw => ?_⟩
  rw [h.rfOf] at hrf
  rw [h.relinks.isa] at hw
  rw [h.relinks.addrOf, h.relinks.addrOf]
  exact hlinks.locations r w hrf hw

/-- Where the writes outside of a set stay in order. -/
lemma partOutside (hS : ∀ r w, g.rfOf r = some w → r ∉ S → w ∉ S)
    (hco : ∀ a (l : List Event), l.Sublist (g'.co a) → (∀ w ∈ l, w ∉ S) → l.Sublist (g.co a)) :
    PartOutside S g g' := by
  refine (KeepsThreads.of_relinks h.relinks (.turnsCO h)).partOutside hlinks.toThreaded
    (fun e a ha _ => ?_) (fun r w hrf hr => ?_) (fun a w w' hww hw hw' => ?_) fun a w hmem hw => ?_
  · rwa [h.relinks.addrOf] at ha
  · rw [h.rfOf] at hrf
    exact ⟨hrf, hS r w hrf hr⟩
  · refine hco a _ hww fun x hx => ?_
    obtain rfl | hx := List.mem_cons.mp hx
    · exact hw
    · exact List.mem_singleton.mp hx ▸ hw'
  · refine List.singleton_sublist.mp (hco a [w] (List.singleton_sublist.mpr hmem) fun x hx => ?_)
    exact List.mem_singleton.mp hx ▸ hw

end TurnsCO

end ExecutionGraph

end GenMC
