import GenMC.Verification.NavigationSteps

/-!
# The links after a call

Every call of the driver keeps the links that the consistency checks follow (`NavigationInvariant`),
so that these checks always find their way.  Most calls add no cycle to the order of sequential
consistency; those that turn a read or place a write change that label only.
-/

namespace GenMC

namespace ExecutionGraph

variable {g g' : ExecutionGraph}

/-- What holds of every graph of the driver, with the links that the checkers follow. -/
structure NavigationInvariant (g : ExecutionGraph) : Prop extends DriverInvariant g where
  /-- The links are right. -/
  links : RightLinks g

/-- The checkers can navigate the graphs of the driver. -/
lemma NavigationInvariant.navigable (hg : NavigationInvariant g) : Navigable g :=
  ⟨hg.wellFormed, hg.sourced, hg.links.locations, hg.links.threads⟩

/-! ## Changes of one kind -/

namespace RightLinks

/-- Changing links other than sources, and no pointers to joins. -/
lemma keepsReads (hlinks : RightLinks g) (hc : PrefixClosed g) (h : KeepsReads g g')
    (hjoins : SameJoins g g') : RightLinks g' ∧ AddsNoCycle g g' := by
  refine hlinks.part hc (.of_relinks h.relinks hjoins) (partOutside_of_relinks hlinks.toThreaded
    h.relinks hjoins (fun r w hrf _ => ⟨?_, Set.notMem_empty w⟩) h.coherence)
  rw [h.rfOf] at hrf
  exact hrf

/-- A block label behind the last label of a thread. -/
lemma addBlock (hlinks : RightLinks g) (hg : Linked g) (hc : PrefixClosed g) {bLab : EventLabel}
    (hnew : New bLab) (hblock : bLab.body.isBlock) (hruns : RunsOn g bLab)
    (h : g.addLabelToGraph bLab = some g') (hgrows : GrowsBy g bLab g') :
    RightLinks g' ∧ AddsNoCycle g g' ∧ g'.NothingAfter bLab.pos := by
  obtain ⟨hstart, hcreate, hjoin⟩ := LabelBody.threads_of_isBlock hblock
  have hlead : g'.NothingAfter bLab.pos := hgrows.nothingAfter hruns hg hc hcreate fun t ht => by
    rw [hjoin] at ht
    cases ht
  exact ⟨hlinks.grows hgrows hruns hg hc hstart hcreate hjoin
    (parentJoinOf_addLabelToGraph hnew h),
    (hgrows.partOutside hg.readerLists hruns.index).addsNoCycle fun s hs =>
      Set.mem_singleton_iff.mp hs ▸ hlead, hlead⟩

/-- Taking back the last label of a thread, a block label or a read. -/
lemma removeLast (hlinks : RightLinks g) (hg : Repairable g) {t : ℕ}
    (hclass : g.isa LabelBody.isBlock (g.lastPos t) ∨ DriverCall.TakenBack g (g.lastPos t))
    (h : TakesBack g t g') : RightLinks g' ∧ AddsNoCycle g g' := by
  have hkeeps : KeepsThreads {e | e ≠ g.lastPos t} g g' := by
    obtain ⟨hstart, hjoin⟩ : g.isa LabelBody.isThreadStart (g.lastPos t) = false ∧
        g.isa LabelBody.isThreadJoin (g.lastPos t) = false := by
      obtain ⟨lab, hlab⟩ := containsPos_iff.mp h.containsPos
      simp only [isa_of_getEventLabel hlab, DriverCall.TakenBack] at hclass ⊢
      cases hb : lab.body with
      | plain k => cases k <;> simp_all [LabelBody.isBlock, LabelBody.isRead,
          LabelBody.isThreadStart, LabelBody.isThreadJoin]
      | _ => simp_all [LabelBody.isBlock, LabelBody.isRead, LabelBody.isThreadStart,
          LabelBody.isThreadJoin]
    exact .of_takesBack h hlinks.toThreadLinks hstart hjoin
      (isThreadFinish_eq_false_of_class hclass) hg.linked.stamped.positioned hg.closed
  exact hlinks.part hg.closed hkeeps (h.partOutside hkeeps hlinks.toThreaded)

end RightLinks

/-! ## Adding labels -/

namespace NavigationInvariant

/-- Adding a label that is neither an access nor a create nor a join. -/
lemma addLabel (hg : NavigationInvariant g) {lab : EventLabel} (hroom : DriverCall.HasRoom g)
    (hadds : DriverCall.AddsNext g lab) (haddr : lab.body.addr = none)
    (hblock : lab.body.isBlock = false) (hjoin : lab.body.isThreadJoin = false)
    (hstart : lab.body.isThreadStart = false) (hcreate : lab.body.createdThread = none)
    (h : g.addLabelWithViews lab = some g') :
    NavigationInvariant g' ∧ AddsNoCycle g g' := by
  obtain ⟨hg', hgrows⟩ := hg.toDriverInvariant.addLabel hroom hadds haddr hblock h
    (not_isJoinOf hjoin)
  have hruns := runsOn_of_addsNext hadds hstart
  have hjoined : lab.body.joinedThread = none := by
    cases hb : lab.body with
    | plain k =>
      cases k with
      | threadJoin =>
        rw [hb] at hjoin
        cases hjoin
      | _ => rfl
    | _ => rfl
  refine ⟨⟨hg', hg.links.grows hgrows hruns hg.linked hg.closed hstart hcreate hjoined
    (parentJoinOf_addLabelWithViews hadds.new h)⟩,
    (hgrows.partOutside hg.linked.readerLists hruns.index).addsNoCycle fun s hs => ?_⟩
  obtain rfl := Set.mem_singleton_iff.mp hs
  exact hgrows.nothingAfter hruns hg.linked hg.closed hcreate fun t ht => by
    rw [hjoined] at ht
    cases ht

/-- `handleFree`. -/
lemma handleFree (hg : NavigationInvariant g) {pos : Event} {kind : FreeKind} {freeAddr : SAddr}
    (hroom : DriverCall.HasRoom g) (hindex : pos.index = g.getThreadSize pos.thread)
    (hpos : pos.index ≠ 0) (hthread : DriverCall.Scheduled g pos.thread)
    (h : g.handleFree pos kind freeAddr = some g') :
    NavigationInvariant g' ∧ AddsNoCycle g g' := by
  have hg' := (hg.toDriverInvariant.handleFree hroom hindex hpos hthread h).1
  obtain ⟨alloc, -, h⟩ := Option.bind_eq_some_iff.mp h
  obtain ⟨g₁, hadd, h⟩ := Option.bind_eq_some_iff.mp h
  obtain ⟨hg₁, hcycles₁⟩ := hg.addLabel hroom
    (addsNext_of_body hindex rfl rfl rfl (by exact rfl) hpos hthread) rfl rfl rfl rfl rfl hadd
  obtain rfl := Option.some.inj h
  obtain ⟨hlinks, hcycles⟩ := hg₁.links.keepsReads hg₁.closed
    ((keepsReads_updateLabel (m := { freeAlloc := fun _ => some alloc }) rfl rfl pos).trans
      (keepsReads_updateLabel (m := { free := fun _ => some pos }) rfl rfl alloc))
    ((SameJoins.updateLabel rfl pos).trans (SameJoins.updateLabel rfl alloc))
  exact ⟨⟨hg', hlinks⟩, hcycles₁.trans hcycles⟩

/-- `handleThreadJoin` of a thread that has not been joined. -/
lemma handleThreadJoin (hg : NavigationInvariant g) {pos : Event} {childId : ℕ}
    (hroom : DriverCall.HasRoom g) (hindex : pos.index = g.getThreadSize pos.thread)
    (hpos : pos.index ≠ 0) (hthread : DriverCall.Scheduled g pos.thread)
    (hunjoined : ∀ j, g.joinedOf j ≠ some childId)
    (h : g.handleThreadJoin pos childId = some g') :
    NavigationInvariant g' ∧ AddsNoCycle g g' := by
  have hg' := (hg.toDriverInvariant.handleThreadJoin hroom hindex hpos hthread h).1
  obtain ⟨g₁, hadd, h⟩ := Option.bind_eq_some_iff.mp h
  split at h
  next hfinish =>
    have hadds : DriverCall.AddsNext g { pos := pos, body := .plain (.threadJoin childId) } :=
      addsNext_of_body hindex rfl rfl rfl (by exact rfl) hpos hthread
    obtain ⟨-, hgrows₁⟩ := hg.toDriverInvariant.addLabel hroom hadds rfl rfl hadd fun t ht => by
      obtain rfl := Option.some.inj (of_decide_eq_true ht)
      exact hfinish
    -- the thread that has ended is another one
    have hne : childId ≠ pos.thread := by
      rintro rfl
      rw [lastPos_of_added hgrows₁.containsPos hindex, hgrows₁.isa, if_pos rfl] at hfinish
      cases hfinish
    have hlast := lastPos_of_added_of_ne hgrows₁.containsPos hne
    obtain rfl := Option.some.inj h
    have hgrows := hgrows₁.keepsReads (keepsReads_updateLabel
      (m := { parentJoin := fun _ => some pos }) rfl rfl (g₁.lastPos childId))
      (marksOf_updateLabel rfl _)
    have hruns : RunsOn g { pos := pos, body := .plain (.threadJoin childId) } :=
      ⟨hindex, hpos, hthread.running⟩
    have hpart := hgrows.partOutside hg.linked.readerLists hindex
    refine ⟨⟨hg', ⟨hgrows.threadLinks_join hruns hg.closed hg.links.toThreadLinks rfl hne hunjoined
      fun f => ?_, hpart.locations hg.links.locations fun r hr w hrf _ => ?_⟩⟩,
      hpart.addsNoCycle fun s hs => ?_⟩
    · -- the end of the thread points to the join
      rw [← hlast]
      by_cases hf : f = g₁.lastPos childId
      · obtain ⟨lab, hlab, hbody⟩ := isa_iff.mp hfinish
        unfold parentJoinOf
        rw [getEventLabel_updateLabel, if_pos hf, if_pos hf, hf, hlab, Option.map_some,
          Option.bind_some]
        cases hb : lab.body with
        | threadFinish => simp [EventLabel.mapFields, LabelBody.mapFields, LabelBody.parentJoin, hb]
        | _ =>
          rw [hb] at hbody
          cases hbody
      · rw [if_neg hf, ← parentJoinOf_addLabelWithViews hadds.new hadd]
        unfold parentJoinOf
        rw [getEventLabel_updateLabel, if_neg hf]
    · rw [hgrows.rfOf, if_pos (Set.mem_singleton_iff.mp hr)] at hrf
      cases hrf
    · obtain rfl := Set.mem_singleton_iff.mp hs
      exact hgrows.nothingAfter hruns hg.linked hg.closed rfl fun t ht =>
        Option.some.inj ht ▸ hne
  · cases h

/-- `handleThreadCreate`. -/
lemma handleThreadCreate (hg : NavigationInvariant g) {pos : Event} (hroom : DriverCall.HasRoom g)
    (hindex : pos.index = g.getThreadSize pos.thread) (hpos : pos.index ≠ 0)
    (hthread : DriverCall.Scheduled g pos.thread) (h : g.handleThreadCreate pos = some g') :
    NavigationInvariant g' ∧ AddsNoCycle g g' := by
  have hg' := (hg.toDriverInvariant.handleThreadCreate hroom hindex hpos hthread h).1
  have hcreates := hg.toDriverInvariant.createsThread hroom hindex hpos hthread h
  have hlinks := hcreates.threadLinks hg.toDriverInvariant hg.links.toThreadLinks hindex hpos
    hthread.running
  obtain ⟨g₁, g₂, hcreate, hempties, hlinked, hbegin⟩ := hcreates.stages
  set begin : Event := ⟨g.threadCreatedBy pos, 0⟩ with hbegins
  have hne : pos ≠ begin := fun heq => hpos (congrArg Event.index heq)
  have hpart : PartOutside ({pos} ∪ ∅ ∪ {begin}) g g' :=
    ((hcreate.partOutside hg.linked.readerLists hindex).trans hempties.partOutside).trans
      (hbegin.partOutside hlinked.readerLists hempties.empty.symm)
  rw [Set.union_empty] at hpart
  have hrf : ∀ s ∈ ({pos} ∪ {begin} : Set Event), g'.rfOf s = none := by
    intro s hs
    rw [hbegin.rfOf]
    split
    · rfl
    next hs' =>
      obtain rfl := Set.mem_singleton_iff.mp (hs.resolve_right hs')
      rw [hempties.rfOf, if_neg hne, hcreate.rfOf, if_pos rfl]
  have hnext : g'.containsPos begin.next = false := by
    rw [Bool.eq_false_iff]
    intro hc
    obtain heq | heq | hc := (hcreates.containsPos _).mp hc
    · exact absurd (congrArg Event.index heq) (Nat.succ_ne_zero _)
    · exact hcreates.thread_ne (congrArg Event.thread heq)
    · have hfirst : g.containsPos begin :=
        containsPos_iff_lt.mpr ((Nat.lt_succ_self 0).trans (containsPos_iff_lt.mp hc))
      have hlast := (hcreates.parent hfirst).2
      rw [hbegins, ← hlast, containsPos_next_lastPos] at hc
      cases hc
  have hclass : ∀ (p : LabelBody → Bool) [ClassTest p], g'.isa p begin = p (.threadStart pos) := by
    intro p _
    rw [hcreates.isa, if_pos rfl]
  refine ⟨⟨hg', hlinks, hpart.locations hg.links.locations fun r hr w hw _ => ?_⟩, fun X hX => ?_⟩
  · rw [hrf r hr] at hw
    cases hw
  have hlead : g'.NothingAfter begin := hg'.linked.nothingAfter_of_last hnext
    (fun heq => by
      have hinit := (hg'.linked.stamped.positioned.initOnly begin).mpr heq
      rw [hclass] at hinit
      cases hinit)
    (hclass _) (fun b hfr => by
      obtain ⟨w, hw, -⟩ := hfr
      rw [hrf begin (.inr rfl)] at hw
      cases hw) (hclass _) fun b hjoin => by
      have hfinish := hjoin.1
      rw [hclass] at hfinish
      cases hfinish
  -- the create leads to the begin only
  have hposNext : g'.containsPos pos.next = false := by
    rw [Bool.eq_false_iff]
    intro hc
    obtain heq | heq | hc := (hcreates.containsPos _).mp hc
    · exact absurd (congrArg Event.index heq) (Nat.succ_ne_zero _)
    · exact absurd (congrArg Event.index heq) (Nat.succ_ne_self _)
    · have hlt : pos.index + 1 < g.getThreadSize pos.thread := containsPos_iff_lt.mp hc
      omega
  have hclassPos : ∀ (p : LabelBody → Bool) [ClassTest p],
      g'.isa p pos = p (.plain (.threadCreate (g.threadCreatedBy pos))) := by
    intro p _
    rw [hcreates.isa, if_neg hne, if_pos rfl]
  have hcreated : ∀ b, g'.SCBefore pos b → b = begin := by
    intro b hb
    obtain hsource | ⟨a, -, hco⟩ | ⟨w, hw, -⟩ | ⟨-, hc, hparent⟩ | hb :=
      scBefore_cases_of_last hposNext hb
    · obtain hw | hw := hg'.linked.readerLists.sources b pos hsource <;>
      · rw [hclassPos] at hw
        cases hw
    · have hw := (hg'.linked.stores.stores a pos (hco.subset List.mem_cons_self)).1
      rw [hclassPos] at hw
      cases hw
    · rw [hrf pos (.inl rfl)] at hw
      cases hw
    · have hthread : b.thread = begin.thread := hlinks.parents b.thread _ pos hparent
        (hlinks.creates pos _ (createdOf_eq_some_iff.mpr (by
          rw [hclassPos]
          exact decide_eq_true rfl)))
      obtain hzero | hlt := Nat.eq_zero_or_pos b.index
      · exact Event.ext hthread hzero
      · rw [next_of_po (e := begin) ⟨hthread.symm, hlt, hc⟩] at hnext
        cases hnext
    · have hfinish := hb.1
      rw [hclassPos] at hfinish
      cases hfinish
  have hstep : FeedbackSet g'.SCBefore (X ∪ {begin}) := by
    refine (hpart.feedbackSet hX).drop fun s hs hsX b hb => ?_
    obtain hs | hs | hs := hs
    · exact absurd (.inl hs) hsX
    · obtain rfl := Set.mem_singleton_iff.mp hs
      exact .inr (hcreated b hb)
    · exact absurd (.inr hs) hsX
  refine hstep.drop fun s hs hsX b hb => ?_
  obtain rfl := Set.mem_singleton_iff.mp (hs.resolve_left hsX)
  exact absurd hb (hlead b)

/-! ## Blocking threads -/

/-- `unblockThread`. -/
lemma unblockThread (hg : NavigationInvariant g) {t : ℕ} (h : g.unblockThread t = some g') :
    NavigationInvariant g' ∧ AddsNoCycle g g' := by
  obtain ⟨hg', hback⟩ := hg.toDriverInvariant.unblockThread h
  unfold ExecutionGraph.unblockThread at h
  split at h
  next hblock =>
    obtain ⟨hlinks, hcycles⟩ := hg.links.removeLast hg.repairable (.inl hblock) hback
    exact ⟨⟨hg', hlinks⟩, hcycles⟩
  next => cases h

end NavigationInvariant

/-- A block label runs on where the last label was taken back. -/
lemma RightLinks.runsOn_of_takesBack (hlinks : RightLinks g) {bLab : EventLabel} (hnew : New bLab)
    (hblock : bLab.body.isBlock) (hlast : bLab.pos = g.lastPos bLab.pos.thread)
    (h : TakesBack g bLab.pos.thread g') : RunsOn g' bLab := by
  have hpos := hnew.index_ne_zero (LabelBody.threads_of_isBlock hblock).1
  have hindex : bLab.pos.index = g'.getThreadSize bLab.pos.thread := by
    rw [h.getThreadSize]
    exact congrArg Event.index hlast
  refine ⟨hindex, hpos, ?_⟩
  rw [Bool.eq_false_iff]
  intro hterm
  rw [h.isa] at hterm
  split at hterm
  · cases hterm
  · -- the label that was taken back was behind it
    refine hlinks.terminators _ hterm ?_
    have hnext : (g'.lastPos bLab.pos.thread).next = bLab.pos :=
      Event.ext rfl (show g'.getThreadSize bLab.pos.thread - 1 + 1 = bLab.pos.index by omega)
    rw [hnext, hlast]
    exact h.containsPos

/-- A block label in place of the last label of a thread, a block label or a read. -/
lemma RightLinks.replaceLast (hlinks : RightLinks g) (hg : Repairable g) {bLab : EventLabel}
    (hsourced : ∀ r, r ≠ bLab.pos → g.isa LabelBody.isRead r → (g.rfOf r).isSome)
    (hnew : New bLab) (hroom : g.timestamp + 1 < stampSize) (hblock : bLab.body.isBlock)
    (hlast : bLab.pos = g.lastPos bLab.pos.thread)
    (hclass : g.isa LabelBody.isBlock bLab.pos ∨ DriverCall.TakenBack g bLab.pos)
    (h : g.blockThread bLab = some g') :
    RightLinks g' ∧ AddsNoCycle g g' ∧ g'.NothingAfter bLab.pos := by
  obtain ⟨g₁, hremove, hadd⟩ := Option.bind_eq_some_iff.mp h
  rw [if_pos hlast] at hremove
  rw [hlast] at hclass
  obtain ⟨hg₁, hback⟩ := hg.removeLast hclass hremove
  obtain ⟨hlinks₁, hcycles₁⟩ := hlinks.removeLast hg hclass hback
  have hruns := hlinks.runsOn_of_takesBack hnew hblock hlast hback
  have hinv₁ : DriverInvariant g₁ := hg₁.driverInvariant fun r hr => by
    rw [hback.isa] at hr
    split at hr
    · cases hr
    next hne =>
      rw [hback.rfOf, if_neg hne]
      exact hsourced r (hlast ▸ hne) hr
  obtain ⟨-, hgrows⟩ := hinv₁.addBlock hnew (hback.timestamp ▸ hroom) hblock hruns.index
    (hinv₁.closed.unjoined (isThreadFinish_eq_false hruns.running)) hadd
  obtain ⟨hlinks', hcycles, hlead⟩ := hlinks₁.addBlock hinv₁.linked hinv₁.closed hnew hblock hruns
    hadd hgrows
  exact ⟨hlinks', hcycles₁.trans hcycles, hlead⟩

namespace NavigationInvariant

/-- `blockThread` behind the last label of a thread. -/
lemma addBlock (hg : NavigationInvariant g) {bLab : EventLabel} (hroom : DriverCall.HasRoom g)
    (hnew : New bLab) (hblock : bLab.body.isBlock)
    (hindex : bLab.pos.index = g.getThreadSize bLab.pos.thread)
    (hrunning : g.isa LabelBody.isTerminator (g.lastPos bLab.pos.thread) = false)
    (h : g.blockThread bLab = some g') : GrowsBy g bLab g' ∧
      RightLinks g' ∧ AddsNoCycle g g' ∧ g'.NothingAfter bLab.pos := by
  have hpos := hnew.index_ne_zero (LabelBody.threads_of_isBlock hblock).1
  obtain ⟨g₁, hremove, hadd⟩ := Option.bind_eq_some_iff.mp h
  rw [if_neg fun heq => by
    have hsize : bLab.pos.index = g.getThreadSize bLab.pos.thread - 1 := congrArg Event.index heq
    omega] at hremove
  obtain rfl := Option.some.inj hremove
  obtain ⟨-, hgrows⟩ := hg.toDriverInvariant.addBlock hnew (Nat.lt_of_succ_lt hroom) hblock hindex
    (hg.closed.unjoined (isThreadFinish_eq_false hrunning)) hadd
  exact ⟨hgrows, hg.links.addBlock hg.linked hg.closed hnew hblock ⟨hindex, hpos, hrunning⟩ hadd
    hgrows⟩

/-- `blockThread`. -/
lemma blockThread (hg : NavigationInvariant g) {bLab : EventLabel} (hroom : DriverCall.HasRoom g)
    (hnew : New bLab) (hblock : bLab.body.isBlock)
    (hindex : bLab.pos.index = g.getThreadSize bLab.pos.thread ∧
        g.isa LabelBody.isTerminator (g.lastPos bLab.pos.thread) = false ∨
      bLab.pos = g.lastPos bLab.pos.thread ∧
        (g.isa LabelBody.isBlock bLab.pos ∨ DriverCall.TakenBack g bLab.pos))
    (h : g.blockThread bLab = some g') :
    NavigationInvariant g' ∧ AddsNoCycle g g' ∧ g'.NothingAfter bLab.pos := by
  have hg' := (hg.toDriverInvariant.blockThread hroom hnew hblock hindex h).1
  obtain ⟨hindex, hrunning⟩ | ⟨hlast, hclass⟩ := hindex
  · obtain ⟨-, hlinks, hlead⟩ := hg.addBlock hroom hnew hblock hindex hrunning h
    exact ⟨⟨hg', hlinks⟩, hlead⟩
  · obtain ⟨hlinks, hlead⟩ := hg.links.replaceLast hg.repairable (fun r _ hr => hg.sourced r hr)
      hnew (Nat.lt_of_succ_lt hroom) hblock hlast hclass h
    exact ⟨⟨hg', hlinks⟩, hlead⟩

/-! ## Accesses -/

/-- A read that has been added has no source yet. -/
lemma addRead (hg : NavigationInvariant g) {lab : EventLabel} (hnew : New lab)
    (hruns : RunsOn g lab) (hread : lab.body.isRead) (h : g.addLabelWithViews lab = some g')
    (hgrows : GrowsBy g lab g') :
    RightLinks g' ∧ PartOutside {lab.pos} g g' ∧ g'.NothingAfter lab.pos := by
  obtain ⟨hstart, hcreate, hjoin⟩ := LabelBody.threads_of_addr (.inl hread)
  refine ⟨hg.links.grows hgrows hruns hg.linked hg.closed hstart hcreate hjoin
    (parentJoinOf_addLabelWithViews hnew h),
    hgrows.partOutside hg.linked.readerLists hruns.index,
    hgrows.nothingAfter hruns hg.linked hg.closed hcreate fun t ht => ?_⟩
  rw [hjoin] at ht
  cases ht

/-- `handleBlockedLoad`. -/
lemma handleBlockedLoad (hg : NavigationInvariant g) {lab : EventLabel}
    (hroom : DriverCall.HasRoom g) (hadds : DriverCall.AddsNext g lab) (hread : lab.body.isRead)
    (h : g.handleBlockedLoad lab = some g') : NavigationInvariant g' ∧ AddsNoCycle g g' := by
  have hg' := (hg.toDriverInvariant.handleBlockedLoad hroom hadds hread h).1
  obtain ⟨g₁, hadd, h⟩ := Option.bind_eq_some_iff.mp h
  obtain ⟨addr, -, hblock⟩ := Option.bind_eq_some_iff.mp h
  obtain ⟨hg₁, hgrows, hnext, hsourced⟩ := hg.toDriverInvariant.addRead
    (Nat.lt_of_succ_lt hroom) hadds.new (extends_of_addsNext hg.closed hadds) hread hadd
  obtain ⟨hlinks₁, hpart₁, hlead⟩ := hg.addRead hadds.new
    (runsOn_of_addsNext hadds (LabelBody.threads_of_addr (.inl hread)).1) hread hadd hgrows
  have hcycles₁ : AddsNoCycle g g₁ := hpart₁.addsNoCycle fun s hs =>
    Set.mem_singleton_iff.mp hs ▸ hlead
  have hpos := hadds.new.index_ne_zero (LabelBody.threads_of_addr (.inl hread)).1
  have htaken : DriverCall.TakenBack g₁ lab.pos := by
    refine ⟨?_, ?_⟩
    · rw [hgrows.isa, if_pos rfl]
      exact hread
    · rw [hgrows.rfOf, if_pos rfl]
      simp
  have hsourced' : ∀ r, r ≠ (readOptBlock lab.pos addr).pos → g₁.isa LabelBody.isRead r →
      (g₁.rfOf r).isSome := hsourced
  obtain ⟨hlinks, hcycles, -⟩ := hlinks₁.replaceLast hg₁ hsourced'
    ⟨⟨rfl, rfl, rfl, fun hzero => absurd hzero hpos⟩, rfl, rfl, rfl⟩
    (by rw [hgrows.timestamp]; exact hroom) rfl
    (lastPos_eq ((hgrows.containsPos lab.pos).mpr (.inl rfl)) hnext).symm (.inr htaken) hblock
  exact ⟨⟨hg', hlinks⟩, hcycles₁.trans hcycles⟩

/-- `handleLoad` changes the new read only; it adds no cycle if it reads from the coherence-last
store. -/
lemma handleLoad (hg : NavigationInvariant g) {lab : EventLabel} {rf : Event}
    (hroom : DriverCall.HasRoom g) (hadds : DriverCall.AddsNext g lab) (hread : lab.body.isRead)
    (hloc : g.isa LabelBody.isWrite rf → g.addrOf rf = lab.body.addr)
    (h : g.handleLoad lab rf = some g') : NavigationInvariant g' ∧ PartOutside {lab.pos} g g' ∧
      (∀ a, lab.body.addr = some a → g.coLast a = rf → AddsNoCycle g g') ∧
      g'.isa LabelBody.isRead lab.pos := by
  have hg' := (hg.toDriverInvariant.handleLoad hroom hadds hread h).1
  obtain ⟨g₁, hadd, hset⟩ := Option.bind_eq_some_iff.mp h
  obtain ⟨hg₁, hgrows, hlast, -⟩ := hg.toDriverInvariant.addRead (Nat.lt_of_succ_lt hroom)
    hadds.new (extends_of_addsNext hg.closed hadds) hread hadd
  obtain ⟨hlinks₁, hpart₁, hlead⟩ := hg.addRead hadds.new
    (runsOn_of_addsNext hadds (LabelBody.threads_of_addr (.inl hread)).1) hread hadd hgrows
  obtain ⟨-, hassigns⟩ := hg₁.setRf hlast hset
  have hjoins := SameJoins.setRf hset
  have hr : g₁.isa LabelBody.isRead lab.pos := by
    rw [hgrows.isa, if_pos rfl]
    exact hread
  have haddr : g₁.addrOf lab.pos = lab.body.addr := by rw [hgrows.addrOf, if_pos rfl]
  have hlinks := hassigns.rightLinks hjoins hg₁.linked hlinks₁ hr hg₁.closed fun hw => by
    rw [hgrows.isa] at hw
    rw [haddr, hgrows.addrOf]
    split at hw
    next heq =>
      obtain ⟨-, -, hwrite⟩ := LabelBody.classes_of_isRead hread
      rw [hwrite] at hw
      cases hw
    next hne =>
      rw [if_neg hne]
      exact hloc hw
  refine ⟨⟨hg', hlinks⟩, ?_, fun a ha hmax => ?_, ?_⟩
  · exact Set.union_self {lab.pos} ▸
      hpart₁.trans (hassigns.partOutside hlinks₁.toThreaded hg₁.linked.readerLists hr hjoins)
  · exact (hpart₁.addsNoCycle fun s hs => Set.mem_singleton_iff.mp hs ▸ hlead).trans
      (hassigns.addsNoCycle hjoins hg₁.linked hlinks₁ hr hg'.linked hlinks hlast (haddr.trans ha)
        ((coLast_congr (hgrows.co a)).trans hmax))
  · rw [hassigns.relinks.isa]
    exact hr

end NavigationInvariant

/-- The effect of `handleStore`. -/
structure AddsStore (g : ExecutionGraph) (lab : EventLabel) (pred : Event)
    (g' : ExecutionGraph) : Prop where
  /-- The position is new. -/
  fresh : g.containsPos lab.pos = false
  /-- The positions. -/
  containsPos : ∀ e, g'.containsPos e ↔ e = lab.pos ∨ g.containsPos e
  /-- The classes. -/
  isa : ∀ (p : LabelBody → Bool) [ClassTest p] e,
    g'.isa p e = if e = lab.pos then p lab.body else g.isa p e
  /-- The addresses. -/
  addrOf : ∀ e, g'.addrOf e = if e = lab.pos then lab.body.addr else g.addrOf e
  /-- The sources. -/
  rfOf : ∀ r, g'.rfOf r = if r = lab.pos then none else g.rfOf r
  /-- The stamps. -/
  stampOf : ∀ e, g'.stampOf e = if e = lab.pos then g.timestamp else g.stampOf e
  /-- Nothing is behind the write. -/
  last : g'.containsPos lab.pos.next = false
  /-- It is placed behind `pred`, or first if that is no write. -/
  co : ∃ a s t, lab.body.addr = some a ∧ g.co a = s ++ t ∧
    (∀ b, g'.co b = if b = a then s ++ lab.pos :: t else g.co b) ∧
    (s.getLast? = some pred ∨ s = [] ∧ g.isa LabelBody.isWrite pred = false)

namespace NavigationInvariant

/-- `handleStore` changes the new write only. -/
lemma handleStore (hg : NavigationInvariant g) {lab : EventLabel} {pred : Event}
    (hroom : DriverCall.HasRoom g) (hadds : DriverCall.AddsNext g lab) (hwrite : lab.body.isWrite)
    (h : g.handleStore lab pred = some g') : NavigationInvariant g' ∧ PartOutside {lab.pos} g g' ∧
      AddsStore g lab pred g' := by
  have hg' := (hg.toDriverInvariant.handleStore hroom hadds hwrite h).1
  obtain ⟨g₁, hadd, hco⟩ := Option.bind_eq_some_iff.mp h
  obtain ⟨hstart, hcreate, hjoin⟩ := LabelBody.threads_of_addr (.inr hwrite)
  obtain ⟨hblock, hthreadJoin, -⟩ := LabelBody.classes_of_isWrite hwrite
  obtain ⟨hlinked₁, hclosed₁, hgrows⟩ := addLabelWithViews_spec hg.linked hg.closed hadds.new
    (Nat.lt_of_succ_lt hroom) (extends_of_addsNext hg.closed hadds) hblock hadd
    (not_isJoinOf hthreadJoin)
  have hruns := runsOn_of_addsNext hadds hstart
  have hlinks₁ := hg.links.grows hgrows hruns hg.linked hg.closed hstart hcreate hjoin
    (parentJoinOf_addLabelWithViews hadds.new hadd)
  have hturns := addStoreToCOAfter_turnsCO hco
  have hpart : PartOutside {lab.pos} g₁ g' := by
    refine hturns.partOutside hlinks₁ (fun r w hrf hr hw => ?_) fun a l hl hout => ?_
    · -- the new write has no readers
      rw [hgrows.rfOf, if_neg (Set.mem_singleton_iff.not.mp hr)] at hrf
      have hc := hg.linked.readerLists.containsPos_of_rfOf hrf
      rw [Set.mem_singleton_iff.mp hw, hgrows.fresh] at hc
      cases hc
    · exact addStoreToCOAfter_sublist hlinked₁.readerLists hco hl fun hmem => hout _ hmem rfl
  obtain ⟨a, s, t, hw, ha, hsplit, hco', hpred⟩ :=
    addStoreToCOAfter_splits hlinked₁.readerLists hco
  rw [hgrows.addrOf, if_pos rfl] at ha
  refine ⟨⟨hg', hturns.rightLinks hlinks₁ hclosed₁⟩, Set.union_self {lab.pos} ▸
    (hgrows.partOutside hg.linked.readerLists hruns.index).trans hpart,
    hgrows.fresh, fun e => ?_, fun p _ e => ?_, fun e => ?_, fun r => ?_, fun e => ?_, ?_,
    a, s, t, ha, (hgrows.co a).symm.trans hsplit, fun b => ?_, hpred.imp_right fun hs => ?_⟩
  · rw [hturns.relinks.containsPos]
    exact hgrows.containsPos e
  · rw [hturns.relinks.isa]
    exact hgrows.isa p e
  · rw [hturns.relinks.addrOf]
    exact hgrows.addrOf e
  · rw [hturns.rfOf]
    exact hgrows.rfOf r
  · rw [hturns.relinks.stampOf]
    exact hgrows.stampOf e
  · rw [hturns.relinks.containsPos]
    exact hgrows.containsPos_next hruns
  · rw [hco' b, hgrows.co]
  · refine ⟨hs.2, ?_⟩
    have hno := hs.1
    rw [hgrows.isa] at hno
    split at hno
    · rw [hwrite] at hno
      cases hno
    · exact hno

end NavigationInvariant

namespace AddsStore

variable {lab : EventLabel} {pred : Event} (h : AddsStore g lab pred g') (hg : Linked g)
  (hg' : Linked g') (hwrite : lab.body.isWrite)
include h hg hg' hwrite

/-- What comes after a write that has been added is behind it in the coherence order. -/
lemma mem_of_scBefore {a : SAddr} {s t : List Event} {b : Event}
    (hco : g'.co a = s ++ lab.pos :: t) (hb : g'.SCBefore lab.pos b) : b ∈ t := by
  have hno : ∀ (p : LabelBody → Bool) [ClassTest p], p lab.body = false →
      g'.isa p lab.pos = false := by
    intro p _ hp
    rw [h.isa, if_pos rfl, hp]
  obtain hrf | hb | ⟨w, hw, -⟩ | hb | hb := scBefore_cases_of_last h.last hb
  · rw [Rf, h.rfOf] at hrf
    split at hrf
    · cases hrf
    · have hc := hg.readerLists.containsPos_of_rfOf hrf
      rw [h.fresh] at hc
      cases hc
  · exact (co_iff_mem hg'.readerLists hg'.stores hco).mp hb
  · rw [h.rfOf, if_pos rfl] at hw
    cases hw
  · have hclass := hb.1
    rw [hno] at hclass
    · cases hclass
    · cases hbody : lab.body <;> simp_all [LabelBody.isWrite, LabelBody.isThreadCreate]
  · have hclass := hb.1
    rw [hno] at hclass
    · cases hclass
    · cases hbody : lab.body <;> simp_all [LabelBody.isWrite, LabelBody.isThreadFinish]

/-- **A write behind the coherence-last store** adds no cycle. -/
lemma addsNoCycle (hpart : PartOutside {lab.pos} g g')
    (hmax : ∀ a, lab.body.addr = some a → g.coLast a = pred) : AddsNoCycle g g' := by
  refine hpart.addsNoCycle fun e he b hb => ?_
  obtain rfl := Set.mem_singleton_iff.mp he
  obtain ⟨a, s, t, ha, hsplit, hco, hpred⟩ := h.co
  have hmem := h.mem_of_scBefore hg hg' hwrite (by rw [hco, if_pos rfl]) hb
  -- the coherence-last store is before the write, so that nothing is behind it
  have hlast := hmax a ha
  unfold coLast at hlast
  rw [hsplit, List.getLast?_append_of_ne_nil _ (List.ne_nil_of_mem hmem),
    List.getLast?_eq_some_getLast (List.ne_nil_of_mem hmem), Option.getD_some] at hlast
  have hin : pred ∈ t := hlast ▸ List.getLast_mem (List.ne_nil_of_mem hmem)
  obtain hpred | ⟨-, hpred⟩ := hpred
  · have hnodup := hg.stores.nodup a
    rw [hsplit] at hnodup
    exact (List.nodup_append.mp hnodup).2.2 pred (List.mem_of_getLast? hpred) pred hin rfl
  · rw [(hg.stores.stores a pred (hsplit ▸ List.mem_append_right s hin)).1] at hpred
    cases hpred

end AddsStore

/-! ## Restricting and copying -/

/-- The cut to a stamp. -/
lemma DriverInvariant.keepsThreads_cutAndCompress (hg : DriverInvariant g) {st : ℕ}
    (hst : st + 1 < stampSize) (h : g.cutAndCompress st = some g') :
    KeepsThreads {e | (g.getViewFromStamp st).contains e} g g' := by
  obtain ⟨cut, hcut, hrestricts, -⟩ := cutToStamp_restricts hg.wellFormed st
  have hclosed := hg.closed.closed_getViewFromStamp hg.linked.readerLists hg.linked.stamped.order st
  have hstamped := hg.linked.stamped.cutToStamp hcut
  obtain ⟨cut', hcut', rfl⟩ := Option.map_eq_some_iff.mp h
  obtain rfl := Option.some.inj (hcut'.symm.trans hcut)
  exact (KeepsThreads.of_restricts hrestricts hg.linked.stamped.positioned hclosed).trans_sameBodies
    (hstamped.order.compressStampsAfter hstamped.stamps hstamped.range hst).sameBodies

/-- The copy of a backward revisit. -/
lemma DriverInvariant.keepsThreads_copyForRevisit (hg : DriverInvariant g) {r w : Event} {u : View}
    (h : MayRevisit g r w u) (hcopy : g.copyForRevisit r w = some g') :
    KeepsThreads {e | (g.revisitViewOf r u).contains e} g g' := by
  have hjoin : g.isa LabelBody.isThreadJoin w = false := by
    obtain ⟨lab, hlab, hwrite⟩ := isa_iff.mp h.write
    rw [isa_of_getEventLabel hlab]
    exact (LabelBody.classes_of_isWrite hwrite).2.1
  have hclosed : Closed g (g.revisitViewOf r u) :=
    (hg.closed.closed_getViewFromStamp hg.linked.readerLists hg.linked.stamped.order _).update
      (hg.closed.closed_viewOf hg.linked.readerLists h.view hjoin)
  have hwithin : Within g (.view (g.revisitViewOf r u)) := by
    intro t ht
    have hpreds : (g.getViewFromStamp (g.stampOf r)).getMax t < g.getThreadSize t :=
      within_getViewFromStamp hg.wellFormed _ t ht
    have hprefix : u.getMax t < g.getThreadSize t := hg.closed.within_viewOf hg.settled h.view t ht
    change (g.revisitViewOf r u).getMax t < g.getThreadSize t
    unfold revisitViewOf
    rw [View.getMax_update]
    exact max_lt hpreds hprefix
  obtain ⟨og, hog, hcopies⟩ := hg.wellFormed.copyGraphUpTo_copies hwithin (.view .empty)
  have hrestricts := (hcopies.restricts hg.wellFormed).1
  have hstamped := hg.linked.stamped.getCopyUpTo hog
  obtain ⟨rLab, hrLab, -⟩ := isa_iff.mp h.read
  have hview : g.getRevisitView r w = some (g.revisitViewOf r u) := by
    unfold getRevisitView getPredsView updatePrefix revisitViewOf
    rw [hrLab, h.view, stampOf_of_getEventLabel hrLab]
    rfl
  have hr : og.containsPos r := by
    rw [hrestricts.containsPos hg.linked.stamped.positioned, h.contains_read,
      containsPos_of_isa h.read]
    rfl
  have hog' : g.getCopyUpTo (.view (g.revisitViewOf r u)) = some og := hog
  unfold ExecutionGraph.copyForRevisit copyGraph BackwardRevisit.adjustView getCopyUpToOf at hcopy
  simp only [hview, h.view, hog', Option.bind_eq_bind, Option.bind_some, Bool.false_eq_true,
    if_false] at hcopy
  split at hcopy
  · obtain rfl := Option.some.inj hcopy
    refine fixPrefix_induction (P := KeepsThreads {e | (g.revisitViewOf r u).contains e} g)
      (.view u) ?_ fun s e hs => hs.trans_sameBodies
        (sameBodies_updateLabel (f := EventLabel.setRevisitStatus false) (fun _ => ⟨rfl, rfl⟩) e)
    exact (KeepsThreads.of_restricts hrestricts hg.linked.stamped.positioned
      hclosed).trans_sameBodies (hstamped.order.compressStampsAfter hstamped.stamps hstamped.range
        (hstamped.stampOf_room hr)).sameBodies
  · cases hcopy

namespace RepairedCut

variable {st : ℕ}

/-- The labels are those up to the stamp. -/
lemma containsPos (h : RepairedCut g st g') (e : Event) :
    g'.containsPos e = ((g.getViewFromStamp st).contains e && g.containsPos e) := by
  obtain ⟨cut, hcuts, hrepairs⟩ := h
  rw [hrepairs.relinks.containsPos]
  exact hcuts.containsPos e

/-- The labels keep their addresses. -/
lemma addrOf (h : RepairedCut g st g') {e : Event} (he : g'.containsPos e) :
    g'.addrOf e = g.addrOf e := by
  rw [h.containsPos, Bool.and_eq_true] at he
  obtain ⟨cut, hcuts, hrepairs⟩ := h
  rw [hrepairs.relinks.addrOf, hcuts.addrOf, if_pos he.1]

/-- Accesses of one location still are. -/
lemma sameLocation (h : RepairedCut g st g') {r w : Event} (hr : g'.containsPos r)
    (hloc : g.isa LabelBody.isWrite w → g.addrOf w = g.addrOf r)
    (hw : g'.isa LabelBody.isWrite w) : g'.addrOf w = g'.addrOf r := by
  have hwrite := hw
  rw [h.isa, Bool.and_eq_true] at hwrite
  rw [h.addrOf hr, h.addrOf (containsPos_of_isa hw)]
  exact hloc hwrite.2

end RepairedCut

/-- `g'` is a part of `g`; only the reads that nothing comes after may have got other sources. -/
structure PartOf (g g' : ExecutionGraph) : Prop where
  /-- The positions. -/
  containsPos : ∀ e, g'.containsPos e → g.containsPos e
  /-- The classes. -/
  isa : ∀ (p : LabelBody → Bool) [ClassTest p] e, g'.isa p e = (g'.containsPos e && g.isa p e)
  /-- The addresses. -/
  addrOf : ∀ e, g'.containsPos e → g'.addrOf e = g.addrOf e
  /-- The sources. -/
  rfOf : ∀ e b, g'.SCBefore e b → g'.rfOf e = g.rfOf e
  /-- The coherence orders. -/
  co : ∀ a, g'.co a = (g.co a).filter g'.containsPos
  /-- The labels are ordered as before. -/
  order : ∀ e e', g'.containsPos e → g'.containsPos e' →
    (g'.stampOf e < g'.stampOf e' ↔ g.stampOf e < g.stampOf e')

/-- A graph is a part of itself. -/
lemma PartOf.refl (hg : Linked g) : PartOf g g := by
  refine ⟨fun _ he => he, fun p _ e => ?_, fun _ _ => rfl, fun _ _ _ => rfl, fun a =>
    (List.filter_eq_self.mpr fun w hw => containsPos_of_isa (hg.stores.stores a w hw).1).symm,
    fun _ _ _ _ => Iff.rfl⟩
  cases hc : g.isa p e with
  | true => rw [containsPos_of_isa hc, Bool.true_and]
  | false => rw [Bool.and_false]

/-- Cutting and repairing. -/
lemma CutsTo.partOf {v : View} {cut : ExecutionGraph} (h : CutsTo g v cut) (hrep : Repairs cut g')
    (hg : Linked g) (hg' : NavigationInvariant g') : PartOf g g' := by
  have hcontains : ∀ e, g'.containsPos e = (v.contains e && g.containsPos e) := by
    intro e
    rw [hrep.relinks.containsPos]
    exact h.containsPos e
  have hview : ∀ {e}, g'.containsPos e → v.contains e := fun he => by
    rw [hcontains, Bool.and_eq_true] at he
    exact he.1
  refine ⟨fun e he => ?_, fun p _ e => ?_, fun e he => ?_, fun e b hb => ?_, fun a => ?_,
    fun e e' he he' => ?_⟩
  · rw [hcontains, Bool.and_eq_true] at he
    exact he.2
  · rw [hrep.relinks.isa, h.isa, hcontains, Bool.and_assoc]
    congr 1
    cases hc : g.isa p e with
    | true => rw [containsPos_of_isa hc, Bool.true_and]
    | false => rw [Bool.and_false]
  · rw [hrep.relinks.addrOf, h.addrOf, if_pos (hview he)]
  · have he := (containsPos_of_scBefore hg'.linked.readerLists hg'.linked.stores hb).1
    have hkept : g'.rfOf e = cut.rfOf e := by
      by_contra hne
      exact hrep.nothingAfter hg'.linked hg'.links h.repairable.dangling hne b hb
    rw [hkept, h.rfOf, if_pos (hview he)]
    cases hrf : g.rfOf e with
    | none => rfl
    | some w =>
      refine Option.filter_eq_some_iff.mpr ⟨rfl, ?_⟩
      -- a read that has lost its source would have none
      by_contra hout
      have hread : g'.isa LabelBody.isRead e := by
        rw [hrep.relinks.isa, h.isa, hview he]
        exact isa_isRead_of_rfOf hrf
      have hsome := hg'.sourced e hread
      rw [hkept, h.rfOf, if_pos (hview he), hrf, Option.filter_some, if_neg hout] at hsome
      cases hsome
  · have hco : g'.co a = cut.co a := by
      unfold ExecutionGraph.co
      rw [hrep.coherence]
    rw [hco, h.co]
    refine List.filter_congr fun w hw => ?_
    rw [hcontains, containsPos_of_isa (hg.stores.stores a w hw).1, Bool.and_true]
  · rw [hrep.relinks.containsPos] at he he'
    rw [hrep.relinks.stampOf, hrep.relinks.stampOf]
    exact h.order e e' he he'

/-- Taking back a block label. -/
lemma TakesBack.partOf {t : ℕ} (h : TakesBack g t g') (hg' : Linked g') : PartOf g g' := by
  have hne : ∀ {e}, g'.containsPos e → e ≠ g.lastPos t := fun he => ((h.containsPos_iff _).mp he).1
  refine ⟨fun e he => ((h.containsPos_iff e).mp he).2, fun p _ e => ?_, fun e he => ?_,
    fun e b hb => ?_, fun a => ?_, fun e e' he he' => ?_⟩
  · rw [h.isa]
    split
    next heq =>
      rw [Bool.eq_false_iff.mpr fun hc => hne hc heq, Bool.false_and]
    next hold =>
      cases hc : g.isa p e with
      | true => rw [(h.containsPos_iff e).mpr ⟨hold, containsPos_of_isa hc⟩, Bool.true_and]
      | false => rw [Bool.and_false]
  · rw [h.addrOf, if_neg (hne he)]
  · rw [h.rfOf, if_neg (hne (containsPos_of_scBefore hg'.readerLists hg'.stores hb).1)]
  · rw [← h.co a]
    exact (List.filter_eq_self.mpr fun w hw => containsPos_of_isa (hg'.stores.stores a w hw).1).symm
  · rw [h.stampOf (hne he), h.stampOf (hne he')]

/-- Restricting. -/
lemma RepairedCut.partOf {st : ℕ} (h : RepairedCut g st g') (hg : Linked g)
    (hg' : NavigationInvariant g') : PartOf g g' := by
  obtain ⟨cut, hcuts, hrepairs⟩ := h
  exact hcuts.partOf hrepairs hg hg'

/-- The stages of the in-place revisit of `tryOptimizeBarrierRevisits`. -/
structure RevisitsBarrier (g : ExecutionGraph) (rLab : EventLabel) (w : Event)
    (g₁ g₂ g₃ g' : ExecutionGraph) : Prop where
  /-- The block label is taken back. -/
  unblocked : NavigationInvariant g₁ ∧ AddsNoCycle g g₁ ∧ PartOf g g₁
  /-- The read is taken back. -/
  removed : NavigationInvariant g₂ ∧ AddsNoCycle g₁ g₂ ∧ PartOf g₁ g₂
  /-- The new read is added. -/
  added : Linked g₃ ∧ GrowsBy g₂ rLab g₃
  /-- It comes behind the last label of its thread. -/
  index : rLab.pos.index = g₂.getThreadSize rLab.pos.thread
  /-- Nothing comes after the new read. -/
  last : g₃.NothingAfter rLab.pos ∧ g₃.containsPos rLab.pos.next = false
  /-- The new read is turned to the write. -/
  turned : PartOutside {rLab.pos} g₃ g' ∧ ∃ flag, Assigns g₃ rLab.pos w flag g'

namespace NavigationInvariant

/-- `restrictGraph`. -/
lemma restrictGraph (hg : NavigationInvariant g) {st : ℕ} (hst : st + 1 < stampSize)
    (h : g.restrictGraph st = some g') : NavigationInvariant g' ∧ AddsNoCycle g g' := by
  have hg' := (hg.toDriverInvariant.restrictGraph hst h).1
  obtain ⟨cut, hcut, hcuts⟩ := hg.cutAndCompress hst
  have hkeeps := hg.keepsThreads_cutAndCompress hst hcut
  obtain ⟨hlinks₁, hcycles₁⟩ := hg.links.part hg.closed hkeeps
    (hcuts.partOutside hkeeps hg.links.toThreaded)
  obtain ⟨g'', hg'', -, hrepairs⟩ := hcuts.repairable.repairDanglingReads
  unfold ExecutionGraph.restrictGraph at h
  rw [hcut, Option.bind_some] at h
  obtain rfl := Option.some.inj (hg''.symm.trans h)
  have hjoins := SameJoins.repairDanglingReads h
  have hlinks := hrepairs.rightLinks hjoins hcuts.repairable.linked hlinks₁ hcuts.repairable.closed
  exact ⟨⟨hg', hlinks⟩, hcycles₁.trans (hrepairs.addsNoCycle hjoins hcuts.repairable.linked hlinks₁
    hg'.linked hlinks hcuts.repairable.dangling)⟩

/-- Restricting to a label. -/
lemma restrictTo (hg : NavigationInvariant g) {e : Event} (h : g.restrictTo e = some g') :
    NavigationInvariant g' ∧ AddsNoCycle g g' := by
  obtain ⟨lab, hlab, h⟩ := Option.bind_eq_some_iff.mp h
  rw [← stampOf_of_getEventLabel hlab] at h
  exact hg.restrictGraph (hg.linked.stamped.stampOf_room (containsPos_iff.mpr ⟨lab, hlab⟩)) h

/-! ## Revisits -/

/-- `revisitRead` changes the read only. -/
lemma revisitRead (hg : NavigationInvariant g) {r rev : Event} {isMaximal : Option Bool}
    (hlast : g.containsPos r.next = false)
    (hloc : g.isa LabelBody.isWrite rev → g.addrOf rev = g.addrOf r)
    (h : g.revisitRead r rev isMaximal = some g') : NavigationInvariant g' ∧
      PartOutside {r} g g' ∧ ∃ flag, Assigns g r rev flag g' := by
  obtain ⟨hg', a, maxLab, -, -, hassigns⟩ := hg.toDriverInvariant.revisitRead hlast h
  obtain ⟨g₁, hset, h⟩ := Option.bind_eq_some_iff.mp h
  obtain ⟨a', -, h⟩ := Option.bind_eq_some_iff.mp h
  obtain ⟨maxLab', -, h⟩ := Option.bind_eq_some_iff.mp h
  have hjoins : SameJoins g g' := Option.some.inj h ▸
    ((SameJoins.setRf hset).trans (SameJoins.updateLabel rfl r)).trans (SameJoins.updateLabel rfl r)
  obtain ⟨-, -, hr, -⟩ := setRf_spec hset
  exact ⟨⟨hg', hassigns.rightLinks hjoins hg.linked hg.links hr hg.closed hloc⟩,
    hassigns.partOutside hg.links.toThreaded hg.linked.readerLists hr hjoins, _, hassigns⟩

/-- A `ReadForwardRevisit` restricts to the read and changes it. -/
lemma revisitReadForward (hg : NavigationInvariant g) {r rev : Event} {isMaximal : Bool}
    (hloc : g.isa LabelBody.isWrite rev → g.addrOf rev = g.addrOf r)
    (h : g.revisitReadForward r rev isMaximal = some g') : NavigationInvariant g' ∧
      ∃ g₁ flag, g.restrictTo r = some g₁ ∧ NavigationInvariant g₁ ∧ AddsNoCycle g g₁ ∧
        PartOutside {r} g₁ g' ∧ Assigns g₁ r rev flag g' := by
  obtain ⟨g₁, hrestrict, h⟩ := Option.bind_eq_some_iff.mp h
  obtain ⟨-, hlast, hcut⟩ := hg.toDriverInvariant.restrictTo hrestrict
  obtain ⟨hg₁, hcycles⟩ := hg.restrictTo hrestrict
  have hr : g₁.isa LabelBody.isRead r := by
    obtain ⟨g₂, hset, -⟩ := Option.bind_eq_some_iff.mp h
    obtain ⟨-, -, hr, -⟩ := setRf_spec hset
    exact hr
  obtain ⟨hg', hpart, flag, hassigns⟩ := hg₁.revisitRead hlast
    (hcut.sameLocation (containsPos_of_isa hr) hloc) h
  exact ⟨hg', g₁, flag, hrestrict, hg₁, hcycles, hpart, hassigns⟩

/-- A `WriteForwardRevisit` restricts to the write and changes the write and what its readers
overlook. -/
lemma revisitWrite (hg : NavigationInvariant g) {w pred : Event}
    (h : g.revisitWrite w pred = some g') : NavigationInvariant g' ∧
      ∃ g₁, g.restrictTo w = some g₁ ∧ NavigationInvariant g₁ ∧ AddsNoCycle g g₁ ∧
        PartOutside ({w} ∪ {r | g₁.rfOf r = some w}) g₁ g' ∧ Relinks g₁ g' ∧
        (∀ r, g'.rfOf r = g₁.rfOf r) ∧ g'.isa LabelBody.isWrite w := by
  have hg' := (hg.toDriverInvariant.revisitWrite h).1
  obtain ⟨g₁, hrestrict, h⟩ := Option.bind_eq_some_iff.mp h
  obtain ⟨g₂, hmove, h⟩ := Option.bind_eq_some_iff.mp h
  obtain ⟨hg₁, hcycles⟩ := hg.restrictTo hrestrict
  have hturns := moveStoreCOAfter_turnsCO hmove
  have hlinks₂ := hturns.rightLinks hg₁.links hg₁.closed
  have hclosed₂ := hg₁.closed.relinks hg₁.linked.readerLists hturns.relinks fun r _ =>
    hturns.rfOf r
  have hkeeps : KeepsReads g₂ g' := Option.some.inj h ▸
    keepsReads_updateLabel (m := { maximal := fun _ => false }) rfl rfl w
  have hjoins : SameJoins g₂ g' := Option.some.inj h ▸ SameJoins.updateLabel rfl w
  have hpart : PartOutside ({w} ∪ {r | g₁.rfOf r = some w}) g₁ g₂ := by
    refine hturns.partOutside hg₁.links (fun r w' hrf hr hw' => ?_) fun a l hl hout => ?_
    · obtain hw' | hread := hw'
      · exact hr (.inr (Set.mem_singleton_iff.mp hw' ▸ hrf))
      · -- what is read from is no read
        obtain ⟨hwrite, hinit, -, -⟩ := isa_of_isRead (isa_isRead_of_rfOf hread)
        obtain hsource | hsource := hg₁.linked.readerLists.sources r w' hrf
        · rw [hwrite] at hsource
          cases hsource
        · rw [hinit] at hsource
          cases hsource
    · exact moveStoreCOAfter_sublist hg₁.linked.readerLists hmove hl fun hmem =>
        hout w hmem (.inl rfl)
  have hflag : PartOutside ∅ g₂ g' := partOutside_of_relinks hlinks₂.toThreaded hkeeps.relinks
    hjoins (fun r w' hrf _ => ⟨(hkeeps.rfOf r).symm.trans hrf, Set.notMem_empty w'⟩)
    hkeeps.coherence
  refine ⟨⟨hg', (hlinks₂.keepsReads hclosed₂ hkeeps hjoins).1⟩, g₁, hrestrict, hg₁, hcycles,
    Set.union_empty ({w} ∪ {r | g₁.rfOf r = some w}) ▸ hpart.trans hflag,
    hturns.relinks.trans hkeeps.relinks, fun r => ?_, ?_⟩
  · rw [hkeeps.rfOf]
    exact hturns.rfOf r
  · obtain ⟨g₃, hremove, -⟩ := Option.bind_eq_some_iff.mp hmove
    obtain ⟨-, -, hw, -⟩ := co_modifyCO hg₁.linked.readerLists hremove
    rw [hkeeps.relinks.isa, hturns.relinks.isa]
    exact hw

/-- `revisitInPlace` changes the read only, besides the block label that it takes back; it adds no
cycle if the read is turned to the coherence-last store. -/
lemma revisitInPlace (hg : NavigationInvariant g) {r w : Event}
    (hindex : r.index + 1 = g.getThreadSize r.thread ∨
      r.next = g.lastPos r.thread ∧ g.isa LabelBody.isBlock r.next)
    (hloc : g.isa LabelBody.isWrite w → g.addrOf w = g.addrOf r)
    (h : g.revisitInPlace r w = some g') : NavigationInvariant g' ∧
      ((∀ a, g.addrOf r = some a → g.coLast a = w) → AddsNoCycle g g') ∧
      ∃ g₁ flag, PartOf g g₁ ∧ NavigationInvariant g₁ ∧ AddsNoCycle g g₁ ∧
        g₁.containsPos r.next = false ∧ PartOutside {r} g₁ g' ∧ Assigns g₁ r w flag g' := by
  obtain ⟨hg', -⟩ := hg.toDriverInvariant.revisitInPlace hindex h
  obtain ⟨g₁, hunblock, h⟩ := Option.bind_eq_some_iff.mp h
  obtain ⟨g₂, hset, h⟩ := Option.bind_eq_some_iff.mp h
  -- a block label behind the read is taken back
  obtain ⟨hg₁, hlast, hcycles₁, hpart, hco⟩ : NavigationInvariant g₁ ∧
      g₁.containsPos r.next = false ∧ AddsNoCycle g g₁ ∧ PartOf g g₁ ∧
      ∀ a, g₁.co a = g.co a := by
    split at hunblock
    next hnext =>
      have hlt : r.index + 1 < g.getThreadSize r.thread := containsPos_iff_lt.mp hnext
      obtain ⟨hlastPos, hblock⟩ := hindex.resolve_left hlt.ne
      rw [hlastPos] at hblock
      obtain ⟨hg₁, hback⟩ := hg.toDriverInvariant.removeLast (.inl hblock) hunblock
      obtain ⟨hlinks₁, hcycles₁⟩ := hg.links.removeLast hg.repairable (.inl hblock) hback
      exact ⟨⟨hg₁, hlinks₁⟩, Bool.eq_false_iff.mpr fun hc =>
        ((hback.containsPos_iff _).mp hc).1 hlastPos, hcycles₁, hback.partOf hg₁.linked, hback.co⟩
    next hnext =>
      obtain rfl := Option.some.inj hunblock
      exact ⟨hg, Bool.eq_false_iff.mpr hnext, AddsNoCycle.refl g, .refl hg.linked, fun _ => rfl⟩
  obtain ⟨hrep, hassigns⟩ := hg₁.repairable.assigns hlast hset _ _ (Option.some.inj h).symm
  have hjoins : SameJoins g₁ g' := Option.some.inj h ▸
    ((SameJoins.setRf hset).trans (SameJoins.updateLabel rfl r)).trans (SameJoins.updateLabel rfl r)
  obtain ⟨-, -, hr, -⟩ := setRf_spec hset
  have hrIn := containsPos_of_isa hr
  have hlinks := hassigns.rightLinks hjoins hg₁.linked hg₁.links hr hg₁.closed fun hw => by
    rw [hpart.addrOf r hrIn, hpart.addrOf w (containsPos_of_isa hw)]
    rw [hpart.isa, Bool.and_eq_true] at hw
    exact hloc hw.2
  refine ⟨⟨hg', hlinks⟩, fun hmax => hcycles₁.trans ?_, g₁, _, hpart, hg₁, hcycles₁, hlast,
    hassigns.partOutside hg₁.links.toThreaded hg₁.linked.readerLists hr hjoins, hassigns⟩
  obtain ⟨a, ha⟩ := exists_addrOf hr
  exact hassigns.addsNoCycle hjoins hg₁.linked hg₁.links hr hg'.linked hlinks hlast ha
    ((coLast_congr (hco a)).trans (hmax a ((hpart.addrOf r hrIn).symm.trans ha)))

/-- The block label behind a read is taken back, and then the read. -/
lemma removeBlockedRead (hg : NavigationInvariant g) {pos : Event} {g₁ g₂ : ExecutionGraph}
    (hnext : pos.next = g.lastPos pos.thread) (htaken : DriverCall.TakenBack g pos)
    (hunblock : g.unblockThread pos.thread = some g₁)
    (hremove : g₁.removeLast pos.thread = some g₂) :
    (NavigationInvariant g₁ ∧ AddsNoCycle g g₁ ∧ TakesBack g pos.thread g₁) ∧
      g₁.lastPos pos.thread = pos ∧
      NavigationInvariant g₂ ∧ AddsNoCycle g₁ g₂ ∧ TakesBack g₁ pos.thread g₂ := by
  obtain ⟨hg₁, hcycles₁⟩ := hg.unblockThread hunblock
  have hback₁ := (hg.toDriverInvariant.unblockThread hunblock).2
  have hindex : pos.index + 1 = g.getThreadSize pos.thread - 1 := congrArg Event.index hnext
  have hlast₁ : g₁.lastPos pos.thread = pos := by
    have hsize := hback₁.getThreadSize
    exact Event.ext rfl (show g₁.getThreadSize pos.thread - 1 = pos.index by omega)
  have hne : pos ≠ g.lastPos pos.thread := fun heq =>
    absurd (congrArg Event.index (heq.trans hnext.symm)) (Nat.succ_ne_self _).symm
  have htaken₁ : DriverCall.TakenBack g₁ (g₁.lastPos pos.thread) := by
    rw [hlast₁]
    unfold DriverCall.TakenBack
    rw [hback₁.isa, if_neg hne, hback₁.rfOf, if_neg hne]
    exact htaken
  obtain ⟨hinv₂, hback₂⟩ := hg₁.toDriverInvariant.removeLast (.inr htaken₁) hremove
  obtain ⟨hlinks₂, hcycles₂⟩ := hg₁.links.removeLast hg₁.repairable (.inr htaken₁) hback₂
  exact ⟨⟨hg₁, hcycles₁, hback₁⟩, hlast₁, ⟨hinv₂, hlinks₂⟩, hcycles₂, hback₂⟩

/-- A thread whose last label is a write goes on with the next label. -/
lemma runsOn_of_isWrite (hg : NavigationInvariant g) {lab : EventLabel}
    (hindex : lab.pos.index = g.getThreadSize lab.pos.thread) (hpos : lab.pos.index ≠ 0)
    (hwrite : g.isa LabelBody.isWrite (g.lastPos lab.pos.thread)) :
    RunsOn g lab ∧ Extends g lab.pos := by
  obtain ⟨pLab, hpLab, hpwrite⟩ := isa_iff.mp hwrite
  -- a write does not end a thread and does not start one
  have hbody : pLab.body.isTerminator = false ∧ pLab.body.parentCreate = none := by
    cases hb : pLab.body with
    | write => exact ⟨rfl, rfl⟩
    | _ =>
      rw [hb] at hpwrite
      cases hpwrite
  have hrunning : g.isa LabelBody.isTerminator (g.lastPos lab.pos.thread) = false := by
    rw [isa_of_getEventLabel hpLab]
    exact hbody.1
  refine ⟨⟨hindex, hpos, hrunning⟩, hindex, hg.closed.unjoined (isThreadFinish_eq_false hrunning),
    fun pLab' c hpLab' hc => ?_⟩
  rw [hindex] at hpLab'
  obtain rfl := Option.some.inj (hpLab.symm.trans hpLab')
  rw [hbody.2] at hc
  cases hc

/-- The in-place revisit of `tryOptimizeBarrierRevisits` adds no cycle if the new read gets the
coherence-last store. -/
lemma revisitBarrier (hg : NavigationInvariant g) {rLab : EventLabel} {w : Event}
    (hroom : DriverCall.HasRoom g) (hnew : New rLab) (hread : rLab.body.isRead)
    (hnext : rLab.pos.next = g.lastPos rLab.pos.thread) (htaken : DriverCall.TakenBack g rLab.pos)
    (hprev : g.isa LabelBody.isWrite ⟨rLab.pos.thread, rLab.pos.index - 1⟩)
    (hloc : g.isa LabelBody.isWrite w → g.addrOf w = rLab.body.addr)
    (h : g.revisitBarrier rLab w = some g') : NavigationInvariant g' ∧
      ((∀ a, rLab.body.addr = some a → g.coLast a = w) → AddsNoCycle g g') ∧
      ∃ g₁ g₂ g₃, RevisitsBarrier g rLab w g₁ g₂ g₃ g' := by
  have hg' := (hg.toDriverInvariant.revisitBarrier hroom hnew hread hnext htaken hprev h).1
  obtain ⟨g₁, hunblock, h⟩ := Option.bind_eq_some_iff.mp h
  obtain ⟨g₂, hremove, h⟩ := Option.bind_eq_some_iff.mp h
  obtain ⟨g₃, hadd, h⟩ := Option.bind_eq_some_iff.mp h
  obtain ⟨g₄, hset, h⟩ := Option.bind_eq_some_iff.mp h
  obtain ⟨a, ha, h⟩ := Option.bind_eq_some_iff.mp h
  obtain ⟨maxLab, -, h⟩ := Option.bind_eq_some_iff.mp h
  obtain ⟨⟨hg₁, hcycles₁, hback₁⟩, hlast₁, hg₂, hcycles₂, hback₂⟩ :=
    hg.removeBlockedRead hnext htaken hunblock hremove
  have hne : ∀ e : Event, e.index ≤ rLab.pos.index → e ≠ g.lastPos rLab.pos.thread := by
    rintro e hle rfl
    rw [← hnext] at hle
    exact absurd hle (Nat.not_succ_le_self _)
  have hpos := hnew.index_ne_zero (LabelBody.threads_of_addr (.inl hread)).1
  have hindex₂ : rLab.pos.index = g₂.getThreadSize rLab.pos.thread := by
    rw [hback₂.getThreadSize]
    exact (congrArg Event.index hlast₁).symm
  -- the label before the read is the last one
  have hwrite : g₂.isa LabelBody.isWrite (g₂.lastPos rLab.pos.thread) := by
    have hlast₂ : g₂.lastPos rLab.pos.thread = ⟨rLab.pos.thread, rLab.pos.index - 1⟩ := by
      unfold lastPos
      rw [← hindex₂]
    rw [hlast₂, hback₂.isa, hlast₁, if_neg, hback₁.isa, if_neg (hne _ (Nat.sub_le _ _))]
    · exact hprev
    · intro heq
      have hless : rLab.pos.index - 1 = rLab.pos.index := congrArg Event.index heq
      omega
  obtain ⟨hruns, hext⟩ := hg₂.runsOn_of_isWrite hindex₂ hpos hwrite
  have hroom₂ : g₂.timestamp + 1 < stampSize := by
    rw [hback₂.timestamp, hback₁.timestamp]
    exact Nat.lt_of_succ_lt hroom
  obtain ⟨hg₃, hgrows, hlast₃, -⟩ := hg₂.toDriverInvariant.addRead hroom₂ hnew hext hread hadd
  obtain ⟨hlinks₃, hpart₃, hlead⟩ := hg₂.addRead hnew hruns hread hadd hgrows
  obtain ⟨hg₄, hassigns₄⟩ := hg₃.setRf hlast₃ hset
  obtain ⟨-, -, hr, -⟩ := setRf_spec hset
  obtain ⟨-, hassigns⟩ := hg₄.assigns_setFlag ((hassigns₄.relinks.isa _ _).trans hr) hassigns₄
    (fun _ => decide (w = maxLab)) id
  have hjoins : SameJoins g₃ g' := Option.some.inj h ▸
    (SameJoins.setRf hset).trans (SameJoins.updateLabel rfl rLab.pos)
  obtain rfl := Option.some.inj h
  have haddr : g₃.addrOf rLab.pos = rLab.body.addr := by rw [hgrows.addrOf, if_pos rfl]
  have hlinks := hassigns.rightLinks hjoins hg₃.linked hlinks₃ hr hg₃.closed fun hw => by
    rw [hgrows.isa] at hw
    rw [haddr, hgrows.addrOf]
    split at hw
    · rw [(LabelBody.classes_of_isRead hread).2.2] at hw
      cases hw
    next hne' =>
      -- the write is one of the graph before
      rw [if_neg hne', hback₂.addrOf, hback₁.addrOf]
      rw [hback₂.isa] at hw
      split at hw
      · cases hw
      next hne₂ =>
        rw [hback₁.isa] at hw
        split at hw
        · cases hw
        next hne₁ =>
          rw [if_neg hne₂, if_neg hne₁]
          exact hloc hw
  refine ⟨⟨hg', hlinks⟩, fun hmax => ((hcycles₁.trans hcycles₂).trans (hpart₃.addsNoCycle
    fun s hs => Set.mem_singleton_iff.mp hs ▸ hlead)).trans (hassigns.addsNoCycle hjoins
      hg₃.linked hlinks₃ hr hg'.linked hlinks hlast₃ (haddr.trans ha) ?_), g₁, g₂, g₃,
    ⟨hg₁, hcycles₁, hback₁.partOf hg₁.linked⟩, ⟨hg₂, hcycles₂, hback₂.partOf hg₂.linked⟩,
    ⟨hg₃.linked, hgrows⟩, hindex₂, ⟨hlead, hlast₃⟩,
    hassigns.partOutside hlinks₃.toThreaded hg₃.linked.readerLists hr hjoins, _, hassigns⟩
  rw [← hmax a ha]
  exact coLast_congr (((hgrows.co a).trans (hback₂.co a)).trans (hback₁.co a))

/-- A backward revisit copies a part of the graph, repairs it, and changes the read. -/
lemma backwardRevisit (hg : NavigationInvariant g) {r w : Event} {u : View}
    (h : MayRevisit g r w u) (hloc : g.addrOf w = g.addrOf r)
    (hrevisit : g.backwardRevisit r w = some g') : NavigationInvariant g' ∧
      ∃ copy rep flag, CutsTo g (g.revisitViewOf r u) copy ∧ Repairs copy rep ∧
        NavigationInvariant rep ∧ AddsNoCycle g rep ∧ PartOutside {r} rep g' ∧
        Assigns rep r w flag g' := by
  obtain ⟨copy, rep, g'', a, maxLab, hcopy, hcuts, hrep, hinv, hrepairs, hlast, hrevisit', -, -, -,
    -⟩ := hg.toDriverInvariant.backwardRevisit_spec h
  unfold ExecutionGraph.backwardRevisit at hrevisit
  rw [hcopy, Option.bind_eq_bind, Option.bind_some, hrep, Option.bind_some] at hrevisit
  have hkeeps := hg.keepsThreads_copyForRevisit h hcopy
  obtain ⟨hlinks₁, hcycles₁⟩ := hg.links.part hg.closed hkeeps
    (hcuts.partOutside hkeeps hg.links.toThreaded)
  have hjoins := SameJoins.repairDanglingReads hrep
  have hlinks := hrepairs.rightLinks hjoins hcuts.repairable.linked hlinks₁ hcuts.repairable.closed
  have hnav : NavigationInvariant rep := ⟨hinv, hlinks⟩
  obtain ⟨hg', hpart, flag, hassigns⟩ := hnav.revisitRead hlast (fun _ => by
    rw [hrepairs.relinks.addrOf, hrepairs.relinks.addrOf, hcuts.addrOf, hcuts.addrOf,
      if_pos h.contains_read, if_pos (h.contains_write hg.closed)]
    exact hloc) hrevisit
  exact ⟨hg', copy, rep, flag, hcuts, hrepairs, hnav, hcycles₁.trans (hrepairs.addsNoCycle hjoins
    hcuts.repairable.linked hlinks₁ hinv.linked hlinks hcuts.repairable.dangling), hpart, hassigns⟩

end NavigationInvariant

end ExecutionGraph

end GenMC
