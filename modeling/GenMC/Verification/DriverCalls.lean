import GenMC.Verification.DriverInvariant

/-!
# The handlers of the driver

What the handlers that add labels and the functions that block and unblock threads keep.  The
specification of a call also says what becomes of the accesses.
-/

namespace GenMC

namespace ExecutionGraph

variable {g g' : ExecutionGraph}

/-- A label that is neither a join nor a read nor a write joins nothing. -/
lemma not_isJoinOf {b : LabelBody} (hb : b.isThreadJoin = false) (t : ℕ) (ht : b.isJoinOf t) :
    g.isa LabelBody.isThreadFinish (g.lastPos t) := by
  rw [LabelBody.isThreadJoin_of_isJoinOf ht] at hb
  cases hb

/-- The classes that a read is not in. -/
lemma LabelBody.classes_of_isRead {b : LabelBody} (h : b.isRead) :
    b.isBlock = false ∧ b.isThreadJoin = false ∧ b.isWrite = false := by
  cases b with
  | read => exact ⟨rfl, rfl, rfl⟩
  | _ => cases h

/-- The classes that a write is not in. -/
lemma LabelBody.classes_of_isWrite {b : LabelBody} (h : b.isWrite) :
    b.isBlock = false ∧ b.isThreadJoin = false ∧ b.isRead = false := by
  cases b with
  | write => exact ⟨rfl, rfl, rfl⟩
  | _ => cases h

/-- Block labels are no accesses. -/
lemma LabelBody.addr_of_isBlock {b : LabelBody} (h : b.isBlock) : b.addr = none := by
  cases b <;> first | rfl | cases h

namespace DriverInvariant

/-! ## Adding labels -/

/-- Adding a label that is not an access. -/
lemma addLabel (hg : DriverInvariant g) {lab : EventLabel} (hroom : DriverCall.HasRoom g)
    (hadds : DriverCall.AddsNext g lab) (haddr : lab.body.addr = none)
    (hblock : lab.body.isBlock = false) (h : g.addLabelWithViews lab = some g')
    (hjoined : ∀ t, lab.body.isJoinOf t → g'.isa LabelBody.isThreadFinish (g'.lastPos t)) :
    DriverInvariant g' ∧ GrowsBy g lab g' := by
  have hroom' : g.timestamp + 1 < stampSize := Nat.lt_of_succ_lt hroom
  obtain ⟨hlinked, hclosed, hgrows⟩ := addLabelWithViews_spec hg.linked hg.closed hadds.new hroom'
    (extends_of_addsNext hg.closed hadds) hblock h hjoined
  have hsame := hgrows.sameAccesses haddr
  exact ⟨⟨hlinked, ⟨hgrows.started hg.settled, hsame.placed hg.settled⟩, hclosed,
    hsame.sourced hg⟩, hgrows⟩

/-- A read that has been added has no source yet. -/
lemma addRead (hg : DriverInvariant g) {lab : EventLabel} (hroom : g.timestamp + 1 < stampSize)
    (hnew : New lab) (hext : Extends g lab.pos) (hread : lab.body.isRead)
    (h : g.addLabelWithViews lab = some g') :
    Repairable g' ∧ GrowsBy g lab g' ∧ g'.containsPos lab.pos.next = false ∧
      ∀ r, r ≠ lab.pos → g'.isa LabelBody.isRead r → (g'.rfOf r).isSome := by
  obtain ⟨hblock, hjoin, hwrite⟩ := LabelBody.classes_of_isRead hread
  obtain ⟨hlinked, hclosed, hgrows⟩ := addLabelWithViews_spec hg.linked hg.closed hnew hroom hext
    hblock h (not_isJoinOf hjoin)
  have hlast : g'.containsPos lab.pos.next = false := by
    rw [Bool.eq_false_iff]
    intro hnext
    rcases (hgrows.containsPos _).mp hnext with heq | hold
    · exact absurd (congrArg Event.index heq) (Nat.succ_ne_self _)
    · have hlt : lab.pos.index + 1 < g.getThreadSize lab.pos.thread := containsPos_iff_lt.mp hold
      have hindex := hext.index
      omega
  have hsourced : ∀ r, r ≠ lab.pos → g'.isa LabelBody.isRead r → (g'.rfOf r).isSome := by
    intro r hne hr
    rw [hgrows.isa, if_neg hne] at hr
    rw [hgrows.rfOf, if_neg hne]
    exact hg.sourced r hr
  refine ⟨⟨hlinked, ⟨hgrows.started hg.settled, fun w a hw ha => ?_⟩, hclosed,
    fun r hr hnone => ?_⟩, hgrows, hlast, hsourced⟩
  · rw [hgrows.isa] at hw
    rw [hgrows.addrOf] at ha
    rw [hgrows.co]
    split at hw
    · rw [hwrite] at hw
      cases hw
    next hne =>
      rw [if_neg hne] at ha
      exact hg.settled.placed w a hw ha
  · by_cases hne : r = lab.pos
    · exact hne ▸ hlast
    · have hsome := hsourced r hne hr
      rw [hnone] at hsome
      cases hsome

/-- `handleLoad`. -/
lemma handleLoad (hg : DriverInvariant g) {lab : EventLabel} {rf : Event}
    (hroom : DriverCall.HasRoom g) (hadds : DriverCall.AddsNext g lab) (hread : lab.body.isRead)
    (h : g.handleLoad lab rf = some g') :
    DriverInvariant g' ∧ ∃ g₁, GrowsBy g lab g₁ ∧ Assigns g₁ lab.pos rf id g' := by
  obtain ⟨g₁, hadd, hrf⟩ := Option.bind_eq_some_iff.mp h
  obtain ⟨hg₁, hgrows, hlast, hsourced⟩ := hg.addRead (Nat.lt_of_succ_lt hroom) hadds.new
    (extends_of_addsNext hg.closed hadds) hread hadd
  obtain ⟨hg', hassigns⟩ := hg₁.setRf hlast hrf
  exact ⟨hg'.driverInvariant (hassigns.sourced hsourced), g₁, hgrows, hassigns⟩

/-- `handleStore`. -/
lemma handleStore (hg : DriverInvariant g) {lab : EventLabel} {pred : Event}
    (hroom : DriverCall.HasRoom g) (hadds : DriverCall.AddsNext g lab)
    (hwrite : lab.body.isWrite) (h : g.handleStore lab pred = some g') :
    DriverInvariant g' ∧ ∃ g₁, GrowsBy g lab g₁ ∧ Linked g₁ ∧
      g₁.addStoreToCOAfter lab.pos pred = some g' := by
  obtain ⟨g₁, hadd, hco⟩ := Option.bind_eq_some_iff.mp h
  obtain ⟨hblock, hjoin, hread⟩ := LabelBody.classes_of_isWrite hwrite
  have hroom' : g.timestamp + 1 < stampSize := Nat.lt_of_succ_lt hroom
  obtain ⟨hlinked, hclosed, hgrows⟩ := addLabelWithViews_spec hg.linked hg.closed hadds.new hroom'
    (extends_of_addsNext hg.closed hadds) hblock hadd (not_isJoinOf hjoin)
  have hnew : ∀ a, lab.pos ∉ g₁.co a := by
    intro a hmem
    rw [hgrows.co] at hmem
    have hc := containsPos_of_isa (hg.linked.stores.stores a _ hmem).1
    rw [containsPos_eq_false hadds.index] at hc
    cases hc
  obtain ⟨a, -, ha, hperm, hother⟩ := co_addStoreToCOAfter hlinked.readerLists hco
  have hrelinks := (addStoreToCOAfter_turnsCO hco).relinks
  have hrf : ∀ r, g'.rfOf r = g₁.rfOf r := by
    intro r
    rw [(addStoreToCOAfter_turnsCO hco).eq]
    rfl
  refine ⟨⟨hlinked.addStoreToCOAfter hnew hco, ⟨fun t ht => ?_, fun w b hw hb => ?_⟩,
    hclosed.relinks hlinked.readerLists hrelinks fun r _ => hrf r, fun r hr => ?_⟩,
    g₁, hgrows, hlinked, hco⟩
  · rw [hrelinks.containsPos]
    exact hgrows.started hg.settled t (hrelinks.numThreads ▸ ht)
  · rw [hrelinks.isa, hgrows.isa] at hw
    rw [hrelinks.addrOf] at hb
    by_cases hne : w = lab.pos
    · rw [hne, ha] at hb
      rw [← Option.some.inj hb, hne, hperm.mem_iff]
      exact List.mem_cons_self
    · rw [if_neg hne] at hw
      rw [hgrows.addrOf, if_neg hne] at hb
      have hold := hg.settled.placed w b hw hb
      rw [← hgrows.co] at hold
      by_cases hba : b = a
      · rw [hba] at hold ⊢
        exact hperm.mem_iff.mpr (List.mem_cons_of_mem _ hold)
      · rwa [hother b hba]
  · rw [hrelinks.isa, hgrows.isa] at hr
    rw [hrf, hgrows.rfOf]
    split at hr
    · rw [hread] at hr
      cases hr
    next hne =>
      rw [if_neg hne]
      exact hg.sourced r hr

/-- `handleThreadJoin`. -/
lemma handleThreadJoin (hg : DriverInvariant g) {pos : Event} {childId : ℕ}
    (hroom : DriverCall.HasRoom g) (hindex : pos.index = g.getThreadSize pos.thread)
    (hpos : pos.index ≠ 0) (hthread : DriverCall.Scheduled g pos.thread)
    (h : g.handleThreadJoin pos childId = some g') : DriverInvariant g' ∧ SameAccesses g g' := by
  obtain ⟨g₁, hadd, h⟩ := Option.bind_eq_some_iff.mp h
  split at h
  next hfinish =>
    obtain rfl := Option.some.inj h
    obtain ⟨hg₁, hgrows⟩ := hg.addLabel hroom
      (addsNext_of_body hindex rfl rfl rfl (by exact rfl) hpos hthread) rfl rfl hadd fun t ht => by
        obtain rfl := Option.some.inj (of_decide_eq_true ht)
        exact hfinish
    have hkeeps : KeepsReads g₁ (g₁.updateLabel (g₁.lastPos childId)
        (EventLabel.setParentJoin (some pos))) := keepsReads_updateLabel rfl rfl _
    refine ⟨hg₁.keepsReads hkeeps (hg₁.linked.links.updateLabel fun lab hlab => ?_)
      (hg₁.linked.listed.updateLabel rfl rfl _), (hgrows.sameAccesses rfl).trans
        (SameAccesses.of_keepsReads hkeeps (marksOf_updateLabel rfl _))⟩
    have hold := hg₁.linked.links _ lab hlab
    refine AllocLinks.mapFields hold.accesses hold.alloc hold.free hold.freeAlloc fun j hj => ?_
    rw [← Option.some.inj hj, hgrows.isa, if_pos rfl]
    rfl
  · cases h

/-- `handleFree`. -/
lemma handleFree (hg : DriverInvariant g) {pos : Event} {kind : FreeKind} {freeAddr : SAddr}
    (hroom : DriverCall.HasRoom g) (hindex : pos.index = g.getThreadSize pos.thread)
    (hpos : pos.index ≠ 0) (hthread : DriverCall.Scheduled g pos.thread)
    (h : g.handleFree pos kind freeAddr = some g') : DriverInvariant g' ∧ SameAccesses g g' := by
  obtain ⟨alloc, halloc, h⟩ := Option.bind_eq_some_iff.mp h
  obtain ⟨g₁, hadd, h⟩ := Option.bind_eq_some_iff.mp h
  obtain ⟨hg₁, hgrows⟩ := hg.addLabel hroom
    (addsNext_of_body hindex rfl rfl rfl (by exact rfl) hpos hthread) rfl rfl hadd
    (not_isJoinOf rfl)
  obtain rfl := Option.some.inj h
  have hmalloc : g₁.isa LabelBody.isMalloc alloc := by
    have hold := isa_isMalloc_of_find halloc
    rw [hgrows.isa, if_neg]
    · exact hold
    · rintro rfl
      have hc := containsPos_of_isa hold
      rw [containsPos_eq_false hindex] at hc
      cases hc
  set g₂ := g₁.updateLabel pos (EventLabel.setFreeAlloc (some alloc)) with hg₂def
  have hkeeps₂ : KeepsReads g₁ g₂ := keepsReads_updateLabel rfl rfl pos
  have hg₂ : DriverInvariant g₂ := hg₁.keepsReads hkeeps₂
    (hg₁.linked.links.updateLabel (m := { freeAlloc := fun _ => some alloc }) fun lab hlab =>
      have hold := hg₁.linked.links pos lab hlab
      AllocLinks.mapFields hold.accesses hold.alloc hold.free
        (fun a ha => Option.some.inj ha ▸ hmalloc) hold.parentJoin)
    (hg₁.linked.listed.updateLabel rfl rfl _)
  have hkeeps₃ : KeepsReads g₂ (g₂.updateLabel alloc (EventLabel.setFree (some pos))) :=
    keepsReads_updateLabel rfl rfl alloc
  refine ⟨hg₂.keepsReads hkeeps₃ (hg₂.linked.links.updateLabel fun lab hlab => ?_)
      (hg₂.linked.listed.updateLabel rfl rfl _),
    ((hgrows.sameAccesses rfl).trans
      (SameAccesses.of_keepsReads hkeeps₂ (marksOf_updateLabel rfl _))).trans
      (SameAccesses.of_keepsReads hkeeps₃ (marksOf_updateLabel rfl _))⟩
  have hold := hg₂.linked.links alloc lab hlab
  refine AllocLinks.mapFields hold.accesses hold.alloc (fun d hd => ?_) hold.freeAlloc
    hold.parentJoin
  rw [← Option.some.inj hd, hkeeps₂.relinks.isa, hgrows.isa, if_pos rfl]
  rfl

/-! ## Blocking threads -/

/-- `unblockThread`. -/
lemma unblockThread (hg : DriverInvariant g) {t : ℕ} (h : g.unblockThread t = some g') :
    DriverInvariant g' ∧ TakesBack g t g' := by
  unfold ExecutionGraph.unblockThread at h
  split at h
  next hblock => exact hg.removeLast (Or.inl hblock) h
  next => cases h

/-- A block label behind the last label of its thread. -/
lemma addBlock (hg : DriverInvariant g) {bLab : EventLabel} (hnew : New bLab)
    (hroom : g.timestamp + 1 < stampSize) (hblock : bLab.body.isBlock)
    (hindex : bLab.pos.index = g.getThreadSize bLab.pos.thread)
    (hunjoined : ∀ j, g.isa (LabelBody.isJoinOf bLab.pos.thread) j = false)
    (h : g.addLabelToGraph bLab = some g') : DriverInvariant g' ∧ GrowsBy g bLab g' := by
  have hadds := addLabelToGraph_spec h
  have hfree := containsPos_eq_false hindex
  have hgrows := GrowsBy.of_adds hadds hnew hroom hfree
  have hview := viewOf_of_adds hadds hnew hfree
  have hjoin : bLab.body.isThreadJoin = false := by
    cases hb : bLab.body with
    | plain k => cases k <;> simp_all [LabelBody.isBlock, LabelBody.isThreadJoin]
    | _ => rfl
  have hsame := hgrows.sameAccesses (LabelBody.addr_of_isBlock hblock)
  refine ⟨⟨hg.linked.addLabelToGraph hnew hroom hindex h,
    ⟨hgrows.started hg.settled, hsame.placed hg.settled⟩, ?_, hsame.sourced hg⟩, hgrows⟩
  refine hg.closed.addsView (v := none) hg.linked.readerLists hg.linked.stamped.order
    ⟨fun e => ?_, hgrows.containsPos, hgrows.stampOf, hgrows.rfOf, hgrows.isa, by simp [hblock]⟩
    hindex ⟨hunjoined, fun hne => absurd rfl hne, not_isJoinOf hjoin⟩ fun u hu => by cases hu
  rw [hview]
  split
  next heq =>
    rw [heq]
    cases hv : g.viewOf bLab.pos with
    | none => rfl
    | some v =>
      have hc := containsPos_of_viewOf hv
      rw [hfree] at hc
      cases hc
  next => rfl

end DriverInvariant

/-- Labels of other threads do not come after block labels and reads, and they do not end
threads. -/
lemma isThreadFinish_eq_false_of_class {e : Event}
    (h : g.isa LabelBody.isBlock e ∨ DriverCall.TakenBack g e) :
    g.isa LabelBody.isThreadFinish e = false := by
  rw [Bool.eq_false_iff]
  intro hfinish
  obtain ⟨lab, hlab, hbody⟩ := isa_iff.mp hfinish
  rcases h with hblock | ⟨hread, -⟩
  · rw [isa_of_getEventLabel hlab] at hblock
    cases hb : lab.body <;> simp_all [LabelBody.isThreadFinish, LabelBody.isBlock]
  · rw [isa_of_getEventLabel hlab] at hread
    cases hb : lab.body <;> simp_all [LabelBody.isThreadFinish, LabelBody.isRead]

/-- A block label in place of the last label of a thread, a block label or a read. -/
lemma Repairable.replaceLast (hg : Repairable g) {bLab : EventLabel}
    (hsourced : ∀ r, r ≠ bLab.pos → g.isa LabelBody.isRead r → (g.rfOf r).isSome)
    (hnew : New bLab) (hroom : g.timestamp + 1 < stampSize) (hblock : bLab.body.isBlock)
    (hlast : bLab.pos = g.lastPos bLab.pos.thread)
    (hclass : g.isa LabelBody.isBlock bLab.pos ∨ DriverCall.TakenBack g bLab.pos)
    (h : g.blockThread bLab = some g') : DriverInvariant g' ∧
      ∃ g₁, TakesBack g bLab.pos.thread g₁ ∧ GrowsBy g₁ bLab g' := by
  obtain ⟨g₁, hremove, hadd⟩ := Option.bind_eq_some_iff.mp h
  rw [if_pos hlast] at hremove
  rw [hlast] at hclass
  obtain ⟨hg₁, hback⟩ := hg.removeLast hclass hremove
  have hinv₁ : DriverInvariant g₁ := hg₁.driverInvariant fun r hr => by
    rw [hback.isa] at hr
    split at hr
    · cases hr
    next hne =>
      rw [hback.rfOf, if_neg hne]
      exact hsourced r (hlast ▸ hne) hr
  have hunjoined := hg.closed.unjoined (isThreadFinish_eq_false_of_class hclass)
  obtain ⟨hg', hgrows⟩ := hinv₁.addBlock hnew (hback.timestamp ▸ hroom) hblock
    (by rw [hback.getThreadSize]; exact congrArg Event.index hlast) (fun j => by
      rw [hback.isa]
      split
      · rfl
      · exact hunjoined j) hadd
  exact ⟨hg', g₁, hback, hgrows⟩

namespace DriverInvariant

/-- `blockThread`. -/
lemma blockThread (hg : DriverInvariant g) {bLab : EventLabel} (hroom : DriverCall.HasRoom g)
    (hnew : New bLab) (hblock : bLab.body.isBlock)
    (hindex : bLab.pos.index = g.getThreadSize bLab.pos.thread ∧
        g.isa LabelBody.isTerminator (g.lastPos bLab.pos.thread) = false ∨
      bLab.pos = g.lastPos bLab.pos.thread ∧
        (g.isa LabelBody.isBlock bLab.pos ∨ DriverCall.TakenBack g bLab.pos))
    (h : g.blockThread bLab = some g') : DriverInvariant g' ∧ SameAccesses g g' := by
  have hroom' : g.timestamp + 1 < stampSize := Nat.lt_of_succ_lt hroom
  have haddr := LabelBody.addr_of_isBlock hblock
  rcases hindex with ⟨hindex, hrunning⟩ | ⟨hlast, hclass⟩
  · have hne : bLab.pos ≠ g.lastPos bLab.pos.thread := by
      intro heq
      have hsize : bLab.pos.index = g.getThreadSize bLab.pos.thread - 1 := congrArg Event.index heq
      have hzero : bLab.pos.index = 0 := by omega
      -- The first label of a thread is no block label.
      have hstart := hnew.fresh.starts hzero
      cases hb : bLab.body with
      | threadStart | init =>
        rw [hb] at hblock
        cases hblock
      | _ =>
        rw [hb] at hstart
        cases hstart
    obtain ⟨g₁, hremove, hadd⟩ := Option.bind_eq_some_iff.mp h
    rw [if_neg hne] at hremove
    obtain rfl := Option.some.inj hremove
    obtain ⟨hg', hgrows⟩ := hg.addBlock hnew hroom' hblock hindex
      (hg.closed.unjoined (isThreadFinish_eq_false hrunning)) hadd
    exact ⟨hg', hgrows.sameAccesses haddr⟩
  · obtain ⟨hg', g₁, hback, hgrows⟩ := hg.repairable.replaceLast (fun r _ hr => hg.sourced r hr)
      hnew hroom' hblock hlast hclass h
    exact ⟨hg', (SameAccesses.of_takesBack hback).trans (hgrows.sameAccesses haddr)⟩

/-- `handleLoad` of a CAS that blocks. -/
lemma handleBlockedLoad (hg : DriverInvariant g) {lab : EventLabel}
    (hroom : DriverCall.HasRoom g) (hadds : DriverCall.AddsNext g lab) (hread : lab.body.isRead)
    (h : g.handleBlockedLoad lab = some g') : DriverInvariant g' ∧ SameAccesses g g' := by
  obtain ⟨g₁, hadd, h⟩ := Option.bind_eq_some_iff.mp h
  obtain ⟨addr, -, hblock⟩ := Option.bind_eq_some_iff.mp h
  obtain ⟨hg₁, hgrows, hnext, hsourced⟩ := hg.addRead (Nat.lt_of_succ_lt hroom) hadds.new
    (extends_of_addsNext hg.closed hadds) hread hadd
  have hindex : lab.pos.index ≠ 0 := by
    intro hzero
    have hstart := hadds.new.fresh.starts hzero
    cases hb : lab.body <;> simp_all [LabelBody.isThreadStart, LabelBody.isRead]
  have hnew : New (readOptBlock lab.pos addr) :=
    ⟨⟨rfl, rfl, rfl, fun hzero => absurd hzero hindex⟩, rfl, rfl, rfl⟩
  have hlast : lab.pos = g₁.lastPos lab.pos.thread :=
    (lastPos_eq ((hgrows.containsPos lab.pos).mpr (Or.inl rfl)) hnext).symm
  have hroom₁ : g₁.timestamp + 1 < stampSize := by
    rw [hgrows.timestamp]
    exact hroom
  have htaken : DriverCall.TakenBack g₁ lab.pos := by
    refine ⟨?_, ?_⟩
    · rw [hgrows.isa, if_pos rfl]
      exact hread
    · rw [hgrows.rfOf, if_pos rfl]
      simp
  have hsourced' : ∀ r, r ≠ (readOptBlock lab.pos addr).pos → g₁.isa LabelBody.isRead r →
      (g₁.rfOf r).isSome := hsourced
  obtain ⟨hg', g₂, hback, hgrows'⟩ :=
    hg₁.replaceLast hsourced' hnew hroom₁ rfl hlast (Or.inr htaken) hblock
  have hsame := (SameAccesses.of_takesBack hback).trans (hgrows'.sameAccesses rfl)
  refine ⟨hg', fun e s hs => ?_,
    fun e s s' hnext' hs => hsame.followed e s s' hnext' (hgrows.accessAt_of_some hs),
    fun a => (hsame.co a).trans (hgrows.co a)⟩
  rw [← hgrows.accessAt]
  · exact hsame.accessAt e s hs
  · -- A block label stands where the read was.
    rintro rfl
    obtain ⟨lab', hlab', haddr', -⟩ := getEventLabel_of_accessAt hs
    have hnone := hgrows'.addrOf lab.pos
    rw [addrOf_of_getEventLabel hlab', haddr',
      if_pos (show lab.pos = (readOptBlock lab.pos addr).pos from rfl)] at hnone
    cases hnone

end DriverInvariant

/-! ## Starting threads -/

/-- The thread of a create is a new one, or its begin knows the create. -/
lemma threadCreatedBy_cases (g : ExecutionGraph) (pos : Event) :
    g.threadCreatedBy pos = g.getNumThreads ∨
      ∃ lab, g.getEventLabel ⟨g.threadCreatedBy pos, 0⟩ = some lab ∧
        lab.body.parentCreate = some pos := by
  unfold threadCreatedBy
  cases hfind : (List.range g.getNumThreads).find? fun t =>
      (g.getEventLabel ⟨t, 0⟩).any fun lab => decide (lab.body.parentCreate = some pos) with
  | none => exact Or.inl rfl
  | some t =>
    right
    have hany := List.find?_some hfind
    cases hlab : g.getEventLabel ⟨t, 0⟩ with
    | none =>
      rw [hlab] at hany
      cases hany
    | some lab =>
      rw [hlab] at hany
      exact ⟨lab, hlab, of_decide_eq_true hany⟩

/-- A graph in which a thread waits for its begin label. -/
structure AwaitsBegin (g : ExecutionGraph) (cid : ℕ) (g' : ExecutionGraph) : Prop where
  /-- The mutators keep this. -/
  linked : Linked g'
  /-- Stamps, sources and prefix views fit together. -/
  closed : PrefixClosed g'
  /-- The accesses are those of the graph before. -/
  accesses : SameAccesses g g'
  /-- The thread has no labels. -/
  empty : g'.getThreadSize cid = 0
  /-- The others have labels. -/
  started : ∀ t < g'.getNumThreads, t ≠ cid → g'.containsPos ⟨t, 0⟩
  /-- The timestamp is that of the graph before. -/
  timestamp : g'.timestamp = g.timestamp

/-- A new thread. -/
lemma awaitsBegin_addNewThread (hg : DriverInvariant g) :
    AwaitsBegin g g.getNumThreads g.addNewThread := by
  have hlabel := getEventLabel_addNewThread (g := g)
  have hcontains : ∀ e, g.addNewThread.containsPos e = g.containsPos e := by
    intro e
    unfold ExecutionGraph.containsPos
    rw [hlabel]
  have hisa : ∀ (p : LabelBody → Bool) e, g.addNewThread.isa p e = g.isa p e := by
    intro p e
    rw [isa, hlabel, isa]
  have hrf : ∀ r, g.addNewThread.rfOf r = g.rfOf r := by
    intro r
    rw [rfOf, hlabel, rfOf]
  have hstamp : ∀ e, g.addNewThread.stampOf e = g.stampOf e := by
    intro e
    rw [stampOf, hlabel, stampOf]
  have haccess : ∀ e, g.addNewThread.accessAt e = g.accessAt e := by
    intro e
    rw [accessAt, hlabel, accessAt]
  refine ⟨hg.linked.addNewThread, hg.closed.congr hg.linked.readerLists
    (fun e => by unfold viewOf; rw [hlabel]) hcontains (fun p _ => hisa p)
    (fun e e' _ _ => by rw [hstamp, hstamp]) fun r _ => hrf r,
    ⟨fun e s hs => haccess e ▸ hs, fun e s _ _ hs => (haccess e).trans hs, fun _ => rfl⟩, ?_,
    fun t ht hne => ?_, rfl⟩
  · by_contra hne
    have hc : g.addNewThread.containsPos ⟨g.getNumThreads, 0⟩ :=
      containsPos_iff_lt.mpr (Nat.pos_of_ne_zero hne)
    rw [hcontains] at hc
    obtain ⟨lab, hlab⟩ := containsPos_iff.mp hc
    exact absurd (thread_lt_of_getEventLabel hlab) (lt_irrefl _)
  · rw [hcontains]
    have hthreads : g.addNewThread.getNumThreads = g.getNumThreads + 1 := by
      unfold getNumThreads ExecutionGraph.addNewThread
      simp
    exact hg.settled.started t (by omega)

/-- A thread that has nothing but its begin, without it. -/
lemma awaitsBegin_removeLast (hg : DriverInvariant g) {cid : ℕ} (hcid : cid ≠ 0)
    (hsize : g.getThreadSize cid = 1) (h : g.removeLast cid = some g') :
    AwaitsBegin g cid g' := by
  have hlast : g.lastPos cid = ⟨cid, 0⟩ := by
    unfold lastPos
    rw [hsize]
  obtain ⟨lab, hlab⟩ := containsPos_iff.mp
    (containsPos_iff_lt.mpr (hsize ▸ Nat.one_pos) : g.containsPos ⟨cid, 0⟩)
  have hbody := hg.linked.stamped.positioned.starts _ lab hlab rfl
  have hinit : g.lastPos cid ≠ .init := by
    rw [hlast]
    exact fun heq => hcid (congrArg Event.thread heq)
  have hstart : g.isa LabelBody.isThreadStart (g.lastPos cid) := by
    rw [hlast]
    exact isa_iff.mpr ⟨lab, hlab, hbody⟩
  have ht := removable_of_isBlock hinit (Or.inr hstart)
  have hreaches : g.isa LabelBody.reachesOthers (g.lastPos cid) = false := by
    rw [hlast, isa_of_getEventLabel hlab]
    cases hb : lab.body with
    | threadStart => rfl
    | init =>
      refine absurd ((hg.linked.stamped.positioned.initOnly _).mp ?_) hinit
      rw [hlast, isa_of_getEventLabel hlab, hb]
      rfl
    | _ =>
      rw [hb] at hbody
      cases hbody
  have hback := hg.linked.removeLast_takesBack ht h
  refine ⟨hg.linked.removeLast ht h,
    hg.closed.takesBack hg.linked.readerLists hback ht hreaches,
    SameAccesses.of_takesBack hback, ?_, fun t ht' hne => ?_, hback.timestamp⟩
  · rw [hback.getThreadSize, hsize]
  · rw [hback.numThreads] at ht'
    refine (hback.containsPos_iff _).mpr ⟨fun heq => hne ?_, hg.settled.started t ht'⟩
    rw [hlast] at heq
    exact congrArg Event.thread heq

/-- The begin label of a thread that waits for it. -/
lemma AwaitsBegin.addBegin {g'' : ExecutionGraph} {cid : ℕ} {pos : Event}
    (hg : DriverInvariant g) (h : AwaitsBegin g cid g') (hroom : g.timestamp + 1 < stampSize)
    (hadd : g'.addLabelWithViews { pos := ⟨cid, 0⟩, body := .threadStart pos } = some g'') :
    DriverInvariant g'' ∧ SameAccesses g g'' := by
  have hlastPos : g'.containsPos (g'.lastPos cid) = false := by
    rw [Bool.eq_false_iff]
    intro hc
    have hlt : g'.getThreadSize cid - 1 < g'.getThreadSize cid := containsPos_iff_lt.mp hc
    rw [h.empty] at hlt
    exact absurd hlt (lt_irrefl _)
  have hfinish : g'.isa LabelBody.isThreadFinish (g'.lastPos cid) = false := by
    rw [Bool.eq_false_iff]
    intro hfinish
    rw [containsPos_of_isa hfinish] at hlastPos
    cases hlastPos
  have hext : Extends g' ⟨cid, 0⟩ := by
    refine ⟨h.empty.symm, h.closed.unjoined hfinish, fun pLab c hpLab _ => ?_⟩
    have hlt := containsPos_iff_lt.mp (containsPos_iff.mpr ⟨pLab, hpLab⟩)
    rw [h.empty] at hlt
    cases hlt
  obtain ⟨hlinked, hclosed, hgrows⟩ := addLabelWithViews_spec h.linked h.closed
    ⟨⟨rfl, rfl, rfl, fun _ => rfl⟩, rfl, rfl, by exact rfl⟩ (h.timestamp ▸ hroom) hext rfl hadd
    (not_isJoinOf rfl)
  have hsame := h.accesses.trans (hgrows.sameAccesses rfl)
  refine ⟨⟨hlinked, ⟨fun t ht => ?_, hsame.placed hg.settled⟩, hclosed, hsame.sourced hg⟩, hsame⟩
  rw [hgrows.numThreads] at ht
  by_cases hne : t = cid
  · exact (hgrows.containsPos _).mpr (Or.inl (by rw [hne]))
  · exact (hgrows.containsPos _).mpr (Or.inr (h.started t ht hne))

/-- `handleThreadCreate`. -/
lemma DriverInvariant.handleThreadCreate (hg : DriverInvariant g) {pos : Event}
    (hroom : DriverCall.HasRoom g) (hindex : pos.index = g.getThreadSize pos.thread)
    (hpos : pos.index ≠ 0) (hthread : DriverCall.Scheduled g pos.thread)
    (h : g.handleThreadCreate pos = some g') : DriverInvariant g' ∧ SameAccesses g g' := by
  obtain ⟨g₁, hadd, h⟩ := Option.bind_eq_some_iff.mp h
  obtain ⟨g₂, hcreate, hbegin⟩ := Option.bind_eq_some_iff.mp h
  obtain ⟨hg₁, hgrows⟩ := hg.addLabel hroom
    (addsNext_of_body hindex rfl rfl rfl (by exact rfl) hpos hthread) rfl rfl hadd
    (not_isJoinOf rfl)
  have hawaits : AwaitsBegin g₁ (g.threadCreatedBy pos) g₂ := by
    split at hcreate
    next hnew =>
      rw [hnew]
      exact Option.some.inj hcreate ▸ awaitsBegin_addNewThread hg₁
    next hold =>
      split at hcreate
      next hsize =>
        refine awaitsBegin_removeLast hg₁ (fun hzero => ?_) hsize hcreate
        -- The begin of the main thread is the initializer, which no create has started.
        obtain ⟨lab, hlab, hparent⟩ := (threadCreatedBy_cases g pos).resolve_left
          (hgrows.numThreads ▸ hold)
        rw [hzero] at hlab
        have hinit := (hg.linked.stamped.positioned.initOnly .init).mpr rfl
        rw [isa_of_getEventLabel (e := .init) hlab] at hinit
        cases hb : lab.body with
        | init =>
          rw [hb] at hparent
          exact hpos (congrArg Event.index (Option.some.inj hparent)).symm
        | _ =>
          rw [hb] at hinit
          cases hinit
      next => cases hcreate
  have hroom₁ : g₁.timestamp + 1 < stampSize := by
    rw [hgrows.timestamp]
    exact hroom
  obtain ⟨hg', hsame⟩ := hawaits.addBegin hg₁ hroom₁ hbegin
  exact ⟨hg', (hgrows.sameAccesses rfl).trans hsame⟩

end ExecutionGraph

end GenMC
