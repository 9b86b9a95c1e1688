import GenMC.Verification.ThreadLinks

/-!
# Creating a thread

`handleThreadCreate` adds a create, then makes a thread or empties the one that the same create has
made before, and adds its begin.  The links between threads stay right, because the thread that is
looked up is the only one that points to the create.
-/

namespace GenMC

namespace ExecutionGraph

variable {g g' : ExecutionGraph}

/-- `g'` is `g` where a thread has no label any more, or not yet. -/
structure Empties (g : ExecutionGraph) (t : ℕ) (g' : ExecutionGraph) : Prop where
  /-- The thread has no labels. -/
  empty : g'.getThreadSize t = 0
  /-- The positions. -/
  containsPos : ∀ e, g'.containsPos e ↔ e ≠ ⟨t, 0⟩ ∧ g.containsPos e
  /-- The classes. -/
  isa : ∀ (p : LabelBody → Bool) [ClassTest p] e, g'.isa p e ↔ e ≠ ⟨t, 0⟩ ∧ g.isa p e
  /-- The addresses. -/
  addrOf : ∀ e, g'.addrOf e = if e = ⟨t, 0⟩ then none else g.addrOf e
  /-- The sources. -/
  rfOf : ∀ r, g'.rfOf r = if r = ⟨t, 0⟩ then none else g.rfOf r
  /-- The coherence orders. -/
  co : ∀ a, g'.co a = g.co a
  /-- The pointers to joins. -/
  parentJoinOf : ∀ f, g'.parentJoinOf f = if f = ⟨t, 0⟩ then none else g.parentJoinOf f

/-- A new thread. -/
lemma empties_addNewThread (hg : DriverInvariant g) :
    Empties g g.getNumThreads g.addNewThread := by
  have hlabel := getEventLabel_addNewThread (g := g)
  have hnone : g.getEventLabel ⟨g.getNumThreads, 0⟩ = none := by
    by_contra hsome
    obtain ⟨lab, hlab⟩ := Option.ne_none_iff_exists'.mp hsome
    exact absurd (thread_lt_of_getEventLabel hlab) (lt_irrefl _)
  have hno : ∀ {α : Type} (f : EventLabel → Option α) (e : Event),
      ((g.addNewThread.getEventLabel e).bind f) =
        if e = ⟨g.getNumThreads, 0⟩ then none else (g.getEventLabel e).bind f := by
    intro α f e
    rw [hlabel]
    split
    next heq => rw [heq, hnone, Option.bind_none]
    next => rfl
  refine ⟨(awaitsBegin_addNewThread hg).empty, fun e => ?_, fun p _ e => ?_, hno _, hno _,
    fun _ => rfl, hno _⟩
  · unfold ExecutionGraph.containsPos
    rw [hlabel]
    refine ⟨fun h => ⟨?_, h⟩, fun h => h.2⟩
    rintro rfl
    rw [hnone] at h
    cases h
  · unfold ExecutionGraph.isa
    rw [hlabel]
    refine ⟨fun h => ⟨?_, h⟩, fun h => h.2⟩
    rintro rfl
    rw [hnone] at h
    cases h

/-- A thread that has nothing but its begin, without it. -/
lemma empties_removeLast (hg : DriverInvariant g) {t : ℕ} (ht : t ≠ 0)
    (hsize : g.getThreadSize t = 1) (h : g.removeLast t = some g') : Empties g t g' := by
  have hlast : g.lastPos t = ⟨t, 0⟩ := by
    unfold lastPos
    rw [hsize]
  obtain ⟨lab, hlab⟩ := containsPos_iff.mp
    (containsPos_iff_lt.mpr (hsize ▸ Nat.one_pos) : g.containsPos ⟨t, 0⟩)
  have hinit : g.lastPos t ≠ .init := by
    rw [hlast]
    exact fun heq => ht (congrArg Event.thread heq)
  have hstart : g.isa LabelBody.isThreadStart (g.lastPos t) := by
    rw [hlast]
    exact isa_iff.mpr ⟨lab, hlab, hg.linked.stamped.positioned.starts _ lab hlab rfl⟩
  have hback := hg.linked.removeLast_takesBack (removable_of_isBlock hinit (Or.inr hstart)) h
  refine ⟨(awaitsBegin_removeLast hg ht hsize h).empty, fun e => ?_, fun p _ e => ?_,
    hlast ▸ hback.addrOf, hlast ▸ hback.rfOf, hback.co, hlast ▸ hback.parentJoinOf⟩
  · rw [← hlast]
    exact hback.containsPos_iff e
  · rw [hback.isa, hlast]
    split <;> simp [*]

/-- The begin label of a thread that waits for it. -/
lemma AwaitsBegin.grows {g'' : ExecutionGraph} {cid : ℕ} {pos : Event}
    (h : AwaitsBegin g cid g') (hroom : g.timestamp + 1 < stampSize)
    (hadd : g'.addLabelWithViews { pos := ⟨cid, 0⟩, body := .threadStart pos } = some g'') :
    GrowsBy g' { pos := ⟨cid, 0⟩, body := .threadStart pos } g'' := by
  have hfinish : g'.isa LabelBody.isThreadFinish (g'.lastPos cid) = false := by
    rw [Bool.eq_false_iff]
    intro hfinish
    have hlt : g'.getThreadSize cid - 1 < g'.getThreadSize cid :=
      containsPos_iff_lt.mp (containsPos_of_isa hfinish)
    rw [h.empty] at hlt
    exact absurd hlt (lt_irrefl _)
  have hext : Extends g' ⟨cid, 0⟩ := by
    refine ⟨h.empty.symm, h.closed.unjoined hfinish, fun pLab c hpLab _ => ?_⟩
    have hlt := containsPos_iff_lt.mp (containsPos_iff.mpr ⟨pLab, hpLab⟩)
    rw [h.empty] at hlt
    cases hlt
  exact (addLabelWithViews_spec h.linked h.closed ⟨⟨rfl, rfl, rfl, fun _ => rfl⟩, rfl, rfl,
    by exact rfl⟩ (h.timestamp ▸ hroom) hext rfl hadd (not_isJoinOf rfl)).2.2

/-- What `handleThreadCreate` does. -/
structure CreatesThread (g : ExecutionGraph) (pos : Event) (g' : ExecutionGraph) : Prop where
  /-- The create is added, the thread is made or emptied, and its begin is added. -/
  stages : ∃ g₁ g₂,
    GrowsBy g { pos := pos, body := .plain (.threadCreate (g.threadCreatedBy pos)) } g₁ ∧
    Empties g₁ (g.threadCreatedBy pos) g₂ ∧ Linked g₂ ∧
    GrowsBy g₂ { pos := ⟨g.threadCreatedBy pos, 0⟩, body := .threadStart pos } g'
  /-- A thread does not create itself. -/
  thread_ne : g.threadCreatedBy pos ≠ pos.thread
  /-- The pointers to joins. -/
  parentJoinOf : ∀ f, g'.parentJoinOf f =
    if f = ⟨g.threadCreatedBy pos, 0⟩ ∨ f = pos then none else g.parentJoinOf f
  /-- The thread is a new one, or has been made by the create before. -/
  parent : g.containsPos ⟨g.threadCreatedBy pos, 0⟩ →
    g.parentCreateOf ⟨g.threadCreatedBy pos, 0⟩ = some pos ∧
      g.lastPos (g.threadCreatedBy pos) = ⟨g.threadCreatedBy pos, 0⟩

/-- `handleThreadCreate`. -/
lemma DriverInvariant.createsThread (hg : DriverInvariant g) {pos : Event}
    (hroom : DriverCall.HasRoom g) (hindex : pos.index = g.getThreadSize pos.thread)
    (hpos : pos.index ≠ 0) (hthread : DriverCall.Scheduled g pos.thread)
    (h : g.handleThreadCreate pos = some g') : CreatesThread g pos g' := by
  obtain ⟨g₁, hadd, h⟩ := Option.bind_eq_some_iff.mp h
  obtain ⟨g₂, hcreate, hbegin⟩ := Option.bind_eq_some_iff.mp h
  have hadds : DriverCall.AddsNext g
      { pos := pos, body := .plain (.threadCreate (g.threadCreatedBy pos)) } :=
    addsNext_of_body hindex rfl rfl rfl (by exact rfl) hpos hthread
  obtain ⟨hg₁, hgrows⟩ := hg.addLabel hroom hadds rfl rfl hadd (not_isJoinOf rfl)
  have hroom₁ : g₁.timestamp + 1 < stampSize := by
    rw [hgrows.timestamp]
    exact hroom
  obtain ⟨hawaits, hempties, hthread, hparent⟩ : AwaitsBegin g₁ (g.threadCreatedBy pos) g₂ ∧
      Empties g₁ (g.threadCreatedBy pos) g₂ ∧ g.threadCreatedBy pos ≠ pos.thread ∧
      (g.containsPos ⟨g.threadCreatedBy pos, 0⟩ →
        g.parentCreateOf ⟨g.threadCreatedBy pos, 0⟩ = some pos ∧
          g.lastPos (g.threadCreatedBy pos) = ⟨g.threadCreatedBy pos, 0⟩) := by
    split at hcreate
    next hnew =>
      rw [hnew]
      refine ⟨Option.some.inj hcreate ▸ awaitsBegin_addNewThread hg₁,
        Option.some.inj hcreate ▸ empties_addNewThread hg₁, ?_, fun hc => ?_⟩
      · rw [hgrows.numThreads]
        exact hgrows.thread.ne'
      · obtain ⟨lab, hlab⟩ := containsPos_iff.mp hc
        have hlt := thread_lt_of_getEventLabel hlab
        rw [hgrows.numThreads] at hlt
        exact absurd hlt (lt_irrefl _)
    next hold =>
      split at hcreate
      next hsize =>
        obtain ⟨lab, hlab, hparent⟩ := (threadCreatedBy_cases g pos).resolve_left
          (hgrows.numThreads ▸ hold)
        -- The begin of the main thread is the initializer, which no create has started.
        have hne : g.threadCreatedBy pos ≠ 0 := by
          intro hzero
          rw [hzero] at hlab
          have hinit := (hg.linked.stamped.positioned.initOnly .init).mpr rfl
          rw [isa_of_getEventLabel (e := .init) hlab] at hinit
          cases hb : lab.body with
          | init =>
            rw [hb] at hparent
            exact hpos (congrArg Event.index (Option.some.inj hparent)).symm
          | _ =>
            rw [hb] at hinit
            cases hinit
        have hthread : g.threadCreatedBy pos ≠ pos.thread := by
          intro heq
          have hlt := containsPos_iff_lt.mp ((hgrows.containsPos pos).mpr (.inl rfl))
          rw [← heq, hsize] at hlt
          omega
        refine ⟨awaitsBegin_removeLast hg₁ hne hsize hcreate,
          empties_removeLast hg₁ hne hsize hcreate, hthread, fun hc => ⟨?_, ?_⟩⟩
        · unfold parentCreateOf
          rw [hlab]
          exact hparent
        · rw [← lastPos_of_added_of_ne hgrows.containsPos hthread]
          unfold lastPos
          rw [hsize]
      next => cases hcreate
  refine ⟨⟨g₁, g₂, hgrows, hempties, hawaits.linked, hawaits.grows hroom₁ hbegin⟩, hthread,
    fun f => ?_, hparent⟩
  rw [parentJoinOf_addLabelWithViews
      ⟨⟨rfl, rfl, rfl, fun _ => rfl⟩, rfl, rfl, by exact rfl⟩ hbegin,
    hempties.parentJoinOf, parentJoinOf_addLabelWithViews hadds.new hadd]
  by_cases h₁ : f = ⟨g.threadCreatedBy pos, 0⟩
  · simp [h₁]
  · by_cases h₂ : f = pos <;> simp [h₁, h₂]

namespace CreatesThread

variable {pos : Event} (h : CreatesThread g pos g')
include h

/-- The positions. -/
lemma containsPos (e : Event) : g'.containsPos e ↔
    e = ⟨g.threadCreatedBy pos, 0⟩ ∨ e = pos ∨ g.containsPos e := by
  obtain ⟨g₁, g₂, hcreate, hempties, -, hbegin⟩ := h.stages
  rw [hbegin.containsPos, hempties.containsPos, hcreate.containsPos]
  by_cases heq : e = ⟨g.threadCreatedBy pos, 0⟩ <;> simp [heq]

/-- The classes. -/
lemma isa (p : LabelBody → Bool) [ClassTest p] (e : Event) : g'.isa p e =
    if e = ⟨g.threadCreatedBy pos, 0⟩ then p (.threadStart pos)
    else if e = pos then p (.plain (.threadCreate (g.threadCreatedBy pos))) else g.isa p e := by
  obtain ⟨g₁, g₂, hcreate, hempties, -, hbegin⟩ := h.stages
  rw [hbegin.isa]
  split
  · rfl
  next hne =>
    rw [← hcreate.isa p e, Bool.eq_iff_iff]
    exact (hempties.isa p e).trans (and_iff_right hne)

/-- The joins of the threads. -/
lemma joinedOf {j : Event} {t : ℕ} (hpos : g.containsPos pos = false)
    (hparent : g.isa (LabelBody.isJoinOf t) ⟨g.threadCreatedBy pos, 0⟩ = false) :
    g'.joinedOf j = some t ↔ g.joinedOf j = some t := by
  rw [joinedOf_eq_some_iff, joinedOf_eq_some_iff, h.isa]
  split
  next heq =>
    rw [heq, hparent]
    simp [LabelBody.isJoinOf, LabelBody.joinedThread]
  next =>
    split
    next heq =>
      rw [heq]
      refine ⟨fun hj => by simp [LabelBody.isJoinOf, LabelBody.joinedThread] at hj, fun hj => ?_⟩
      rw [containsPos_of_isa hj] at hpos
      cases hpos
    next => rfl

end CreatesThread

/-- The thread that `handleThreadCreate` finds is the one that points to the create. -/
lemma ThreadLinks.threadCreatedBy_eq (hlinks : ThreadLinks g) {pos : Event} {t : ℕ}
    (ht : g.parentCreateOf ⟨t, 0⟩ = some pos) : g.threadCreatedBy pos = t := by
  obtain ⟨lab, hlab, hparent⟩ := Option.bind_eq_some_iff.mp ht
  have hmem : t ∈ List.range g.getNumThreads :=
    List.mem_range.mpr (thread_lt_of_getEventLabel hlab)
  have hfinds : ((g.getEventLabel ⟨t, 0⟩).any fun lab =>
      decide (lab.body.parentCreate = some pos)) = true := by
    rw [hlab]
    exact decide_eq_true hparent
  unfold threadCreatedBy
  cases hfind : (List.range g.getNumThreads).find? fun t =>
      (g.getEventLabel ⟨t, 0⟩).any fun lab => decide (lab.body.parentCreate = some pos) with
  | none => exact absurd hfinds (List.find?_eq_none.mp hfind t hmem)
  | some t' =>
    have hany := List.find?_some hfind
    refine hlinks.parents t' t pos ?_ ht
    cases hlab' : g.getEventLabel ⟨t', 0⟩ with
    | none =>
      rw [hlab'] at hany
      cases hany
    | some lab' =>
      rw [hlab'] at hany
      unfold parentCreateOf
      rw [hlab', Option.bind_some]
      exact of_decide_eq_true hany

/-- **Creating a thread.** -/
lemma CreatesThread.threadLinks {pos : Event} (h : CreatesThread g pos g') (hg : DriverInvariant g)
    (hlinks : ThreadLinks g) (hindex : pos.index = g.getThreadSize pos.thread)
    (hpos : pos.index ≠ 0) (hrun : g.isa LabelBody.isTerminator (g.lastPos pos.thread) = false) :
    ThreadLinks g' := by
  set cid := g.threadCreatedBy pos with hcid
  have hfree := containsPos_eq_false hindex
  have hne : pos ≠ ⟨cid, 0⟩ := fun heq => hpos (congrArg Event.index heq)
  have hbegin : ∀ {t}, (⟨t, 0⟩ : Event) = ⟨cid, 0⟩ ↔ t = cid := by
    intro t
    simp
  have hfirst : ∀ {t}, (⟨t, 0⟩ : Event) ≠ pos := fun heq => hpos (congrArg Event.index heq).symm
  -- the thread that is created has not been joined
  have hjoined : ∀ {j t}, g.joinedOf j = some t → t ≠ cid ∧ t ≠ pos.thread := by
    intro j t hj
    have hfinish := (hg.closed.joins j t (joinedOf_eq_some_iff.mp hj)).1
    refine ⟨?_, ?_⟩
    · rintro rfl
      by_cases hc : g.containsPos ⟨cid, 0⟩
      · have hlast := (h.parent hc).2
        rw [hlast] at hfinish
        obtain ⟨lab, hlab, hbody⟩ := isa_iff.mp hfinish
        have hstart := hg.linked.stamped.positioned.starts _ lab hlab rfl
        cases hb : lab.body <;>
          simp_all [LabelBody.isThreadStart, LabelBody.isThreadFinish]
      · refine hc (containsPos_iff_lt.mpr ?_)
        have hlt := containsPos_iff_lt.mp (containsPos_of_isa hfinish)
        exact lt_of_le_of_lt (Nat.zero_le _) hlt
    · rintro rfl
      rw [isThreadFinish_eq_false hrun] at hfinish
      cases hfinish
  have hjoin : ∀ {j t}, g'.joinedOf j = some t ↔ g.joinedOf j = some t := by
    intro j t
    refine h.joinedOf hfree ?_
    rw [Bool.eq_false_iff]
    intro hj
    exact hg.linked.stamped.positioned.index_ne_zero_of_join hj rfl
  have hparent : ∀ {t c}, g'.parentCreateOf ⟨t, 0⟩ = some c ↔
      if t = cid then c = pos else g.parentCreateOf ⟨t, 0⟩ = some c := by
    intro t c
    rw [parentCreateOf_eq_some_iff, parentCreateOf_eq_some_iff, h.isa, if_neg hfirst]
    by_cases ht : t = cid
    · rw [if_pos (hbegin.mpr ht), if_pos ht]
      simp [LabelBody.isBegunBy, LabelBody.parentCreate, eq_comm]
    · rw [if_neg (fun heq => ht (hbegin.mp heq)), if_neg ht]
  have hcreated : ∀ {c t}, g'.createdOf c = some t ↔
      if c = pos then t = cid else g.createdOf c = some t := by
    intro c t
    rw [createdOf_eq_some_iff, createdOf_eq_some_iff, h.isa]
    by_cases hc : c = pos
    · rw [if_neg fun heq => hne (hc.symm.trans heq), if_pos hc, if_pos hc]
      simp [LabelBody.isCreateOf, LabelBody.createdThread, eq_comm, hcid]
    · rw [if_neg hc, if_neg hc]
      split
      next heq =>
        refine ⟨fun hcreate => by simp [LabelBody.isCreateOf, LabelBody.createdThread] at hcreate,
          fun hcreate => ?_⟩
        obtain ⟨lab, hlab, hbody⟩ := isa_iff.mp hcreate
        have hstart := hg.linked.stamped.positioned.starts c lab hlab (by rw [heq])
        cases hb : lab.body <;>
          simp_all [LabelBody.isThreadStart, LabelBody.isCreateOf, LabelBody.createdThread]
      next => rfl
  have hlastPos : ∀ {j t}, g.joinedOf j = some t → g'.lastPos t = g.lastPos t := by
    intro j t hj
    obtain ⟨hne₁, hne₂⟩ := hjoined hj
    refine lastPos_congr fun i => ?_
    rw [h.containsPos, or_iff_right, or_iff_right]
    · exact fun heq => hne₂ (congrArg Event.thread heq)
    · exact fun heq => hne₁ (congrArg Event.thread heq)
  refine ⟨⟨fun e he => ?_, fun e he hnext => ?_, fun c t hc => ?_, fun c t hp hc => ?_,
    fun j t hj => ?_, fun f j hf => ?_⟩, fun c t hc => ?_, fun t t' c ht ht' => ?_⟩
  · rw [h.isa] at he
    split at he
    next heq => rw [heq]
    next =>
      split at he
      · cases he
      · exact hlinks.begins e he
  · rw [h.isa] at he
    split at he
    · cases he
    next hb =>
      split at he
      · simp [LabelBody.isTerminator, LabelBody.isBlock, LabelBody.isThreadFinish] at he
      next hc =>
        obtain heq | heq | hnext := (h.containsPos _).mp hnext
        · exact absurd (congrArg Event.index heq) (Nat.succ_ne_zero _)
        · have hthread : e.next.thread = pos.thread := congrArg Event.thread heq
          have hindex' : e.next.index = pos.index := congrArg Event.index heq
          change e.index + 1 = pos.index at hindex'
          have hlast : e = g.lastPos pos.thread :=
            Event.ext hthread (show e.index = g.getThreadSize pos.thread - 1 by omega)
          rw [hlast, hrun] at he
          cases he
        · exact hlinks.terminators e he hnext
  · rw [hcreated] at hc
    rw [hparent]
    split at hc
    next heq => rw [if_pos hc, heq]
    next hne' =>
      have hold := hlinks.creates c t hc
      rw [if_neg]
      · exact hold
      · rintro rfl
        have hold' := (h.parent (hlinks.threads c _ hc)).1
        exact hne' (Option.some.inj (hold.symm.trans hold'))
  · rw [hparent] at hp
    rw [hcreated]
    split at hp
    next heq => rw [if_pos hp, heq]
    next hne' =>
      have hc' : c ≠ pos := by
        rintro rfl
        exact hne' (hlinks.threadCreatedBy_eq hp).symm
      rw [if_neg hc']
      rw [h.isa, if_neg hc'] at hc
      split at hc
      · cases hc
      · exact hlinks.created c t hp hc
  · rw [hjoin] at hj
    obtain ⟨hne₁, hne₂⟩ := hjoined hj
    rw [hlastPos hj, h.parentJoinOf, if_neg]
    · exact hlinks.joins j t hj
    · rintro (heq | heq)
      · exact hne₁ (congrArg Event.thread heq)
      · exact hne₂ (congrArg Event.thread heq)
  · rw [h.parentJoinOf] at hf
    split at hf
    · cases hf
    · exact hjoin.mpr (hlinks.finishes f j hf)
  · rw [hcreated] at hc
    rw [h.containsPos]
    split at hc
    · exact .inl (hbegin.mpr hc)
    · exact .inr (.inr (hlinks.threads c t hc))
  · rw [hparent] at ht ht'
    split at ht
    next heq =>
      split at ht'
      next heq' => rw [heq, heq']
      next =>
        rw [heq, hcid]
        exact hlinks.threadCreatedBy_eq (ht ▸ ht')
    next =>
      split at ht'
      next heq' =>
        rw [heq', hcid]
        exact (hlinks.threadCreatedBy_eq (ht' ▸ ht)).symm
      next => exact hlinks.parents t t' c ht ht'

end ExecutionGraph

end GenMC
