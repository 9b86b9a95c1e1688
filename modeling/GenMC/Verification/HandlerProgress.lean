import GenMC.Verification.DriverCalls

/-!
# Handlers do not fail

A thread that runs can be extended: the labels whose prefixes make up the view of its next label are
in the graph, and none of them is a block label, so that all of them have views.
-/

namespace GenMC

namespace ExecutionGraph

variable {g g' : ExecutionGraph}

/-- Every label but a block label has a view. -/
lemma DriverInvariant.exists_view (hg : DriverInvariant g) {e : Event} (he : g.containsPos e)
    (hblock : g.isa LabelBody.isBlock e = false) : ∃ u, g.viewOf e = some (.view u) := by
  have hne : g.viewOf e ≠ none := fun hnone => by
    rw [(hg.closed.blocks e he).mp hnone] at hblock
    cases hblock
  obtain ⟨v, hv⟩ := Option.ne_none_iff_exists'.mp hne
  obtain ⟨u, rfl, -⟩ := hg.closed.self e v hv
  exact ⟨u, hv⟩

/-- A label of a class without block labels has a view. -/
lemma DriverInvariant.exists_view_of_class (hg : DriverInvariant g) {p : LabelBody → Bool}
    (hp : ∀ b, p b → b.isBlock = false) {e : Event} (he : g.isa p e) :
    ∃ u, g.viewOf e = some (.view u) := by
  obtain ⟨lab, hlab, hbody⟩ := isa_iff.mp he
  refine hg.exists_view (containsPos_of_isa he) ?_
  rw [isa_of_getEventLabel hlab]
  exact hp _ hbody

/-- Ends of threads are no block labels. -/
lemma LabelBody.isBlock_of_isThreadFinish {b : LabelBody} (h : b.isThreadFinish) :
    b.isBlock = false := by
  cases b with
  | threadFinish => rfl
  | _ => cases h

/-- Creates of threads are no block labels. -/
lemma LabelBody.isBlock_of_isThreadCreate {b : LabelBody} (h : b.isThreadCreate) :
    b.isBlock = false := by
  cases b with
  | plain k => cases k <;> first | rfl | cases h
  | _ => rfl

/-- The initializer is no block label. -/
lemma LabelBody.isBlock_of_isInit {b : LabelBody} (h : b.isInit) : b.isBlock = false := by
  cases b with
  | init => rfl
  | _ => cases h

/-- What is directly before the next label of a thread that runs has a view. -/
lemma DriverInvariant.view_of_directlyBefore (hg : DriverInvariant g) {t : ℕ}
    (ht : g.getThreadSize t ≠ 0) (hthread : DriverCall.Scheduled g t) {s : Event}
    (hs : DirectlyBefore g (g.lastPos t) s) : ∃ u, g.viewOf s = some (.view u) := by
  have hlast : g.containsPos (g.lastPos t) :=
    containsPos_iff_lt.mpr (Nat.sub_one_lt ht)
  cases hs with
  | prev =>
    refine hg.exists_view hlast ?_
    rw [Bool.eq_false_iff]
    intro hblock
    obtain ⟨lab, hlab, hbody⟩ := isa_iff.mp hblock
    have hrunning := hthread.running
    rw [isa_of_getEventLabel hlab, LabelBody.isTerminator, hbody] at hrunning
    simp at hrunning
  | source hw =>
    rcases hg.linked.readerLists.sources _ s hw with hwrite | hinit
    · exact hg.exists_view_of_class (fun b hb => (LabelBody.classes_of_isWrite hb).1) hwrite
    · exact hg.exists_view_of_class (fun b => LabelBody.isBlock_of_isInit) hinit
  | create hlab hc =>
    rcases hthread.created _ hlab s hc with hcreate | hinit
    · exact hg.exists_view_of_class (fun b => LabelBody.isBlock_of_isThreadCreate) hcreate
    · exact hg.exists_view_of_class (fun b => LabelBody.isBlock_of_isInit) hinit
  | join hj =>
    exact hg.exists_view_of_class (fun b => LabelBody.isBlock_of_isThreadFinish)
      (hg.closed.joins _ _ hj).1

/-- A view can be added. -/
lemma updatePrefix_eq_some {e : Event} {u : View} (h : g.viewOf e = some (.view u)) (v : View) :
    g.updatePrefix e v = some (v.update u) := by
  unfold updatePrefix
  rw [h]
  rfl

/-- If everything directly before a position has a view, the position gets one. -/
lemma calcPPoRfBefore_isSome {pos : Event} {pLab : EventLabel}
    (hpLab : g.getEventLabel ⟨pos.thread, pos.index - 1⟩ = some pLab)
    (hsourced : pLab.body.isRead → ∃ w, pLab.body.rf = some w)
    (hviews : ∀ s, DirectlyBefore g ⟨pos.thread, pos.index - 1⟩ s →
      ∃ u, g.viewOf s = some (.view u)) : ∃ v, g.calcPPoRfBefore pos = some v := by
  unfold calcPPoRfBefore
  split
  · exact ⟨_, rfl⟩
  · have hupdate (s : Event) (hs : DirectlyBefore g ⟨pos.thread, pos.index - 1⟩ s) (v : View) :
        ∃ v', g.updatePrefix s v = some v' := by
      obtain ⟨u, hu⟩ := hviews s hs
      exact ⟨_, updatePrefix_eq_some hu v⟩
    obtain ⟨v₁, h₁⟩ := hupdate _ .prev (View.empty.updateIdx pos)
    obtain ⟨v₂, h₂⟩ : ∃ v₂, (if pLab.body.isRead then pLab.body.rf.bind (g.updatePrefix · v₁)
        else some v₁) = some v₂ := by
      split
      next hread =>
        obtain ⟨w, hw⟩ := hsourced hread
        rw [hw]
        exact hupdate w (.source ((rfOf_of_getEventLabel hpLab).trans hw)) v₁
      next => exact ⟨v₁, rfl⟩
    obtain ⟨v₃, h₃⟩ : ∃ v₃, pLab.body.parentCreate.elim (some v₂) (g.updatePrefix · v₂) =
        some v₃ := by
      cases hc : pLab.body.parentCreate with
      | some c => exact hupdate c (.create hpLab hc) v₂
      | none => exact ⟨v₂, rfl⟩
    obtain ⟨v₄, h₄⟩ : ∃ v₄, pLab.body.joinedThread.elim (some v₃)
        (fun t => g.updatePrefix (g.lastPos t) v₃) = some v₄ := by
      cases ht : pLab.body.joinedThread with
      | some t =>
        have hjoin : pLab.body.isJoinOf t := decide_eq_true ht
        exact hupdate _ (.join (isa_iff.mpr ⟨pLab, hpLab, hjoin⟩)) v₃
      | none => exact ⟨v₃, rfl⟩
    refine ⟨v₄, ?_⟩
    simp only [Option.bind_eq_bind, hpLab, Option.bind_some, h₁, h₂]
    generalize pLab.body.parentCreate = create at h₃ ⊢
    generalize pLab.body.joinedThread = joined at h₄ ⊢
    cases create <;> cases joined <;> exact Option.bind_eq_some_iff.mpr ⟨v₃, h₃, h₄⟩

/-- **Progress.**  The next label of a thread that runs can be added with its view, if it is no
memory access. -/
lemma DriverInvariant.addLabelWithViews_isSome (hg : DriverInvariant g) {lab : EventLabel}
    (hadds : DriverCall.AddsNext g lab) (hindex : lab.pos.index ≠ 0)
    (haddr : lab.body.addr = none) : ∃ g', g.addLabelWithViews lab = some g' := by
  have hsize : g.getThreadSize lab.pos.thread ≠ 0 := hadds.index ▸ hindex
  have hthread : lab.pos.thread < g.getNumThreads := by
    by_contra hge
    refine hsize ?_
    unfold getThreadSize
    rw [List.getD_eq_default _ _ (not_lt.mp hge)]
    rfl
  have hlast : (⟨lab.pos.thread, lab.pos.index - 1⟩ : Event) = g.lastPos lab.pos.thread :=
    Event.ext rfl (congrArg (· - 1) hadds.index)
  obtain ⟨pLab, hpLab⟩ : ∃ pLab, g.getEventLabel (g.lastPos lab.pos.thread) = some pLab :=
    containsPos_iff.mp (containsPos_iff_lt.mpr (Nat.sub_one_lt hsize))
  have hinit : g.isa LabelBody.isInit .init := hg.wellFormed.isa_init
  obtain ⟨g₁, hadd⟩ := addLabelToGraph_isSome lab hinit hthread hadds.index
  have hadds₁ := addLabelToGraph_spec hadd
  have hfree := containsPos_eq_false hadds.index
  have hprev : (⟨lab.pos.thread, lab.pos.index - 1⟩ : Event) ≠ lab.pos := fun heq => by
    have := congrArg Event.index heq
    dsimp only at this
    omega
  have hpLab₁ : g₁.getEventLabel ⟨lab.pos.thread, lab.pos.index - 1⟩ = some pLab := by
    rw [hadds₁.getEventLabel, if_neg hprev, hlast, hpLab]
  obtain ⟨v, hv⟩ : ∃ v, g₁.calcPPoRfBefore lab.pos = some v := by
    refine calcPPoRfBefore_isSome hpLab₁ (fun hread => ?_) fun s hs => ?_
    · refine Option.isSome_iff_exists.mp ?_
      rw [← rfOf_of_getEventLabel hpLab]
      exact hg.sourced _ (isa_iff.mpr ⟨pLab, hpLab, hread⟩)
    · -- What is directly before the label was so before it was added.
      rw [viewOf_of_adds hadds₁ hadds.new hfree]
      refine hg.view_of_directlyBefore hsize hadds.scheduled ?_
      rw [← hlast]
      exact (directlyBefore_iff_of_adds hadds₁ hadds.new.fresh hindex
        (hg.closed.unjoined (isThreadFinish_eq_false hadds.scheduled.running))).mpr hs
  unfold addLabelWithViews
  simp only [Option.bind_eq_bind, hadd, Option.bind_some, hv, haddr]
  exact ⟨_, rfl⟩

end ExecutionGraph

end GenMC
