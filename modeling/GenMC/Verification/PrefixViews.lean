import GenMC.Verification.GenMCDriver

/-!
# Stamps, sources and prefix views

`PrefixClosed` relates the three: a prefix view contains the prefix views of its members, and the
source of a read was there before the next label of the read's thread was added.  A view that is
closed in the same sense, `Closed`, may cut the source of a read only together with everything
behind the read; the labels up to a stamp, a prefix view, and the union of two closed views are
closed.
-/

namespace GenMC

/-- The labels that labels of other threads come directly after. -/
def LabelBody.reachesOthers (b : LabelBody) : Bool :=
  b.isWrite || b.isInit || b.isThreadCreate || b.isThreadFinish

instance : ClassTest LabelBody.reachesOthers := ⟨fun m b => by simp [LabelBody.reachesOthers]⟩

/-- A join of a thread. -/
def LabelBody.isJoinOf (t : ℕ) (b : LabelBody) : Bool := decide (b.joinedThread = some t)

instance (t : ℕ) : ClassTest (LabelBody.isJoinOf t) := ⟨fun m b => by cases b <;> rfl⟩

/-- A join of a thread is a join. -/
lemma LabelBody.isThreadJoin_of_isJoinOf {t : ℕ} {b : LabelBody} (h : b.isJoinOf t) :
    b.isThreadJoin := by
  have hjoined := of_decide_eq_true h
  cases b with
  | plain k => cases k <;> first | rfl | cases hjoined
  | _ => cases hjoined

/-- Labels of other threads do not come after a join. -/
lemma LabelBody.reachesOthers_of_isThreadJoin {b : LabelBody} (h : b.isThreadJoin) :
    b.reachesOthers = false := by
  cases b with
  | plain k => cases k <;> first | rfl | cases h
  | _ => cases h

namespace ExecutionGraph

variable {g g' : ExecutionGraph}

/-! ## Labels, views and sources -/

/-- Only labels have cached views. -/
lemma containsPos_of_viewOf {e : Event} {v : VectorClock} (h : g.viewOf e = some v) :
    g.containsPos e := by
  obtain ⟨lab, hlab, -⟩ := Option.bind_eq_some_iff.mp h
  exact containsPos_iff.mpr ⟨lab, hlab⟩

/-- Relinking keeps the cached views. -/
lemma Relinks.viewOf (h : Relinks g g') (e : Event) : g'.viewOf e = g.viewOf e := by
  have hmap := h.map_eq (f := fun lab => lab.prefixView) (fun _ => rfl) e
  unfold ExecutionGraph.viewOf
  cases hl : g.getEventLabel e <;> cases hl' : g'.getEventLabel e <;> simp_all

/-- Compressing stamps keeps the cached views. -/
lemma Compresses.viewOf {st : ℕ} (h : Compresses g st g') (e : Event) :
    g'.viewOf e = g.viewOf e := by
  unfold ExecutionGraph.viewOf
  rw [h.label]
  cases g.getEventLabel e <;> rfl

/-- Taking back a label keeps the views of the others. -/
lemma TakesBack.viewOf {t : ℕ} (h : TakesBack g t g') (e : Event) :
    g'.viewOf e = if e = g.lastPos t then none else g.viewOf e := by
  have hmap := h.map_eq (f := fun lab => lab.prefixView) (fun _ => rfl) e
  unfold ExecutionGraph.viewOf
  split
  next he =>
    rw [if_pos he, Option.map_eq_none_iff] at hmap
    rw [hmap]
    rfl
  next he =>
    rw [if_neg he] at hmap
    cases hl : g.getEventLabel e <;> cases hl' : g'.getEventLabel e <;> simp_all

/-- The sources of reads are labels of the graph. -/
lemma ReaderLists.containsPos_of_rfOf (hg : ReaderLists g) {r w : Event}
    (h : g.rfOf r = some w) : g.containsPos w := by
  rcases hg.sources r w h with hw | hw
  · exact containsPos_iff.mpr ((isa_iff.mp hw).imp fun _ h => h.1)
  · exact containsPos_iff.mpr ((isa_iff.mp hw).imp fun _ h => h.1)

/-- Labels of other threads come after the end of a thread. -/
lemma isa_reachesOthers_of_isThreadFinish {e : Event} (h : g.isa LabelBody.isThreadFinish e) :
    g.isa LabelBody.reachesOthers e := by
  obtain ⟨lab, hlab, hbody⟩ := isa_iff.mp h
  exact isa_iff.mpr ⟨lab, hlab, by simp [LabelBody.reachesOthers, hbody]⟩

/-- Nothing is behind the last label of a thread. -/
lemma containsPos_next_lastPos (t : ℕ) : g.containsPos (g.lastPos t).next = false := by
  rw [Bool.eq_false_iff]
  intro hc
  have hlt : g.getThreadSize t - 1 + 1 < g.getThreadSize t := containsPos_iff_lt.mp hc
  omega

/-- The last position of a thread only depends on the positions of the thread. -/
lemma lastPos_congr {t : ℕ} (h : ∀ i, g'.containsPos ⟨t, i⟩ ↔ g.containsPos ⟨t, i⟩) :
    g'.lastPos t = g.lastPos t := by
  simp only [containsPos_iff_lt] at h
  have hle := h (g.getThreadSize t)
  have hge := h (g'.getThreadSize t)
  unfold lastPos
  rw [show g'.getThreadSize t = g.getThreadSize t from by omega]

/-- The last label of a thread is the one with nothing behind it. -/
lemma lastPos_eq {e : Event} (hc : g.containsPos e) (hnext : g.containsPos e.next = false) :
    g.lastPos e.thread = e := by
  have hlt := containsPos_iff_lt.mp hc
  have hge : ¬e.index + 1 < g.getThreadSize e.thread := by
    intro hlt
    rw [(containsPos_iff_lt.mpr hlt : g.containsPos e.next)] at hnext
    cases hnext
  exact Event.ext rfl (show g.getThreadSize e.thread - 1 = e.index by omega)

/-- A label that has been added behind the last one of its thread is the last one. -/
lemma lastPos_of_added {e : Event} (h : ∀ e', g'.containsPos e' ↔ e' = e ∨ g.containsPos e')
    (hindex : e.index = g.getThreadSize e.thread) : g'.lastPos e.thread = e := by
  refine lastPos_eq ((h e).mpr (Or.inl rfl)) (Bool.eq_false_iff.mpr fun hnext => ?_)
  rcases (h e.next).mp hnext with heq | hold
  · exact Nat.succ_ne_self _ (congrArg Event.index heq)
  · have hlt : e.index + 1 < g.getThreadSize e.thread := containsPos_iff_lt.mp hold
    omega

/-- The other threads end as before. -/
lemma lastPos_of_added_of_ne {e : Event}
    (h : ∀ e', g'.containsPos e' ↔ e' = e ∨ g.containsPos e') {t : ℕ} (ht : t ≠ e.thread) :
    g'.lastPos t = g.lastPos t := by
  refine lastPos_congr fun i => ?_
  rw [h, or_iff_right]
  exact fun heq => ht (congrArg Event.thread heq)

/-- A join is not the first label of its thread. -/
lemma Positioned.index_ne_zero_of_join (hg : Positioned g) {j : Event} {t : ℕ}
    (hj : g.isa (LabelBody.isJoinOf t) j) : j.index ≠ 0 := by
  intro hzero
  obtain ⟨lab, hlab, hbody⟩ := isa_iff.mp hj
  have hstart := hg.starts j lab hlab hzero
  have hjoin := LabelBody.isThreadJoin_of_isJoinOf hbody
  cases hb : lab.body <;> simp_all [LabelBody.isThreadStart, LabelBody.isThreadJoin]

/-- Stamps, sources and prefix views fit together. -/
structure PrefixClosed (g : ExecutionGraph) : Prop where
  /-- Nothing is before the initializer. -/
  init : g.viewOf .init = some (.view .empty)
  /-- Views are plain, and a label is in its own. -/
  self : ∀ e v, g.viewOf e = some v → ∃ u, v = .view u ∧ u.contains e
  /-- The first labels of the threads have nothing else in their views. -/
  starts : ∀ e u, g.viewOf e = some (.view u) → e.index = 0 → ∀ p, u.contains p → p.index = 0
  /-- A view contains the views of its members, which are older. -/
  members : ∀ e u p, g.viewOf e = some (.view u) → u.contains p → p.index ≠ 0 →
    ∃ u', g.viewOf p = some (.view u') ∧ (∀ q, u'.contains q → u.contains q) ∧
      g.stampOf p ≤ g.stampOf e
  /-- The source of a read is older than what is behind the read, and in its view. -/
  sources : ∀ r w, g.rfOf r = some w → g.containsPos r.next →
    g.stampOf w < g.stampOf r.next ∧ ∀ u, g.viewOf r.next = some (.view u) → u.contains w
  /-- A thread that has been joined ended before, and its end is in the view of what is behind the
  join. -/
  joins : ∀ j t, g.isa (LabelBody.isJoinOf t) j →
    g.isa LabelBody.isThreadFinish (g.lastPos t) ∧ g.stampOf (g.lastPos t) < g.stampOf j ∧
      ∀ u, g.viewOf j.next = some (.view u) → u.contains (g.lastPos t)
  /-- A member of the view of another label is followed by a member of its thread, or labels of
  other threads come after it. -/
  followed : ∀ e u p, g.viewOf e = some (.view u) → u.contains p → p ≠ e → p.index ≠ 0 →
    u.contains p.next ∨ g.isa LabelBody.reachesOthers p
  /-- The labels without views are the block labels. -/
  blocks : ∀ e, g.containsPos e → (g.viewOf e = none ↔ g.isa LabelBody.isBlock e)

namespace PrefixClosed

/-- The new graph. -/
lemma initial : PrefixClosed initial := by
  have hlabel := getEventLabel_initial
  have hview : ∀ e v, ExecutionGraph.initial.viewOf e = some v → e = .init ∧ v = .view .empty := by
    intro e v hv
    unfold viewOf at hv
    rw [hlabel] at hv
    split at hv
    next he => exact ⟨he, (Option.some.inj hv).symm⟩
    next => cases hv
  have hempty : ∀ p : Event, View.empty.contains p → p.index = 0 := by
    intro p hp
    have hle := of_decide_eq_true hp
    rwa [View.getMax_empty, Nat.le_zero] at hle
  refine ⟨rfl, fun e v hv => ?_, fun e u hu _ p hp => ?_, fun e u p hu hp hindex => ?_,
    fun r w hr => ?_, fun j t hj => ?_, fun e u p hu hp _ hindex => ?_, fun e he => ?_⟩
  · obtain ⟨rfl, rfl⟩ := hview e v hv
    exact ⟨_, rfl, rfl⟩
  · obtain ⟨-, hu⟩ := hview e _ hu
    obtain rfl := VectorClock.view.inj hu
    exact hempty p hp
  · obtain ⟨-, hu⟩ := hview e _ hu
    obtain rfl := VectorClock.view.inj hu
    exact absurd (hempty p hp) hindex
  · unfold rfOf at hr
    rw [hlabel] at hr
    split at hr <;> cases hr
  · obtain ⟨lab, hlab, hbody⟩ := isa_iff.mp hj
    rw [hlabel] at hlab
    split at hlab
    · obtain rfl := Option.some.inj hlab
      cases hbody
    · cases hlab
  · obtain ⟨-, hu⟩ := hview e _ hu
    obtain rfl := VectorClock.view.inj hu
    exact absurd (hempty p hp) hindex
  · obtain ⟨lab, hlab⟩ := containsPos_iff.mp he
    rw [hlabel] at hlab
    split at hlab
    next heq =>
      have hinit : ExecutionGraph.initial.viewOf .init = some (.view .empty) := rfl
      rw [heq, hinit]
      exact iff_of_false (by simp) (by decide)
    next => cases hlab

/-- Changes that keep the views and the order of the stamps, and turn only last reads. -/
lemma congr (hg : PrefixClosed g) (hreads : ReaderLists g)
    (hview : ∀ e, g'.viewOf e = g.viewOf e) (hcontains : ∀ e, g'.containsPos e = g.containsPos e)
    (hisa : ∀ (p : LabelBody → Bool) [ClassTest p] e, g'.isa p e = g.isa p e)
    (hstamp : ∀ e e', g.containsPos e → g.containsPos e' →
      (g'.stampOf e < g'.stampOf e' ↔ g.stampOf e < g.stampOf e'))
    (hrf : ∀ r, g.containsPos r.next → g'.rfOf r = g.rfOf r) : PrefixClosed g' := by
  have hlast : ∀ t, g'.lastPos t = g.lastPos t := fun t =>
    lastPos_congr fun i => by rw [hcontains]
  refine ⟨(hview _).trans hg.init, fun e v hv => hg.self e v (hview e ▸ hv),
    fun e u hu => hg.starts e u (hview e ▸ hu), fun e u p hu hp hindex => ?_,
    fun r w hr hnext => ?_, fun j t hj => ?_, fun e u p hu => ?_, fun e he => ?_⟩
  · rw [hview] at hu
    obtain ⟨u', hu', hsub, hle⟩ := hg.members e u p hu hp hindex
    refine ⟨u', (hview p).trans hu', hsub, not_lt.mp fun hlt => ?_⟩
    have := (hstamp e p (containsPos_of_viewOf hu) (containsPos_of_viewOf hu')).mp hlt
    omega
  · rw [hcontains] at hnext
    rw [hrf r hnext] at hr
    obtain ⟨hlt, hmem⟩ := hg.sources r w hr hnext
    rw [hview]
    exact ⟨(hstamp w _ (hreads.containsPos_of_rfOf hr) hnext).mpr hlt, hmem⟩
  · rw [hisa] at hj
    obtain ⟨hfinish, hlt, hmem⟩ := hg.joins j t hj
    rw [hlast, hisa, hview]
    exact ⟨hfinish, (hstamp _ j (containsPos_of_isa hfinish) (containsPos_of_isa hj)).mpr hlt, hmem⟩
  · rw [hview] at hu
    rw [hisa]
    exact hg.followed e u p hu
  · rw [hcontains] at he
    rw [hview, hisa]
    exact hg.blocks e he

/-- Relinking that turns only last reads. -/
lemma relinks (hg : PrefixClosed g) (hreads : ReaderLists g) (h : Relinks g g')
    (hrf : ∀ r, g.containsPos r.next → g'.rfOf r = g.rfOf r) : PrefixClosed g' :=
  hg.congr hreads h.viewOf h.containsPos (fun p _ => h.isa p)
    (fun e e' _ _ => by rw [h.stampOf, h.stampOf]) hrf

/-- Compressing stamps. -/
lemma compresses (hg : PrefixClosed g) (hreads : ReaderLists g) {st : ℕ}
    (h : Compresses g st g') : PrefixClosed g' := by
  exact hg.congr hreads h.viewOf h.containsPos (fun p _ => h.isa p) h.order
    fun r _ => h.sameBodies.rfOf r

/-- A thread that has not ended has not been joined. -/
lemma unjoined (hg : PrefixClosed g) {t : ℕ}
    (h : g.isa LabelBody.isThreadFinish (g.lastPos t) = false) (j : Event) :
    g.isa (LabelBody.isJoinOf t) j = false := by
  rw [Bool.eq_false_iff]
  intro hj
  rw [(hg.joins j t hj).1] at h
  cases h

/-- A label behind which nothing is and that other threads do not come after is in no other view,
unless it is a begin. -/
lemma index_eq_zero_of_last (hg : PrefixClosed g) {e p : Event} {u : View}
    (hp : g.containsPos p.next = false) (hreaches : g.isa LabelBody.reachesOthers p = false)
    (hu : g.viewOf e = some (.view u)) (hmem : u.contains p) (hne : p ≠ e) : p.index = 0 := by
  by_contra hindex
  rcases hg.followed e u p hu hmem hne hindex with hnext | hr
  · obtain ⟨u', hu', -⟩ := hg.members e u p.next hu hnext (Nat.succ_ne_zero _)
    rw [containsPos_of_viewOf hu'] at hp
    cases hp
  · rw [hreaches] at hr
    cases hr

/-- Taking back the last label of a thread, which other threads do not come after. -/
lemma takesBack (hg : PrefixClosed g) (hreads : ReaderLists g) {t : ℕ} (h : TakesBack g t g')
    (hlast : Removable g t) (hreaches : g.isa LabelBody.reachesOthers (g.lastPos t) = false) :
    PrefixClosed g' := by
  have hviewOf := h.viewOf
  have hstamp : ∀ e, e ≠ g.lastPos t → g'.stampOf e = g.stampOf e := fun e => h.stampOf
  have hold : ∀ {e v}, g'.viewOf e = some v → e ≠ g.lastPos t ∧ g.viewOf e = some v := by
    intro e v hv
    rw [hviewOf] at hv
    split at hv
    · cases hv
    next hne => exact ⟨hne, hv⟩
  refine ⟨?_, fun e v hv => hg.self e v (hold hv).2, fun e u hu => hg.starts e u (hold hu).2,
    fun e u p hu hp hindex => ?_, fun r w hr hnext => ?_, fun j t' hj => ?_,
    fun e u p hu hp hne hindex => ?_, fun e he => ?_⟩
  · rw [hviewOf, if_neg (Ne.symm hlast.notInit)]
    exact hg.init
  · obtain ⟨hne, hu⟩ := hold hu
    obtain ⟨u', hu', hsub, hle⟩ := hg.members e u p hu hp hindex
    have hnot : p ≠ g.lastPos t := by
      rintro rfl
      exact hindex (hg.index_eq_zero_of_last (containsPos_next_lastPos _) hreaches hu hp hne.symm)
    rw [hviewOf, if_neg hnot, hstamp p hnot, hstamp e hne]
    exact ⟨u', hu', hsub, hle⟩
  · obtain ⟨hne, hnext⟩ := (h.containsPos_iff _).mp hnext
    have hr' : g.rfOf r = some w := by
      rw [h.rfOf] at hr
      split at hr
      · cases hr
      · exact hr
    have hw : w ≠ g.lastPos t := by
      rintro rfl
      rcases hreads.sources r _ hr' with hwrite | hinit
      · rw [hlast.unlinked LabelBody.isWrite (by simp [linkedClasses])] at hwrite
        cases hwrite
      · exact hlast.notInit ((hreads.positioned.initOnly _).mp hinit)
    rw [hviewOf, if_neg hne, hstamp w hw, hstamp _ hne]
    exact hg.sources r w hr' hnext
  · rw [h.isa] at hj
    split at hj
    · cases hj
    next hne =>
      obtain ⟨hfinish, hlt, hmem⟩ := hg.joins j t' hj
      -- The end of a thread is not taken back.
      have hnot : g.lastPos t' ≠ g.lastPos t := by
        intro heq
        have hfalse := isa_reachesOthers_of_isThreadFinish hfinish
        rw [heq, hreaches] at hfalse
        cases hfalse
      have hlastPos : g'.lastPos t' = g.lastPos t' := by
        refine lastPos_congr fun i => ?_
        rw [h.containsPos_iff, and_iff_right]
        intro heq
        refine hnot ?_
        rw [show t = t' from (congrArg Event.thread heq).symm]
      rw [hlastPos, h.isa, if_neg hnot, hstamp _ hnot, hstamp j hne]
      exact ⟨hfinish, hlt, fun u hu => hmem u (hold hu).2⟩
  · obtain ⟨hne', hu⟩ := hold hu
    rw [h.isa]
    refine (hg.followed e u p hu hp hne hindex).imp_right fun hr => ?_
    rw [if_neg]
    · exact hr
    · rintro rfl
      rw [hreaches] at hr
      cases hr
  · obtain ⟨hne, he⟩ := (h.containsPos_iff _).mp he
    rw [hviewOf, if_neg hne, h.isa, if_neg hne]
    exact hg.blocks e he

end PrefixClosed

/-! ## Closed views -/

/-- A view that contains with a label its prefix view, with what is behind a read its source, and
with a join the end of the joined thread. -/
structure Closed (g : ExecutionGraph) (v : View) : Prop where
  /-- The view contains the prefix views of its members. -/
  views : ∀ e u p, v.contains e → e.index ≠ 0 → g.viewOf e = some (.view u) → u.contains p →
    v.contains p
  /-- The view contains the sources of the reads that it goes beyond. -/
  sources : ∀ r w, g.rfOf r = some w → g.containsPos r.next → v.contains r.next → v.contains w
  /-- The view contains the ends of the threads that its members join. -/
  joins : ∀ j t, g.isa (LabelBody.isJoinOf t) j → v.contains j → v.contains (g.lastPos t)

/-- The union of two closed views. -/
lemma Closed.update {v w : View} (hv : Closed g v) (hw : Closed g w) : Closed g (v.update w) := by
  refine ⟨fun e u p he hindex hu hp => ?_, fun r s hr hnext hc => ?_, fun j t hj hc => ?_⟩
  · rw [View.contains_update, Bool.or_eq_true] at he ⊢
    exact he.imp (fun he => hv.views e u p he hindex hu hp)
      fun he => hw.views e u p he hindex hu hp
  · rw [View.contains_update, Bool.or_eq_true] at hc ⊢
    exact hc.imp (hv.sources r s hr hnext) (hw.sources r s hr hnext)
  · rw [View.contains_update, Bool.or_eq_true] at hc ⊢
    exact hc.imp (hv.joins j t hj) (hw.joins j t hj)

/-- Every view contains the first labels. -/
lemma contains_of_index_eq_zero (v : View) {e : Event} (h : e.index = 0) : v.contains e :=
  VectorClock.contains_of_index_eq_zero (.view v) h

/-- The view of a stamp contains the labels up to it, besides the first ones. -/
lemma stampOf_le_of_contains (hg : StampInvariant g) {st : ℕ} {e : Event}
    (hc : (g.getViewFromStamp st).contains e) (hindex : e.index ≠ 0) :
    g.containsPos e ∧ g.stampOf e ≤ st := by
  have hle : e.index ≤ (g.getViewFromStamp st).getMax e.thread := of_decide_eq_true hc
  rw [getMax_getViewFromStamp] at hle
  cases hfind : lastUpTo (g.events.getD e.thread []) st with
  | none =>
    rw [hfind] at hle
    exact absurd (Nat.le_zero.mp hle) hindex
  | some j =>
    rw [hfind, Option.getD_some] at hle
    have hj := lastUpTo_lt hfind
    have he : g.containsPos e := containsPos_iff_lt.mpr (lt_of_le_of_lt hle hj)
    have hlast : g.containsPos ⟨e.thread, j⟩ := containsPos_iff_lt.mpr hj
    obtain ⟨lab, hlab⟩ := containsPos_iff.mp hlast
    have hst : g.stampOf ⟨e.thread, j⟩ ≤ st := by
      have hsome := List.find?_some hfind
      rw [stampOf_of_getEventLabel hlab]
      unfold getEventLabel at hlab
      rw [hlab] at hsome
      exact of_decide_eq_true hsome
    refine ⟨he, ?_⟩
    rcases hle.lt_or_eq with hlt | heq
    · exact ((hg.threads e ⟨e.thread, j⟩ he hlast rfl hlt).trans_le hst).le
    · rw [show e = ⟨e.thread, j⟩ from Event.ext rfl heq]
      exact hst

/-- The view of a stamp contains the labels up to it. -/
lemma contains_of_stampOf_le {st : ℕ} {e : Event} (he : g.containsPos e)
    (hst : g.stampOf e ≤ st) : (g.getViewFromStamp st).contains e := by
  obtain ⟨lab, hlab⟩ := containsPos_iff.mp he
  rw [stampOf_of_getEventLabel hlab] at hst
  exact contains_getViewFromStamp hlab hst

namespace PrefixClosed

/-- The labels up to a stamp are closed. -/
lemma closed_getViewFromStamp (hg : PrefixClosed g) (hreads : ReaderLists g)
    (hstamps : StampInvariant g) (st : ℕ) : Closed g (g.getViewFromStamp st) := by
  refine ⟨fun e u p he hindex hu hp => ?_, fun r w hr hnext hc => ?_, fun j t hj hc => ?_⟩
  · by_cases hzero : p.index = 0
    · exact contains_of_index_eq_zero _ hzero
    · obtain ⟨-, hst⟩ := stampOf_le_of_contains hstamps he hindex
      obtain ⟨u', hu', -, hle⟩ := hg.members e u p hu hp hzero
      exact contains_of_stampOf_le (containsPos_of_viewOf hu') (hle.trans hst)
  · obtain ⟨-, hst⟩ := stampOf_le_of_contains hstamps hc (Nat.succ_ne_zero _)
    obtain ⟨hlt, -⟩ := hg.sources r w hr hnext
    exact contains_of_stampOf_le (hreads.containsPos_of_rfOf hr) (hlt.le.trans hst)
  · obtain ⟨-, hst⟩ :=
      stampOf_le_of_contains hstamps hc (hreads.positioned.index_ne_zero_of_join hj)
    obtain ⟨hfinish, hlt, -⟩ := hg.joins j t hj
    exact contains_of_stampOf_le (containsPos_of_isa hfinish) (hlt.le.trans hst)

/-- The prefix views of labels other than joins are closed. -/
lemma closed_viewOf (hg : PrefixClosed g) (hreads : ReaderLists g) {e : Event} {u : View}
    (hu : g.viewOf e = some (.view u)) (he : g.isa LabelBody.isThreadJoin e = false) :
    Closed g u := by
  refine ⟨fun e' u' p he' hindex hu' hp => ?_, fun r w hr hnext hc => ?_, fun j t hj hc => ?_⟩
  · obtain ⟨u'', hu'', hsub, -⟩ := hg.members e u e' hu he' hindex
    rw [hu'] at hu''
    obtain rfl := VectorClock.view.inj (Option.some.inj hu'')
    exact hsub p hp
  · obtain ⟨u', hu', hsub, -⟩ := hg.members e u r.next hu hc (Nat.succ_ne_zero _)
    obtain ⟨-, hmem⟩ := hg.sources r w hr hnext
    exact hsub w (hmem u' hu')
  · obtain ⟨lab, hlab, hbody⟩ := isa_iff.mp hj
    have hjoin := LabelBody.isThreadJoin_of_isJoinOf hbody
    have hne : j ≠ e := by
      rintro rfl
      rw [isa_of_getEventLabel hlab, hjoin] at he
      cases he
    have hreaches : g.isa LabelBody.reachesOthers j = false := by
      rw [isa_of_getEventLabel hlab]
      exact LabelBody.reachesOthers_of_isThreadJoin hjoin
    -- The join is not the last label of its thread, so that what is behind it has its end.
    have hindex := hreads.positioned.index_ne_zero_of_join hj
    have hnext := (hg.followed e u j hu hc hne hindex).resolve_right (by rw [hreaches]; simp)
    obtain ⟨u', hu', hsub, -⟩ := hg.members e u j.next hu hnext (Nat.succ_ne_zero _)
    exact hsub _ ((hg.joins j t hj).2.2 u' hu')

/-- The cached views of a restriction. -/
lemma viewOf_restricts (hg : PrefixClosed g) {v : View} (h : Restricts g v g')
    (hinit : g'.viewOf .init = some (.view .empty)) (e : Event) :
    g'.viewOf e = if v.contains e then g.viewOf e else none := by
  by_cases he : e = .init
  · rw [he, hinit, if_pos (Restricts.contains_init v), hg.init]
  · unfold viewOf
    rw [h.label e he]
    split
    · cases g.getEventLabel e <;> rfl
    · rfl

/-- A restriction to a closed view. -/
lemma restricts (hg : PrefixClosed g) (hpositioned : Positioned g) {v : View}
    (hv : Closed g v) (h : Restricts g v g')
    (hinit : g'.viewOf .init = some (.view .empty)) : PrefixClosed g' := by
  have hviewOf := hg.viewOf_restricts h hinit
  have hold : ∀ {e w}, g'.viewOf e = some w → v.contains e ∧ g.viewOf e = some w := by
    intro e w hw
    rw [hviewOf] at hw
    split at hw
    next hc => exact ⟨hc, hw⟩
    next => cases hw
  refine ⟨hinit, fun e w hw => hg.self e w (hold hw).2, fun e u hu => hg.starts e u (hold hu).2,
    fun e u p hu hp hindex => ?_, fun r w hr hnext => ?_, fun j t hj => ?_,
    fun e u p hu hp hne hindex => ?_, fun e he => ?_⟩
  · obtain ⟨hc, hu⟩ := hold hu
    obtain ⟨u', hu', hsub, hle⟩ := hg.members e u p hu hp hindex
    have hcp : v.contains p := by
      by_cases hzero : e.index = 0
      · exact absurd (hg.starts e u hu hzero p hp) hindex
      · exact hv.views e u p hc hzero hu hp
    rw [hviewOf, if_pos hcp, h.stampOf hpositioned hcp, h.stampOf hpositioned hc]
    exact ⟨u', hu', hsub, hle⟩
  · rw [h.containsPos hpositioned, Bool.and_eq_true] at hnext
    rw [h.rfOf hpositioned] at hr
    split at hr
    · obtain ⟨hr, hcw⟩ := Option.filter_eq_some_iff.mp hr
      rw [hviewOf, if_pos hnext.1, h.stampOf hpositioned hcw, h.stampOf hpositioned hnext.1]
      exact hg.sources r w hr hnext.2
    · cases hr
  · rw [h.isa hpositioned, Bool.and_eq_true] at hj
    obtain ⟨hfinish, hlt, hmem⟩ := hg.joins j t hj.2
    have hc := hv.joins j t hj.2 hj.1
    have hlast : g'.lastPos t = g.lastPos t := by
      refine lastPos_congr fun i => ?_
      rw [h.containsPos hpositioned, Bool.and_eq_true, and_iff_right_iff_imp]
      intro hi
      have hle : i ≤ g.getThreadSize t - 1 := Nat.le_sub_one_of_lt (containsPos_iff_lt.mp hi)
      exact decide_eq_true (hle.trans (of_decide_eq_true hc))
    rw [hlast, h.isa hpositioned, hc, Bool.true_and, h.stampOf hpositioned hc,
      h.stampOf hpositioned hj.1]
    exact ⟨hfinish, hlt, fun u hu => hmem u (hold hu).2⟩
  · obtain ⟨hc, hu⟩ := hold hu
    rw [h.isa hpositioned, Bool.and_eq_true]
    refine (hg.followed e u p hu hp hne hindex).imp_right fun hr => ⟨?_, hr⟩
    by_cases hzero : e.index = 0
    · exact absurd (hg.starts e u hu hzero p hp) hindex
    · exact hv.views e u p hc hzero hu hp
  · rw [h.containsPos hpositioned, Bool.and_eq_true] at he
    rw [hviewOf, if_pos he.1, h.isa hpositioned, he.1, Bool.true_and]
    exact hg.blocks e he.2

end PrefixClosed

/-! ## The prefix view of a new label -/

/-- The labels whose prefixes are part of that of the label behind `prev`. -/
inductive DirectlyBefore (g : ExecutionGraph) (prev : Event) : Event → Prop
  /-- The label before it. -/
  | prev : DirectlyBefore g prev prev
  /-- The source of a read. -/
  | source {w : Event} (h : g.rfOf prev = some w) : DirectlyBefore g prev w
  /-- The create of a thread. -/
  | create {lab : EventLabel} {c : Event} (h : g.getEventLabel prev = some lab)
      (hc : lab.body.parentCreate = some c) : DirectlyBefore g prev c
  /-- The end of a joined thread. -/
  | join {t : ℕ} (h : g.isa (LabelBody.isJoinOf t) prev) : DirectlyBefore g prev (g.lastPos t)

/-- `v'` contains what `v` contains and the prefix views of the labels of a set. -/
structure Collects (g : ExecutionGraph) (v : View) (es : Set Event) (v' : View) : Prop where
  /-- The labels have views. -/
  views : ∀ e ∈ es, ∃ u, g.viewOf e = some (.view u)
  /-- The view is the union. -/
  contains : ∀ p, v'.contains p ↔
    v.contains p ∨ ∃ e ∈ es, ∃ u, g.viewOf e = some (.view u) ∧ u.contains p

namespace Collects

lemma empty (g : ExecutionGraph) (v : View) : Collects g v ∅ v :=
  ⟨by simp, by simp⟩

lemma union {v v' v'' : View} {es es' : Set Event} (h : Collects g v es v')
    (h' : Collects g v' es' v'') : Collects g v (es ∪ es') v'' := by
  refine ⟨fun e he => he.elim (h.views e) (h'.views e), fun p => ?_⟩
  rw [h'.contains, h.contains, or_assoc]
  refine or_congr_right ⟨?_, ?_⟩
  · rintro (⟨e, he, hu⟩ | ⟨e, he, hu⟩)
    · exact ⟨e, Or.inl he, hu⟩
    · exact ⟨e, Or.inr he, hu⟩
  · rintro ⟨e, he, hu⟩
    exact he.imp (fun he => ⟨e, he, hu⟩) fun he => ⟨e, he, hu⟩

/-- Collecting only depends on the cached views. -/
lemma congr {v v' : View} {es : Set Event} (h : Collects g v es v')
    (hview : ∀ e, g'.viewOf e = g.viewOf e) : Collects g' v es v' :=
  ⟨fun e he => by rw [hview]; exact h.views e he, fun p => by simp only [hview]; exact h.contains p⟩

/-- The view of a collected label is part of the union. -/
lemma contains_of_mem {v v' : View} {es : Set Event} (h : Collects g v es v') {e p : Event}
    (he : e ∈ es) {u : View} (hu : g.viewOf e = some (.view u)) (hp : u.contains p) :
    v'.contains p :=
  (h.contains p).mpr (Or.inr ⟨e, he, u, hu, hp⟩)

end Collects

/-- Adding the prefix view of one label. -/
lemma updatePrefix_collects {e : Event} {v v' : View} (h : g.updatePrefix e v = some v') :
    Collects g v {e} v' := by
  obtain ⟨c, hc, hupdate⟩ := Option.bind_eq_some_iff.mp h
  cases c with
  | depView w => cases hupdate
  | view w =>
    obtain rfl := Option.some.inj hupdate
    refine ⟨fun e' he' => ⟨w, (Set.mem_singleton_iff.mp he').symm ▸ hc⟩, fun p => ?_⟩
    rw [View.contains_update, Bool.or_eq_true]
    simp [hc]

/-- What the prefix view of a position consists of. -/
structure PorfPrefix (g : ExecutionGraph) (pos : Event) (v : View) : Prop where
  /-- The first label of a thread only has itself. -/
  first : pos.index = 0 → v = View.empty.updateIdx pos
  /-- Any other label has the prefix views of those directly before it. -/
  later : pos.index ≠ 0 → Collects g (View.empty.updateIdx pos)
    {s | DirectlyBefore g ⟨pos.thread, pos.index - 1⟩ s} v

/-- `calcPPoRfBefore` collects prefix views. -/
lemma calcPPoRfBefore_spec {pos : Event} {v : View} (h : g.calcPPoRfBefore pos = some v) :
    PorfPrefix g pos v := by
  unfold calcPPoRfBefore at h
  by_cases hindex : pos.index = 0
  · rw [if_pos hindex] at h
    exact ⟨fun _ => (Option.some.inj h).symm, fun hne => absurd hindex hne⟩
  · rw [if_neg hindex] at h
    refine ⟨fun hzero => absurd hzero hindex, fun _ => ?_⟩
    obtain ⟨pLab, hpLab, h⟩ := Option.bind_eq_some_iff.mp h
    obtain ⟨v₁, h₁, h⟩ := Option.bind_eq_some_iff.mp h
    obtain ⟨v₂, h₂, h⟩ := Option.bind_eq_some_iff.mp h
    obtain ⟨v₃, h₃, h₄⟩ := Option.bind_eq_some_iff.mp h
    -- The source of the label before, if it is a read.
    have hes₂ : Collects g v₁ {w | pLab.body.rf = some w} v₂ := by
      split at h₂
      · obtain ⟨w, hw, h₂⟩ := Option.bind_eq_some_iff.mp h₂
        convert updatePrefix_collects h₂ using 1
        ext w'
        rw [Set.mem_ofPred_eq, Set.mem_singleton_iff, hw, Option.some.injEq, eq_comm]
      next hread =>
        convert (Option.some.inj h₂ ▸ Collects.empty g v₁ : Collects g v₁ ∅ v₂) using 1
        ext w
        exact iff_of_false (fun hw => hread (LabelBody.isRead_of_rf hw)) (Set.notMem_empty w)
    have hes₃ : Collects g v₂ {c | pLab.body.parentCreate = some c} v₃ := by
      cases hc : pLab.body.parentCreate with
      | some c =>
        rw [hc] at h₃
        convert updatePrefix_collects h₃ using 1
        ext c'
        rw [Set.mem_ofPred_eq, Set.mem_singleton_iff, Option.some.injEq, eq_comm]
      | none =>
        rw [hc] at h₃
        convert (Option.some.inj h₃ ▸ Collects.empty g v₂ : Collects g v₂ ∅ v₃) using 1
        ext c'
        simp
    have hes₄ : Collects g v₃ {s | ∃ t, pLab.body.isJoinOf t ∧ s = g.lastPos t} v := by
      unfold LabelBody.isJoinOf
      cases ht : pLab.body.joinedThread with
      | some t =>
        rw [ht] at h₄
        convert updatePrefix_collects h₄ using 1
        ext s
        simp
      | none =>
        rw [ht] at h₄
        convert (Option.some.inj h₄ ▸ Collects.empty g v₃ : Collects g v₃ ∅ v) using 1
        ext s
        simp
    convert (((updatePrefix_collects h₁).union hes₂).union hes₃).union hes₄ using 1
    ext s
    simp only [Set.mem_ofPred_eq, Set.mem_union, Set.mem_singleton_iff]
    constructor
    · rintro (_ | hw | ⟨hlab, hc⟩ | hj)
      · exact Or.inl (Or.inl (Or.inl rfl))
      · exact Or.inl (Or.inl (Or.inr (rfOf_of_getEventLabel hpLab ▸ hw)))
      · rw [hpLab] at hlab
        exact Or.inl (Or.inr (Option.some.inj hlab ▸ hc))
      · exact Or.inr ⟨_, (isa_of_getEventLabel hpLab _).symm.trans hj, rfl⟩
    · rintro (((rfl | hw) | hc) | ⟨t, ht, rfl⟩)
      · exact .prev
      · exact .source ((rfOf_of_getEventLabel hpLab).trans hw)
      · exact .create hpLab hc
      · exact .join (isa_iff.mpr ⟨pLab, hpLab, ht⟩)

/-- The effect of adding a label, with a view or without, on views, stamps and sources. -/
structure AddsView (g : ExecutionGraph) (lab : EventLabel) (v : Option View)
    (g' : ExecutionGraph) : Prop where
  /-- The views. -/
  viewOf : ∀ e, g'.viewOf e = if e = lab.pos then v.map .view else g.viewOf e
  /-- The positions. -/
  containsPos : ∀ e, g'.containsPos e ↔ e = lab.pos ∨ g.containsPos e
  /-- The stamps. -/
  stampOf : ∀ e, g'.stampOf e = if e = lab.pos then g.timestamp else g.stampOf e
  /-- The sources of the reads. -/
  rfOf : ∀ r, g'.rfOf r = if r = lab.pos then none else g.rfOf r
  /-- The classes. -/
  isa : ∀ (p : LabelBody → Bool) [ClassTest p] e,
    g'.isa p e = if e = lab.pos then p lab.body else g.isa p e
  /-- Block labels get no view. -/
  blocks : v = none ↔ lab.body.isBlock

/-- A label can be added behind the last one of its thread: the thread has not been joined, a label
with a view has a create before it if it is the first one behind the begin, and what the label joins
has ended. -/
structure Continues (g : ExecutionGraph) (lab : EventLabel) (v : Option View)
    (g' : ExecutionGraph) : Prop where
  /-- The thread has not been joined. -/
  unjoined : ∀ j, g.isa (LabelBody.isJoinOf lab.pos.thread) j = false
  /-- The create of the thread is there. -/
  created : v ≠ none → ∀ pLab c,
    g.getEventLabel ⟨lab.pos.thread, lab.pos.index - 1⟩ = some pLab →
      pLab.body.parentCreate = some c → g.isa LabelBody.reachesOthers c
  /-- A thread that the label joins has ended. -/
  joined : ∀ t, lab.body.isJoinOf t → g'.isa LabelBody.isThreadFinish (g'.lastPos t)

/-- A single event and what is before it in its thread. -/
lemma contains_empty_updateIdx {pos p : Event} (h : (View.empty.updateIdx pos).contains p) :
    p.index = 0 ∨ p.thread = pos.thread ∧ p.index ≤ pos.index := by
  have hle : p.index ≤ (View.empty.updateIdx pos).getMax p.thread := of_decide_eq_true h
  rw [View.getMax_updateIdx, View.getMax_empty] at hle
  split at hle
  next heq => exact Or.inr ⟨heq, by omega⟩
  next => exact Or.inl (by omega)

/-- An event and what is before it in its thread are contained. -/
lemma contains_updateIdx_of_le {pos p : Event} (ht : p.thread = pos.thread)
    (hi : p.index ≤ pos.index) : (View.empty.updateIdx pos).contains p := by
  refine decide_eq_true ?_
  rw [View.getMax_updateIdx, if_pos ht]
  exact le_max_of_le_right hi

/-- A collected view contains the label that it is for. -/
lemma PorfPrefix.contains_self {pos : Event} {v : View} (h : PorfPrefix g pos v) :
    v.contains pos := by
  by_cases hindex : pos.index = 0
  · exact contains_of_index_eq_zero v hindex
  · exact ((h.later hindex).contains pos).mpr (Or.inl (contains_updateIdx_of_le rfl le_rfl))

/-- The older members of a collected view are members of the views of labels directly before. -/
lemma PorfPrefix.exists_directlyBefore (hg : PrefixClosed g) {pos p : Event} {v : View}
    (h : PorfPrefix g pos v) (hp : v.contains p) (hindex : p.index ≠ 0) (hne : p ≠ pos) :
    pos.index ≠ 0 ∧ ∃ s, DirectlyBefore g ⟨pos.thread, pos.index - 1⟩ s ∧
      ∃ u, g.viewOf s = some (.view u) ∧ u.contains p := by
  have hpos : pos.index ≠ 0 := by
    intro hzero
    rw [h.first hzero] at hp
    rcases contains_empty_updateIdx hp with hzero' | ⟨-, hle⟩ <;> omega
  refine ⟨hpos, ?_⟩
  rcases ((h.later hpos).contains p).mp hp with hself | hmem
  · rcases contains_empty_updateIdx hself with hzero | ⟨hthread, hle⟩
    · exact absurd hzero hindex
    · obtain ⟨us, hus⟩ := (h.later hpos).views _ DirectlyBefore.prev
      obtain ⟨us', heq', hself'⟩ := hg.self _ _ hus
      obtain rfl := VectorClock.view.inj heq'
      refine ⟨_, .prev, us, hus, decide_eq_true ?_⟩
      have hle' : pos.index - 1 ≤ us.getMax pos.thread := of_decide_eq_true hself'
      have hlt : p.index ≠ pos.index := fun heq => hne (Event.ext hthread heq)
      rw [hthread]
      omega
  · exact hmem

/-- What is directly before a label is in its prefix view. -/
lemma PorfPrefix.contains_of_directlyBefore (hg : PrefixClosed g) {e s : Event} {u : View}
    (h : PorfPrefix g e.next u) (hs : DirectlyBefore g e s) : u.contains s := by
  have hlater := h.later (Nat.succ_ne_zero _)
  obtain ⟨us, hus⟩ := hlater.views s hs
  obtain ⟨us', heq, hself⟩ := hg.self s _ hus
  obtain rfl := VectorClock.view.inj heq
  exact hlater.contains_of_mem hs hus hself

/-- What is directly before a label that has just been added was so before. -/
lemma directlyBefore_iff_of_adds {lab : EventLabel} (hadds : Adds g lab g') (hfresh : lab.Fresh)
    (hindex : lab.pos.index ≠ 0)
    (hunjoined : ∀ j, g.isa (LabelBody.isJoinOf lab.pos.thread) j = false) {s : Event} :
    DirectlyBefore g ⟨lab.pos.thread, lab.pos.index - 1⟩ s ↔
      DirectlyBefore g' ⟨lab.pos.thread, lab.pos.index - 1⟩ s := by
  have hprev : (⟨lab.pos.thread, lab.pos.index - 1⟩ : Event) ≠ lab.pos := by
    intro heq
    have := congrArg Event.index heq
    simp only at this
    omega
  have hlast : ∀ t, t ≠ lab.pos.thread → g'.lastPos t = g.lastPos t := fun t ht =>
    lastPos_of_added_of_ne hadds.containsPos ht
  have hthread : ∀ t, g.isa (LabelBody.isJoinOf t) ⟨lab.pos.thread, lab.pos.index - 1⟩ →
      t ≠ lab.pos.thread := by
    rintro t ht rfl
    rw [hunjoined] at ht
    cases ht
  constructor
  · rintro (_ | hw | ⟨hlab, hc⟩ | hj)
    · exact .prev
    · exact .source (by rw [hadds.rfOf hfresh, if_neg hprev, hw])
    · exact .create (by rw [hadds.getEventLabel, if_neg hprev, hlab]) hc
    · rw [← hlast _ (hthread _ hj)]
      exact .join (by rw [hadds.isa, if_neg hprev, hj])
  · rintro (_ | hw | ⟨hlab, hc⟩ | hj)
    · exact .prev
    · rw [hadds.rfOf hfresh, if_neg hprev] at hw
      exact .source hw
    · rw [hadds.getEventLabel, if_neg hprev] at hlab
      exact .create hlab hc
    · rw [hadds.isa, if_neg hprev] at hj
      rw [hlast _ (hthread _ hj)]
      exact .join hj

/-- The prefix of a label that has just been added only depends on the graph before. -/
lemma PorfPrefix.of_adds {lab : EventLabel} {v : View}
    (h : PorfPrefix g' lab.pos v) (hadds : Adds g lab g') (hfresh : lab.Fresh)
    (hview : ∀ e, g'.viewOf e = g.viewOf e)
    (hunjoined : ∀ j, g.isa (LabelBody.isJoinOf lab.pos.thread) j = false) :
    PorfPrefix g lab.pos v := by
  refine ⟨h.first, fun hindex => ?_⟩
  convert (h.later hindex).congr fun e => (hview e).symm using 1
  ext s
  exact directlyBefore_iff_of_adds hadds hfresh hindex hunjoined

/-! ## Adding a label behind the last one of its thread -/

namespace AddsView

variable {lab : EventLabel} {v : Option View}

/-- The view of a label is the new one or an old one. -/
lemma cases_viewOf (h : AddsView g lab v g') (hv : ∀ u, v = some u → PorfPrefix g lab.pos u)
    {e : Event} {u : View} (hu : g'.viewOf e = some (.view u)) :
    e = lab.pos ∧ v = some u ∧ PorfPrefix g lab.pos u ∨
      e ≠ lab.pos ∧ g.viewOf e = some (.view u) := by
  rw [h.viewOf] at hu
  split at hu
  next heq =>
    obtain ⟨u', hu', heq'⟩ := Option.map_eq_some_iff.mp hu
    obtain rfl := VectorClock.view.inj heq'
    exact Or.inl ⟨heq, hu', hv u' hu'⟩
  next hnot => exact Or.inr ⟨hnot, hu⟩

/-- The new label has not been in the graph. -/
lemma ne_pos (hindex : lab.pos.index = g.getThreadSize lab.pos.thread) {e : Event}
    (he : g.containsPos e) : e ≠ lab.pos := by
  rintro rfl
  rw [containsPos_eq_false hindex] at he
  cases he

/-- Views contain the views of their members. -/
lemma members (hg : PrefixClosed g) (hstamps : StampInvariant g) (h : AddsView g lab v g')
    (hindex : lab.pos.index = g.getThreadSize lab.pos.thread)
    (hv : ∀ u, v = some u → PorfPrefix g lab.pos u) {e p : Event} {u : View}
    (hu : g'.viewOf e = some (.view u)) (hp : u.contains p) (hp0 : p.index ≠ 0) :
    ∃ u', g'.viewOf p = some (.view u') ∧ (∀ q, u'.contains q → u.contains q) ∧
      g'.stampOf p ≤ g'.stampOf e := by
  rcases h.cases_viewOf hv hu with ⟨rfl, hv', hpre⟩ | ⟨hnot, hu⟩
  · rw [h.stampOf lab.pos, if_pos rfl]
    by_cases hp' : p = lab.pos
    · refine ⟨u, by rw [h.viewOf, if_pos hp', hv']; rfl, fun q hq => hq, ?_⟩
      rw [h.stampOf, if_pos hp']
    · obtain ⟨hindex', s, hs, us, hus, hps⟩ := hpre.exists_directlyBefore hg hp hp0 hp'
      obtain ⟨up, hup, hsub, hle⟩ := hg.members s us p hus hps hp0
      refine ⟨up, by rw [h.viewOf, if_neg hp', hup], fun q hq => ?_, ?_⟩
      · exact (hpre.later hindex').contains_of_mem hs hus (hsub q hq)
      · rw [h.stampOf, if_neg hp']
        exact (hle.trans_lt (hstamps.bounded s (containsPos_of_viewOf hus))).le
  · obtain ⟨u', hu', hsub, hle⟩ := hg.members e u p hu hp hp0
    have hp' := ne_pos hindex (containsPos_of_viewOf hu')
    rw [h.viewOf, if_neg hp', h.stampOf, if_neg hp', h.stampOf, if_neg hnot]
    exact ⟨u', hu', hsub, hle⟩

/-- The sources of reads are older than what is behind the reads. -/
lemma sources (hg : PrefixClosed g) (hreads : ReaderLists g) (hstamps : StampInvariant g)
    (h : AddsView g lab v g') (hindex : lab.pos.index = g.getThreadSize lab.pos.thread)
    (hv : ∀ u, v = some u → PorfPrefix g lab.pos u) {r w : Event} (hr : g'.rfOf r = some w)
    (hnext : g'.containsPos r.next) :
    g'.stampOf w < g'.stampOf r.next ∧
      ∀ u, g'.viewOf r.next = some (.view u) → u.contains w := by
  rw [h.rfOf] at hr
  split at hr
  · cases hr
  next hr' =>
    have hw := ne_pos hindex (hreads.containsPos_of_rfOf hr)
    rw [h.stampOf w, if_neg hw, h.stampOf]
    by_cases hnew : r.next = lab.pos
    · rw [if_pos hnew]
      refine ⟨hstamps.bounded w (hreads.containsPos_of_rfOf hr), fun u hu => ?_⟩
      rcases h.cases_viewOf hv hu with ⟨-, -, hpre⟩ | ⟨hnot, -⟩
      · rw [← hnew] at hpre
        exact hpre.contains_of_directlyBefore hg (.source hr)
      · exact absurd hnew hnot
    · rw [if_neg hnew, h.viewOf, if_neg hnew]
      exact hg.sources r w hr (((h.containsPos _).mp hnext).resolve_left hnew)

/-- A thread that has been joined is not the one of the new label. -/
lemma ne_thread_of_join (h : AddsView g lab v g')
    (hindex : lab.pos.index = g.getThreadSize lab.pos.thread) (hcont : Continues g lab v g')
    {j : Event} {t : ℕ} (hj : g'.isa (LabelBody.isJoinOf t) j) : t ≠ lab.pos.thread := by
  rintro rfl
  rw [h.isa] at hj
  split at hj
  next =>
    have hfinish := hcont.joined _ hj
    rw [lastPos_of_added h.containsPos hindex, h.isa, if_pos rfl] at hfinish
    have hjoin := LabelBody.isThreadJoin_of_isJoinOf hj
    cases hb : lab.body <;> simp_all [LabelBody.isThreadJoin, LabelBody.isThreadFinish]
  next =>
    rw [hcont.unjoined] at hj
    cases hj

/-- Threads that have been joined have ended before. -/
lemma joins (hg : PrefixClosed g) (hstamps : StampInvariant g) (h : AddsView g lab v g')
    (hindex : lab.pos.index = g.getThreadSize lab.pos.thread) (hcont : Continues g lab v g')
    (hv : ∀ u, v = some u → PorfPrefix g lab.pos u) {j : Event} {t : ℕ}
    (hj : g'.isa (LabelBody.isJoinOf t) j) :
    g'.isa LabelBody.isThreadFinish (g'.lastPos t) ∧ g'.stampOf (g'.lastPos t) < g'.stampOf j ∧
      ∀ u, g'.viewOf j.next = some (.view u) → u.contains (g'.lastPos t) := by
  have ht := h.ne_thread_of_join hindex hcont hj
  have hne : g.lastPos t ≠ lab.pos := fun heq => ht (congrArg Event.thread heq)
  have hlast := lastPos_of_added_of_ne h.containsPos ht
  rw [h.isa] at hj
  split at hj
  next heq =>
    -- The new label joins a thread that has ended before.
    have hfinish := hcont.joined t hj
    rw [hlast] at hfinish ⊢
    have hc := ((h.containsPos _).mp (containsPos_of_isa hfinish)).resolve_left hne
    rw [h.stampOf, if_neg hne, h.stampOf, if_pos heq]
    refine ⟨hfinish, hstamps.bounded _ hc, fun u hu => ?_⟩
    -- Nothing is behind the new label.
    obtain ⟨-, hu⟩ := (h.cases_viewOf hv hu).resolve_left fun hnext =>
      absurd (congrArg Event.index (hnext.1.trans heq.symm)) (Nat.succ_ne_self _)
    have hlt := containsPos_iff_lt.mp (containsPos_of_viewOf hu)
    rw [heq] at hlt
    change lab.pos.index + 1 < g.getThreadSize lab.pos.thread at hlt
    omega
  next hje =>
    obtain ⟨hfinish, hlt, hmem⟩ := hg.joins j t hj
    rw [hlast, h.isa, if_neg hne, h.stampOf, if_neg hne, h.stampOf, if_neg hje]
    refine ⟨hfinish, hlt, fun u hu => ?_⟩
    rcases h.cases_viewOf hv hu with ⟨hnext, -, hpre⟩ | ⟨-, hu⟩
    · rw [← hnext] at hpre
      exact hpre.contains_of_directlyBefore hg (.join hj)
    · exact hmem u hu

/-- A label directly before the new one is in the view with the next of its thread, or labels of
other threads come after it. -/
lemma followed_directlyBefore (hg : PrefixClosed g) (hreads : ReaderLists g)
    (hcont : Continues g lab v g') {u : View} (hv : v = some u) (hpre : PorfPrefix g lab.pos u)
    (hindex : lab.pos.index ≠ 0) {s : Event}
    (hs : DirectlyBefore g ⟨lab.pos.thread, lab.pos.index - 1⟩ s) :
    u.contains s.next ∨ g.isa LabelBody.reachesOthers s := by
  cases hs with
  | prev =>
    left
    refine ((hpre.later hindex).contains _).mpr (Or.inl ?_)
    exact contains_updateIdx_of_le rfl (Nat.sub_add_cancel (Nat.pos_of_ne_zero hindex)).le
  | source hw =>
    right
    rcases hreads.sources _ _ hw with hwrite | hinit
    · obtain ⟨wLab, hwLab, hbody⟩ := isa_iff.mp hwrite
      exact isa_iff.mpr ⟨wLab, hwLab, by simp [LabelBody.reachesOthers, hbody]⟩
    · obtain ⟨wLab, hwLab, hbody⟩ := isa_iff.mp hinit
      exact isa_iff.mpr ⟨wLab, hwLab, by simp [LabelBody.reachesOthers, hbody]⟩
  | create hlab hc => exact Or.inr (hcont.created (by simp [hv]) _ _ hlab hc)
  | join hj => exact Or.inr (isa_reachesOthers_of_isThreadFinish (hg.joins _ _ hj).1)

/-- Members of the views of other labels are followed. -/
lemma followed (hg : PrefixClosed g) (hreads : ReaderLists g) (h : AddsView g lab v g')
    (hindex : lab.pos.index = g.getThreadSize lab.pos.thread) (hcont : Continues g lab v g')
    (hv : ∀ u, v = some u → PorfPrefix g lab.pos u) {e p : Event} {u : View}
    (hu : g'.viewOf e = some (.view u)) (hp : u.contains p) (hpe : p ≠ e) (hp0 : p.index ≠ 0) :
    u.contains p.next ∨ g'.isa LabelBody.reachesOthers p := by
  rcases h.cases_viewOf hv hu with ⟨rfl, hv', hpre⟩ | ⟨-, hu⟩
  · obtain ⟨hindex', s, hs, us, hus, hps⟩ := hpre.exists_directlyBefore hg hp hp0 hpe
    rw [h.isa, if_neg hpe]
    by_cases hps' : p = s
    · exact followed_directlyBefore hg hreads hcont hv' hpre hindex' (hps' ▸ hs)
    · exact (hg.followed s us p hus hps hps' hp0).imp_left fun hnext =>
        (hpre.later hindex').contains_of_mem hs hus hnext
  · obtain ⟨up, hup, -⟩ := hg.members e u p hu hp hp0
    rw [h.isa, if_neg (ne_pos hindex (containsPos_of_viewOf hup))]
    exact hg.followed e u p hu hp hpe hp0

end AddsView

/-- Adding a label behind the last one of its thread. -/
lemma PrefixClosed.addsView (hg : PrefixClosed g) (hreads : ReaderLists g)
    (hstamps : StampInvariant g) {lab : EventLabel} {v : Option View} (h : AddsView g lab v g')
    (hindex : lab.pos.index = g.getThreadSize lab.pos.thread) (hcont : Continues g lab v g')
    (hv : ∀ u, v = some u → PorfPrefix g lab.pos u) : PrefixClosed g' := by
  have hpos := AddsView.ne_pos hindex (containsPos_of_viewOf hg.init)
  refine ⟨?_, fun e w hw => ?_, fun e u hu hzero p hp => ?_,
    fun _ _ _ => h.members hg hstamps hindex hv,
    fun _ _ => h.sources hg hreads hstamps hindex hv,
    fun _ _ => h.joins hg hstamps hindex hcont hv,
    fun _ _ _ => h.followed hg hreads hindex hcont hv, fun e he => ?_⟩
  · rw [h.viewOf, if_neg hpos]
    exact hg.init
  · rw [h.viewOf] at hw
    split at hw
    next heq =>
      obtain ⟨u, hu, rfl⟩ := Option.map_eq_some_iff.mp hw
      exact ⟨u, rfl, heq ▸ (hv u hu).contains_self⟩
    next => exact hg.self e w hw
  · rcases h.cases_viewOf hv hu with ⟨rfl, -, hpre⟩ | ⟨-, hu⟩
    · rw [hpre.first hzero] at hp
      rcases contains_empty_updateIdx hp with hp0 | ⟨-, hle⟩
      · exact hp0
      · omega
    · exact hg.starts e u hu hzero p hp
  · rw [h.viewOf, h.isa]
    by_cases hnot : e = lab.pos
    · rw [if_pos hnot, if_pos hnot, Option.map_eq_none_iff]
      exact h.blocks
    · rw [if_neg hnot, if_neg hnot]
      exact hg.blocks e (((h.containsPos _).mp he).resolve_left hnot)

end ExecutionGraph

end GenMC
