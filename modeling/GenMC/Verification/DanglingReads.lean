import GenMC.Verification.DriverCalls

/-!
# Reads without a source

Cutting a graph and copying a part of it take the sources of reads away.  The views of a cut and of
a copy are closed, so that this only happens to the last reads of the threads, where
`repairDanglingReads` finds them.
-/

namespace GenMC

namespace ExecutionGraph

variable {g g' : ExecutionGraph}

/-! ## Repairing -/

/-- The last label of a thread is where a read without a source is. -/
lemma Repairable.eq_lastPos (hg : Repairable g) {r : Event} (hr : g.isa LabelBody.isRead r)
    (hnone : g.rfOf r = none) : r = g.lastPos r.thread := by
  have hnext := hg.dangling r hr hnone
  obtain ⟨lab, hlab, -⟩ := isa_iff.mp hr
  have hlt := containsPos_iff_lt.mp (containsPos_iff.mpr ⟨lab, hlab⟩)
  have hge : ¬ r.index + 1 < g.getThreadSize r.thread := by
    intro hlt'
    have hc : g.containsPos r.next := containsPos_iff_lt.mpr hlt'
    rw [hnext] at hc
    cases hc
  unfold lastPos
  exact Event.ext rfl (by simp only; omega)

/-- Reads have addresses. -/
lemma exists_addrOf {r : Event} (hr : g.isa LabelBody.isRead r) : ∃ a, g.addrOf r = some a := by
  obtain ⟨lab, hlab, hread⟩ := isa_iff.mp hr
  rw [← Option.isSome_iff_exists, addrOf_of_getEventLabel hlab, LabelBody.addr_isSome, hread]
  rfl

/-- The coherence-last store of the location of a read is a write or the initializer. -/
lemma Linked.coMax_spec (hg : Linked g) {e : Event} {a : SAddr} (ha : g.addrOf e = some a) :
    ∃ w, g.coMax a = some w ∧ (g.isa LabelBody.isWrite w ∨ g.isa LabelBody.isInit w) := by
  obtain ⟨ws, hws⟩ := KeyedList.mem_keys_iff.mp (hg.readerLists.tracked e a ha)
  unfold coMax
  rw [hws]
  cases hlast : ws.getLast? with
  | none =>
    refine ⟨.init, by rw [Option.map_some, hlast]; rfl, Or.inr ?_⟩
    exact (hg.stamped.positioned.initOnly .init).mpr rfl
  | some w =>
    refine ⟨w, by rw [Option.map_some, hlast]; rfl, Or.inl ?_⟩
    refine (hg.stores.stores a w ?_).1
    unfold co
    rw [hws]
    exact List.mem_of_getLast? hlast

/-- `repairRead` finds a source. -/
lemma Repairable.repairRead (hg : Repairable g) {r : Event} (hr : g.isa LabelBody.isRead r)
    (hlast : g.containsPos r.next = false) :
    ∃ a w g', g.repairRead r = some g' ∧ g.addrOf r = some a ∧ g.coMax a = some w ∧
      Repairable g' ∧ Assigns g r w (fun _ => true) g' := by
  obtain ⟨a, ha⟩ := exists_addrOf hr
  obtain ⟨w, hmax, hsource⟩ := hg.linked.coMax_spec ha
  obtain ⟨g₁, hset⟩ := setRf_isSome hg.linked.readerLists hr hsource
  set g₂ := g₁.updateLabel r (EventLabel.setAddedMax true) with hg₂
  refine ⟨a, w, _, ?_, ha, hmax,
    hg.assigns hlast hset true (decide (g₂.stampOf r < g₂.stampOf w)) rfl⟩
  unfold ExecutionGraph.repairRead
  simp only [ha, hmax, hset, Option.bind_eq_bind, Option.bind_some]
  rfl

/-- `g'` is `g` where the reads without a source read from the coherence-last stores. -/
structure Repairs (g g' : ExecutionGraph) : Prop where
  /-- Only links and flags change. -/
  relinks : Relinks g g'
  /-- The coherence orders stay. -/
  coherence : g'.coherence = g.coherence
  /-- The reads stay as revisitable as they are. -/
  revisitable : ∀ e, (g'.marksOf e).map Prod.fst = (g.marksOf e).map Prod.fst
  /-- A label that changes is a read that had no source. -/
  changed : ∀ r, (g'.rfOf r = g.rfOf r ∧ g'.marksOf r = g.marksOf r) ∨
    g.rfOf r = none ∧ ∃ a w, g.addrOf r = some a ∧ g.coMax a = some w ∧ g'.rfOf r = some w

namespace Repairs

lemma refl (g : ExecutionGraph) : Repairs g g :=
  ⟨Relinks.refl g, rfl, fun _ => rfl, fun _ => Or.inl ⟨rfl, rfl⟩⟩

/-- The other sources stay. -/
lemma rfOf (h : Repairs g g') {r w : Event} (hr : g.rfOf r = some w) : g'.rfOf r = some w := by
  rcases h.changed r with ⟨hrf, -⟩ | ⟨hnone, -⟩
  · exact hrf.trans hr
  · rw [hnone] at hr
    cases hr

/-- Giving a source to a read that has none. -/
lemma assigns {g'' : ExecutionGraph} {r w : Event} {a : SAddr} (h : Repairs g g')
    (h' : Assigns g' r w (fun _ => true) g'') (hnone : g'.rfOf r = none)
    (ha : g'.addrOf r = some a) (hmax : g'.coMax a = some w) : Repairs g g'' := by
  refine ⟨h.relinks.trans h'.relinks, h'.coherence.trans h.coherence, fun e => ?_, fun e => ?_⟩
  · rw [← h.revisitable, h'.marks]
    split
    · rw [Option.map_map]
      rfl
    · rfl
  · rw [h'.rfOf, h'.marks]
    by_cases he : e = r
    · rw [if_pos he, he]
      rcases h.changed r with ⟨hrf, -⟩ | ⟨-, -, w', -, -, hw'⟩
      · rw [h.relinks.addrOf] at ha
        refine Or.inr ⟨hrf.symm.trans hnone, a, w, ha, ?_, rfl⟩
        unfold coMax at hmax ⊢
        rwa [h.coherence] at hmax
      · rw [hnone] at hw'
        cases hw'
    · rw [if_neg he, if_neg he]
      exact h.changed e

end Repairs

/-- **Repairing.**  If reads only dangle at the ends of the threads, `repairDanglingReads` finds
them all. -/
lemma Repairable.repairDanglingReads (hg : Repairable g) :
    ∃ g', g.repairDanglingReads = some g' ∧ DriverInvariant g' ∧ Repairs g g' := by
  obtain ⟨g', hg', ⟨hrep, hkept⟩, hdone⟩ := PartialRun.foldlM_total
    (f := repairLast) (s := g) (List.range g.getNumThreads)
    (fun done s => (Repairable s ∧ Repairs g s) ∧
      ∀ t ∈ done, ∀ r, r.thread = t → s.isa LabelBody.isRead r → (s.rfOf r).isSome)
    (fun done t rest hl s hs => by
      obtain ⟨⟨hrep, hkept⟩, hdone⟩ := hs
      have ht : t < s.getNumThreads := by
        rw [hkept.relinks.numThreads]
        exact List.mem_range.mp (hl ▸ List.mem_append_right _ List.mem_cons_self)
      have hfirst := containsPos_iff_lt.mp (hrep.settled.started t ht)
      have hlastPos : s.containsPos (s.lastPos t) :=
        containsPos_iff_lt.mpr (Nat.sub_lt hfirst Nat.one_pos)
      obtain ⟨lab, hlab⟩ := containsPos_iff.mp hlastPos
      unfold repairLast
      rw [hlab, Option.bind_eq_bind, Option.bind_some]
      -- A read of this thread without a source can only be the last label.
      by_cases hcond : lab.body.isRead ∧ lab.body.rf = none
      · rw [if_pos hcond]
        have hr : s.isa LabelBody.isRead (s.lastPos t) := isa_iff.mpr ⟨lab, hlab, hcond.1⟩
        have hnone : s.rfOf (s.lastPos t) = none :=
          (rfOf_of_getEventLabel hlab).trans hcond.2
        obtain ⟨a, w, s', hs', ha, hmax, hrep', hassigns⟩ :=
          hrep.repairRead hr (hrep.dangling _ hr hnone)
        refine ⟨s', hs', ⟨hrep', hkept.assigns hassigns hnone ha hmax⟩,
          fun t' ht' r hrt hread => ?_⟩
        rw [hassigns.rfOf]
        by_cases hrlast : r = s.lastPos t
        · rw [if_pos hrlast]
          rfl
        · rw [if_neg hrlast]
          rw [hassigns.relinks.isa] at hread
          rcases List.mem_append.mp ht' with ht' | ht'
          · exact hdone t' ht' r hrt hread
          · rw [List.mem_singleton.mp ht'] at hrt
            by_contra hrf
            refine hrlast (hrt ▸ hrep.eq_lastPos hread ?_)
            simpa using hrf
      · rw [if_neg hcond]
        refine ⟨s, rfl, ⟨hrep, hkept⟩, fun t' ht' r hrt hread => ?_⟩
        rcases List.mem_append.mp ht' with ht' | ht'
        · exact hdone t' ht' r hrt hread
        · rw [List.mem_singleton.mp ht'] at hrt
          by_contra hrf
          rw [Bool.not_eq_true, Option.isSome_eq_false_iff, Option.isNone_iff_eq_none] at hrf
          have hrlast := hrep.eq_lastPos hread hrf
          rw [hrt] at hrlast
          rw [hrlast, isa_of_getEventLabel hlab] at hread
          rw [hrlast, rfOf_of_getEventLabel hlab] at hrf
          exact hcond ⟨hread, hrf⟩)
    ⟨⟨hg, Repairs.refl g⟩, by simp⟩
  refine ⟨g', hg', hrep.driverInvariant fun r hr => ?_, hkept⟩
  obtain ⟨lab, hlab, -⟩ := isa_iff.mp hr
  have hthread := thread_lt_of_getEventLabel hlab
  rw [hkept.relinks.numThreads] at hthread
  exact hdone r.thread (List.mem_range.mpr hthread) r rfl hr

/-! ## Restricting -/

/-- Changing stamps and revisit marks. -/
lemma Repairable.sameBodies (hg : Repairable g) (h : SameBodies g g') (hs : Stamped g')
    (hc : PrefixClosed g') : Repairable g' := by
  refine ⟨hg.linked.sameBodies h hs, hg.settled.sameBodies h, hc, fun r hr hnone => ?_⟩
  rw [h.isa] at hr
  rw [h.rfOf] at hnone
  rw [h.containsPos]
  exact hg.dangling r hr hnone

/-- The marks of `g'` are those of `g`, but for labels that may not be revisited any more. -/
def LowersMarks (g g' : ExecutionGraph) : Prop :=
  ∀ e m', e ≠ .init → g'.marksOf e = some m' →
    ∃ m, g.marksOf e = some m ∧ m.2 = m'.2 ∧ (m'.1 → m.1)

lemma LowersMarks.trans {g'' : ExecutionGraph} (h : LowersMarks g g') (h' : LowersMarks g' g'') :
    LowersMarks g g'' := by
  intro e m'' he hm''
  obtain ⟨m', hm', hmax', hrev'⟩ := h' e m'' he hm''
  obtain ⟨m, hm, hmax, hrev⟩ := h e m' he hm'
  exact ⟨m, hm, hmax.trans hmax', fun h => hrev (hrev' h)⟩

/-- `g'` consists of the labels of `g` that a view contains, and can be repaired; stamps and marks
may be others. -/
structure CutsTo (g : ExecutionGraph) (v : View) (g' : ExecutionGraph) : Prop where
  /-- Reads only dangle at the ends of the threads. -/
  repairable : Repairable g'
  /-- The positions. -/
  containsPos : ∀ e, g'.containsPos e = (v.contains e && g.containsPos e)
  /-- The classes. -/
  isa : ∀ (p : LabelBody → Bool) [ClassTest p] e, g'.isa p e = (v.contains e && g.isa p e)
  /-- The addresses. -/
  addrOf : ∀ e, g'.addrOf e = if v.contains e then g.addrOf e else none
  /-- The sources. -/
  rfOf : ∀ r, g'.rfOf r = if v.contains r then (g.rfOf r).filter v.contains else none
  /-- The prefix views. -/
  viewOf : ∀ e, g'.viewOf e = if v.contains e then g.viewOf e else none
  /-- The coherence orders. -/
  co : ∀ a, g'.co a = (g.co a).filter v.contains
  /-- The marks. -/
  marks : LowersMarks g g'
  /-- The labels are ordered as before. -/
  order : ∀ e e', g'.containsPos e → g'.containsPos e' →
    (g'.stampOf e < g'.stampOf e' ↔ g.stampOf e < g.stampOf e')

/-- The lists of the allocations of a restriction. -/
lemma Restricts.listed {v : View} (h : Restricts g v g') (hg : Positioned g) (hl : Listed g) :
    Listed g' := by
  intro a m hm
  obtain ⟨aLab', haLab'⟩ : ∃ lab, g'.getEventLabel a = some lab := by
    rw [← containsPos_iff]
    by_contra hc
    unfold accessesOf at hm
    unfold ExecutionGraph.containsPos at hc
    rw [Option.not_isSome_iff_eq_none.mp hc] at hm
    cases hm
  obtain ⟨hca, aLab, haLab, -, -, hbody⟩ := h.label_cases hg haLab'
  rw [accessesOf_of_getEventLabel haLab', hbody, LabelBody.accesses_mapFields] at hm
  split at hm
  · obtain ⟨hm, hcm⟩ := List.mem_filter.mp hm
    have hold := hl a m (by rwa [accessesOf_of_getEventLabel haLab])
    obtain ⟨mLab, hmLab, halloc⟩ := Option.bind_eq_some_iff.mp hold
    obtain ⟨mLab', hmLab', -, -, hmbody⟩ := h.getEventLabel hg hcm hmLab
    rw [allocOf_of_getEventLabel hmLab', hmbody, LabelBody.alloc_mapFields, if_pos]
    · rw [halloc]
      exact if_pos hca
    · unfold LabelBody.alloc at halloc
      unfold LabelBody.addr
      obtain ⟨acc, hacc, -⟩ := Option.bind_eq_some_iff.mp halloc
      rw [hacc]
      rfl
  · cases hm

/-- A restriction keeps the marks. -/
lemma Restricts.lowersMarks {v : View} (h : Restricts g v g') : LowersMarks g g' := by
  intro e m' he hm'
  obtain ⟨lab', hlab', rfl⟩ := Option.map_eq_some_iff.mp hm'
  rw [h.label e he] at hlab'
  split at hlab'
  · obtain ⟨lab, hlab, rfl⟩ := Option.map_eq_some_iff.mp hlab'
    refine ⟨lab.marks, by unfold marksOf; rw [hlab]; rfl, ?_, id⟩
    exact (LabelBody.addedMax_mapFields (m := cutMap (.view v)) rfl lab.body).symm
  · cases hlab'

/-- **Cutting.**  Where the view is closed, sources are only cut off from the last reads of the
threads. -/
lemma DriverInvariant.cutsTo (hg : DriverInvariant g) {v : View} (hv : Closed g v)
    (h : Restricts g v g') (hco : RestrictsCO g v g') (hs : Stamped g')
    (hinit : g'.viewOf .init = some (.view .empty)) : CutsTo g v g' := by
  have hpositioned := hg.linked.stamped.positioned
  have hwf := h.wellFormed hco hg.wellFormed
  have hcontains := h.containsPos hpositioned
  have hrf := h.rfOf hpositioned
  refine ⟨⟨hwf.linked hs (h.listed hpositioned hg.linked.listed), hwf.settled,
    hg.closed.restricts hpositioned hv h hinit, fun r hr hnone => ?_⟩, hcontains,
    fun p _ => h.isa hpositioned p, h.addrOf hpositioned, hrf,
    hg.closed.viewOf_restricts h hinit, hco, h.lowersMarks, fun e e' he he' => ?_⟩
  · rw [h.isa hpositioned, Bool.and_eq_true] at hr
    obtain ⟨w, hw⟩ := Option.isSome_iff_exists.mp (hg.sourced r hr.2)
    rw [hrf, if_pos hr.1, hw, Option.filter_some] at hnone
    -- If the next label were kept, the source would be.
    rw [Bool.eq_false_iff]
    intro hnext
    rw [hcontains, Bool.and_eq_true] at hnext
    rw [if_pos (hv.sources r w hw hnext.2 hnext.1)] at hnone
    cases hnone
  · rw [hcontains, Bool.and_eq_true] at he he'
    rw [h.stampOf hpositioned he.1, h.stampOf hpositioned he'.1]

namespace CutsTo

variable {g'' : ExecutionGraph} {v : View}

/-- Changing stamps and revisit marks afterwards. -/
lemma sameBodies (h : CutsTo g v g') (hb : SameBodies g' g'')
    (hview : ∀ e, g''.viewOf e = g'.viewOf e) (hmarks : LowersMarks g' g'')
    (horder : ∀ e e', g'.containsPos e → g'.containsPos e' →
      (g''.stampOf e < g''.stampOf e' ↔ g'.stampOf e < g'.stampOf e'))
    (hr : Repairable g'') : CutsTo g v g'' := by
  refine ⟨hr, fun e => (hb.containsPos e).trans (h.containsPos e),
    fun p _ e => (hb.isa p e).trans (h.isa p e), fun e => (hb.addrOf e).trans (h.addrOf e),
    fun r => (hb.rfOf r).trans (h.rfOf r), fun e => (hview e).trans (h.viewOf e),
    fun a => (hb.co a).trans (h.co a), h.marks.trans hmarks, fun e e' he he' => ?_⟩
  rw [hb.containsPos] at he he'
  exact (horder e e' he he').trans (h.order e e' he he')

/-- Compressing the stamps afterwards. -/
lemma compressStampsAfter (h : CutsTo g v g') {st : ℕ} (hst : st + 1 < stampSize) :
    CutsTo g v (g'.compressStampsAfter st) := by
  have hlinked := h.repairable.linked
  have hcompresses := hlinked.stamped.order.compressStampsAfter hlinked.stamped.stamps
    hlinked.stamped.range hst
  have hbodies := hcompresses.sameBodies
  refine h.sameBodies hbodies hcompresses.viewOf (fun e m' _ hm' => ?_) hcompresses.order <|
    h.repairable.sameBodies hbodies
    (hlinked.stamped.compressStampsAfter hst)
    (h.repairable.closed.compresses hlinked.readerLists hcompresses)
  refine ⟨m', ?_, rfl, id⟩
  unfold marksOf at hm' ⊢
  rw [hcompresses.label, Option.map_map] at hm'
  exact hm'

/-- Marking the prefix of a write afterwards. -/
lemma fixPrefix (h : CutsTo g v g') (pre : VectorClock) :
    CutsTo g v (ExecutionGraph.fixPrefix pre g') := by
  refine fixPrefix_induction (P := CutsTo g v) pre h fun s e hs => ?_
  have hlabels := map_getEventLabel_updateLabel (g := s)
    (m := EventLabel.setRevisitStatus false) (f := fun lab => (lab.pos, lab.stamp, lab.body))
    (fun _ => rfl) e
  have hstamps := map_getEventLabel_updateLabel (g := s)
    (m := EventLabel.setRevisitStatus false) (f := fun lab => lab.getStamp) (fun _ => rfl) e
  have hbodies : SameBodies s (s.updateLabel e (EventLabel.setRevisitStatus false)) :=
    sameBodies_updateLabel (f := EventLabel.setRevisitStatus false) (fun _ => ⟨rfl, rfl⟩) e
  have hview : ∀ e', (s.updateLabel e (EventLabel.setRevisitStatus false)).viewOf e' =
      s.viewOf e' := by
    intro e'
    unfold ExecutionGraph.viewOf
    rw [getEventLabel_updateLabel]
    split
    · cases s.getEventLabel e' <;> rfl
    · rfl
  have hlinked := hs.repairable.linked
  have horder : ∀ e' e'', s.containsPos e' → s.containsPos e'' →
      ((s.updateLabel e (EventLabel.setRevisitStatus false)).stampOf e' <
        (s.updateLabel e (EventLabel.setRevisitStatus false)).stampOf e'' ↔
          s.stampOf e' < s.stampOf e'') := by
    intro e' e'' _ _
    unfold stampOf
    rw [hstamps, hstamps]
  refine hs.sameBodies hbodies hview (fun e' m' _ hm' => ?_) horder <|
    hs.repairable.sameBodies hbodies (hlinked.stamped.congr hlabels rfl rfl)
      (hs.repairable.closed.congr hlinked.readerLists hview hbodies.containsPos
        (fun p _ => hbodies.isa p) horder fun r _ => hbodies.rfOf r)
  unfold marksOf at hm' ⊢
  rw [getEventLabel_updateLabel] at hm'
  split at hm'
  · obtain ⟨lab', hlab', rfl⟩ := Option.map_eq_some_iff.mp hm'
    obtain ⟨lab, hlab, rfl⟩ := Option.map_eq_some_iff.mp hlab'
    exact ⟨lab.marks, by rw [hlab]; rfl, rfl, fun hfalse => by cases hfalse⟩
  · exact ⟨m', hm', rfl, id⟩

end CutsTo

/-- The cut to a stamp, with the stamps compressed. -/
lemma DriverInvariant.cutAndCompress (hg : DriverInvariant g) {st : ℕ} (hst : st + 1 < stampSize) :
    ∃ g', g.cutAndCompress st = some g' ∧ CutsTo g (g.getViewFromStamp st) g' := by
  obtain ⟨cut, hcut, hrestricts, hco⟩ := cutToStamp_restricts hg.wellFormed st
  obtain ⟨keep, hcuts⟩ := cutToStamp_spec hcut
  have hinit : cut.viewOf .init = some (.view .empty) := by
    unfold viewOf
    rw [hcuts.getEventLabel_init hg.linked.stamped.positioned]
    exact hg.closed.init
  have hclosed := hg.closed.closed_getViewFromStamp hg.linked.readerLists hg.linked.stamped.order st
  refine ⟨_, ?_, (hg.cutsTo hclosed hrestricts hco (hg.linked.stamped.cutToStamp hcut)
    hinit).compressStampsAfter hst⟩
  unfold ExecutionGraph.cutAndCompress
  rw [hcut]
  rfl

/-- The copy up to a closed view. -/
lemma DriverInvariant.getCopyUpTo (hg : DriverInvariant g) {v : View} (hv : Closed g v)
    (hwithin : Within g (.view v)) :
    ∃ og, g.getCopyUpTo (.view v) = some og ∧ CutsTo g v og := by
  obtain ⟨og, hog, hcopies⟩ := hg.wellFormed.copyGraphUpTo_copies hwithin (.view .empty)
  obtain ⟨hrestricts, hco⟩ := hcopies.restricts hg.wellFormed
  have hinit : og.viewOf .init = some (.view .empty) := by
    unfold viewOf
    rw [hcopies.init]
    rfl
  exact ⟨og, hog, hg.cutsTo hv hrestricts hco (hg.linked.stamped.getCopyUpTo hog) hinit⟩

/-! ## Revisiting -/

/-- The stamp of a label leaves room for the next one. -/
lemma Stamped.stampOf_room (hg : Stamped g) {e : Event} (he : g.containsPos e) :
    g.stampOf e + 1 < stampSize :=
  lt_of_le_of_lt (hg.order.bounded e he) hg.range

/-- What is behind a label in its thread is younger. -/
lemma StampInvariant.not_contains_next (hg : StampInvariant g) {e : Event} (he : g.containsPos e) :
    (g.getViewFromStamp (g.stampOf e)).contains e.next = false := by
  rw [Bool.eq_false_iff]
  intro hc
  obtain ⟨hnext, hst⟩ := stampOf_le_of_contains hg hc (Nat.succ_ne_zero _)
  exact absurd (hg.threads e e.next he hnext rfl (Nat.lt_succ_self _)) (not_lt.mpr hst)

/-- Prefix views lie within the graph. -/
lemma PrefixClosed.within_viewOf (hg : PrefixClosed g) (hs : Settled g) {e : Event} {u : View}
    (hu : g.viewOf e = some (.view u)) : Within g (.view u) := by
  intro t ht
  change u.getMax t < g.getThreadSize t
  by_cases hzero : u.getMax t = 0
  · rw [hzero]
    exact containsPos_iff_lt.mp (hs.started t ht)
  · obtain ⟨u', hu', -⟩ := hg.members e u ⟨t, u.getMax t⟩ hu (decide_eq_true le_rfl) hzero
    exact containsPos_iff_lt.mp (containsPos_of_viewOf hu')

/-- A restriction to the labels up to a stamp, with sources for the reads that lose theirs. -/
def RepairedCut (g : ExecutionGraph) (st : ℕ) (g' : ExecutionGraph) : Prop :=
  ∃ cut, CutsTo g (g.getViewFromStamp st) cut ∧ Repairs cut g'

namespace DriverInvariant

/-- The copy of a backward revisit: what was there before the read, and the prefix of the write. -/
lemma copyForRevisit (hg : DriverInvariant g) {r w : Event} {u : View}
    (hr : g.isa LabelBody.isRead r) (hw : g.isa LabelBody.isThreadJoin w = false)
    (hu : g.viewOf w = some (.view u)) : ∃ og, g.copyForRevisit r w = some og ∧
      CutsTo g ((g.getViewFromStamp (g.stampOf r)).update u) og := by
  obtain ⟨rLab, hrLab, -⟩ := isa_iff.mp hr
  set v := (g.getViewFromStamp (g.stampOf r)).update u with hv
  have hclosed : Closed g v :=
    (hg.closed.closed_getViewFromStamp hg.linked.readerLists hg.linked.stamped.order _).update
      (hg.closed.closed_viewOf hg.linked.readerLists hu hw)
  have hwithin : Within g (.view v) := by
    intro t ht
    have h₁ : (g.getViewFromStamp (g.stampOf r)).getMax t < g.getThreadSize t :=
      within_getViewFromStamp hg.wellFormed _ t ht
    have h₂ : u.getMax t < g.getThreadSize t := hg.closed.within_viewOf hg.settled hu t ht
    change v.getMax t < g.getThreadSize t
    rw [hv, View.getMax_update]
    exact max_lt h₁ h₂
  obtain ⟨copy, hcopy, hcuts⟩ := hg.getCopyUpTo hclosed hwithin
  have hread : copy.isa LabelBody.isRead r := by
    rw [hcuts.isa, hr, Bool.and_true, hv, View.contains_update,
      contains_of_stampOf_le (containsPos_iff.mpr ⟨rLab, hrLab⟩) le_rfl, Bool.true_or]
  have hst : copy.stampOf r + 1 < stampSize :=
    hcuts.repairable.linked.stamped.stampOf_room
      (containsPos_iff.mpr ((isa_iff.mp hread).imp fun _ h => h.1))
  refine ⟨_, ?_, (hcuts.compressStampsAfter hst).fixPrefix (.view u)⟩
  have hview : g.getRevisitView r w = some v := by
    unfold getRevisitView getPredsView updatePrefix
    rw [hrLab, hu, hv, stampOf_of_getEventLabel hrLab]
    rfl
  unfold ExecutionGraph.copyForRevisit copyGraph BackwardRevisit.adjustView getCopyUpToOf
  simp only [hview, hu, hcopy, Option.bind_eq_bind, Option.bind_some, Bool.false_eq_true, if_false]
  exact if_pos ⟨containsPos_of_viewOf hu, hread⟩

/-- `revisitRead` turns a read at the end of its thread. -/
lemma revisitRead (hg : DriverInvariant g) {r rev : Event} {isMaximal : Option Bool}
    (hlast : g.containsPos r.next = false) (h : g.revisitRead r rev isMaximal = some g') :
    DriverInvariant g' ∧ ∃ a maxLab, g.addrOf r = some a ∧ g.coMax a = some maxLab ∧
      Assigns g r rev (fun _ => isMaximal.getD (decide (rev = maxLab))) g' := by
  obtain ⟨g₁, hset, h⟩ := Option.bind_eq_some_iff.mp h
  obtain ⟨a, ha, h⟩ := Option.bind_eq_some_iff.mp h
  obtain ⟨maxLab, hmax, h⟩ := Option.bind_eq_some_iff.mp h
  have hturns := setRf_turnsReads hset
  obtain ⟨hrep, hassigns⟩ := hg.repairable.assigns hlast hset _ _ (Option.some.inj h).symm
  refine ⟨hrep.driverInvariant (hassigns.sourced fun r' _ hr' => hg.sourced r' hr'), a, maxLab,
    (hturns.relinks.addrOf r).symm.trans ha, ?_, hassigns⟩
  unfold coMax at hmax ⊢
  rwa [hturns.coherence] at hmax

/-- A read can be revisited by any write. -/
lemma revisitRead_isSome (hg : DriverInvariant g) {r rev : Event} (hr : g.isa LabelBody.isRead r)
    (hrev : g.isa LabelBody.isWrite rev) (isMaximal : Option Bool) :
    ∃ g', g.revisitRead r rev isMaximal = some g' := by
  obtain ⟨g₁, hset⟩ := setRf_isSome hg.linked.readerLists hr (Or.inl hrev)
  have hrelinks := (setRf_turnsReads hset).relinks
  obtain ⟨a, ha⟩ := exists_addrOf hr
  rw [← hrelinks.addrOf] at ha
  obtain ⟨w, hmax, -⟩ := (hg.linked.setRf hset).coMax_spec ha
  unfold ExecutionGraph.revisitRead
  simp only [hset, ha, hmax, Option.bind_eq_bind, Option.bind_some]
  exact ⟨_, rfl⟩

/-- `restrictGraph` repairs a cut. -/
lemma restrictGraph (hg : DriverInvariant g) {st : ℕ} (hst : st + 1 < stampSize)
    (h : g.restrictGraph st = some g') : DriverInvariant g' ∧ RepairedCut g st g' := by
  obtain ⟨cut, hcut, hcuts⟩ := hg.cutAndCompress hst
  obtain ⟨g'', hg'', hinv, hrepairs⟩ := hcuts.repairable.repairDanglingReads
  unfold ExecutionGraph.restrictGraph at h
  rw [hcut, Option.bind_some, hg''] at h
  exact Option.some.inj h ▸ ⟨hinv, cut, hcuts, hrepairs⟩

/-- Restricting to a label makes it the last one of its thread. -/
lemma restrictTo (hg : DriverInvariant g) {e : Event} (h : g.restrictTo e = some g') :
    DriverInvariant g' ∧ g'.containsPos e.next = false ∧ RepairedCut g (g.stampOf e) g' := by
  obtain ⟨lab, hlab, h⟩ := Option.bind_eq_some_iff.mp h
  have he : g.containsPos e := containsPos_iff.mpr ⟨lab, hlab⟩
  rw [← stampOf_of_getEventLabel hlab] at h
  obtain ⟨hg', cut, hcuts, hrepairs⟩ := hg.restrictGraph (hg.linked.stamped.stampOf_room he) h
  refine ⟨hg', ?_, cut, hcuts, hrepairs⟩
  rw [hrepairs.relinks.containsPos, hcuts.containsPos,
    hg.linked.stamped.order.not_contains_next he, Bool.false_and]

/-- A `ReadForwardRevisit`. -/
lemma revisitReadForward (hg : DriverInvariant g) {r rev : Event} {isMaximal : Bool}
    (h : g.revisitReadForward r rev isMaximal = some g') : DriverInvariant g' ∧
      ∃ g₁, DriverInvariant g₁ ∧ g₁.containsPos r.next = false ∧ RepairedCut g (g.stampOf r) g₁ ∧
        Assigns g₁ r rev (fun _ => isMaximal) g' := by
  obtain ⟨g₁, hrestrict, h⟩ := Option.bind_eq_some_iff.mp h
  obtain ⟨hg₁, hlast, hcut⟩ := hg.restrictTo hrestrict
  obtain ⟨hg', _, _, -, -, hassigns⟩ := hg₁.revisitRead hlast h
  exact ⟨hg', g₁, hg₁, hlast, hcut, hassigns⟩

/-- A `WriteForwardRevisit`. -/
lemma revisitWrite (hg : DriverInvariant g) {w pred : Event}
    (h : g.revisitWrite w pred = some g') : DriverInvariant g' ∧
      ∃ g₁ g₂, DriverInvariant g₁ ∧ RepairedCut g (g.stampOf w) g₁ ∧
        g₁.moveStoreCOAfter w pred = some g₂ ∧
        g' = g₂.updateLabel w (EventLabel.setAddedMax false) := by
  obtain ⟨g₁, hrestrict, h⟩ := Option.bind_eq_some_iff.mp h
  obtain ⟨g₂, hmove, h⟩ := Option.bind_eq_some_iff.mp h
  obtain ⟨hg₁, -, hcut⟩ := hg.restrictTo hrestrict
  obtain ⟨hlinked, hsettled⟩ := hg₁.linked.moveStoreCOAfter hg₁.settled hmove
  have hturns := moveStoreCOAfter_turnsCO hmove
  have hrf : ∀ r, g₂.rfOf r = g₁.rfOf r := by
    intro r
    rw [hturns.eq]
    rfl
  have hg₂ : DriverInvariant g₂ := by
    refine ⟨hlinked, hsettled, hg₁.closed.relinks hg₁.linked.readerLists hturns.relinks
      fun r _ => hrf r, fun r hr => ?_⟩
    rw [hturns.relinks.isa] at hr
    rw [hrf]
    exact hg₁.sourced r hr
  obtain ⟨hrep, hkeeps⟩ := hg₂.repairable.setFlag (fun _ => false) id w
  refine ⟨Option.some.inj h ▸ hrep.driverInvariant fun r hr => ?_, g₁, g₂, hg₁, hcut, hmove,
    (Option.some.inj h).symm⟩
  rw [hkeeps.relinks.isa] at hr
  rw [hkeeps.rfOf]
  exact hg₂.sourced r hr

/-- `revisitInPlace`. -/
lemma revisitInPlace (hg : DriverInvariant g) {r w : Event}
    (hindex : r.index + 1 = g.getThreadSize r.thread ∨
      r.next = g.lastPos r.thread ∧ g.isa LabelBody.isBlock r.next)
    (h : g.revisitInPlace r w = some g') : DriverInvariant g' ∧
      ∃ g₁, DriverInvariant g₁ ∧ g₁.containsPos r.next = false ∧ SameAccesses g g₁ ∧
        Assigns g₁ r w (fun _ => true) g' := by
  obtain ⟨g₁, hunblock, h⟩ := Option.bind_eq_some_iff.mp h
  obtain ⟨g₂, hset, h⟩ := Option.bind_eq_some_iff.mp h
  obtain ⟨hg₁, hlast, hsame⟩ :
      DriverInvariant g₁ ∧ g₁.containsPos r.next = false ∧ SameAccesses g g₁ := by
    split at hunblock
    next hnext =>
      have hlt : r.index + 1 < g.getThreadSize r.thread := containsPos_iff_lt.mp hnext
      obtain ⟨hlastPos, hblock⟩ := hindex.resolve_left hlt.ne
      rw [hlastPos] at hblock
      obtain ⟨hg₁, hback⟩ := hg.removeLast (Or.inl hblock) hunblock
      exact ⟨hg₁, Bool.eq_false_iff.mpr fun hc => ((hback.containsPos_iff _).mp hc).1 hlastPos,
        SameAccesses.of_takesBack hback⟩
    next hnext =>
      obtain rfl := Option.some.inj hunblock
      exact ⟨hg, Bool.eq_false_iff.mpr hnext, SameAccesses.refl g⟩
  obtain ⟨hrep, hassigns⟩ := hg₁.repairable.assigns hlast hset _ _ (Option.some.inj h).symm
  exact ⟨hrep.driverInvariant (hassigns.sourced fun r' _ hr' => hg₁.sourced r' hr'), g₁, hg₁, hlast,
    hsame, hassigns⟩

/-- The in-place revisit of `tryOptimizeBarrierRevisits`. -/
lemma revisitBarrier (hg : DriverInvariant g) {rLab : EventLabel} {w : Event}
    (hroom : DriverCall.HasRoom g) (hnew : New rLab) (hread : rLab.body.isRead)
    (hnext : rLab.pos.next = g.lastPos rLab.pos.thread) (htaken : DriverCall.TakenBack g rLab.pos)
    (hprev : g.isa LabelBody.isWrite ⟨rLab.pos.thread, rLab.pos.index - 1⟩)
    (h : g.revisitBarrier rLab w = some g') : DriverInvariant g' ∧
      ∃ g₁ g₂ a maxLab, SameAccesses g g₁ ∧ GrowsBy g₁ rLab g₂ ∧ rLab.body.addr = some a ∧
        g₂.coMax a = some maxLab ∧ Assigns g₂ rLab.pos w (fun _ => decide (w = maxLab)) g' := by
  obtain ⟨g₁, hunblock, h⟩ := Option.bind_eq_some_iff.mp h
  obtain ⟨g₂, hremove, h⟩ := Option.bind_eq_some_iff.mp h
  obtain ⟨g₃, hadd, h⟩ := Option.bind_eq_some_iff.mp h
  obtain ⟨g₄, hset, h⟩ := Option.bind_eq_some_iff.mp h
  obtain ⟨a, ha, h⟩ := Option.bind_eq_some_iff.mp h
  obtain ⟨maxLab, hmax, h⟩ := Option.bind_eq_some_iff.mp h
  obtain ⟨hg₁, hback₁⟩ := hg.unblockThread hunblock
  have hsize₁ := hback₁.getThreadSize
  have hindex : rLab.pos.index + 1 = g.getThreadSize rLab.pos.thread - 1 :=
    congrArg Event.index hnext
  -- The read is the last label once the block label is gone.
  have hlast₁ : g₁.lastPos rLab.pos.thread = rLab.pos :=
    Event.ext rfl (show g₁.getThreadSize rLab.pos.thread - 1 = rLab.pos.index by omega)
  have hne : ∀ e : Event, e.index ≤ rLab.pos.index → e ≠ g.lastPos rLab.pos.thread := by
    rintro e hle rfl
    rw [← hnext] at hle
    exact absurd hle (Nat.not_succ_le_self _)
  have htaken₁ : DriverCall.TakenBack g₁ (g₁.lastPos rLab.pos.thread) := by
    rw [hlast₁]
    unfold DriverCall.TakenBack
    rw [hback₁.isa, if_neg (hne _ le_rfl), hback₁.rfOf, if_neg (hne _ le_rfl)]
    exact htaken
  obtain ⟨hg₂, hback₂⟩ := hg₁.removeLast (Or.inr htaken₁) hremove
  have hext : Extends g₂ rLab.pos := by
    refine ⟨?_, fun j => ?_, fun pLab c hpLab hc => ?_⟩
    · rw [hback₂.getThreadSize, hsize₁, ← hindex]
      rfl
    · rw [hback₂.isa]
      split
      · rfl
      · exact hg₁.closed.unjoined (isThreadFinish_eq_false_of_class (Or.inr htaken₁)) j
    · -- The label before the read is a write.
      have hwrite := isa_of_getEventLabel hpLab LabelBody.isWrite
      rw [hback₂.isa] at hwrite
      split at hwrite
      next heq =>
        have hc₂ := ((hback₂.containsPos_iff _).mp (containsPos_iff.mpr ⟨pLab, hpLab⟩)).1
        exact absurd heq hc₂
      next =>
        rw [hback₁.isa, if_neg (hne _ (Nat.sub_le _ _)), hprev] at hwrite
        cases hb : pLab.body with
        | write =>
          rw [hb] at hc
          cases hc
        | _ =>
          rw [hb] at hwrite
          cases hwrite
  have hroom₂ : g₂.timestamp + 1 < stampSize := by
    rw [hback₂.timestamp, hback₁.timestamp]
    exact Nat.lt_of_succ_lt hroom
  obtain ⟨hg₃, hgrows, hlast₃, hsourced⟩ := hg₂.addRead hroom₂ hnew hext hread hadd
  obtain ⟨hg₄, hassigns₄⟩ := hg₃.setRf hlast₃ hset
  obtain ⟨-, -, hr, -⟩ := setRf_spec hset
  obtain ⟨hg', hassigns⟩ := hg₄.assigns_setFlag ((hassigns₄.relinks.isa _ _).trans hr) hassigns₄
    (fun _ => decide (w = maxLab)) id
  obtain rfl := Option.some.inj h
  refine ⟨hg'.driverInvariant (hassigns.sourced hsourced), g₂, g₃, a, maxLab,
    (SameAccesses.of_takesBack hback₁).trans (SameAccesses.of_takesBack hback₂), hgrows, ha, ?_,
    hassigns⟩
  unfold coMax at hmax ⊢
  rwa [hassigns₄.coherence] at hmax

end DriverInvariant

end ExecutionGraph

end GenMC
