import GenMC.Verification.Consistency.ContextBoundDecider

/-!
# The views of the context bound

What the tests of the decider say about a view.  `isSCMaximal` looks for the immediate successors of
an event in the view (`isSCMaximal_spec`), so that it becomes true when the view shrinks, and in a
view that is closed under the order of the graph it finds out whether anything in the view comes
after the event.  The views of the search are closed, none of the tests fails on them, and there is
a thread to go on with as long as events are left.
-/

namespace GenMC

open ExecutionGraph

namespace ContextBoundDecider

variable {g : ExecutionGraph} {getVal : Event → SVal} {v w : View} {t : ℕ}

/-- The successors that `isSCMaximal` looks for. -/
def TestedSucc (g : ExecutionGraph) (e s : Event) : Prop :=
  ((g.getEventLabel e).bind fun lab => lab.body.parentJoin) = some s ∨
  (((g.getEventLabel e).bind fun lab => lab.body.createdThread) = some s.thread ∧ s.index = 1) ∨
  (g.isa LabelBody.isWrite e ∧ (g.Rf e s ∨ g.coImmSucc e = some (some s))) ∨
  ∃ w ∈ g.rfOf e, if w = .init then ∃ a ∈ g.addrOf e, (g.co a).head? = some s
    else g.coImmSucc w = some (some s)

/-- The events up to the maxima of the view are in the graph. -/
def Within (g : ExecutionGraph) (v : View) : Prop := ∀ t, v.getMax t ≤ g.full.getMax t

/-- The last event of a thread in the view. -/
def last (v : View) (t : ℕ) : Event := ⟨t, v.getMax t⟩

/-- The events of the view are in the graph. -/
lemma Within.containsPos (h : Within g v) (hg : g.SCConsistent) {e : Event} (he : 0 < e.index)
    (hmem : v.contains e) : g.containsPos e :=
  (hg.containsPos_iff_full he).mpr ((of_decide_eq_true hmem).trans (h e.thread))

/-- The last event of a thread with events has a label. -/
lemma Within.exists_label (h : Within g v) (hg : g.SCConsistent) (ht : 0 < v.getMax t) :
    ∃ lab, g.getEventLabel (last v t) = some lab :=
  containsPos_iff.mp (h.containsPos hg (e := last v t) ht (decide_eq_true le_rfl))

/-! ## Maximal events -/

/-- The test for overwriting stores. -/
lemma isStoreMaximal_spec (hg : g.SCConsistent) (v : View) {s : Event} {a : SAddr}
    (ha : a ∈ g.coherence.keys)
    (hs : (g.isa LabelBody.isWrite s ∧ g.addrOf s = some a) ∨ s = .init) :
    ∃ b, isStoreMaximal g v s a = some b ∧ (b = true ↔ ∀ w,
      (if s = .init then (g.co a).head? = some w else g.coImmSucc s = some (some w)) →
        v.contains w = false) := by
  obtain ⟨ws, hws⟩ := KeyedList.mem_keys_iff.mp ha
  have hco : g.co a = ws := by
    unfold co
    rw [hws, Option.getD_some]
  rcases hs with ⟨hwrite, haddr⟩ | rfl
  · -- a write has its successor in coherence order
    have hinit := isa_isInit_eq_false hwrite
    have hne : s ≠ .init := by
      rintro rfl
      rw [(hg.readerLists.positioned.initOnly _).mpr rfl] at hinit
      cases hinit
    obtain ⟨l, r, hsplit⟩ := List.append_of_mem (hg.allStores s a hwrite haddr)
    obtain ⟨-, -, hsucc, -⟩ := hg.neighbours hsplit
    have hempty : ws.isEmpty = false := by
      rw [← hco, hsplit]
      cases l <;> rfl
    refine ⟨r.head?.all fun w => !v.contains w, ?_, ?_⟩
    · simp only [isStoreMaximal, hws, hempty, hinit, hsucc, Option.bind_eq_bind, Option.bind_some,
        Bool.false_eq_true, if_false]
      rfl
    · simp only [hne, if_false, hsucc, Option.some_inj]
      cases r.head? <;> simp
  · -- the initializer is overwritten by the first store
    have hinit := (hg.readerLists.positioned.initOnly _).mpr rfl
    refine ⟨ws.head?.all fun w => !v.contains w, ?_, ?_⟩
    · cases ws with
      | nil => simp only [isStoreMaximal, hws, Option.bind_eq_bind, Option.bind_some]; rfl
      | cons w ws =>
        simp only [isStoreMaximal, hws, hinit, Option.bind_eq_bind, Option.bind_some, if_true]
        rfl
    · rw [hco]
      simp only [if_true]
      cases ws.head? <;> simp

/-- The tested successors of a label that is neither a read nor a write. -/
lemma testedSucc_of_not_access {e s : Event} {lab : EventLabel}
    (hlab : g.getEventLabel e = some lab) (haccess : lab.body.isAccess = false) :
    TestedSucc g e s ↔ lab.body.parentJoin = some s ∨
      (lab.body.createdThread = some s.thread ∧ s.index = 1) := by
  have hbody : lab.body.isWrite = false ∧ lab.body.rf = none := by
    cases hb : lab.body <;> rw [hb] at haccess <;> first | exact ⟨rfl, rfl⟩ | cases haccess
  unfold TestedSucc
  rw [rfOf_of_getEventLabel hlab, isa_of_getEventLabel hlab, hlab, Option.bind_some,
    Option.bind_some, hbody.1, hbody.2]
  simp

/-- The tested successors of a write. -/
lemma testedSucc_of_write {e s : Event} {lab : EventLabel}
    (hlab : g.getEventLabel e = some lab) (hwrite : lab.body.isWrite = true) :
    TestedSucc g e s ↔ g.Rf e s ∨ g.coImmSucc e = some (some s) := by
  have hbody : lab.body.parentJoin = none ∧ lab.body.createdThread = none ∧ lab.body.rf = none := by
    cases hb : lab.body <;> rw [hb] at hwrite <;> first | exact ⟨rfl, rfl, rfl⟩ | cases hwrite
  unfold TestedSucc
  rw [rfOf_of_getEventLabel hlab, isa_of_getEventLabel hlab, hlab, Option.bind_some,
    Option.bind_some, hbody.1, hbody.2.1, hbody.2.2, hwrite]
  simp

/-- The tested successors of a read. -/
lemma testedSucc_of_read {e s w : Event} {lab : EventLabel}
    (hlab : g.getEventLabel e = some lab) (hw : lab.body.rf = some w) {a : SAddr}
    (ha : g.addrOf e = some a) : TestedSucc g e s ↔
      if w = .init then (g.co a).head? = some s else g.coImmSucc w = some (some s) := by
  have hread := LabelBody.isRead_of_rf hw
  have hbody : lab.body.parentJoin = none ∧ lab.body.createdThread = none ∧
      lab.body.isWrite = false := by
    cases hb : lab.body <;> rw [hb] at hread <;> first | exact ⟨rfl, rfl, rfl⟩ | cases hread
  unfold TestedSucc
  rw [rfOf_of_getEventLabel hlab, isa_of_getEventLabel hlab, hlab, Option.bind_some,
    Option.bind_some, hbody.1, hbody.2.1, hbody.2.2, hw, ha]
  simp

/-- **The test for maximal events** looks for the tested successors in the view; it does not
fail. -/
theorem isSCMaximal_spec (hg : g.SCConsistent) (hv : Within g v) (ht : 0 < v.getMax t) :
    ∃ b, isSCMaximal g v t = some b ∧
      (b = true ↔ ∀ s, TestedSucc g (last v t) s → v.contains s = false) := by
  obtain ⟨lab, hlab⟩ := hv.exists_label hg ht
  have hlab' : g.getEventLabel ⟨t, v.getMax t⟩ = some lab := hlab
  by_cases haccess : lab.body.isAccess
  · have haddr : lab.body.addr.isSome := by
      unfold LabelBody.addr
      rw [Option.isSome_map]
      exact haccess
    obtain ⟨a, ha⟩ := Option.isSome_iff_exists.mp haddr
    have haddrOf : g.addrOf (last v t) = some a := by
      rw [addrOf_of_getEventLabel hlab, ha]
    have hkeys := hg.readerLists.tracked _ a haddrOf
    have hclass : lab.body.isThreadFinish = false ∧ lab.body.createdThread = none := by
      cases hb : lab.body <;> rw [hb] at haccess <;> first | exact ⟨rfl, rfl⟩ | cases haccess
    by_cases hwrite : lab.body.isWrite
    · -- a write: neither its readers nor its coherence successor may be in the view
      simp only [testedSucc_of_write hlab hwrite]
      have hwrite' := isa_iff.mpr ⟨lab, hlab, hwrite⟩
      have hne : last v t ≠ .init := by
        intro h
        have := hg.index_pos_of_write hwrite'
        rw [h] at this
        exact lt_irrefl 0 this
      obtain ⟨b, hb, hiff⟩ := isStoreMaximal_spec hg v hkeys (.inl ⟨hwrite', haddrOf⟩)
      simp only [hne, if_false] at hiff
      have hreaders : ∀ r, r ∈ lab.body.readers ↔ g.Rf (last v t) r := by
        intro r
        rw [← readersOf_of_getEventLabel hlab]
        exact mem_readersOf_iff hg.readerLists hwrite'
      refine ⟨!(lab.body.readers.any v.contains) && b, ?_, ?_⟩
      · simp only [isSCMaximal, hlab', hclass.1, hclass.2, haccess, hwrite, ha,
          Option.bind_eq_bind, Option.bind_some, Bool.false_eq_true, if_false, Bool.not_true,
          if_true]
        split
        next hany => rw [hany]; rfl
        next hany =>
          rw [Bool.eq_false_iff.mpr hany, Bool.not_false, Bool.true_and]
          exact hb
      · rw [Bool.and_eq_true, hiff, Bool.not_eq_true', List.any_eq_false]
        constructor
        · rintro ⟨hr, hsucc⟩ s (hs | hs)
          · exact Bool.eq_false_iff.mpr (hr s ((hreaders s).mpr hs))
          · exact hsucc s hs
        · intro h
          exact ⟨fun r hr => Bool.eq_false_iff.mp (h r (.inl ((hreaders r).mp hr))),
            fun s hs => h s (.inr hs)⟩
    · -- a read: nothing in the view may overwrite its source
      have hread : lab.body.isRead := by
        have hor := haddr
        rw [LabelBody.addr_isSome, Bool.eq_false_iff.mpr hwrite, Bool.or_false] at hor
        exact hor
      have hsource := hg.reads _ (isa_iff.mpr ⟨lab, hlab, hread⟩)
      rw [rfOf_of_getEventLabel hlab] at hsource
      obtain ⟨w, hw⟩ := Option.isSome_iff_exists.mp hsource
      have hrf : g.Rf w (last v t) := (rfOf_of_getEventLabel hlab).trans hw
      have hwclass : (g.isa LabelBody.isWrite w ∧ g.addrOf w = some a) ∨ w = .init := by
        rcases hg.readerLists.sources _ w hrf with hww | hwi
        · exact .inl ⟨hww, (hg.locations w _ hrf hww).trans haddrOf⟩
        · exact .inr ((hg.readerLists.positioned.initOnly w).mp hwi)
      simp only [testedSucc_of_read hlab hw haddrOf]
      obtain ⟨b, hb, hiff⟩ := isStoreMaximal_spec hg v hkeys hwclass
      refine ⟨b, ?_, hiff⟩
      simp only [isSCMaximal, hlab', hclass.1, hclass.2, haccess, hwrite, hw, ha,
        Option.bind_eq_bind, Option.bind_some, Bool.false_eq_true, if_false, Bool.not_true]
      exact hb
  · have hfalse := Bool.eq_false_iff.mpr haccess
    simp only [testedSucc_of_not_access hlab hfalse]
    by_cases hfinish : lab.body.isThreadFinish
    · -- the end of a thread: its join may not be in the view
      have hcreate : lab.body.createdThread = none := by
        cases hb : lab.body <;> rw [hb] at hfinish <;> first | rfl | cases hfinish
      refine ⟨lab.body.parentJoin.all fun j => !v.contains j, ?_, ?_⟩
      · simp only [isSCMaximal, hlab', hfinish, Option.bind_eq_bind, Option.bind_some, if_true]
        rfl
      · rw [hcreate]
        cases lab.body.parentJoin <;> simp
    · have hjoin : lab.body.parentJoin = none := by
        cases hb : lab.body <;> rw [hb] at hfinish <;> first | rfl | exact absurd rfl hfinish
      cases hcreate : lab.body.createdThread with
      | none =>
        refine ⟨true, ?_, by simp [hjoin]⟩
        simp only [isSCMaximal, hlab', hfinish, hcreate, hfalse, Option.bind_eq_bind,
          Option.bind_some, Bool.false_eq_true, if_false, Bool.not_false, if_true]
        rfl
      | some child =>
        -- a create: the created thread may not have events in the view
        refine ⟨decide (v.getMax child = 0), ?_, ?_⟩
        · simp only [isSCMaximal, hlab', hfinish, hcreate, Option.bind_eq_bind, Option.bind_some,
            Bool.false_eq_true, if_false]
          rfl
        · rw [hjoin, decide_eq_true_eq]
          constructor
          · rintro hzero ⟨t', i⟩ (hs | ⟨hs, rfl⟩)
            · cases hs
            · obtain rfl : child = t' := Option.some.inj hs
              refine decide_eq_false ?_
              change ¬1 ≤ v.getMax child
              omega
          · intro h
            have hnot := of_decide_eq_false (h ⟨child, 1⟩ (.inr ⟨rfl, rfl⟩))
            change ¬1 ≤ v.getMax child at hnot
            omega

/-! ## Closed views -/

/-- A view that contains whatever comes before its events. -/
def Closed (g : ExecutionGraph) (v : View) : Prop :=
  ∀ p e, g.SCBefore p e → 0 < e.index → v.contains e → v.contains p

/-- The end that points to a join is the end of the joined thread. -/
lemma joins_of_parentJoin (hg : g.SCConsistent) {f j : Event}
    (h : ((g.getEventLabel f).bind fun lab => lab.body.parentJoin) = some j) : g.Joins f j := by
  obtain ⟨lab, hlab, hbody⟩ := Option.bind_eq_some_iff.mp h
  have hfinish : lab.body.isThreadFinish := by
    cases hb : lab.body <;> rw [hb] at hbody <;> first | rfl | cases hbody
  have hisa : g.isa LabelBody.isThreadFinish f := isa_iff.mpr ⟨lab, hlab, hfinish⟩
  refine ⟨hisa, f.thread, hg.finishes f j h, Event.ext rfl ?_⟩
  -- nothing follows the end of a thread
  have hterm : lab.body.isTerminator := by
    unfold LabelBody.isTerminator
    rw [hfinish, Bool.or_true, Bool.true_or]
  have hnext := hg.terminators f (isa_iff.mpr ⟨lab, hlab, hterm⟩)
  have hpos := containsPos_iff_lt.mp (containsPos_of_isa hisa)
  rw [containsPos_iff_lt] at hnext
  change ¬f.index + 1 < g.getThreadSize f.thread at hnext
  change f.index = g.getThreadSize f.thread - 1
  omega

/-- The tested successors are not the first labels of their threads. -/
lemma testedSucc_index_pos (hg : g.SCConsistent) {e s : Event} (h : TestedSucc g e s) :
    0 < s.index := by
  have hco : ∀ {w}, g.coImmSucc w = some (some s) → 0 < s.index := fun {w} hsucc =>
    have ⟨a, _, hsub⟩ := hg.co_of_coImmSucc hsucc
    hg.index_pos_of_write (hg.of_mem_co (hsub.subset (List.mem_cons_of_mem w List.mem_cons_self))).1
  rcases h with hjoin | ⟨-, hs1⟩ | ⟨-, hrf | hsucc⟩ | ⟨w, hw, hfr⟩
  · exact hg.index_pos_of_joins (joins_of_parentJoin hg hjoin)
  · omega
  · exact hg.index_pos_of_read (isa_isRead_of_rfOf hrf)
  · exact hco hsucc
  · split at hfr
    next =>
      obtain ⟨a, -, hhead⟩ := hfr
      exact hg.index_pos_of_write (hg.of_mem_co (List.mem_of_head? hhead)).1
    next => exact hco hfr

/-- The tested successors come after the event. -/
lemma scBefore_of_testedSucc (hg : g.SCConsistent) {e s : Event} (h : TestedSucc g e s)
    (hs : g.containsPos s) : g.SCBefore e s := by
  rcases h with hjoin | ⟨hcreate, hs1⟩ | ⟨hwrite, hrf | hco⟩ | ⟨w, hw, hfr⟩
  · exact .inr (.inr (.inr (.inr (.inr (joins_of_parentJoin hg hjoin)))))
  · -- the first event of the created thread
    obtain ⟨lab, hlab, hbody⟩ := Option.bind_eq_some_iff.mp hcreate
    have hisa : lab.body.isThreadCreate := by
      cases hb : lab.body <;> rw [hb] at hbody <;> first | cases hbody | skip
      next kind => cases kind <;> first | rfl | cases hbody
    obtain ⟨t, i⟩ := s
    obtain rfl : i = 1 := hs1
    have hstart := hg.creates e t hcreate hs
    exact .inr (.inr (.inr (.inr (.inl ⟨isa_iff.mpr ⟨lab, hlab, hisa⟩, hs, hstart⟩))))
  · exact .inr (.inl hrf)
  · exact .inr (.inr (.inl (hg.co_of_coImmSucc hco)))
  · split at hfr
    next hinit =>
      obtain ⟨a, ha, hhead⟩ := hfr
      have hmem := List.mem_of_head? hhead
      exact .inr (.inr (.inr (.inl ⟨w, hw, .inr ⟨hinit, a, ha, hmem⟩⟩)))
    next => exact .inr (.inr (.inr (.inl ⟨w, hw, .inl (hg.co_of_coImmSucc hfr)⟩)))

/-- In a closed view, whatever comes after the last event of a thread has a tested successor in the
view. -/
lemma exists_testedSucc (hg : g.SCConsistent) (hclosed : Closed g v) (hpos : 0 < v.getMax t)
    {s : Event}
    (h : g.SCBefore (last v t) s) (hs : 0 < s.index) (hmem : v.contains s) :
    ∃ s', TestedSucc g (last v t) s' ∧ v.contains s' := by
  -- what is the same or before in coherence order is contained
  have hco : ∀ {x}, x = s ∨ g.Co x s → v.contains x := fun {x} hx =>
    hx.elim (fun heq => heq ▸ hmem) fun hx => hclosed x s (.inr (.inr (.inl hx))) hs hmem
  rcases h with ⟨ht, hlt, -⟩ | hrf | hCo | ⟨w, hw, hfr⟩ | hcreate | ⟨-, child, hchild, hlast⟩
  · -- the event is the last one of its thread in the view
    have hle : s.index ≤ v.getMax s.thread := of_decide_eq_true hmem
    rw [← ht] at hle
    exact absurd hlt (not_lt.mpr hle)
  · rcases hg.readerLists.sources s _ hrf with hwrite | hinit
    · exact ⟨s, .inr (.inr (.inl ⟨hwrite, .inl hrf⟩)), hmem⟩
    · have hlast := (hg.readerLists.positioned.initOnly _).mp hinit
      have hzero : v.getMax t = 0 := congrArg Event.index hlast
      omega
  · obtain ⟨s', hsucc, hs'⟩ := hg.exists_coImmSucc hCo
    obtain ⟨a, -, hsub⟩ := hCo
    have hwrite := (hg.of_mem_co (hsub.subset List.mem_cons_self)).1
    exact ⟨s', .inr (.inr (.inl ⟨hwrite, .inr hsucc⟩)), hco hs'⟩
  · rcases hfr with hCo | ⟨rfl, a, ha, hin⟩
    · have hne : w ≠ .init := by
        rintro rfl
        obtain ⟨a, -, hsub⟩ := hCo
        have := hg.index_pos_of_write (hg.of_mem_co (hsub.subset List.mem_cons_self)).1
        exact lt_irrefl 0 this
      obtain ⟨s', hsucc, hs'⟩ := hg.exists_coImmSucc hCo
      refine ⟨s', .inr (.inr (.inr ⟨w, hw, ?_⟩)), hco hs'⟩
      rwa [if_neg hne]
    · obtain ⟨s', hhead, hs'⟩ := hg.exists_head hin
      refine ⟨s', .inr (.inr (.inr ⟨.init, hw, ?_⟩)), hco hs'⟩
      rw [if_pos rfl]
      exact ⟨a, ha, hhead⟩
  · refine ⟨⟨s.thread, 1⟩, .inr (.inl ⟨hg.created _ s hcreate hs, rfl⟩), decide_eq_true ?_⟩
    exact (Nat.succ_le_of_lt hs).trans (of_decide_eq_true hmem)
  · refine ⟨s, .inl ?_, hmem⟩
    rw [hlast]
    exact hg.joins s child hchild

/-- **Maximal events of closed views** are those that nothing in the view comes after. -/
theorem isSCMaximal_iff (hg : g.SCConsistent) (hv : Within g v) (hclosed : Closed g v)
    (ht : 0 < v.getMax t) : isSCMaximal g v t = some true ↔
      ∀ s, 0 < s.index → v.contains s → ¬g.SCBefore (last v t) s := by
  obtain ⟨b, hb, hiff⟩ := isSCMaximal_spec hg hv ht
  rw [hb, Option.some_inj, hiff]
  constructor
  · intro h s hs hmem hbefore
    obtain ⟨s', hsucc, hmem'⟩ := exists_testedSucc hg hclosed ht hbefore hs hmem
    rw [h s' hsucc] at hmem'
    cases hmem'
  · intro h s hsucc
    refine Bool.eq_false_iff.mpr fun hmem => ?_
    rcases Nat.eq_zero_or_pos s.index with hzero | hpos
    · exact absurd (testedSucc_index_pos hg hsucc) (by omega)
    · exact h s hpos hmem (scBefore_of_testedSucc hg hsucc (hv.containsPos hg hpos hmem))

/-- A maximal event stays maximal when the view shrinks elsewhere. -/
lemma isSCMaximal_anti (hg : g.SCConsistent) (hv : Within g v) (hw : Within g w)
    (hle : ∀ t', w.getMax t' ≤ v.getMax t') (heq : w.getMax t = v.getMax t) (ht : 0 < v.getMax t)
    (h : isSCMaximal g v t = some true) : isSCMaximal g w t = some true := by
  obtain ⟨b, hb, hiff⟩ := isSCMaximal_spec hg hv ht
  obtain ⟨b', hb', hiff'⟩ := isSCMaximal_spec hg hw (heq ▸ ht)
  rw [hb, Option.some_inj] at h
  rw [hb', Option.some_inj, hiff']
  intro s hs
  have hlast : last w t = last v t := Event.ext rfl heq
  have hnot := of_decide_eq_false (hiff.mp h s (hlast ▸ hs))
  exact decide_eq_false fun hle' => hnot (hle'.trans (hle s.thread))

/-- **Progress.**  As long as events are left, there is a thread to go on with. -/
theorem exists_candidate (hg : g.SCConsistent) (hv : Within g v) (hne : ∃ t, 0 < v.getMax t) :
    ∃ t < g.getNumThreads, candidate g v t = some true := by
  obtain ⟨t₀, ht₀⟩ := hne
  obtain ⟨e, ⟨hi, hmem⟩, hlast⟩ := hg.acyclic.exists_last
    (s := {e | 0 < e.index ∧ v.contains e})
    ((finite_containsPos g).subset fun e he => hv.containsPos hg he.1 he.2)
    ⟨last v t₀, ht₀, decide_eq_true le_rfl⟩
  have hle : e.index ≤ v.getMax e.thread := of_decide_eq_true hmem
  have ht : 0 < v.getMax e.thread := lt_of_lt_of_le hi hle
  -- the event is the last one of its thread in the view
  have heq : last v e.thread = e := by
    refine Event.ext rfl ?_
    by_contra hne
    have hlt : e.index < v.getMax e.thread := lt_of_le_of_ne hle (Ne.symm hne)
    exact hlast (last v e.thread) ⟨ht, decide_eq_true le_rfl⟩
      (.inl ⟨rfl, hlt, hv.containsPos hg ht (decide_eq_true le_rfl)⟩)
  refine ⟨e.thread, thread_lt_of_getMax_full (ht.trans_le (hv e.thread)), ?_⟩
  obtain ⟨b, hb, hiff⟩ := isSCMaximal_spec hg hv ht
  unfold candidate
  rw [if_neg (by omega), hb, Option.some_inj, hiff]
  intro s hs
  refine Bool.eq_false_iff.mpr fun hmem => ?_
  have hpos := testedSucc_index_pos hg hs
  rw [heq] at hs
  exact hlast s ⟨hpos, hmem⟩ (scBefore_of_testedSucc hg hs (hv.containsPos hg hpos hmem))

/-! ## The other tests -/

/-- The test for blocking does not fail. -/
lemma canBlock_isSome (hg : g.SCConsistent) (hv : Within g v) (ht : 0 < v.getMax t) :
    ∃ b, canBlock g v t = some b := by
  obtain ⟨lab, hlab⟩ := hv.exists_label hg ht
  have hlab' : g.getEventLabel ⟨t, v.getMax t⟩ = some lab := hlab
  simp only [canBlock, hlab', Option.bind_eq_bind, Option.bind_some]
  exact ⟨_, rfl⟩

/-- The test of a lock does not fail. -/
lemma isLockEnabled_isSome (hg : g.SCConsistent) (v : View) {a : SAddr}
    (ha : a ∈ g.coherence.keys) : ∃ b, isLockEnabled g v a = some b := by
  obtain ⟨ws, hws⟩ := KeyedList.mem_keys_iff.mp ha
  obtain ⟨rs, hrs⟩ := KeyedList.mem_keys_iff.mp (hg.readerLists.keys ▸ ha)
  have hco : g.co a = ws := by
    unfold co
    rw [hws, Option.getD_some]
  cases hfind : ws.reverse.find? v.contains with
  | none =>
    simp only [isLockEnabled, hws, hfind, hrs, Option.bind_eq_bind, Option.bind_some]
    exact ⟨_, rfl⟩
  | some w =>
    have hmem : w ∈ g.co a := hco ▸ List.mem_reverse.mp (List.mem_of_find?_eq_some hfind)
    obtain ⟨lab, hlab, -⟩ := isa_iff.mp (hg.of_mem_co hmem).1
    simp only [isLockEnabled, hws, hfind, hlab, Option.bind_eq_bind, Option.bind_some]
    exact ⟨_, rfl⟩

/-- The test of a barrier does not fail if the view has a store of the location. -/
lemma isBarrierEnabled_isSome (getVal : Event → SVal) {v : View} {a : SAddr} {e : Event}
    (he : e ∈ g.co a) (hmem : v.contains e) : ∃ b, isBarrierEnabled g getVal v a = some b := by
  cases hws : g.coherence.find? a with
  | none =>
    unfold co at he
    rw [hws] at he
    exact absurd he List.not_mem_nil
  | some ws =>
    have hco : g.co a = ws := by
      unfold co
      rw [hws, Option.getD_some]
    rw [hco] at he
    have hfind : (ws.reverse.find? v.contains).isSome := by
      rw [List.find?_isSome]
      exact ⟨e, List.mem_reverse.mpr he, hmem⟩
    obtain ⟨w, hw⟩ := Option.isSome_iff_exists.mp hfind
    obtain ⟨iw, hiw⟩ : ∃ iw, ws.head? = some iw := by
      cases ws with
      | nil => exact absurd he List.not_mem_nil
      | cons iw ws => exact ⟨iw, rfl⟩
    simp only [isBarrierEnabled, hws, hiw, hw, Option.bind_eq_bind, Option.bind_some]
    exact ⟨_, rfl⟩

/-- The test for enabled threads does not fail. -/
theorem isEnabled_isSome (hg : g.SCConsistent) (hv : Within g v) (ht : 0 < v.getMax t) :
    ∃ b, isEnabled g getVal v t = some b := by
  obtain ⟨lab, hlab⟩ := hv.exists_label hg ht
  have hlab' : g.getEventLabel ⟨t, v.getMax t⟩ = some lab := hlab
  simp only [isEnabled, hlab', Option.bind_eq_bind, Option.bind_some]
  by_cases hterm : lab.body.isTerminator
  · rw [if_pos hterm]
    exact ⟨_, rfl⟩
  rw [if_neg hterm]
  cases hnext : g.getNextLabel ⟨t, v.getMax t⟩ with
  | none => exact ⟨_, rfl⟩
  | some nLab =>
    have hnLab : g.getEventLabel (Event.next ⟨t, v.getMax t⟩) = some nLab := hnext
    have haccess : nLab.body.isRead → ∃ a, nLab.body.addr = some a ∧ a ∈ g.coherence.keys := by
      intro hread
      have haddr : nLab.body.addr.isSome := by rw [LabelBody.addr_isSome, hread, Bool.true_or]
      obtain ⟨a, ha⟩ := Option.isSome_iff_exists.mp haddr
      exact ⟨a, ha, hg.readerLists.tracked _ a ((addrOf_of_getEventLabel hnLab).trans ha)⟩
    dsimp only
    by_cases hjoin : nLab.body.isThreadJoin
    · -- the joined thread has ended
      rw [if_pos hjoin]
      obtain ⟨child, hchild⟩ : ∃ child, nLab.body.joinedThread = some child := by
        cases hb : nLab.body <;> rw [hb] at hjoin <;> first | cases hjoin | skip
        next kind => cases kind <;> first | exact ⟨_, rfl⟩ | cases hjoin
      have hj := hg.joins (Event.next ⟨t, v.getMax t⟩) child (by rw [hnLab]; exact hchild)
      obtain ⟨fLab, hfLab, hf⟩ := Option.bind_eq_some_iff.mp hj
      have hfinish : fLab.body.isThreadFinish := by
        cases hb : fLab.body <;> rw [hb] at hf <;> first | rfl | cases hf
      simp only [tjPred, hchild, hfLab, hfinish, Option.bind_eq_bind, Option.bind_some, if_true]
      exact ⟨_, rfl⟩
    rw [if_neg hjoin]
    by_cases hlock : nLab.body.isLockCasRead
    · have hread : nLab.body.isRead := by
        cases hb : nLab.body <;> rw [hb] at hlock <;> first | rfl | cases hlock
      obtain ⟨a, ha, hkeys⟩ := haccess hread
      rw [if_pos hlock, ha]
      exact isLockEnabled_isSome hg v hkeys
    rw [if_neg hlock]
    by_cases hbarrier : nLab.body.isBWaitRead
    · -- the thread has decremented the barrier in the view
      have hread : nLab.body.isRead := by
        cases hb : nLab.body <;> rw [hb] at hbarrier <;> first | rfl | cases hbarrier
      obtain ⟨a, ha, -⟩ := haccess hread
      obtain ⟨w, hwt, hwi, hw, hwa⟩ := hg.barriers _ (isa_iff.mpr ⟨nLab, hnLab, hbarrier⟩)
      rw [addrOf_of_getEventLabel hnLab, ha] at hwa
      rw [if_pos hbarrier, ha]
      refine isBarrierEnabled_isSome getVal (hg.allStores w a hw hwa) (decide_eq_true ?_)
      rw [hwt]
      exact Nat.lt_succ_iff.mp hwi
    · rw [if_neg hbarrier]
      exact ⟨_, rfl⟩

/-- The test for preemptions does not fail. -/
lemma preempts_isSome (hg : g.SCConsistent) (hv : Within g v) {tp : ℕ} (ht : 0 < v.getMax tp) :
    ∃ b, preempts g getVal v t tp = some b := by
  unfold preempts
  split
  · exact ⟨_, rfl⟩
  · exact isEnabled_isSome hg hv ht

/-! ## Smaller views -/

/-- Taking off an event. -/
@[simp] lemma getMax_shrinkViewByOne (v : View) (t t' : ℕ) :
    (shrinkViewByOne v t).getMax t' = if t' = t then v.getMax t - 1 else v.getMax t' := by
  unfold shrinkViewByOne
  rw [View.getMax_setMax]

/-- A smaller view has no more events. -/
lemma getMax_shrinkViewByOne_le (v : View) (t t' : ℕ) :
    (shrinkViewByOne v t).getMax t' ≤ v.getMax t' := by
  rw [getMax_shrinkViewByOne]
  split
  next h =>
    subst h
    exact Nat.sub_le _ _
  next => exact le_rfl

/-- The events of a smaller view. -/
lemma contains_shrinkViewByOne (ht : 0 < v.getMax t) {e : Event} :
    (shrinkViewByOne v t).contains e ↔ v.contains e ∧ e ≠ last v t := by
  unfold View.contains last
  rw [getMax_shrinkViewByOne, decide_eq_true_eq, decide_eq_true_eq, Ne, Event.ext_iff]
  split
  next h =>
    rw [h]
    simp only [true_and]
    omega
  next h =>
    simp only [h, false_and, not_false_eq_true, and_true]

/-- Smaller views are in the graph. -/
lemma Within.shrink (h : Within g v) (t : ℕ) : Within g (shrinkViewByOne v t) := fun t' =>
  (getMax_shrinkViewByOne_le v t t').trans (h t')

/-- Taking off a maximal event keeps a view closed. -/
lemma Closed.shrink (hg : g.SCConsistent) (hv : Within g v) (h : Closed g v) (ht : 0 < v.getMax t)
    (hmax : isSCMaximal g v t = some true) : Closed g (shrinkViewByOne v t) := by
  intro p e hpe hi he
  obtain ⟨hmem, -⟩ := (contains_shrinkViewByOne ht).mp he
  refine (contains_shrinkViewByOne ht).mpr ⟨h p e hpe hi hmem, ?_⟩
  rintro rfl
  exact (isSCMaximal_iff hg hv h ht).mp hmax e hi hmem hpe

/-- The full view is in the graph. -/
lemma within_full (g : ExecutionGraph) : Within g g.full := fun _ => le_rfl

/-- The full view is closed. -/
lemma closed_full (hg : g.SCConsistent) : Closed g g.full := by
  intro p e hpe _ _
  rcases Nat.eq_zero_or_pos p.index with hzero | hpos
  · exact (VectorClock.view g.full).contains_of_index_eq_zero hzero
  · exact decide_eq_true ((hg.containsPos_iff_full hpos).mp (hg.containsPos hpe).1)

/-- The number of events in a view, over the threads of the graph. -/
def size (g : ExecutionGraph) (v : View) : ℕ := ((List.range g.getNumThreads).map v.getMax).sum

/-- A view that has fewer events of a thread and no more of the others is smaller. -/
lemma size_lt (hv : Within g v) (hle : ∀ t', w.getMax t' ≤ v.getMax t')
    (hlt : w.getMax t < v.getMax t) : size g w < size g v := by
  have ht : t < g.getNumThreads := thread_lt_of_getMax_full (by have := hv t; omega)
  exact List.sum_lt_sum _ _ (fun t' _ => hle t') ⟨t, List.mem_range.mpr ht, hlt⟩

/-- A view with no more events is not larger. -/
lemma size_le (hle : ∀ t', w.getMax t' ≤ v.getMax t') : size g w ≤ size g v :=
  List.sum_le_sum fun t' _ => hle t'

end ContextBoundDecider

end GenMC
