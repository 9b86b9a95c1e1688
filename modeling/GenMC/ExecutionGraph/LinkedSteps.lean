import GenMC.ExecutionGraph.Linked

/-!
# Mutators of linked graphs

What the mutators do to the parts of well-formedness.  Each keeps `Linked`; what it does to the
label at a position, to the sources and to the coherence orders is said once, for the calls of the
driver to put together.
-/

namespace GenMC

namespace ExecutionGraph

variable {g g' : ExecutionGraph}

/-! ## Turning the source of a read -/

/-- Changing the source, the readers or a flag of a label leaves the other links alone. -/
lemma links_updateLabel {m : FieldMap} (halloc : m.alloc = id) (hfree : m.free = id)
    (haccesses : m.accesses = id) (hfreeAlloc : m.freeAlloc = id) (hparentJoin : m.parentJoin = id)
    (e e' : Event) :
    ((g.updateLabel e (EventLabel.mapFields m)).getEventLabel e').map (fun lab => lab.body.links) =
      (g.getEventLabel e').map fun lab => lab.body.links :=
  map_getEventLabel_updateLabel (fun lab =>
    LabelBody.links_mapFields halloc hfree haccesses hfreeAlloc hparentJoin lab.body) e e'

/-- A change of sources and readers. -/
structure TurnsReads (g g' : ExecutionGraph) : Prop where
  /-- Only links change. -/
  relinks : Relinks g g'
  /-- The marks stay. -/
  marks : ∀ e, g'.marksOf e = g.marksOf e
  /-- The links between accesses, allocations, frees and joins stay. -/
  links : ∀ e, (g'.getEventLabel e).map (fun lab => lab.body.links) =
    (g.getEventLabel e).map fun lab => lab.body.links
  /-- The coherence order stays. -/
  coherence : g'.coherence = g.coherence

namespace TurnsReads

lemma refl (g : ExecutionGraph) : TurnsReads g g :=
  ⟨Relinks.refl g, fun _ => rfl, fun _ => rfl, rfl⟩

lemma trans {g'' : ExecutionGraph} (h : TurnsReads g g') (h' : TurnsReads g' g'') :
    TurnsReads g g'' :=
  ⟨h.relinks.trans h'.relinks, fun e => (h'.marks e).trans (h.marks e),
    fun e => (h'.links e).trans (h.links e), h'.coherence.trans h.coherence⟩

/-- Changing the source or the readers of a label. -/
lemma updateLabel {m : FieldMap} (halloc : m.alloc = id) (hfree : m.free = id)
    (haccesses : m.accesses = id) (hfreeAlloc : m.freeAlloc = id) (hparentJoin : m.parentJoin = id)
    (hmaximal : m.maximal = id) (g : ExecutionGraph) (e : Event) :
    TurnsReads g (g.updateLabel e (EventLabel.mapFields m)) :=
  ⟨Relinks.updateLabel g e m, marksOf_updateLabel hmaximal e,
    links_updateLabel halloc hfree haccesses hfreeAlloc hparentJoin e, rfl⟩

/-- The links of all labels stay right. -/
lemma allLinks (h : TurnsReads g g') (hg : AllLinks g) : AllLinks g' :=
  hg.congr h.links fun p hp e he => (h.relinks.isa_linkTargets p hp e).trans he

/-- The coherence orders of the locations stay. -/
lemma co (h : TurnsReads g g') (a : SAddr) : g'.co a = g.co a := by
  unfold ExecutionGraph.co
  rw [h.coherence]

end TurnsReads

/-- Leaving a source. -/
lemma leaveSource_turnsReads {old : Option Event} {r : Event} {a : SAddr}
    (h : g.leaveSource old r a = some g') :
    TurnsReads g g' ∧ ∀ r', g'.rfOf r' = g.rfOf r' := by
  unfold leaveSource at h
  split at h
  · split at h
    · refine ⟨?_, (dropReader_spec h).rfOf⟩
      unfold dropReader at h
      split at h
      · exact Option.some.inj h ▸ TurnsReads.updateLabel rfl rfl rfl rfl rfl rfl g _
      · split at h
        · exact Option.some.inj h ▸ ⟨⟨rfl, fun _ => rfl, fun _ => rfl, rfl, rfl⟩, fun _ => rfl,
          fun _ => rfl, rfl⟩
        · cases h
    · exact Option.some.inj h ▸ ⟨TurnsReads.refl g, fun _ => rfl⟩
  · exact Option.some.inj h ▸ ⟨TurnsReads.refl g, fun _ => rfl⟩

/-- Joining a source. -/
lemma joinSource_turnsReads {rf : Option Event} {r : Event} {a : SAddr}
    (h : g.joinSource rf r a = some g') :
    TurnsReads g g' ∧ ∀ r', g'.rfOf r' = g.rfOf r' := by
  unfold joinSource at h
  split at h
  · refine ⟨?_, (pushReader_spec h).2.rfOf⟩
    obtain ⟨wLab, -, h⟩ := Option.bind_eq_some_iff.mp h
    split at h
    · split at h
      · cases h
      · exact Option.some.inj h ▸ TurnsReads.updateLabel rfl rfl rfl rfl rfl rfl g _
    · split at h
      · split at h
        · cases h
        · exact Option.some.inj h ▸ ⟨⟨rfl, fun _ => rfl, fun _ => rfl, rfl, rfl⟩, fun _ => rfl,
          fun _ => rfl, rfl⟩
      · cases h
  · exact Option.some.inj h ▸ ⟨TurnsReads.refl g, fun _ => rfl⟩

/-- `setRf` only changes sources and readers. -/
lemma setRf_turnsReads {r : Event} {rf : Option Event} (h : g.setRf r rf = some g') :
    TurnsReads g g' := by
  obtain ⟨a, g₂, -, -, hleave, hjoin⟩ := setRf_spec h
  exact ((TurnsReads.updateLabel rfl rfl rfl rfl rfl rfl g r).trans
    (leaveSource_turnsReads hleave).1).trans (joinSource_turnsReads hjoin).1

/-- `setRf` changes the source of the read and of no other. -/
lemma rfOf_setRf {r : Event} {rf : Option Event} (h : g.setRf r rf = some g') (r' : Event) :
    g'.rfOf r' = if r' = r then rf else g.rfOf r' := by
  obtain ⟨a, g₂, hr, -, hleave, hjoin⟩ := setRf_spec h
  rw [(joinSource_turnsReads hjoin).2, (leaveSource_turnsReads hleave).2]
  exact rfOf_setRfNoCascade hr rf r'

/-- A read can be turned to any write and to the initializer. -/
lemma setRf_isSome (hg : ReaderLists g) {r w : Event} (hr : g.isa LabelBody.isRead r)
    (hw : g.isa LabelBody.isWrite w ∨ g.isa LabelBody.isInit w) :
    ∃ g', g.setRf r (some w) = some g' := by
  obtain ⟨rLab, hrLab, hread⟩ := isa_iff.mp hr
  obtain ⟨a, ha⟩ : ∃ a, rLab.body.addr = some a := by
    rw [← Option.isSome_iff_exists, LabelBody.addr_isSome, hread]
    rfl
  set g₁ := g.updateLabel r (EventLabel.setRfNoCascade (some w)) with hg₁
  have hrelinks₁ : Relinks g g₁ := Relinks.updateLabel g r _
  obtain ⟨g₂, hleave⟩ : ∃ g₂, g₁.leaveSource (g.rfOf r) r a = some g₂ := by
    unfold leaveSource
    cases hrf : g.rfOf r with
    | none => exact ⟨g₁, rfl⟩
    | some w₀ =>
      simp only
      split
      · unfold dropReader
        rcases hg.sources r w₀ hrf with hwrite | hinit
        · rw [hrelinks₁.isa, if_pos hwrite]
          exact ⟨_, rfl⟩
        · rw [hrelinks₁.isa LabelBody.isInit, if_pos hinit]
          split <;> exact ⟨_, rfl⟩
      · exact ⟨g₁, rfl⟩
  have haddr : g.addrOf r = some a := (addrOf_of_getEventLabel hrLab).trans ha
  obtain ⟨hmirrors, -, -, -⟩ := leaveSource_mirrors hg haddr hleave
  have hrelinks : Relinks g g₂ := hrelinks₁.trans (leaveSource_relinks hleave)
  -- The read is in no list any more, so that it can be pushed.
  have hfree : ∀ s, r ∉ g₂.readersAt s := by
    intro s hmem
    have hsource := (hmirrors.mem_iff s r).mp hmem
    rw [Function.update_self] at hsource
    cases hsource
  obtain ⟨g', hjoin⟩ : ∃ g', g₂.joinSource (some w) r a = some g' := by
    unfold joinSource pushReader
    rw [← hrelinks.isa LabelBody.isWrite, ← hrelinks.isa LabelBody.isInit] at hw
    obtain ⟨wLab, hwLab⟩ : ∃ wLab, g₂.getEventLabel w = some wLab := by
      rcases hw with hw | hw
      · exact (isa_iff.mp hw).imp fun _ h => h.1
      · exact (isa_iff.mp hw).imp fun _ h => h.1
    rw [isa_of_getEventLabel hwLab, isa_of_getEventLabel hwLab] at hw
    have hreaders : r ∉ wLab.body.readers := by
      rw [← readersOf_of_getEventLabel hwLab]
      exact hfree (.inl w)
    have hinitReaders : r ∉ g₂.initReaders a := hfree (.inr a)
    simp only [hwLab, Option.bind_eq_bind, Option.bind_some]
    by_cases hwrite : wLab.body.isWrite
    · rw [if_pos hwrite, if_neg hreaders]
      exact ⟨_, rfl⟩
    · rw [if_neg hwrite, if_pos (hw.resolve_left hwrite), if_neg hinitReaders]
      exact ⟨_, rfl⟩
  refine ⟨g', ?_⟩
  rw [rfOf_of_getEventLabel hrLab] at hleave
  unfold setRf
  simp only [hrLab, Option.bind_eq_bind, Option.bind_some, if_pos hread, ha, ← hg₁, hleave, hjoin]

namespace Linked

/-- Turning the source of a read. -/
lemma setRf (hg : Linked g) {r : Event} {rf : Option Event} (h : g.setRf r rf = some g') :
    Linked g' := by
  have hturns := setRf_turnsReads h
  refine ⟨hg.readerLists.setRf h, hg.stamped.relinks hturns.relinks, hturns.allLinks hg.links,
    hg.listed.congr hturns.links, ⟨fun a => ?_, fun a w hw => ?_⟩⟩
  · rw [hturns.co]
    exact hg.stores.nodup a
  · rw [hturns.co] at hw
    rw [hturns.relinks.isa, hturns.relinks.addrOf]
    exact hg.stores.stores a w hw

/-- Changing links and flags other than sources and readers, so that the links are right again. -/
lemma keepsReads (hg : Linked g) (h : KeepsReads g g') (hlinks : AllLinks g')
    (hlisted : Listed g') : Linked g' := by
  have hco : ∀ a, g'.co a = g.co a := fun a => by unfold co; rw [h.coherence]
  refine ⟨hg.readerLists.of_eq (hg.readerLists.positioned.relinks h.relinks) h.rfOf h.readersOf
    h.relinks.addrOf (h.relinks.isa _) (h.relinks.isa _) h.coherence h.initRfs,
    hg.stamped.relinks h.relinks, hlinks, hlisted, ⟨fun a => ?_, fun a w hw => ?_⟩⟩
  · rw [hco]
    exact hg.stores.nodup a
  · rw [hco] at hw
    rw [h.relinks.isa, h.relinks.addrOf]
    exact hg.stores.stores a w hw

end Linked

/-- Relinking keeps what the coherence orders list if it keeps them. -/
lemma Settled.relinks (hg : Settled g) (h : Relinks g g') (hco : g'.coherence = g.coherence) :
    Settled g' := by
  refine ⟨fun t ht => ?_, fun w a hw ha => ?_⟩
  · rw [h.containsPos]
    exact hg.started t (h.numThreads ▸ ht)
  · rw [h.isa] at hw
    rw [h.addrOf] at ha
    unfold co
    rw [hco]
    exact hg.placed w a hw ha

/-! ## Coherence -/

/-- Inserting into a list adds the element. -/
lemma insertAfter_perm {p w : Event} {ws ws' : List Event} (h : insertAfter p w ws = some ws') :
    ws'.Perm (w :: ws) := by
  induction ws generalizing ws' with
  | nil => cases h
  | cons x ws ih =>
    unfold insertAfter at h
    split at h
    · exact Option.some.inj h ▸ List.Perm.swap w x ws
    · obtain ⟨ws₁, hws₁, rfl⟩ := Option.map_eq_some_iff.mp h
      exact ((ih hws₁).cons x).trans (List.Perm.swap w x ws)

/-- The coherence orders after changing that of the location of a write. -/
lemma co_modifyCO (hg : ReaderLists g) {w : Event} {f : List Event → Option (List Event)}
    (h : g.modifyCO w f = some g') :
    ∃ a ws, g.isa LabelBody.isWrite w ∧ g.addrOf w = some a ∧ f (g.co a) = some ws ∧
      ∀ b, g'.co b = if b = a then ws else g.co b := by
  obtain ⟨a, ws, hw, ha, hws, rfl⟩ := modifyCO_spec h
  refine ⟨a, ws, hw, ha, hws, fun b => ?_⟩
  have htracked := hg.tracked w a ha
  simp only [KeyedList.track_of_mem htracked]
  exact co_modify htracked ws b

/-- `addStoreToCOAfter` adds the write to the coherence order of its location. -/
lemma co_addStoreToCOAfter (hg : ReaderLists g) {w pred : Event}
    (h : g.addStoreToCOAfter w pred = some g') :
    ∃ a, g.isa LabelBody.isWrite w ∧ g.addrOf w = some a ∧ (g'.co a).Perm (w :: g.co a) ∧
      ∀ b, b ≠ a → g'.co b = g.co b := by
  obtain ⟨predLab, -, h⟩ := Option.bind_eq_some_iff.mp h
  obtain ⟨a, ws, hw, ha, hws, hco⟩ := co_modifyCO hg h
  refine ⟨a, hw, ha, ?_, fun b hb => by rw [hco, if_neg hb]⟩
  rw [hco, if_pos rfl]
  split at hws
  · exact insertAfter_perm hws
  · rw [← Option.some.inj hws]

/-- Changing the coherence orders, so that each lists every write once again. -/
lemma Linked.turnsCO (hg : Linked g) (h : TurnsCO g g') (hstores : Stores g') : Linked g' := by
  have hrelinks := h.relinks
  have hlabel : ∀ e, g'.getEventLabel e = g.getEventLabel e := by
    intro e
    rw [h.eq]
    rfl
  refine ⟨hg.readerLists.turnsCO h, hg.stamped.relinks hrelinks,
    hg.links.congr (fun e => by rw [hlabel]) fun p hp e he => ?_,
    hg.listed.congr fun e => by rw [hlabel], hstores⟩
  rw [hrelinks.isa_linkTargets p hp]
  exact he

/-- Adding a write to the coherence order of its location. -/
lemma Linked.addStoreToCOAfter (hg : Linked g) {w pred : Event} (hw : ∀ a, w ∉ g.co a)
    (h : g.addStoreToCOAfter w pred = some g') : Linked g' := by
  have hturns := addStoreToCOAfter_turnsCO h
  obtain ⟨a, hwrite, ha, hperm, hother⟩ := co_addStoreToCOAfter hg.readerLists h
  refine hg.turnsCO hturns ⟨fun b => ?_, fun b w' hw' => ?_⟩
  · by_cases hb : b = a
    · rw [hb, hperm.nodup_iff, List.nodup_cons]
      exact ⟨hw a, hg.stores.nodup a⟩
    · rw [hother b hb]
      exact hg.stores.nodup b
  · rw [hturns.relinks.isa, hturns.relinks.addrOf]
    by_cases hb : b = a
    · rw [hb] at hw' ⊢
      rcases List.mem_cons.mp (hperm.mem_iff.mp hw') with rfl | hmem
      · exact ⟨hwrite, ha⟩
      · exact hg.stores.stores a w' hmem
    · rw [hother b hb] at hw'
      exact hg.stores.stores b w' hw'

/-- Moving a write within the coherence order of its location. -/
lemma Linked.moveStoreCOAfter (hg : Linked g) (hs : Settled g) {w pred : Event}
    (h : g.moveStoreCOAfter w pred = some g') : Linked g' ∧ Settled g' := by
  obtain ⟨g₁, hremove, hadd⟩ := Option.bind_eq_some_iff.mp h
  have hturns₁ : TurnsCO g g₁ := modifyCO_turnsCO hremove
  have hturns := addStoreToCOAfter_turnsCO hadd
  obtain ⟨a, ws, hwrite, ha, hws, hco₁⟩ := co_modifyCO hg.readerLists hremove
  obtain rfl := Option.some.inj hws
  have hmem : ∀ b, ∀ w' ∈ g₁.co b, w' ∈ g.co b := by
    intro b w' hw'
    rw [hco₁] at hw'
    split at hw'
    next hb => exact hb ▸ List.mem_of_mem_erase hw'
    next => exact hw'
  have hlinked₁ : Linked g₁ := by
    refine hg.turnsCO hturns₁ ⟨fun b => ?_, fun b w' hw' => ?_⟩
    · rw [hco₁]
      split
      · exact (hg.stores.nodup a).erase w
      · exact hg.stores.nodup b
    · rw [hturns₁.relinks.isa, hturns₁.relinks.addrOf]
      exact hg.stores.stores b w' (hmem b w' hw')
  have hnot : ∀ b, w ∉ g₁.co b := by
    intro b hw
    have haddr := (hg.stores.stores b w (hmem b w hw)).2
    rw [ha] at haddr
    rw [hco₁, if_pos (Option.some.inj haddr).symm] at hw
    exact (hg.stores.nodup a).not_mem_erase hw
  obtain ⟨a', -, ha', hperm, hother⟩ := co_addStoreToCOAfter hlinked₁.readerLists hadd
  rw [hturns₁.relinks.addrOf, ha] at ha'
  obtain rfl := Option.some.inj ha'
  refine ⟨hlinked₁.addStoreToCOAfter hnot hadd, fun t ht => ?_, fun w' b hw' hb => ?_⟩
  · rw [hturns.relinks.containsPos, hturns₁.relinks.containsPos]
    exact hs.started t (hturns₁.relinks.numThreads ▸ hturns.relinks.numThreads ▸ ht)
  · rw [hturns.relinks.isa, hturns₁.relinks.isa] at hw'
    rw [hturns.relinks.addrOf, hturns₁.relinks.addrOf] at hb
    have hold := hs.placed w' b hw' hb
    by_cases hba : b = a
    · rw [hba] at hold ⊢
      rw [hperm.mem_iff, List.mem_cons, hco₁, if_pos rfl]
      by_cases hww : w' = w
      · exact Or.inl hww
      · exact Or.inr ((List.mem_erase_of_ne hww).mpr hold)
    · rw [hother b hba, hco₁, if_neg hba]
      exact hold

/-! ## Adding labels and threads -/

/-- The position behind the last label of a thread is free. -/
lemma containsPos_eq_false {e : Event} (h : e.index = g.getThreadSize e.thread) :
    g.containsPos e = false := by
  rw [Bool.eq_false_iff]
  intro hc
  have := containsPos_iff_lt.mp hc
  omega

/-- A label as the handlers of the driver pass it: fresh, without stamp, view or links. -/
structure New (lab : EventLabel) : Prop where
  /-- It has no source or readers. -/
  fresh : lab.Fresh
  /-- It has no stamp. -/
  stamp : lab.stamp = none
  /-- It has no view. -/
  prefixView : lab.prefixView = none
  /-- It has no links. -/
  links : lab.body.NoLinks

instance : DecidablePred New := fun lab =>
  decidable_of_iff
    (lab.Fresh ∧ lab.stamp = none ∧ lab.prefixView = none ∧ lab.body.NoLinks)
    ⟨fun h => ⟨h.1, h.2.1, h.2.2.1, h.2.2.2⟩,
      fun h => ⟨h.fresh, h.stamp, h.prefixView, h.links⟩⟩

/-- Adding a label behind the last one of its thread. -/
lemma Linked.addLabelToGraph (hg : Linked g) {lab : EventLabel} (hnew : New lab)
    (hroom : g.timestamp + 1 < stampSize)
    (hindex : lab.pos.index = g.getThreadSize lab.pos.thread)
    (h : g.addLabelToGraph lab = some g') : Linked g' := by
  have hadds := addLabelToGraph_spec h
  have hfree := containsPos_eq_false hindex
  have hne : ∀ {p : LabelBody → Bool} {e : Event}, g.isa p e → e ≠ lab.pos := by
    rintro p e he rfl
    obtain ⟨lab', hlab', -⟩ := isa_iff.mp he
    rw [containsPos, hlab'] at hfree
    cases hfree
  have hisa : ∀ (p : LabelBody → Bool) (e : Event), g.isa p e → g'.isa p e := by
    intro p e he
    rw [hadds.isa, if_neg (hne he)]
    exact he
  refine ⟨hg.readerLists.addLabelToGraph hnew.fresh h,
    hg.stamped.addLabelToGraph hnew.fresh hnew.stamp hroom (by omega) h, fun e lab' hlab' => ?_,
    fun a m hm => ?_, ⟨fun a => ?_, fun a w hw => ?_⟩⟩
  · rw [hadds.getEventLabel] at hlab'
    split at hlab'
    · rw [← Option.some.inj hlab', body_stamped]
      exact AllocLinks.of_noLinks hnew.links
    · exact (hg.links e lab' hlab').congr rfl fun p _ e he => hisa p e he
  · -- The new label neither has accesses nor is one that is listed.
    have hm' : m ∈ g.accessesOf a := by
      unfold accessesOf at hm ⊢
      rw [hadds.getEventLabel] at hm
      split at hm
      · have haccesses := congrArg (fun l => l.2.1) hnew.links
        rw [Option.map_some, Option.getD_some, body_stamped] at hm
        simp only [LabelBody.links] at haccesses
        rw [haccesses] at hm
        cases hm
      · exact hm
    have hold := hg.listed a m hm'
    have hne' : m ≠ lab.pos := by
      rintro rfl
      unfold allocOf at hold
      obtain ⟨mLab, hmLab, -⟩ := Option.bind_eq_some_iff.mp hold
      rw [containsPos, hmLab] at hfree
      cases hfree
    unfold allocOf
    rw [hadds.getEventLabel, if_neg hne']
    exact hold
  · rw [hadds.co]
    exact hg.stores.nodup a
  · rw [hadds.co] at hw
    obtain ⟨hwrite, ha⟩ := hg.stores.stores a w hw
    refine ⟨hisa _ w hwrite, ?_⟩
    rw [hadds.addrOf, if_neg (hne hwrite)]
    exact ha

/-- A new thread has no labels. -/
lemma Linked.addNewThread (hg : Linked g) : Linked g.addNewThread := by
  have hlabel := getEventLabel_addNewThread (g := g)
  have hisa : ∀ p e, g.addNewThread.isa p e = g.isa p e := by
    intro p e
    rw [isa, hlabel, isa]
  refine ⟨hg.readerLists.addNewThread, hg.stamped.addNewThread,
    hg.links.congr (fun e => by rw [hlabel]) fun p _ e he => (hisa p e).trans he,
    hg.listed.congr fun e => by rw [hlabel], ⟨hg.stores.nodup, fun a w hw => ?_⟩⟩
  rw [hisa, addrOf, hlabel]
  exact hg.stores.stores a w hw

/-! ## Taking labels back -/

/-- The classes of the labels that other labels link to. -/
def linkedClasses : List (LabelBody → Bool) :=
  [LabelBody.isWrite, LabelBody.isMalloc, LabelBody.isFree, LabelBody.isThreadJoin]

/-- A thread whose last label can be taken back: no label links to it, but for the lists of sources
and allocations; a read from the initializer would stay in the list of its source. -/
structure Removable (g : ExecutionGraph) (t : ℕ) : Prop where
  /-- It is not the initializer. -/
  notInit : g.lastPos t ≠ .init
  /-- No label links to it. -/
  unlinked : ∀ p ∈ linkedClasses, g.isa p (g.lastPos t) = false
  /-- It does not read from the initializer. -/
  rf : g.rfOf (g.lastPos t) ≠ some .init

/-- Block labels and begin labels have no links. -/
lemma removable_of_isBlock {t : ℕ} (hinit : g.lastPos t ≠ .init)
    (h : g.isa LabelBody.isBlock (g.lastPos t) ∨ g.isa LabelBody.isThreadStart (g.lastPos t)) :
    Removable g t := by
  obtain ⟨lab, hlab⟩ : ∃ lab, g.getEventLabel (g.lastPos t) = some lab := by
    rcases h with h | h
    · exact (isa_iff.mp h).imp fun _ h => h.1
    · exact (isa_iff.mp h).imp fun _ h => h.1
  rw [isa_of_getEventLabel hlab, isa_of_getEventLabel hlab] at h
  refine ⟨hinit, fun p hp => ?_, ?_⟩
  · rw [isa_of_getEventLabel hlab]
    simp only [linkedClasses, List.mem_cons, List.not_mem_nil, or_false] at hp
    cases hb : lab.body with
    | plain k =>
      rw [hb] at h
      rcases hp with rfl | rfl | rfl | rfl <;> cases k <;>
        first
          | rfl
          | simp [LabelBody.isBlock, LabelBody.isThreadStart] at h
    | threadStart _ | init | read => rcases hp with rfl | rfl | rfl | rfl <;> rfl
    | threadFinish _ | write | malloc | free | empty =>
      simp [hb, LabelBody.isBlock, LabelBody.isThreadStart] at h
  · rw [rfOf_of_getEventLabel hlab]
    cases hb : lab.body <;> simp_all [LabelBody.isBlock, LabelBody.isThreadStart, LabelBody.rf]

/-- The last label only leaves the lists of its source and of its allocation. -/
lemma Removable.unlinkLast {t : ℕ} (ht : Removable g t) {lab : EventLabel}
    (hlab : g.getEventLabel (g.lastPos t) = some lab) :
    g.unlinkLast lab = some ((g.unlinkRead lab).unlinkAccess lab) := by
  have hwrite := ht.unlinked LabelBody.isWrite (by simp [linkedClasses])
  have hmalloc := ht.unlinked LabelBody.isMalloc (by simp [linkedClasses])
  have hfree := ht.unlinked LabelBody.isFree (by simp [linkedClasses])
  rw [isa_of_getEventLabel hlab] at hwrite hmalloc hfree
  obtain ⟨pos, stamp, revisitable, view, body⟩ := lab
  cases body <;> first
    | rfl
    | simp [LabelBody.isWrite, LabelBody.isMalloc, LabelBody.isFree] at hwrite hmalloc hfree

/-- Taking back a removable label changes the links of no other label but for the list of its
allocation. -/
lemma Linked.links_unlinkLast (hg : Linked g) {t : ℕ} (ht : Removable g t) {lab : EventLabel}
    (hlab : g.getEventLabel (g.lastPos t) = some lab) (hpos : lab.pos = g.lastPos t)
    (h : g.unlinkLast lab = some g') (e : Event) :
    (g'.getEventLabel e).map (fun lab => lab.body.links) =
      (g.getEventLabel e).map fun lab => lab.body.linksWithout (g.lastPos t) := by
  have hlisted : ∀ e eLab, g.getEventLabel e = some eLab → g.lastPos t ∈ eLab.body.accesses →
      lab.body.alloc = some e := by
    intro e eLab heLab hmem
    rw [← accessesOf_of_getEventLabel heLab] at hmem
    rw [← allocOf_of_getEventLabel hlab]
    exact hg.listed e _ hmem
  have hother : ∀ e, lab.body.alloc ≠ some e → (g.getEventLabel e).map
      (fun lab => lab.body.linksWithout (g.lastPos t)) =
        (g.getEventLabel e).map fun lab => lab.body.links := by
    intro e he
    refine Option.map_congr fun eLab heLab => ?_
    exact LabelBody.linksWithout_of_notMem fun hmem => he (hlisted e eLab heLab hmem)
  rw [ht.unlinkLast hlab] at h
  obtain rfl := Option.some.inj h
  have hturns : TurnsReads g (g.unlinkRead lab) := by
    unfold unlinkRead
    split
    · split
      · exact TurnsReads.updateLabel rfl rfl rfl rfl rfl rfl g _
      · exact TurnsReads.refl g
    · exact TurnsReads.refl g
  unfold unlinkAccess
  cases halloc : lab.body.alloc with
  | none =>
    rw [hother e (by rw [halloc]; simp)]
    exact hturns.links e
  | some a =>
    simp only
    rw [getEventLabel_updateLabel]
    split
    next he =>
      rw [Option.map_map, hpos]
      have hmap := congrArg (Option.map fun l : Option Event × List Event × Option Event ×
        Option Event × Option Event => (l.1, l.2.1.filter fun m => !decide (m = g.lastPos t),
          l.2.2)) (hturns.links e)
      rw [Option.map_map, Option.map_map] at hmap
      refine Eq.trans (congrArg (Option.map · _) (funext fun eLab => ?_)) hmap
      cases hb : eLab.body <;>
        simp [EventLabel.removeAccess, EventLabel.mapFields, LabelBody.mapFields, hb,
          LabelBody.links, LabelBody.alloc, LabelBody.accesses, LabelBody.getFree,
          LabelBody.freeAlloc, LabelBody.parentJoin, LabelBody.memAccess]
    next he =>
      rw [hother e fun heq => he (Option.some.inj (halloc.symm.trans heq)).symm]
      exact hturns.links e

/-- Leaving the list of a source keeps the marks. -/
lemma unlinkRead_marksOf (lab : EventLabel) (e : Event) :
    (g.unlinkRead lab).marksOf e = g.marksOf e := by
  unfold unlinkRead
  split
  · split
    · exact marksOf_updateLabel (m := { readers := _ }) rfl _ e
    · rfl
  · rfl

/-- Leaving the list of an allocation keeps the marks. -/
lemma unlinkAccess_marksOf (lab : EventLabel) (e : Event) :
    (g.unlinkAccess lab).marksOf e = g.marksOf e := by
  unfold unlinkAccess
  split
  · exact marksOf_updateLabel (m := { accesses := _ }) rfl _ e
  · rfl

/-- The effect of taking back the last label of a thread. -/
structure TakesBack (g : ExecutionGraph) (t : ℕ) (g' : ExecutionGraph) : Prop where
  /-- The label is gone, and of the others only links change. -/
  label : ∃ g₁, Relinks g g₁ ∧
    ∀ e, g'.getEventLabel e = if e = g.lastPos t then none else g₁.getEventLabel e
  /-- The other labels keep their marks. -/
  marks : ∀ e, g'.marksOf e = if e = g.lastPos t then none else g.marksOf e
  /-- The other reads keep their sources. -/
  rfOf : ∀ r, g'.rfOf r = if r = g.lastPos t then none else g.rfOf r
  /-- The label leaves the list of its allocation. -/
  links : ∀ e, (g'.getEventLabel e).map (fun lab => lab.body.links) =
    if e = g.lastPos t then none
    else (g.getEventLabel e).map fun lab => lab.body.linksWithout (g.lastPos t)
  /-- The threads are the same. -/
  numThreads : g'.getNumThreads = g.getNumThreads
  /-- The coherence orders stay. -/
  coherence : g'.coherence = g.coherence
  /-- The timestamp stays. -/
  timestamp : g'.timestamp = g.timestamp
  /-- There was a label. -/
  containsPos : g.containsPos (g.lastPos t)

/-- `removeLast` on a label that can be taken back. -/
lemma Linked.removeLast_takesBack (hg : Linked g) {t : ℕ} (ht : Removable g t)
    (h : g.removeLast t = some g') : TakesBack g t g' := by
  obtain ⟨lab, g₁, hlab, hpos, hrem⟩ := removeLast_spec h hg.stamped.positioned.pos
  have hwrite : lab.body.isWrite = false := by
    have hfalse := ht.unlinked LabelBody.isWrite (by simp [linkedClasses])
    rwa [isa_of_getEventLabel hlab] at hfalse
  have hlabel := hrem.label
  rw [hpos] at hlabel
  have hunlink := ht.unlinkLast hlab
  rw [hrem.unlink, Option.some.injEq] at hunlink
  refine ⟨⟨g₁, (unlinkLast_eq hrem.unlink).1, hlabel⟩, fun e => ?_, hpos ▸ hrem.rfOf hwrite,
    fun e => ?_, hrem.numThreads, hrem.coherence_eq hwrite, hrem.timestamp,
    containsPos_iff.mpr ⟨lab, hlab⟩⟩
  · unfold marksOf
    rw [hlabel]
    split
    · rfl
    · have hmarks := (unlinkAccess_marksOf lab e).trans (unlinkRead_marksOf (g := g) lab e)
      rw [← hunlink] at hmarks
      exact hmarks
  · rw [hlabel]
    split
    · rfl
    · exact hg.links_unlinkLast ht hlab hpos hrem.unlink e

namespace TakesBack

variable {t : ℕ}

/-- What the other labels say besides their links. -/
lemma map_eq {α : Type*} (h : TakesBack g t g') {f : EventLabel → α}
    (hf : ∀ lab : EventLabel, f lab.skeleton = f lab) (e : Event) :
    (g'.getEventLabel e).map f = if e = g.lastPos t then none else (g.getEventLabel e).map f := by
  obtain ⟨g₁, hrelinks, hlabel⟩ := h.label
  rw [hlabel]
  split
  · rfl
  · exact hrelinks.map_eq hf e

/-- The classes of the labels that stay. -/
lemma isa (h : TakesBack g t g') (p : LabelBody → Bool) [ClassTest p] (e : Event) :
    g'.isa p e = if e = g.lastPos t then false else g.isa p e := by
  obtain ⟨g₁, hrelinks, hlabel⟩ := h.label
  unfold ExecutionGraph.isa
  rw [hlabel]
  split
  · rfl
  · exact hrelinks.isa p e

/-- The positions of the labels that stay. -/
lemma containsPos_iff (h : TakesBack g t g') (e : Event) :
    g'.containsPos e ↔ e ≠ g.lastPos t ∧ g.containsPos e := by
  obtain ⟨g₁, hrelinks, hlabel⟩ := h.label
  rw [← hrelinks.containsPos e]
  unfold ExecutionGraph.containsPos
  rw [hlabel]
  split
  next he => simp [he]
  next he => simp [he]

/-- The addresses of the labels that stay. -/
lemma addrOf (h : TakesBack g t g') (e : Event) :
    g'.addrOf e = if e = g.lastPos t then none else g.addrOf e := by
  obtain ⟨g₁, hrelinks, hlabel⟩ := h.label
  rw [← hrelinks.addrOf e]
  unfold ExecutionGraph.addrOf
  rw [hlabel]
  split <;> rfl

/-- The stamps of the labels that stay. -/
lemma stampOf (h : TakesBack g t g') {e : Event} (he : e ≠ g.lastPos t) :
    g'.stampOf e = g.stampOf e := by
  obtain ⟨g₁, hrelinks, hlabel⟩ := h.label
  rw [← hrelinks.stampOf e]
  unfold ExecutionGraph.stampOf
  rw [hlabel, if_neg he]

/-- The coherence orders stay. -/
lemma co (h : TakesBack g t g') (a : SAddr) : g'.co a = g.co a := by
  unfold ExecutionGraph.co
  rw [h.coherence]

/-- Taking back a label shortens its thread. -/
lemma getThreadSize (h : TakesBack g t g') :
    g'.getThreadSize t = g.getThreadSize t - 1 := by
  have hlt : ∀ i, i < g'.getThreadSize t ↔ i ≠ g.getThreadSize t - 1 ∧ i < g.getThreadSize t := by
    intro i
    have hiff := h.containsPos_iff ⟨t, i⟩
    rw [ExecutionGraph.containsPos_iff_lt, ExecutionGraph.containsPos_iff_lt] at hiff
    have hne : (⟨t, i⟩ : Event) ≠ g.lastPos t ↔ i ≠ g.getThreadSize t - 1 := by
      unfold lastPos
      simp
    rwa [hne] at hiff
  have hsize := hlt (g'.getThreadSize t)
  have hlast := hlt (g.getThreadSize t - 1)
  omega

/-- The links of a label that stays. -/
lemma links_cases (h : TakesBack g t g') {e : Event} {lab' : EventLabel}
    (hlab' : g'.getEventLabel e = some lab') : e ≠ g.lastPos t ∧
      ∃ lab, g.getEventLabel e = some lab ∧
        lab'.body.links = lab.body.linksWithout (g.lastPos t) := by
  have hlinks := h.links e
  rw [hlab', Option.map_some] at hlinks
  split at hlinks
  · cases hlinks
  next hne =>
    obtain ⟨lab, hlab, heq⟩ := Option.map_eq_some_iff.mp hlinks.symm
    exact ⟨hne, lab, hlab, heq.symm⟩

end TakesBack

/-- Taking back a label. -/
lemma Linked.removeLast (hg : Linked g) {t : ℕ} (ht : Removable g t)
    (h : g.removeLast t = some g') : Linked g' := by
  have hback := hg.removeLast_takesBack ht h
  have hwrite := ht.unlinked LabelBody.isWrite (by simp [linkedClasses])
  have hkeeps : ∀ (p : LabelBody → Bool) [ClassTest p], p ∈ linkedClasses → ∀ e, g.isa p e →
      g'.isa p e ∧ e ≠ g.lastPos t := by
    intro p _ hp e he
    have hne : e ≠ g.lastPos t := by
      rintro rfl
      rw [ht.unlinked p hp] at he
      cases he
    rw [hback.isa, if_neg hne]
    exact ⟨he, hne⟩
  refine ⟨hg.readerLists.removeLast h hwrite ht.notInit ht.rf, hg.stamped.removeLast ht.notInit h,
    fun e lab' hlab' => ?_, fun a m hm => ?_, ⟨fun a => ?_, fun a w hw => ?_⟩⟩
  · obtain ⟨-, lab, hlab, hlinks⟩ := hback.links_cases hlab'
    simp only [LabelBody.links, LabelBody.linksWithout, Prod.mk.injEq] at hlinks
    obtain ⟨halloc, haccesses, hfree, hfreeAlloc, hjoin⟩ := hlinks
    have hold := hg.links e lab hlab
    refine ⟨?_, fun a ha => ?_, fun d hd => ?_, fun a ha => ?_, fun j hj => ?_⟩
    · rw [haccesses]
      refine ⟨hold.accesses.1.filter _, fun m hm => ?_⟩
      obtain ⟨hm, hne⟩ := List.mem_filter.mp hm
      rw [Bool.not_eq_true', decide_eq_false_iff_not] at hne
      rw [hback.isa, if_neg hne]
      exact hold.accesses.2 m hm
    · exact (hkeeps LabelBody.isMalloc (by simp [linkedClasses]) a (hold.alloc a (halloc ▸ ha))).1
    · exact (hkeeps LabelBody.isFree (by simp [linkedClasses]) d (hold.free d (hfree ▸ hd))).1
    · exact (hkeeps LabelBody.isMalloc (by simp [linkedClasses]) a
        (hold.freeAlloc a (hfreeAlloc ▸ ha))).1
    · exact (hkeeps LabelBody.isThreadJoin (by simp [linkedClasses]) j
        (hold.parentJoin j (hjoin ▸ hj))).1
  · -- The access list is filtered, and the accesses that stay keep their allocation.
    cases hlab' : g'.getEventLabel a with
    | none =>
      unfold accessesOf at hm
      rw [hlab'] at hm
      cases hm
    | some lab' =>
      rw [accessesOf_of_getEventLabel hlab'] at hm
      obtain ⟨-, lab, hlab, hlinks⟩ := hback.links_cases hlab'
      simp only [LabelBody.links, LabelBody.linksWithout, Prod.mk.injEq] at hlinks
      rw [hlinks.2.1] at hm
      obtain ⟨hm, hne⟩ := List.mem_filter.mp hm
      rw [Bool.not_eq_true', decide_eq_false_iff_not] at hne
      have hold := hg.listed a m (by rw [accessesOf_of_getEventLabel hlab]; exact hm)
      obtain ⟨mLab, hmLab, hmalloc⟩ := Option.bind_eq_some_iff.mp hold
      have hmlinks := hback.links m
      rw [if_neg hne, hmLab, Option.map_some, Option.map_eq_some_iff] at hmlinks
      obtain ⟨mLab', hmLab', heq⟩ := hmlinks
      simp only [LabelBody.links, LabelBody.linksWithout, Prod.mk.injEq] at heq
      rw [allocOf_of_getEventLabel hmLab', heq.1, hmalloc]
  · rw [hback.co]
    exact hg.stores.nodup a
  · rw [hback.co] at hw
    obtain ⟨hw, ha⟩ := hg.stores.stores a w hw
    obtain ⟨hw', hne⟩ := hkeeps LabelBody.isWrite (by simp [linkedClasses]) w hw
    refine ⟨hw', ?_⟩
    rw [hback.addrOf, if_neg hne]
    exact ha

end ExecutionGraph

end GenMC
