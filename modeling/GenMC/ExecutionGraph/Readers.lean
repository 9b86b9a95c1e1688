import GenMC.Lib.Mirror
import GenMC.ExecutionGraph.Effects

/-!
# Reader lists

The reads-from relation of a graph is stored twice: a read points to the label it reads from, and
a write, or the initializer for each location, lists its readers.  `ReaderLists` says that the
lists mirror the pointers.  Every mutator of the graph keeps it, except that `removeLast` leaves a
read from the initializer in the list of its location; the run theorem `run_readerLists` covers
every run that avoids this step.
-/

namespace GenMC

namespace ExecutionGraph

variable {g g' : ExecutionGraph}

/-- The list that the readers of the label `w` at the location `a` are kept in. -/
def sourceAt (g : ExecutionGraph) (w : Event) (a : SAddr) : Event ⊕ SAddr :=
  if g.isa LabelBody.isInit w then .inr a else .inl w

/-- The list that a read belongs to. -/
def sourceOf (g : ExecutionGraph) (r : Event) : Option (Event ⊕ SAddr) :=
  (g.rfOf r).bind fun w => (g.addrOf r).map (g.sourceAt w)

/-- The reader lists of the writes and the lists of initial readers of the locations. -/
def readersAt (g : ExecutionGraph) : Event ⊕ SAddr → List Event
  | .inl w => g.readersOf w
  | .inr a => g.initReaders a

/-- The reader lists mirror the reads-from pointers, and the two location maps track the same
locations, among them those of all accesses. -/
structure ReaderLists (g : ExecutionGraph) : Prop where
  /-- The labels are where they should be. -/
  positioned : Positioned g
  /-- Reads read from writes and the initializer. -/
  sources : ∀ r w, g.rfOf r = some w → g.isa LabelBody.isWrite w ∨ g.isa LabelBody.isInit w
  /-- The lists mirror the pointers. -/
  mirrors : Mirrors g.sourceOf g.readersAt
  /-- The locations of the accesses are tracked. -/
  tracked : ∀ e a, g.addrOf e = some a → a ∈ g.coherence.keys
  /-- The two maps track the same locations. -/
  keys : g.initRfs.keys = g.coherence.keys

namespace ReaderLists

/-- A read from a write is in the list of the write exactly once, any other read is not. -/
lemma count_readersOf (h : ReaderLists g) {w : Event} (hw : g.isa LabelBody.isWrite w)
    (r : Event) : (g.readersOf w).count r = if g.rfOf r = some w then 1 else 0 := by
  refine (h.mirrors (.inl w) r).trans (if_congr ?_ rfl rfl)
  have hinit := isa_isInit_eq_false hw
  unfold sourceOf sourceAt
  constructor
  · intro hs
    obtain ⟨w', hw', hs⟩ := Option.bind_eq_some_iff.mp hs
    obtain ⟨a, -, hs⟩ := Option.map_eq_some_iff.mp hs
    split at hs
    · cases hs
    · rw [hw', Sum.inl.inj hs]
  · intro hr
    obtain ⟨lab, hlab, hread⟩ := isa_iff.mp (isa_isRead_of_rfOf hr)
    have haddr : (g.addrOf r).isSome := by
      rw [addrOf_of_getEventLabel hlab, LabelBody.addr_isSome, hread]
      rfl
    obtain ⟨a, ha⟩ := Option.isSome_iff_exists.mp haddr
    simp [hr, ha, hinit]

/-- A read from the initializer is in the list of its location exactly once, any other read is
not. -/
lemma count_initReaders (h : ReaderLists g) (a : SAddr) (r : Event) :
    (g.initReaders a).count r =
      if g.rfOf r = some .init ∧ g.addrOf r = some a then 1 else 0 := by
  refine (h.mirrors (.inr a) r).trans (if_congr ?_ rfl rfl)
  unfold sourceOf sourceAt
  constructor
  · intro hs
    obtain ⟨w', hw', hs⟩ := Option.bind_eq_some_iff.mp hs
    obtain ⟨a', ha', hs⟩ := Option.map_eq_some_iff.mp hs
    split at hs
    next hinit =>
      rw [hw', (h.positioned.initOnly w').mp hinit, ha', Sum.inr.inj hs]
      exact ⟨rfl, rfl⟩
    next => cases hs
  · rintro ⟨hr, ha⟩
    simp [hr, ha, (h.positioned.initOnly .init).mpr rfl]

/-- The initial readers of a location read there. -/
lemma addrOf_of_mem_initReaders (h : ReaderLists g) {a : SAddr} {r : Event}
    (hr : r ∈ g.initReaders a) : g.addrOf r = some a := by
  have hcount := h.count_initReaders a r
  have hpos := List.count_pos_iff.mpr hr
  rw [hcount] at hpos
  split at hpos
  · next hread => exact hread.2
  · exact absurd hpos (lt_irrefl 0)

/-- The listed labels are reads of the graph. -/
lemma isRead_of_mem (h : ReaderLists g) {s : Event ⊕ SAddr} {r : Event}
    (hr : r ∈ g.readersAt s) : g.isa LabelBody.isRead r := by
  obtain ⟨w, hw, -⟩ := Option.bind_eq_some_iff.mp ((h.mirrors.mem_iff s r).mp hr)
  exact isa_isRead_of_rfOf hw

end ReaderLists

/-- Reads and reader lists agree, as other code relies on it. -/
structure ReadersExact (g : ExecutionGraph) : Prop where
  /-- A read reads from a write iff it is listed there, exactly once. -/
  writes : ∀ w r, g.isa LabelBody.isWrite w →
    (g.readersOf w).count r = if g.rfOf r = some w then 1 else 0
  /-- A read reads from the initializer iff it is listed at its address, exactly once. -/
  init : ∀ a r, (g.initReaders a).count r =
    if g.rfOf r = some .init ∧ g.addrOf r = some a then 1 else 0
  /-- What is listed as a reader of a label is a read of the graph. -/
  readers : ∀ w, ∀ r ∈ g.readersOf w, g.isa LabelBody.isRead r
  /-- What is listed as an initial reader is a read of the graph. -/
  initReaders : ∀ a, ∀ r ∈ g.initReaders a, g.isa LabelBody.isRead r
  /-- The two maps track the same locations. -/
  tracked : ∀ a, a ∈ g.coherence.keys ↔ a ∈ g.initRfs.keys

/-- Mirroring lists are exact. -/
lemma ReaderLists.exact (hg : ReaderLists g) : ReadersExact g :=
  ⟨fun _ r hw => hg.count_readersOf hw r, hg.count_initReaders,
    fun w _ hr => hg.isRead_of_mem (s := .inl w) hr,
    fun a _ hr => hg.isRead_of_mem (s := .inr a) hr, fun a => by rw [hg.keys]⟩

/-- The new graph only has the initializer. -/
lemma getEventLabel_initial (e : Event) :
    initial.getEventLabel e =
      if e = .init then some ((EventLabel.initLabel (.view .empty)).setStamp 0) else none := by
  obtain ⟨t, i⟩ := e
  unfold getEventLabel initial new Event.init
  cases t with
  | zero => cases i <;> simp
  | succ t => simp

/-- The new graph has no reads, hence no readers. -/
lemma readerLists_initial : ReaderLists initial := by
  have hlab : ∀ e lab, initial.getEventLabel e = some lab →
      e = .init ∧ lab = (EventLabel.initLabel (.view .empty)).setStamp 0 := by
    intro e lab h
    rw [getEventLabel_initial] at h
    split at h
    · next he => exact ⟨he, (Option.some.inj h).symm⟩
    · cases h
  have hrf : ∀ r, initial.rfOf r = none := by
    intro r
    unfold rfOf
    rw [getEventLabel_initial]
    split <;> rfl
  refine ⟨⟨fun e lab h => ?_, fun e lab h _ => ?_, fun e => ?_⟩, fun r w h => ?_, ?_,
    fun e a h => ?_, rfl⟩
  · obtain ⟨rfl, rfl⟩ := hlab e lab h
    rfl
  · obtain ⟨rfl, rfl⟩ := hlab e lab h
    rfl
  · unfold isa
    rw [getEventLabel_initial]
    split <;> simp_all [EventLabel.setStamp, EventLabel.initLabel, LabelBody.isInit]
  · rw [hrf] at h
    cases h
  · refine Mirrors.of_mem (fun s => ?_) (fun s r => ?_)
    · cases s with
      | inl w =>
        rw [readersAt, readersOf, getEventLabel_initial]
        split <;> exact List.nodup_nil
      | inr a => exact List.nodup_nil
    · have hsource : initial.sourceOf r = none := by
        unfold sourceOf
        rw [hrf]
        rfl
      rw [hsource]
      cases s with
      | inl w =>
        rw [readersAt, readersOf, getEventLabel_initial]
        split <;> simp [EventLabel.setStamp, EventLabel.initLabel, LabelBody.readers]
      | inr a => simp [readersAt, initReaders, initial, new]
  · unfold addrOf at h
    rw [getEventLabel_initial] at h
    split at h <;> cases h

/-! ## Turning sources -/

/-- The lists after the one of the label `w` has changed. -/
lemma TurnsReaders.readersAt {w : Event} {a : SAddr} {f : List Event → List Event}
    (h : TurnsReaders g w a f g') :
    g'.readersAt =
      Function.update g.readersAt (g.sourceAt w a) (f (g.readersAt (g.sourceAt w a))) := by
  funext s
  unfold sourceAt
  rcases h.source with hw | hw
  · have hinit := isa_isInit_eq_false hw
    rw [if_neg (by simp [hinit])]
    cases s with
    | inl w' =>
      refine (h.readersOf w').trans ?_
      rw [Function.update_apply]
      simp only [hw, and_true, Sum.inl.injEq]
      split
      · next hww => rw [hww]; rfl
      · rfl
    | inr a' =>
      refine (h.initReaders a').trans ?_
      rw [hinit, Function.update_of_ne (by simp), if_neg (by simp)]
      rfl
  · have hwrite : g.isa LabelBody.isWrite w = false := by
      by_contra hne
      rw [isa_isInit_eq_false (Bool.eq_true_of_not_eq_false hne)] at hw
      cases hw
    rw [if_pos hw]
    cases s with
    | inl w' =>
      refine (h.readersOf w').trans ?_
      rw [hwrite, Function.update_of_ne (by simp), if_neg (by simp)]
      rfl
    | inr a' =>
      refine (h.initReaders a').trans ?_
      rw [Function.update_apply]
      simp only [hw, and_true, Sum.inr.injEq]
      split
      · next haa => rw [haa]; rfl
      · rfl

/-- The list of a label at a location depends on the links of the graph only through the label's
class. -/
lemma Relinks.sourceAt (h : Relinks g g') (w : Event) (a : SAddr) :
    g'.sourceAt w a = g.sourceAt w a := by
  unfold ExecutionGraph.sourceAt
  rw [h.isa]

/-- The lists that the reads belong to, after the source of one read has changed. -/
lemma sourceOf_of_rfOf (h : Relinks g g') {r : Event} {rf : Option Event} {a : SAddr}
    (ha : g.addrOf r = some a)
    (hrf : ∀ r', g'.rfOf r' = if r' = r then rf else g.rfOf r') :
    g'.sourceOf = Function.update g.sourceOf r (rf.map fun w => g.sourceAt w a) := by
  funext r'
  unfold sourceOf
  rw [hrf, Function.update_apply, h.addrOf]
  have hsource : g'.sourceAt = g.sourceAt := by
    funext w b
    exact h.sourceAt w b
  rw [hsource]
  split
  · next hr =>
    subst hr
    rw [ha]
    cases rf <;> rfl
  · rfl

/-- Only the read itself changes its source. -/
lemma rfOf_setRfNoCascade {r : Event} (hr : g.isa LabelBody.isRead r) (rf : Option Event)
    (r' : Event) :
    (g.updateLabel r (EventLabel.setRfNoCascade rf)).rfOf r' =
      if r' = r then rf else g.rfOf r' := by
  refine (rfOf_updateLabel _ r r').trans ?_
  simp only [hr, and_true]

/-- After a read has left its source, the lists mirror the pointers of the other reads. -/
lemma leaveSource_mirrors (hg : ReaderLists g) {r : Event} {rf : Option Event} {a : SAddr}
    {g₂ : ExecutionGraph} (ha : g.addrOf r = some a)
    (hleave :
      (g.updateLabel r (EventLabel.setRfNoCascade rf)).leaveSource (g.rfOf r) r a = some g₂) :
    Mirrors (Function.update g.sourceOf r none) g₂.readersAt ∧
      (∀ r', g₂.rfOf r' = (g.updateLabel r (EventLabel.setRfNoCascade rf)).rfOf r') ∧
      g₂.coherence = g.coherence ∧ g₂.initRfs.keys = g.initRfs.keys := by
  set g₁ := g.updateLabel r (EventLabel.setRfNoCascade rf) with hg₁
  have hrelinks : Relinks g g₁ := Relinks.updateLabel g r _
  have hreaders : g₁.readersAt = g.readersAt := by
    funext s
    cases s with
    | inl w => exact readersOf_updateLabel_of_id rfl r w
    | inr a => rfl
  have ha' : a ∈ g₁.initRfs.keys := by
    have := hg.tracked r a ha
    rwa [← hg.keys] at this
  unfold leaveSource at hleave
  cases hrf : g.rfOf r with
  | none =>
    rw [hrf] at hleave
    obtain rfl := Option.some.inj hleave
    have hnone : g.sourceOf r = none := by
      unfold sourceOf
      rw [hrf]
      rfl
    refine ⟨?_, fun _ => rfl, rfl, rfl⟩
    rw [hreaders, ← hnone, Function.update_eq_self]
    exact hg.mirrors
  | some w =>
    rw [hrf] at hleave
    have hcontains : g₁.containsPos w = true := by
      rw [hrelinks.containsPos, containsPos_iff]
      rcases hg.sources r w hrf with hw | hw
      · exact (isa_iff.mp hw).imp fun _ h => h.1
      · exact (isa_iff.mp hw).imp fun _ h => h.1
    simp only [hcontains, if_true] at hleave
    have hturns := dropReader_spec hleave
    have hsource : g.sourceOf r = some (g.sourceAt w a) := by
      unfold sourceOf
      rw [hrf, ha]
      rfl
    refine ⟨?_, hturns.rfOf, hturns.coherence, hturns.keys ha'⟩
    rw [hturns.readersAt, hrelinks.sourceAt, hreaders]
    exact hg.mirrors.unset hsource

/-- `setRf` keeps the reader lists in step. -/
lemma ReaderLists.setRf (hg : ReaderLists g) {r : Event} {rf : Option Event}
    (h : g.setRf r rf = some g') : ReaderLists g' := by
  have hrelinks := setRf_relinks h
  obtain ⟨a, g₂, hr, ha, hleave, hjoin⟩ := setRf_spec h
  obtain ⟨hmirrors, hrf₂, hco₂, hkeys₂⟩ := leaveSource_mirrors hg ha hleave
  have hrelinks₂ : Relinks g g₂ := (Relinks.updateLabel g r _).trans (leaveSource_relinks hleave)
  have ha₂ : a ∈ g₂.initRfs.keys := by
    rw [hkeys₂, hg.keys]
    exact hg.tracked r a ha
  have hrf₂' : ∀ r', g₂.rfOf r' = if r' = r then rf else g.rfOf r' := fun r' =>
    (hrf₂ r').trans (rfOf_setRfNoCascade hr rf r')
  -- What joining the new source adds.
  have hfinal : (∀ r', g'.rfOf r' = g₂.rfOf r') ∧ g'.coherence = g₂.coherence ∧
      g'.initRfs.keys = g₂.initRfs.keys ∧ Mirrors g'.sourceOf g'.readersAt ∧
      ∀ w, rf = some w → g.isa LabelBody.isWrite w ∨ g.isa LabelBody.isInit w := by
    unfold joinSource at hjoin
    cases rf with
    | none =>
      obtain rfl := Option.some.inj hjoin
      refine ⟨fun _ => rfl, rfl, rfl, ?_, by simp⟩
      rw [sourceOf_of_rfOf hrelinks₂ ha hrf₂']
      exact hmirrors
    | some w =>
      obtain ⟨-, hturns⟩ := pushReader_spec hjoin
      refine ⟨hturns.rfOf, hturns.coherence, hturns.keys ha₂, ?_, fun w' hw' => ?_⟩
      · have hrf' : ∀ r', g'.rfOf r' = if r' = r then some w else g.rfOf r' := fun r' =>
          (hturns.rfOf r').trans (hrf₂' r')
        rw [sourceOf_of_rfOf hrelinks ha hrf', hturns.readersAt, hrelinks₂.sourceAt]
        have hset := hmirrors.set (Function.update_self r none g.sourceOf) (g.sourceAt w a)
        rwa [Function.update_idem] at hset
      · obtain rfl := Option.some.inj hw'
        rw [← hrelinks₂.isa LabelBody.isWrite, ← hrelinks₂.isa LabelBody.isInit]
        exact hturns.source
  obtain ⟨hrf', hco', hkeys', hmirrors', hsources'⟩ := hfinal
  refine ⟨hg.positioned.relinks hrelinks, fun r' w hw => ?_, hmirrors', fun e b hb => ?_, ?_⟩
  · rw [hrelinks.isa, hrelinks.isa]
    rw [hrf', hrf₂'] at hw
    split at hw
    · exact hsources' w hw
    · exact hg.sources r' w hw
  · rw [hrelinks.addrOf] at hb
    rw [hco', hco₂]
    exact hg.tracked e b hb
  · rw [hkeys', hkeys₂, hco', hco₂]
    exact hg.keys

/-! ## Mutators that leave the labels alone -/

/-- The reader lists only depend on the labels and the two location maps. -/
lemma ReaderLists.congr (hg : ReaderLists g)
    (hlabel : ∀ e, g'.getEventLabel e = g.getEventLabel e) (hrfs : g'.initRfs = g.initRfs)
    (hkeys : g'.coherence.keys = g.coherence.keys) : ReaderLists g' := by
  have hrf : g'.rfOf = g.rfOf := funext fun r => by rw [rfOf, hlabel, rfOf]
  have haddr : g'.addrOf = g.addrOf := funext fun r => by rw [addrOf, hlabel, addrOf]
  have hisa : ∀ p e, g'.isa p e = g.isa p e := fun p e => by rw [isa, hlabel, isa]
  have hsource : g'.sourceOf = g.sourceOf := by
    funext r
    unfold sourceOf sourceAt
    simp only [hrf, haddr, hisa]
  have hreaders : g'.readersAt = g.readersAt := by
    funext s
    cases s with
    | inl w => rw [readersAt, readersOf, hlabel]; rfl
    | inr a => rw [readersAt, initReaders, hrfs]; rfl
  refine ⟨⟨fun e lab h => ?_, fun e lab h => ?_, fun e => ?_⟩, fun r w h => ?_, ?_, fun e a h => ?_,
    ?_⟩
  · exact hg.positioned.pos e lab (hlabel e ▸ h)
  · exact hg.positioned.starts e lab (hlabel e ▸ h)
  · rw [hisa]
    exact hg.positioned.initOnly e
  · rw [hisa, hisa]
    exact hg.sources r w (hrf ▸ h)
  · rw [hsource, hreaders]
    exact hg.mirrors
  · rw [hkeys]
    exact hg.tracked e a (haddr ▸ h)
  · rw [hrfs, hkeys]
    exact hg.keys

/-- Changing the coherence order keeps the reader lists. -/
lemma ReaderLists.turnsCO (hg : ReaderLists g) (h : TurnsCO g g') : ReaderLists g' := by
  refine hg.congr (fun e => ?_) ?_ (h.keys hg.tracked)
  · rw [h.eq]
    rfl
  · rw [h.eq]

/-- A new thread has no labels. -/
lemma getEventLabel_addNewThread (e : Event) :
    g.addNewThread.getEventLabel e = g.getEventLabel e := by
  unfold getEventLabel addNewThread
  have hthread : (g.events ++ [[]]).getD e.thread [] = g.events.getD e.thread [] := by
    simp only [List.getD_eq_getElem?_getD, List.getElem?_append, List.getElem?_singleton]
    split
    · rfl
    next hge =>
      rw [List.getElem?_eq_none (not_lt.mp hge)]
      split <;> rfl
  rw [hthread]

/-- A new thread keeps the reader lists. -/
lemma ReaderLists.addNewThread (hg : ReaderLists g) : ReaderLists g.addNewThread :=
  hg.congr getEventLabel_addNewThread rfl rfl

/-! ## Adding a label -/

/-- A position that is free or holds an empty label has no source, readers or initializer. -/
lemma Places.free_eq {lab : EventLabel} (h : Places g lab g') :
    g.rfOf lab.pos = none ∧ g.readersOf lab.pos = [] ∧ g.isa LabelBody.isInit lab.pos = false := by
  rcases h.free with hc | hempty
  · have hnone : g.getEventLabel lab.pos = none := by
      unfold containsPos at hc
      simpa using hc
    unfold rfOf readersOf isa
    rw [hnone]
    exact ⟨rfl, rfl, rfl⟩
  · obtain ⟨eLab, hlab, hbody⟩ := isa_iff.mp hempty
    rw [rfOf_of_getEventLabel hlab, readersOf_of_getEventLabel hlab, isa_of_getEventLabel hlab]
    cases hb : eLab.body <;> rw [hb] at hbody <;> first | exact ⟨rfl, rfl, rfl⟩ | cases hbody

/-- A fresh label keeps the labels where they should be. -/
lemma Places.positioned {lab : EventLabel} (h : Places g lab g') (hg : Positioned g)
    (hinit : lab.body.isInit = false) (hstarts : lab.pos.index = 0 → lab.body.isThreadStart) :
    Positioned g' := by
  refine ⟨fun e lab' hlab => ?_, fun e lab' hlab hi => ?_, fun e => ?_⟩
  · rw [h.label] at hlab
    split at hlab
    · next he => rw [he, Option.some.inj hlab]
    · exact hg.pos e lab' hlab
  · rw [h.label] at hlab
    split at hlab
    · next he =>
      rw [← Option.some.inj hlab]
      exact hstarts (he ▸ hi)
    · exact hg.starts e lab' hlab hi
  · rw [← hg.initOnly]
    unfold isa
    rw [h.label]
    split
    · next he =>
      have hfree := h.free_eq.2.2
      unfold isa at hfree
      rw [he, hfree]
      simp [hinit]
    · rfl

namespace Adds

variable {lab : EventLabel}

/-- The labels after adding one. -/
lemma getEventLabel (h : Adds g lab g') (e : Event) : g'.getEventLabel e =
    if e = lab.pos then some (g.stamped lab) else g.getEventLabel e := by
  have hlabel := h.places.label e
  rwa [pos_stamped] at hlabel

/-- The positions after adding a label. -/
lemma containsPos (h : Adds g lab g') (e : Event) :
    g'.containsPos e ↔ e = lab.pos ∨ g.containsPos e := by
  unfold ExecutionGraph.containsPos
  rw [h.getEventLabel]
  split
  next he => simp [he]
  next he => simp [he]

/-- The classes after adding a label. -/
lemma isa (h : Adds g lab g') (p : LabelBody → Bool) (e : Event) :
    g'.isa p e = if e = lab.pos then p lab.body else g.isa p e := by
  unfold ExecutionGraph.isa
  rw [h.getEventLabel]
  split
  · rw [Option.any_some, body_stamped]
  · rfl

/-- The addresses after adding a label. -/
lemma addrOf (h : Adds g lab g') (e : Event) :
    g'.addrOf e = if e = lab.pos then lab.body.addr else g.addrOf e := by
  unfold ExecutionGraph.addrOf
  rw [h.getEventLabel]
  split
  · rw [Option.bind_some, body_stamped]
  · rfl

/-- A fresh label does not read from anywhere. -/
lemma rfOf (h : Adds g lab g') (hfresh : lab.Fresh) (r : Event) :
    g'.rfOf r = if r = lab.pos then none else g.rfOf r := by
  unfold ExecutionGraph.rfOf
  rw [h.getEventLabel]
  split
  · rw [Option.bind_some, body_stamped, hfresh.rf]
  · rfl

/-- Adding a label tracks its location and changes no coherence order. -/
lemma co (h : Adds g lab g') (a : SAddr) : g'.co a = g.co a := by
  unfold ExecutionGraph.co
  rw [h.coherence]
  cases lab.body.addr with
  | none => rfl
  | some b =>
    rw [Option.elim_some, KeyedList.find?_track]
    split
    next hab =>
      cases hfind : g.coherence.find? b <;> simp [hab, hfind]
    next => rfl

/-- A label without a stamp gets the next one. -/
lemma stampOf (h : Adds g lab g') (hstamp : lab.stamp = none) (e : Event) :
    g'.stampOf e = if e = lab.pos then g.timestamp else g.stampOf e := by
  unfold ExecutionGraph.stampOf
  rw [h.getEventLabel]
  split
  · unfold stamped assignStamp
    rw [hstamp]
    rfl
  · rfl

/-- A fresh label has no readers. -/
lemma readersOf (h : Adds g lab g') (hfresh : lab.Fresh) (w : Event) :
    g'.readersOf w = if w = lab.pos then [] else g.readersOf w := by
  unfold ExecutionGraph.readersOf
  rw [h.getEventLabel]
  split
  · rw [Option.map_some, Option.getD_some, body_stamped, hfresh.readers]
  · rfl

/-- Tracking the location of the label changes no list of initial readers. -/
lemma initReaders (h : Adds g lab g') (a : SAddr) : g'.initReaders a = g.initReaders a := by
  unfold ExecutionGraph.initReaders
  rw [h.initRfs]
  cases lab.body.addr with
  | none => rfl
  | some b =>
    rw [Option.elim_some, KeyedList.find?_track]
    split
    · next hab => rw [hab, Option.getD_some]
    · rfl

/-- The location of the label is tracked. -/
lemma mem_keys (h : Adds g lab g') (a : SAddr) :
    a ∈ g'.coherence.keys ↔ a ∈ g.coherence.keys ∨ lab.body.addr = some a := by
  rw [h.coherence]
  cases lab.body.addr with
  | none => simp
  | some b =>
    rw [Option.elim_some, KeyedList.keys_track, Option.some.injEq]
    split
    · next hmem => exact ⟨Or.inl, fun h => h.elim id fun hab => hab ▸ hmem⟩
    · simp [eq_comm]

/-- The two maps still track the same locations. -/
lemma keys_eq (h : Adds g lab g') (hg : g.initRfs.keys = g.coherence.keys) :
    g'.initRfs.keys = g'.coherence.keys := by
  rw [h.coherence, h.initRfs]
  cases lab.body.addr with
  | none => exact hg
  | some a =>
    rw [Option.elim_some, Option.elim_some, KeyedList.keys_track, KeyedList.keys_track, hg]

/-- No source changes: nothing has been at the position but an empty label. -/
lemma rfOf_eq (h : Adds g lab g') (hfresh : lab.Fresh) : g'.rfOf = g.rfOf := by
  funext r
  rw [h.rfOf hfresh]
  split
  next hr =>
    have hrf := h.places.free_eq.1
    rw [pos_stamped] at hrf
    rw [hr, hrf]
  next => rfl

/-- The label is not the initializer, and takes the place of none. -/
lemma isInit_eq (h : Adds g lab g') (hfresh : lab.Fresh) (e : Event) :
    g'.isa LabelBody.isInit e = g.isa LabelBody.isInit e := by
  rw [h.isa]
  split
  next he =>
    have hinit := h.places.free_eq.2.2
    rw [pos_stamped] at hinit
    rw [he, hinit, hfresh.notInit]
  next => rfl

/-- Every read belongs to the list that it has belonged to. -/
lemma sourceOf_eq (h : Adds g lab g') (hfresh : lab.Fresh) : g'.sourceOf = g.sourceOf := by
  funext r
  unfold sourceOf sourceAt
  simp only [h.rfOf_eq hfresh, h.isInit_eq hfresh, h.addrOf]
  split
  next hr =>
    have hrf := h.places.free_eq.1
    rw [pos_stamped] at hrf
    rw [hr, hrf]
    rfl
  next => rfl

/-- The lists stay. -/
lemma readersAt_eq (h : Adds g lab g') (hfresh : lab.Fresh) : g'.readersAt = g.readersAt := by
  funext s
  cases s with
  | inl w =>
    rw [readersAt, readersAt, h.readersOf hfresh]
    split
    next hw =>
      have hreaders := h.places.free_eq.2.1
      rw [pos_stamped] at hreaders
      rw [hw, hreaders]
    next => rfl
  | inr a => exact h.initReaders a

/-- A write or the initializer was not at the position. -/
lemma ne_pos_of_source (h : Adds g lab g') {w : Event}
    (hw : g.isa LabelBody.isWrite w ∨ g.isa LabelBody.isInit w) : w ≠ lab.pos := by
  rintro rfl
  rcases hw with hwrite | hinit
  · obtain ⟨wLab, hwLab, hwb⟩ := isa_iff.mp hwrite
    have hfree := h.places.free
    rw [pos_stamped] at hfree
    rcases hfree with hc | hempty
    · rw [ExecutionGraph.containsPos, hwLab] at hc
      cases hc
    · rw [isa_of_getEventLabel hwLab] at hempty
      cases hb : wLab.body <;> simp_all [LabelBody.isEmpty, LabelBody.isWrite]
  · have hnot := h.places.free_eq.2.2
    rw [pos_stamped, hinit] at hnot
    cases hnot

end Adds

/-- `addLabelToGraph` of a fresh label keeps the reader lists. -/
lemma ReaderLists.addLabelToGraph (hg : ReaderLists g) {lab : EventLabel} (hfresh : lab.Fresh)
    (h : g.addLabelToGraph lab = some g') : ReaderLists g' := by
  have hadds := addLabelToGraph_spec h
  refine ⟨hadds.places.positioned hg.positioned (by rw [body_stamped, hfresh.notInit])
    (by rw [body_stamped, pos_stamped]; exact hfresh.starts), fun r w hw => ?_, ?_,
    fun e a ha => ?_, hadds.keys_eq hg.keys⟩
  · rw [hadds.rfOf_eq hfresh] at hw
    have hsource := hg.sources r w hw
    rw [hadds.isInit_eq hfresh, hadds.isa, if_neg (hadds.ne_pos_of_source hsource)]
    exact hsource
  · rw [hadds.sourceOf_eq hfresh, hadds.readersAt_eq hfresh]
    exact hg.mirrors
  · rw [hadds.addrOf] at ha
    rw [hadds.mem_keys]
    split at ha
    · exact Or.inr ha
    · exact Or.inl (hg.tracked e a ha)

/-! ## Removing the last label of a thread -/

/-- The classes of the labels that stay. -/
lemma RemovesLast.isa {lab : EventLabel} {g₁ : ExecutionGraph} (h : RemovesLast g lab g₁ g')
    (p : LabelBody → Bool) [ClassTest p] (e : Event) (hp : g.isa p lab.pos = false) :
    g'.isa p e = g.isa p e := by
  obtain ⟨hrelinks, -⟩ := unlinkLast_eq h.unlink
  by_cases he : e = lab.pos
  · rw [he, hp, ExecutionGraph.isa, h.label, if_pos rfl]
    rfl
  · rw [← hrelinks.isa p e, ExecutionGraph.isa, h.label, if_neg he, ExecutionGraph.isa]

/-- The labels that stay are where they should be, if the initializer is one of them. -/
lemma RemovesLast.positioned {lab : EventLabel} {g₁ : ExecutionGraph} (h : RemovesLast g lab g₁ g')
    (hg : Positioned g) (hinit : lab.pos ≠ .init) : Positioned g' := by
  obtain ⟨hrelinks, -⟩ := unlinkLast_eq h.unlink
  have hg₁ := hg.relinks hrelinks
  have hstays : ∀ e l, g'.getEventLabel e = some l → g₁.getEventLabel e = some l := by
    intro e l hl
    rw [h.label] at hl
    split at hl
    · cases hl
    · exact hl
  refine ⟨fun e l hl => hg₁.pos e l (hstays e l hl), fun e l hl => hg₁.starts e l (hstays e l hl),
    fun e => ?_⟩
  rw [h.isa LabelBody.isInit e (Bool.eq_false_iff.mpr fun hi => hinit ((hg.initOnly _).mp hi))]
  exact hg.initOnly e

/-- The addresses of the labels that stay. -/
lemma RemovesLast.addrOf {lab : EventLabel} {g₁ : ExecutionGraph} (h : RemovesLast g lab g₁ g')
    {e : Event} (he : e ≠ lab.pos) : g'.addrOf e = g.addrOf e := by
  rw [← (unlinkLast_eq h.unlink).1.addrOf e, ExecutionGraph.addrOf, h.label, if_neg he,
    ExecutionGraph.addrOf]

/-- Leaving the list of a source changes neither location map. -/
lemma unlinkRead_maps (lab : EventLabel) : (g.unlinkRead lab).coherence = g.coherence ∧
    (g.unlinkRead lab).initRfs = g.initRfs := by
  unfold unlinkRead
  split
  · split <;> exact ⟨rfl, rfl⟩
  · exact ⟨rfl, rfl⟩

section NotWrite

variable {lab : EventLabel} {g₁ : ExecutionGraph}

/-- Removing a label that is not a write only takes back the links of a read. -/
lemma RemovesLast.keepsReads (h : RemovesLast g lab g₁ g')
    (hwrite : lab.body.isWrite = false) :
    KeepsReads (g.unlinkRead lab) g₁ :=
  (unlinkLast_eq h.unlink).2 (LabelBody.readers_eq_nil hwrite)

/-- The coherence orders stay. -/
lemma RemovesLast.coherence_eq (h : RemovesLast g lab g₁ g')
    (hwrite : lab.body.isWrite = false) : g'.coherence = g.coherence :=
  (h.coherence.trans (h.keepsReads hwrite).coherence).trans (unlinkRead_maps lab).1

/-- The initial readers stay. -/
lemma RemovesLast.initRfs_eq (h : RemovesLast g lab g₁ g')
    (hwrite : lab.body.isWrite = false) : g'.initRfs = g.initRfs :=
  (h.initRfs.trans (h.keepsReads hwrite).initRfs).trans (unlinkRead_maps lab).2

/-- The sources of the reads that stay. -/
lemma RemovesLast.rfOf (h : RemovesLast g lab g₁ g')
    (hwrite : lab.body.isWrite = false) (r : Event) :
    g'.rfOf r = if r = lab.pos then none else g.rfOf r := by
  rw [ExecutionGraph.rfOf, h.label]
  split
  · rfl
  · exact ((h.keepsReads hwrite).rfOf r).trans (rfOf_unlinkRead lab r)

/-- The label leaves the list of its source. -/
lemma RemovesLast.readersOf (h : RemovesLast g lab g₁ g')
    (hwrite : lab.body.isWrite = false)
    (hlab : g.getEventLabel lab.pos = some lab) (w : Event) :
    g'.readersOf w =
      if g.rfOf lab.pos = some w then (g.readersOf w).filter fun r => !decide (r = lab.pos)
      else g.readersOf w := by
  rw [rfOf_of_getEventLabel hlab, ← readersOf_unlinkRead, ← (h.keepsReads hwrite).readersOf]
  by_cases hw : w = lab.pos
  · have hnone : g'.readersOf w = [] := by
      rw [ExecutionGraph.readersOf, h.label, if_pos hw]
      rfl
    rw [hnone, readersOf_eq_nil]
    rw [(unlinkLast_eq h.unlink).1.isa, hw, isa_of_getEventLabel hlab]
    exact hwrite
  · rw [ExecutionGraph.readersOf, h.label, if_neg hw]
    rfl

end NotWrite

/-- The source of the removed label, which is not the initializer, does not list it any more. -/
lemma RemovesLast.mirrors {lab : EventLabel} {g₁ : ExecutionGraph} (h : RemovesLast g lab g₁ g')
    (hg : ReaderLists g) (hlab : g.getEventLabel lab.pos = some lab)
    (hwrite : lab.body.isWrite = false) (hrfInit : g.rfOf lab.pos ≠ some .init) :
    Mirrors (Function.update g.sourceOf lab.pos none) g'.readersAt := by
  have hinitReaders : ∀ a, g'.initReaders a = g.initReaders a := by
    intro a
    rw [initReaders, h.initRfs_eq hwrite, initReaders]
  cases hsrc : g.rfOf lab.pos with
  | none =>
    have hnone : g.sourceOf lab.pos = none := by
      unfold sourceOf
      rw [hsrc]
      rfl
    rw [← hnone, Function.update_eq_self]
    refine hg.mirrors.congr (fun _ => rfl) fun s => ?_
    cases s with
    | inl w => exact (h.readersOf hwrite hlab w).trans (by rw [hsrc, if_neg (by simp)]; rfl)
    | inr a => exact hinitReaders a
  | some w =>
    -- The source is a write: reads from the initializer are excluded.
    have hw : g.isa LabelBody.isInit w = false := by
      rw [Bool.eq_false_iff]
      intro hi
      rw [(hg.positioned.initOnly w).mp hi] at hsrc
      exact hrfInit hsrc
    obtain ⟨a, ha⟩ : ∃ a, g.addrOf lab.pos = some a := by
      have hrf := (rfOf_of_getEventLabel hlab).symm.trans hsrc
      rw [← Option.isSome_iff_exists, addrOf_of_getEventLabel hlab, LabelBody.addr_isSome,
        LabelBody.isRead_of_rf hrf]
      rfl
    have hold : g.sourceOf lab.pos = some (.inl w) := by
      unfold sourceOf sourceAt
      rw [hsrc, ha, Option.bind_some, hw]
      rfl
    refine (hg.mirrors.unset hold).congr (fun _ => rfl) fun s => ?_
    rw [Function.update_apply]
    cases s with
    | inl w' =>
      refine (h.readersOf hwrite hlab w').trans ?_
      rw [hsrc]
      simp only [Option.some.injEq, Sum.inl.injEq, eq_comm (a := w)]
      split
      · next hww => rw [hww]; rfl
      · rfl
    | inr a' =>
      rw [if_neg (by simp)]
      exact hinitReaders a'

/-- `removeLast` keeps the reader lists if the label is not a write, the initializer or a read from
it. -/
lemma ReaderLists.removeLast (hg : ReaderLists g) {t : ℕ} (h : g.removeLast t = some g')
    (hwrite : g.isa LabelBody.isWrite (g.lastPos t) = false) (hinit : g.lastPos t ≠ .init)
    (hrfInit : g.rfOf (g.lastPos t) ≠ some .init) : ReaderLists g' := by
  obtain ⟨lab, g₁, hlab, hpos, hrem⟩ := removeLast_spec h hg.positioned.pos
  rw [← hpos] at hwrite hinit hrfInit hlab
  have hbody : lab.body.isWrite = false := by rwa [isa_of_getEventLabel hlab] at hwrite
  have hrf := hrem.rfOf hbody
  have hnotInit : g.isa LabelBody.isInit lab.pos = false := by
    rw [Bool.eq_false_iff]
    exact fun hi => hinit ((hg.positioned.initOnly _).mp hi)
  have hsource : g'.sourceOf = Function.update g.sourceOf lab.pos none := by
    funext r
    rw [Function.update_apply]
    unfold sourceOf sourceAt
    rw [hrf]
    split
    · rfl
    · next hr => simp only [hrem.addrOf hr, hrem.isa LabelBody.isInit _ hnotInit]
  refine ⟨hrem.positioned hg.positioned hinit, fun r w hw => ?_,
    hsource ▸ hrem.mirrors hg hlab hbody hrfInit, fun e a ha => ?_, ?_⟩
  · rw [hrem.isa LabelBody.isWrite w hwrite, hrem.isa LabelBody.isInit w hnotInit]
    rw [hrf] at hw
    split at hw
    · cases hw
    · exact hg.sources r w hw
  · rw [hrem.coherence_eq hbody]
    by_cases he : e = lab.pos
    · rw [addrOf, hrem.label, if_pos he] at ha
      cases ha
    · rw [hrem.addrOf he] at ha
      exact hg.tracked e a ha
  · rw [hrem.initRfs_eq hbody, hrem.coherence_eq hbody]
    exact hg.keys

end ExecutionGraph

end GenMC
