import GenMC.Verification.ThreadCreation
import GenMC.Lib.FeedbackSet

/-!
# What a call changes

A call of the driver changes a few labels and may take others away.  `PartOutside` says this in
terms of what the consistency checks look at: outside of the labels that are changed, the new graph
is a part of the old one.
-/

namespace GenMC

namespace ExecutionGraph

variable {g g' g'' : ExecutionGraph} {S S' : Set Event}

/-- Outside of a set of labels, `g'` is a part of `g`. -/
structure PartOutside (S : Set Event) (g g' : ExecutionGraph) : Prop where
  /-- The positions. -/
  containsPos : ∀ e, g'.containsPos e → e ∉ S → g.containsPos e
  /-- The classes. -/
  isa : ∀ (p : LabelBody → Bool) [ClassTest p] e, g'.isa p e → e ∉ S → g.isa p e
  /-- The addresses. -/
  addrOf : ∀ e a, g'.addrOf e = some a → e ∉ S → g.addrOf e = some a
  /-- The sources. -/
  rfOf : ∀ r w, g'.rfOf r = some w → r ∉ S → g.rfOf r = some w ∧ w ∉ S
  /-- The coherence orders. -/
  co : ∀ a w w', [w, w'].Sublist (g'.co a) → w ∉ S → w' ∉ S → [w, w'].Sublist (g.co a)
  /-- The members of the coherence orders. -/
  mem_co : ∀ a w, w ∈ g'.co a → w ∉ S → w ∈ g.co a
  /-- The creates. -/
  creates : ∀ c e, g'.Creates c e → c ∉ S → e ∉ S → g.Creates c e
  /-- The joins. -/
  joins : ∀ f j, g'.Joins f j → f ∉ S → j ∉ S → g.Joins f j

namespace PartOutside

/-- Two changes. -/
lemma trans (h : PartOutside S g g') (h' : PartOutside S' g' g'') :
    PartOutside (S ∪ S') g g'' := by
  refine ⟨fun e he hS => ?_, fun p _ e he hS => ?_, fun e a ha hS => ?_, fun r w hrf hS => ?_,
    fun a w w' hco hS hS' => ?_, fun a w hw hS => ?_, fun c e hc hS hS' => ?_,
    fun f j hj hS hS' => ?_⟩
  · exact h.containsPos e (h'.containsPos e he fun hmem => hS (.inr hmem))
      fun hmem => hS (.inl hmem)
  · exact h.isa p e (h'.isa p e he fun hmem => hS (.inr hmem)) fun hmem => hS (.inl hmem)
  · exact h.addrOf e a (h'.addrOf e a ha fun hmem => hS (.inr hmem)) fun hmem => hS (.inl hmem)
  · obtain ⟨hrf', hw'⟩ := h'.rfOf r w hrf fun hmem => hS (.inr hmem)
    obtain ⟨hrf, hw⟩ := h.rfOf r w hrf' fun hmem => hS (.inl hmem)
    exact ⟨hrf, fun hmem => hmem.elim hw hw'⟩
  · exact h.co a w w' (h'.co a w w' hco (fun hmem => hS (.inr hmem)) fun hmem => hS' (.inr hmem))
      (fun hmem => hS (.inl hmem)) fun hmem => hS' (.inl hmem)
  · exact h.mem_co a w (h'.mem_co a w hw fun hmem => hS (.inr hmem)) fun hmem => hS (.inl hmem)
  · exact h.creates c e (h'.creates c e hc (fun hmem => hS (.inr hmem)) fun hmem => hS' (.inr hmem))
      (fun hmem => hS (.inl hmem)) fun hmem => hS' (.inl hmem)
  · exact h.joins f j (h'.joins f j hj (fun hmem => hS (.inr hmem)) fun hmem => hS' (.inr hmem))
      (fun hmem => hS (.inl hmem)) fun hmem => hS' (.inl hmem)

/-- A larger set of changed labels that is not read from. -/
lemma mono (h : PartOutside S g g') (hsub : S ⊆ S')
    (hsources : ∀ r w, g'.rfOf r = some w → r ∉ S' → w ∉ S') : PartOutside S' g g' :=
  ⟨fun e he hS => h.containsPos e he fun hmem => hS (hsub hmem),
    fun p _ e he hS => h.isa p e he fun hmem => hS (hsub hmem),
    fun e a ha hS => h.addrOf e a ha fun hmem => hS (hsub hmem),
    fun r w hrf hS => ⟨(h.rfOf r w hrf fun hmem => hS (hsub hmem)).1, hsources r w hrf hS⟩,
    fun a w w' hco hS hS' =>
      h.co a w w' hco (fun hmem => hS (hsub hmem)) fun hmem => hS' (hsub hmem),
    fun a w hw hS => h.mem_co a w hw fun hmem => hS (hsub hmem),
    fun c e hc hS hS' => h.creates c e hc (fun hmem => hS (hsub hmem)) fun hmem => hS' (hsub hmem),
    fun f j hj hS hS' => h.joins f j hj (fun hmem => hS (hsub hmem)) fun hmem => hS' (hsub hmem)⟩

/-- **The order of sequential consistency** outside of the labels that are changed. -/
lemma scBefore (h : PartOutside S g g') {p e : Event} (hpe : g'.SCBefore p e) (hp : p ∉ S)
    (he : e ∉ S) : g.SCBefore p e := by
  have haddr : ∀ {x a}, x ∉ S → g'.addrOf x = some a → g.addrOf x = some a :=
    fun hx ha => h.addrOf _ _ ha hx
  rcases hpe with ⟨ht, hlt, hc⟩ | hrf | ⟨a, ha, hco⟩ | ⟨w, hw, hfr⟩ | hc | hj
  · exact .inl ⟨ht, hlt, h.containsPos e hc he⟩
  · exact .inr (.inl (h.rfOf e p hrf he).1)
  · exact .inr (.inr (.inl ⟨a, haddr hp ha, h.co a p e hco hp he⟩))
  · obtain ⟨hw, hwS⟩ := h.rfOf p w hw hp
    refine .inr (.inr (.inr (.inl ⟨w, hw, ?_⟩)))
    obtain ⟨a, ha, hco⟩ | ⟨hinit, a, ha, hmem⟩ := hfr
    · exact .inl ⟨a, haddr hwS ha, h.co a w e hco hwS he⟩
    · exact .inr ⟨hinit, a, haddr hp ha, h.mem_co a e hmem he⟩
  · exact .inr (.inr (.inr (.inr (.inl (h.creates p e hc hp he)))))
  · exact .inr (.inr (.inr (.inr (.inr (h.joins p e hj hp he)))))

/-- The cycles go through the labels that are changed, or are those of the graph before. -/
lemma feedbackSet (h : PartOutside S g g') {X : Set Event} (hX : FeedbackSet g.SCBefore X) :
    FeedbackSet g'.SCBefore (X ∪ S) :=
  hX.transfer fun _ _ hpe hp he => ⟨h.scBefore hpe (fun hmem => hp (.inr hmem)) fun hmem =>
    he (.inr hmem), fun hmem => hp (.inl hmem), fun hmem => he (.inl hmem)⟩

end PartOutside

/-! ## Parts of a graph -/

/-- A graph with the labels of another one, other sources for reads in a set, and writes in the set
at other places. -/
lemma KeepsThreads.partOutside {K : Set Event} (h : KeepsThreads K g g') (hlinks : Threaded g)
    (haddr : ∀ e a, g'.addrOf e = some a → e ∉ S → g.addrOf e = some a)
    (hrf : ∀ r w, g'.rfOf r = some w → r ∉ S → g.rfOf r = some w ∧ w ∉ S)
    (hco : ∀ a w w', [w, w'].Sublist (g'.co a) → w ∉ S → w' ∉ S → [w, w'].Sublist (g.co a))
    (hmem : ∀ a w, w ∈ g'.co a → w ∉ S → w ∈ g.co a) : PartOutside S g g' := by
  refine ⟨fun e he _ => ((h.containsPos e).mp he).2, fun p _ e he _ => ((h.isa p e).mp he).2, haddr,
    hrf, hco, hmem, fun c e hc _ _ => ?_, fun f j hj _ _ => ?_⟩
  · obtain ⟨hcreate, he, hparent⟩ := hc
    exact ⟨((h.isa _ c).mp hcreate).2, ((h.containsPos e).mp he).2, h.parentCreateOf.mp hparent⟩
  · obtain ⟨hfinish, t, ht, rfl⟩ := hj
    have hfinish' := ((h.isa _ _).mp hfinish).2
    refine ⟨hfinish', t, (h.joinedOf.mp ht).2, ?_⟩
    exact (lastPos_eq (e := g'.lastPos t) (containsPos_of_isa hfinish')
      (Bool.eq_false_iff.mpr (hlinks.terminators _
        (isTerminator_of_isThreadFinish hfinish')))).symm

/-- Changing nothing but other links. -/
lemma partOutside_of_relinks (hlinks : Threaded g) (h : Relinks g g') (hjoins : SameJoins g g')
    (hrf : ∀ r w, g'.rfOf r = some w → r ∉ S → g.rfOf r = some w ∧ w ∉ S)
    (hco : g'.coherence = g.coherence) : PartOutside S g g' := by
  have heq : ∀ a, g'.co a = g.co a := fun a => by unfold ExecutionGraph.co; rw [hco]
  refine (KeepsThreads.of_relinks h hjoins).partOutside hlinks (fun e a ha _ => ?_) hrf
    (fun a w w' hco _ _ => heq a ▸ hco) fun a w hw _ => heq a ▸ hw
  rwa [h.addrOf] at ha

/-- Turning a read. -/
lemma Assigns.partOutside {r w : Event} {flag : Bool → Bool} (h : Assigns g r w flag g')
    (hlinks : Threaded g) (hg : ReaderLists g) (hr : g.isa LabelBody.isRead r)
    (hjoins : SameJoins g g') : PartOutside {r} g g' := by
  refine partOutside_of_relinks hlinks h.relinks hjoins (fun r' w' hrf hne => ?_) h.coherence
  rw [h.rfOf, if_neg (Set.mem_singleton_iff.not.mp hne)] at hrf
  refine ⟨hrf, ?_⟩
  intro heq
  obtain rfl := Set.mem_singleton_iff.mp heq
  obtain ⟨lab, hlab, hread⟩ := isa_iff.mp hr
  have hsource := hg.sources r' w' hrf
  rw [isa_of_getEventLabel hlab, isa_of_getEventLabel hlab] at hsource
  cases hb : lab.body <;> simp_all [LabelBody.isRead, LabelBody.isWrite, LabelBody.isInit]

/-- Repairing reads. -/
lemma Repairs.partOutside (h : Repairs g g') (hlinks : Threaded g) (hg : ReaderLists g)
    (hjoins : SameJoins g g') : PartOutside {r | g'.rfOf r ≠ g.rfOf r} g g' := by
  refine partOutside_of_relinks hlinks h.relinks hjoins (fun r w hrf hne => ?_) h.coherence
  rw [Set.mem_ofPred_eq, not_not] at hne
  rw [hne] at hrf
  refine ⟨hrf, fun hw => ?_⟩
  -- what is read from is no read
  obtain ⟨hrf', -⟩ | ⟨-, a, w', -, -, hw'⟩ := h.changed w
  · exact hw hrf'
  · have hread := isa_isRead_of_rfOf hw'
    rw [h.relinks.isa] at hread
    obtain ⟨lab, hlab, hread⟩ := isa_iff.mp hread
    have hsource := hg.sources r w hrf
    rw [isa_of_getEventLabel hlab, isa_of_getEventLabel hlab] at hsource
    cases hb : lab.body <;> simp_all [LabelBody.isRead, LabelBody.isWrite, LabelBody.isInit]

/-- Cutting a graph. -/
lemma CutsTo.partOutside {v : View} (h : CutsTo g v g')
    (hkeeps : KeepsThreads {e | v.contains e} g g') (hlinks : Threaded g) :
    PartOutside ∅ g g' := by
  refine hkeeps.partOutside hlinks (fun e a ha _ => ?_) (fun r w hrf _ => ?_)
    (fun a w w' hco _ _ => ?_) fun a w hw _ => ?_
  · rw [h.addrOf] at ha
    split at ha
    · exact ha
    · cases ha
  · rw [h.rfOf] at hrf
    split at hrf
    · exact ⟨(Option.filter_eq_some_iff.mp hrf).1, Set.notMem_empty w⟩
    · cases hrf
  · rw [h.co] at hco
    exact hco.trans List.filter_sublist
  · rw [h.co] at hw
    exact List.mem_of_mem_filter hw

/-- Taking back a label. -/
lemma TakesBack.partOutside {t : ℕ} (h : TakesBack g t g')
    (hkeeps : KeepsThreads {e | e ≠ g.lastPos t} g g') (hlinks : Threaded g) :
    PartOutside ∅ g g' := by
  refine hkeeps.partOutside hlinks (fun e a ha _ => ?_) (fun r w hrf _ => ?_)
    (fun a w w' hco _ _ => h.co a ▸ hco) fun a w hw _ => h.co a ▸ hw
  · rw [h.addrOf] at ha
    split at ha
    · cases ha
    · exact ha
  · rw [h.rfOf] at hrf
    split at hrf
    · cases hrf
    · exact ⟨hrf, Set.notMem_empty w⟩

/-! ## New labels -/

/-- A graph where a label has been added. -/
lemma GrowsBy.partOutside {lab : EventLabel} (h : GrowsBy g lab g') (hg : ReaderLists g)
    (hindex : lab.pos.index = g.getThreadSize lab.pos.thread) :
    PartOutside {lab.pos} g g' := by
  have hisa : ∀ (p : LabelBody → Bool) [ClassTest p] e, g'.isa p e → e ∉ ({lab.pos} : Set Event) →
      g.isa p e := by
    intro p _ e he hne
    rwa [h.isa, if_neg (Set.mem_singleton_iff.not.mp hne)] at he
  refine ⟨fun e he hne => ((h.containsPos e).mp he).resolve_left hne, hisa, fun e a ha hne => ?_,
    fun r w hrf hne => ?_, fun a w w' hco _ _ => h.co a ▸ hco, fun a w hw _ => h.co a ▸ hw,
    fun c e hc hne hne' => ?_, fun f j hj hne hne' => ?_⟩
  · rwa [h.addrOf, if_neg (Set.mem_singleton_iff.not.mp hne)] at ha
  · rw [h.rfOf, if_neg (Set.mem_singleton_iff.not.mp hne)] at hrf
    refine ⟨hrf, ?_⟩
    rintro rfl
    have hfree := h.fresh
    rw [(hg.sources r _ hrf).elim containsPos_of_isa containsPos_of_isa] at hfree
    cases hfree
  · obtain ⟨hcreate, he, hparent⟩ := hc
    have he' := ((h.containsPos e).mp he).resolve_left hne'
    refine ⟨hisa _ c hcreate hne, he', ?_⟩
    -- the label is not the first one of a thread that has labels
    have hfirst : (⟨e.thread, 0⟩ : Event) ∉ ({lab.pos} : Set Event) := by
      intro heq
      rw [Set.mem_singleton_iff] at heq
      have hzero := congrArg Event.index heq
      rw [hindex, ← congrArg Event.thread heq] at hzero
      have hlt := containsPos_iff_lt.mp he'
      rw [← hzero] at hlt
      exact absurd hlt (Nat.not_lt_zero _)
    exact parentCreateOf_eq_some_iff.mpr (hisa _ _ (parentCreateOf_eq_some_iff.mp hparent) hfirst)
  · obtain ⟨hfinish, t, ht, rfl⟩ := hj
    refine ⟨hisa _ _ hfinish hne, t,
      joinedOf_eq_some_iff.mpr (hisa _ j (joinedOf_eq_some_iff.mp ht) hne'), ?_⟩
    refine lastPos_of_added_of_ne h.containsPos ?_
    rintro rfl
    exact hne (lastPos_of_added h.containsPos hindex)

/-- A graph where a thread has been emptied. -/
lemma Empties.partOutside {t : ℕ} (h : Empties g t g') : PartOutside ∅ g g' := by
  refine ⟨fun e he _ => ((h.containsPos e).mp he).2, fun p _ e he _ => ((h.isa p e).mp he).2,
    fun e a ha _ => ?_, fun r w hrf _ => ?_, fun a w w' hco _ _ => h.co a ▸ hco,
    fun a w hw _ => h.co a ▸ hw, fun c e hc _ _ => ?_, fun f j hj _ _ => ?_⟩
  · rw [h.addrOf] at ha
    split at ha
    · cases ha
    · exact ha
  · rw [h.rfOf] at hrf
    split at hrf
    · cases hrf
    · exact ⟨hrf, Set.notMem_empty w⟩
  · obtain ⟨hcreate, he, hparent⟩ := hc
    exact ⟨((h.isa _ c).mp hcreate).2, ((h.containsPos e).mp he).2,
      parentCreateOf_eq_some_iff.mpr ((h.isa _ _).mp (parentCreateOf_eq_some_iff.mp hparent)).2⟩
  · obtain ⟨hfinish, t', ht', rfl⟩ := hj
    refine ⟨((h.isa _ _).mp hfinish).2, t',
      joinedOf_eq_some_iff.mpr ((h.isa _ j).mp (joinedOf_eq_some_iff.mp ht')).2, ?_⟩
    refine lastPos_congr fun i => ?_
    rw [h.containsPos]
    refine and_iff_right ?_
    rintro heq
    -- the thread that is empty has no end
    obtain rfl : t' = t := congrArg Event.thread heq
    have hlt := containsPos_iff_lt.mp (containsPos_of_isa hfinish)
    have hempty : g'.getThreadSize (g'.lastPos t').thread = 0 := h.empty
    rw [hempty] at hlt
    exact absurd hlt (Nat.not_lt_zero _)

end ExecutionGraph

end GenMC
