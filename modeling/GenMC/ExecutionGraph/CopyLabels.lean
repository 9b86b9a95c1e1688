import GenMC.ExecutionGraph.Copy
import GenMC.ExecutionGraph.Effects

/-!
# The labels of a copy

The first loop of `copyGraphUpTo` adds the labels one by one.  It visits the positions
`copyPositions`, thread by thread, and `CopyState` describes the copy after a part of them.
-/

namespace GenMC

namespace ExecutionGraph

variable {g g' other : ExecutionGraph} {v : VectorClock}

/-- `placeLabel` succeeds at the end of a thread. -/
lemma placeLabel_isSome {lab : EventLabel} (hthread : lab.pos.thread < g.getNumThreads)
    (hindex : lab.pos.index = g.getThreadSize lab.pos.thread) :
    ∃ g', g.placeLabel lab = some g' := by
  have hnone : g.getEventLabel lab.pos = none := by
    rw [← Option.not_isSome_iff_eq_none]
    intro hsome
    exact absurd (containsPos_iff_lt.mp hsome) (by omega)
  unfold placeLabel
  rw [if_neg (not_le.mpr hthread), hnone]
  exact ⟨_, if_pos hindex⟩

/-- `addLabelToGraph` succeeds at the end of a thread. -/
lemma addLabelToGraph_isSome (lab : EventLabel) (hinit : g.isa LabelBody.isInit .init)
    (hthread : lab.pos.thread < g.getNumThreads)
    (hindex : lab.pos.index = g.getThreadSize lab.pos.thread) :
    ∃ g', g.addLabelToGraph lab = some g' := by
  obtain ⟨ts, hts⟩ := assignStamp_eq (g := g) lab
  rw [← pos_stamped (g := g) lab] at hthread hindex
  unfold addLabelToGraph
  rw [hts]
  simp only [body_stamped]
  cases haddr : lab.body.addr with
  | none => exact placeLabel_isSome (g := { g with timestamp := ts }) hthread hindex
  | some a =>
    obtain ⟨g', hg'⟩ := placeLabel_isSome
      (g := { g with
        timestamp := ts, coherence := g.coherence.track a [], initRfs := g.initRfs.track a [] })
      hthread hindex
    refine ⟨g', Option.bind_eq_some_iff.mpr ⟨_, ?_, hg'⟩⟩
    exact trackCoherenceAtLoc_eq_some.mpr ⟨hinit, rfl⟩

/-! ## The order of copying -/

/-- The positions that the copy visits in one thread; the initializer is skipped. -/
def threadPositions (v : VectorClock) (i : ℕ) : List Event :=
  (if i = 0 then [] else [⟨i, 0⟩]) ++ (List.range (v.getMax i)).map fun j => ⟨i, j + 1⟩

/-- The positions that the copy visits. -/
def copyPositions (n : ℕ) (v : VectorClock) : List Event :=
  (List.range n).flatMap (threadPositions v)

/-- The copy of a thread is a loop over its positions. -/
lemma copyThread_eq (i : ℕ) :
    g.copyThread v other i = (threadPositions v i).foldlM (g.copyLabel v) other := by
  unfold copyThread threadPositions
  by_cases hi : i = 0
  · simp only [hi, if_true, List.nil_append, List.foldlM_map]
    rfl
  · simp only [hi, if_false, List.singleton_append, List.foldlM_cons, List.foldlM_map]

/-- The copy of all threads is a loop over their positions. -/
lemma copyThreads_eq : g.copyThreads v other =
    (copyPositions g.getNumThreads v).foldlM (g.copyLabel v)
      { other with
        timestamp := g.timestamp
        recoveryTID := g.recoveryTID
        events := (other.events ++ List.replicate g.getNumThreads []).take g.getNumThreads } := by
  unfold copyThreads copyPositions
  rw [PartialRun.foldlM_flatMap]
  exact congrArg (fun f => List.foldlM f _ _) (funext₂ fun _ _ => copyThread_eq _)

/-- The visited positions. -/
lemma mem_copyPositions {n : ℕ} {e : Event} :
    e ∈ copyPositions n v ↔ e.thread < n ∧ e.index ≤ v.getMax e.thread ∧ e ≠ .init := by
  obtain ⟨t, i⟩ := e
  have hinit : (⟨t, i⟩ : Event) ≠ .init ↔ t ≠ 0 ∨ i ≠ 0 := by
    unfold Event.init
    rw [Ne, Event.mk.injEq]
    omega
  unfold copyPositions threadPositions
  rw [hinit]
  simp only [List.mem_flatMap, List.mem_range, List.mem_append, List.mem_map, Event.mk.injEq]
  constructor
  · rintro ⟨t', ht', hbegin | ⟨j, hj, rfl, rfl⟩⟩
    · split at hbegin
      · cases hbegin
      · obtain ⟨rfl, rfl⟩ := Event.mk.inj (List.mem_singleton.mp hbegin)
        exact ⟨ht', Nat.zero_le _, Or.inl ‹_›⟩
    · exact ⟨ht', hj, Or.inr (Nat.succ_ne_zero j)⟩
  · rintro ⟨ht, hi, hne⟩
    refine ⟨t, ht, ?_⟩
    cases i with
    | zero =>
      left
      rw [if_neg (by omega)]
      exact List.mem_singleton.mpr rfl
    | succ j => exact Or.inr ⟨j, hi, rfl, rfl⟩

/-- A thread is visited in its order. -/
lemma pairwise_threadPositions (i : ℕ) :
    (threadPositions v i).Pairwise fun a b => a.index < b.index := by
  unfold threadPositions
  have hlater : ((List.range (v.getMax i)).map fun j => (⟨i, j + 1⟩ : Event)).Pairwise
      fun a b => a.index < b.index := by
    rw [List.pairwise_map]
    exact List.pairwise_lt_range.imp fun h => Nat.succ_lt_succ h
  split
  · exact hlater
  · rw [List.singleton_append, List.pairwise_cons]
    refine ⟨fun b hb => ?_, hlater⟩
    obtain ⟨j, -, rfl⟩ := List.mem_map.mp hb
    exact Nat.succ_pos j

/-- Every thread is visited in its order. -/
lemma pairwise_copyPositions (n : ℕ) :
    (copyPositions n v).Pairwise fun a b => a.thread = b.thread → a.index < b.index := by
  have hthread : ∀ i, ∀ e ∈ threadPositions v i, e.thread = i := by
    intro i e he
    unfold threadPositions at he
    rcases List.mem_append.mp he with he | he
    · split at he
      · cases he
      · rw [List.mem_singleton.mp he]
    · obtain ⟨j, -, rfl⟩ := List.mem_map.mp he
      rfl
  unfold copyPositions
  rw [List.pairwise_flatMap]
  refine ⟨fun i _ => (pairwise_threadPositions i).imp fun h => fun _ => h, ?_⟩
  refine List.nodup_range.imp fun {i j} hne a ha b hb hab => ?_
  exact absurd ((hthread i a ha).symm.trans (hab.trans (hthread j b hb))) hne

/-- Before a position is visited, exactly the earlier positions of its thread have been. -/
lemma mem_done_iff {n : ℕ} {done rest : List Event} {e e' : Event}
    (h : copyPositions n v = done ++ e :: rest) (hthread : e'.thread = e.thread) :
    e' ∈ done ∨ e' = .init ↔ e'.index < e.index := by
  have hpairwise := pairwise_copyPositions (v := v) n
  rw [h, List.pairwise_append] at hpairwise
  obtain ⟨-, hlater, hearlier⟩ := hpairwise
  have he := mem_copyPositions.mp (h ▸ List.mem_append_right done List.mem_cons_self)
  constructor
  · rintro (hmem | rfl)
    · exact hearlier e' hmem e List.mem_cons_self hthread
    · refine Nat.pos_of_ne_zero fun hzero => he.2.2 (Event.ext hthread.symm hzero)
  · intro hlt
    by_cases hinit : e' = .init
    · exact Or.inr hinit
    · left
      have hmem : e' ∈ copyPositions n v := by
        rw [mem_copyPositions, hthread]
        exact ⟨he.1, by omega, hinit⟩
      rw [h, List.mem_append, List.mem_cons] at hmem
      rcases hmem with hmem | rfl | hmem
      · exact hmem
      · exact absurd hlt (lt_irrefl _)
      · have := (List.pairwise_cons.mp hlater).1 e' hmem hthread.symm
        omega

/-! ## The loop -/

/-- The copy after the positions `done` have been visited. -/
structure CopyState (g : ExecutionGraph) (v pv : VectorClock) (done : List Event)
    (other : ExecutionGraph) : Prop where
  /-- The copy has an initializer of its own. -/
  init : other.getEventLabel .init = some ((EventLabel.initLabel pv).setStamp 0)
  /-- A visited label that the clock contains is cloned. -/
  label : ∀ e ∈ done, v.contains e →
    other.getEventLabel e = (g.getEventLabel e).map EventLabel.clone
  /-- At any other visited position is a hole. -/
  hole : ∀ e ∈ done, v.contains e = false →
    ∃ s, other.getEventLabel e = some ((EventLabel.createHoleLabel e).setStamp s)
  /-- Other positions are free. -/
  outside : ∀ e, e ∉ done → e ≠ .init → other.getEventLabel e = none
  /-- The threads are those of the original. -/
  numThreads : other.getNumThreads = g.getNumThreads
  /-- The locations of the cloned accesses are tracked. -/
  tracked : ∀ a, a ∈ other.coherence.keys ↔ ∃ e ∈ done, v.contains e ∧ g.addrOf e = some a
  /-- The two location maps track the same locations. -/
  keys : other.initRfs.keys = other.coherence.keys
  /-- There are no stores in the coherence order yet. -/
  co : ∀ a, other.co a = []
  /-- There are no initial readers yet. -/
  initReaders : ∀ a, other.initReaders a = []
  /-- Without holes the timestamp is that of the original. -/
  timestamp : (∀ e ∈ done, v.contains e) → other.timestamp = g.timestamp

namespace CopyState

variable {pv : VectorClock}

/-- The class of the initializer. -/
lemma isa_init {done : List Event} (h : CopyState g v pv done other) :
    other.isa LabelBody.isInit .init := isa_iff.mpr ⟨_, h.init, rfl⟩

/-- Before the first position is visited. -/
lemma base (hn : 0 < g.getNumThreads) : CopyState g v pv []
    { new pv with
      timestamp := g.timestamp
      recoveryTID := g.recoveryTID
      events := ((new pv).events ++ List.replicate g.getNumThreads []).take g.getNumThreads } := by
  obtain ⟨n, hn'⟩ : ∃ n, g.getNumThreads = n + 1 := ⟨g.getNumThreads - 1, by omega⟩
  have hevents : ((new pv).events ++ List.replicate (n + 1) []).take (n + 1) =
      [(EventLabel.initLabel pv).setStamp 0] :: List.replicate n [] := by
    unfold new
    simp [List.take_replicate]
  rw [hn', hevents]
  refine ⟨rfl, by simp, by simp, fun e _ he => ?_, ?_,
    by simp [new, KeyedList.keys, KeyedList.empty], rfl, fun a => rfl, fun a => rfl, fun _ => rfl⟩
  · obtain ⟨t, i⟩ := e
    unfold getEventLabel
    simp only [List.getD_eq_getElem?_getD]
    cases t with
    | zero =>
      cases i with
      | zero => exact absurd rfl he
      | succ i => simp
    | succ t =>
      rw [List.getElem?_cons_succ, List.getElem?_replicate]
      split <;> rfl
  · rw [hn']
    simp [getNumThreads]

/-- Adding a label with a stamp leaves the label and the timestamp alone. -/
lemma assignStamp_of_isSome (other : ExecutionGraph) (lab : EventLabel) (h : lab.stamp.isSome) :
    other.assignStamp lab = (lab, other) := by
  unfold assignStamp
  split
  · rfl
  next hnone => rw [hnone] at h; cases h

/-- Visiting a position, in terms of the label that is added there. -/
lemma add {done : List Event} (h : CopyState g v pv done other) (lab : EventLabel)
    (hadds : Adds other lab g') (hdone : lab.pos ∉ done) (hinit : lab.pos ≠ .init)
    (hlabel : v.contains lab.pos → (g.getEventLabel lab.pos).map EventLabel.clone =
      some (other.stamped lab))
    (hhole : v.contains lab.pos = false →
      ∃ s, other.stamped lab = (EventLabel.createHoleLabel lab.pos).setStamp s)
    (haddr : ∀ a, lab.body.addr = some a ↔ v.contains lab.pos ∧ g.addrOf lab.pos = some a)
    (htime : v.contains lab.pos → (other.assignStamp lab).2.timestamp = other.timestamp) :
    CopyState g v pv (done ++ [lab.pos]) g' := by
  have hget : ∀ e, g'.getEventLabel e =
      if e = lab.pos then some (other.stamped lab) else other.getEventLabel e := by
    intro e
    rw [hadds.places.label, pos_stamped]
  have hmem : ∀ {e}, e ∈ done ++ [lab.pos] ↔ e ∈ done ∨ e = lab.pos := by
    intro e
    rw [List.mem_append, List.mem_singleton]
  have hne : ∀ {e}, e ∈ done → e ≠ lab.pos := fun he hpos => hdone (hpos ▸ he)
  refine ⟨?_, fun e he hc => ?_, fun e he hc => ?_, fun e he hi => ?_, ?_, fun a => ?_, ?_,
    fun a => ?_, fun a => ?_, fun hall => ?_⟩
  · rw [hget, if_neg (Ne.symm hinit)]
    exact h.init
  · rcases hmem.mp he with he | rfl
    · rw [hget, if_neg (hne he)]
      exact h.label e he hc
    · rw [hget, if_pos rfl, hlabel hc]
  · rcases hmem.mp he with he | rfl
    · rw [hget, if_neg (hne he)]
      exact h.hole e he hc
    · obtain ⟨s, hs⟩ := hhole hc
      exact ⟨s, by rw [hget, if_pos rfl, hs]⟩
  · rw [hmem, not_or] at he
    rw [hget, if_neg he.2]
    exact h.outside e he.1 hi
  · exact hadds.places.numThreads.trans h.numThreads
  · have htracked : a ∈ g'.coherence.keys ↔ a ∈ other.coherence.keys ∨ lab.body.addr = some a := by
      rw [hadds.coherence]
      cases lab.body.addr with
      | none => simp
      | some b =>
        rw [Option.elim_some, KeyedList.keys_track, Option.some.injEq]
        split
        · next hb => exact ⟨Or.inl, fun h => h.elim id fun hab => hab ▸ hb⟩
        · simp [eq_comm]
    rw [htracked, h.tracked, haddr]
    simp only [hmem, or_and_right, exists_or, exists_eq_left]
  · rw [hadds.initRfs, hadds.coherence]
    cases lab.body.addr with
    | none => exact h.keys
    | some a => rw [Option.elim_some, Option.elim_some, KeyedList.keys_track, KeyedList.keys_track,
        h.keys]
  · rw [ExecutionGraph.co, hadds.coherence]
    cases lab.body.addr with
    | none => exact h.co a
    | some b =>
      rw [Option.elim_some, KeyedList.find?_track]
      split
      · exact h.co a
      · exact h.co a
  · rw [ExecutionGraph.initReaders, hadds.initRfs]
    cases lab.body.addr with
    | none => exact h.initReaders a
    | some b =>
      rw [Option.elim_some, KeyedList.find?_track]
      split
      · exact h.initReaders a
      · exact h.initReaders a
  · rw [hadds.timestamp, htime (hall _ (hmem.mpr (Or.inr rfl)))]
    exact h.timestamp fun e he => hall e (hmem.mpr (Or.inl he))

/-- Visiting a position. -/
lemma step (hpos : ∀ e lab, g.getEventLabel e = some lab → lab.pos = e)
    (hstamped : ∀ e lab, g.getEventLabel e = some lab → lab.stamp.isSome) {done : List Event}
    {e : Event} (h : CopyState g v pv done other) (hdone : e ∉ done) (hinit : e ≠ .init)
    (hcopy : g.copyLabel v other e = some g') : CopyState g v pv (done ++ [e]) g' := by
  unfold copyLabel at hcopy
  split at hcopy
  next hhole =>
    have hstamp : other.stamped (EventLabel.createHoleLabel e) =
        (EventLabel.createHoleLabel e).setStamp other.timestamp := rfl
    refine h.add (EventLabel.createHoleLabel e) (addLabelToGraph_spec hcopy) hdone hinit
      (fun hc => ?_) (fun _ => ⟨_, hstamp⟩) (fun a => ⟨fun ha => ?_, fun hc => ?_⟩) fun hc => ?_
    · exact absurd hc (Bool.eq_false_iff.mp hhole.2)
    · cases ha
    · exact absurd hc.1 (Bool.eq_false_iff.mp hhole.2)
    · exact absurd hc (Bool.eq_false_iff.mp hhole.2)
  next hcontains =>
    have hc : v.contains e = true := by
      by_contra hne
      refine hcontains ⟨fun hindex => hne (v.contains_of_index_eq_zero hindex), ?_⟩
      exact Bool.eq_false_iff.mpr hne
    obtain ⟨lab, hlab, hadd⟩ := Option.bind_eq_some_iff.mp hcopy
    obtain rfl := hpos e lab hlab
    have hassign := assignStamp_of_isSome other lab.clone (hstamped _ lab hlab)
    refine h.add lab.clone (addLabelToGraph_spec hadd) hdone hinit (fun _ => ?_)
      (fun hc' => absurd hc (Bool.eq_false_iff.mp hc')) (fun a => ?_) fun _ => ?_
    · have hsame : (lab.clone).pos = lab.pos := rfl
      rw [hsame, hlab, Option.map_some, stamped, hassign]
    · have haddr : lab.clone.body.addr = lab.body.addr := LabelBody.addr_mapFields _ _
      rw [haddr, ← addrOf_of_getEventLabel hlab]
      exact ⟨fun ha => ⟨hc, ha⟩, fun ha => ha.2⟩
    · rw [hassign]

/-- A position is visited without failing if it is the next one of its thread. -/
lemma progress {done rest : List Event} {e : Event} (h : CopyState g v pv done other)
    (hpos : ∀ e lab, g.getEventLabel e = some lab → lab.pos = e)
    (hwithin : ∀ t < g.getNumThreads, v.getMax t < g.getThreadSize t)
    (hvisit : copyPositions g.getNumThreads v = done ++ e :: rest) :
    ∃ g', g.copyLabel v other e = some g' := by
  have he := mem_copyPositions.mp (hvisit ▸ List.mem_append_right done List.mem_cons_self)
  have hthread : e.thread < other.getNumThreads := by
    rw [h.numThreads]
    exact he.1
  have hcontained : ∀ i, other.containsPos ⟨e.thread, i⟩ ↔ i < e.index := by
    intro i
    refine Iff.trans ?_ (mem_done_iff hvisit (rfl : (⟨e.thread, i⟩ : Event).thread = _))
    constructor
    · intro hc
      by_contra hnot
      rw [not_or] at hnot
      rw [containsPos, h.outside _ hnot.1 hnot.2] at hc
      cases hc
    · rintro (hmem | hinit)
      · cases hc : v.contains ⟨e.thread, i⟩ with
        | true =>
          have hindex := VectorClock.le_getMax_of_contains hc
          have hsize := hwithin e.thread he.1
          obtain ⟨lab, hlab⟩ := containsPos_iff.mp
            (containsPos_iff_lt.mpr (lt_of_le_of_lt hindex hsize) : g.containsPos ⟨e.thread, i⟩)
          rw [containsPos, h.label _ hmem hc, hlab]
          rfl
        | false =>
          obtain ⟨s, hs⟩ := h.hole _ hmem hc
          rw [containsPos, hs]
          rfl
      · rw [hinit, containsPos, h.init]
        rfl
  have hindex : e.index = other.getThreadSize e.thread := by
    have hsize : ∀ i, i < other.getThreadSize e.thread ↔ i < e.index := fun i =>
      containsPos_iff_lt.symm.trans (hcontained i)
    exact le_antisymm (not_lt.mp fun hlt => lt_irrefl _ ((hsize _).mpr hlt))
      (not_lt.mp fun hlt => lt_irrefl _ ((hsize _).mp hlt))
  unfold copyLabel
  split
  · exact addLabelToGraph_isSome _ h.isa_init hthread hindex
  · obtain ⟨lab, hlab⟩ := containsPos_iff.mp
      (containsPos_iff_lt.mpr (lt_of_le_of_lt he.2.1 (hwithin e.thread he.1)) : g.containsPos e)
    obtain rfl := hpos e lab hlab
    rw [hlab]
    exact addLabelToGraph_isSome lab.clone h.isa_init hthread hindex

end CopyState

/-- A position is not among those visited before it. -/
lemma not_mem_done {n : ℕ} {done rest : List Event} {e : Event}
    (h : copyPositions n v = done ++ e :: rest) : e ∉ done := by
  intro hmem
  exact lt_irrefl _ ((mem_done_iff h rfl).mp (Or.inl hmem))

/-- A visited position is not the initializer. -/
lemma ne_init_of_visit {n : ℕ} {done rest : List Event} {e : Event}
    (h : copyPositions n v = done ++ e :: rest) : e ≠ .init :=
  (mem_copyPositions.mp (h ▸ List.mem_append_right done List.mem_cons_self)).2.2

/-- The first loop of a copy, where it ends. -/
lemma copyThreads_spec {pv : VectorClock}
    (hpos : ∀ e lab, g.getEventLabel e = some lab → lab.pos = e)
    (hstamped : ∀ e lab, g.getEventLabel e = some lab → lab.stamp.isSome)
    (hn : 0 < g.getNumThreads) (h : g.copyThreads v (new pv) = some other) :
    CopyState g v pv (copyPositions g.getNumThreads v) other := by
  rw [copyThreads_eq] at h
  exact PartialRun.foldlM_prefix _ (CopyState g v pv) (fun done e rest hvisit s s' hs hstep =>
    hs.step hpos hstamped (not_mem_done hvisit) (ne_init_of_visit hvisit) hstep)
    (CopyState.base hn) h

/-- The first loop of a copy ends if the clock lies within the graph. -/
lemma copyThreads_isSome (pv : VectorClock)
    (hpos : ∀ e lab, g.getEventLabel e = some lab → lab.pos = e)
    (hstamped : ∀ e lab, g.getEventLabel e = some lab → lab.stamp.isSome)
    (hn : 0 < g.getNumThreads)
    (hwithin : ∀ t < g.getNumThreads, v.getMax t < g.getThreadSize t) :
    ∃ other, g.copyThreads v (new pv) = some other := by
  rw [copyThreads_eq]
  obtain ⟨other, hother, -⟩ := PartialRun.foldlM_total _ (CopyState g v pv)
    (fun done e rest hvisit s hs => by
      obtain ⟨s', hs'⟩ := hs.progress hpos hwithin hvisit
      exact ⟨s', hs', hs.step hpos hstamped (not_mem_done hvisit) (ne_init_of_visit hvisit) hs'⟩)
    (CopyState.base hn)
  exact ⟨other, hother⟩

end ExecutionGraph

end GenMC
