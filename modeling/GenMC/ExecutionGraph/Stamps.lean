import GenMC.ExecutionGraph.CopySpec
import GenMC.ExecutionGraph.Restriction
import GenMC.Lib.Renumber

/-!
# Stamps

`StampInvariant` says how the insertion order, the threads, the stamps and the timestamp belong
together.  It only depends on the positions and their stamps, so that one lemma,
`StampInvariant.restrict`, serves every operation that takes labels away.  `Compresses` is the
effect of `compressStampsAfter`.
-/

namespace GenMC

namespace ExecutionGraph

variable {g g' : ExecutionGraph}

/-- The insertion order lists every label once, sorted by stamps; stamps increase along every
thread, and the next one is new. -/
structure StampInvariant (g : ExecutionGraph) : Prop where
  /-- The insertion order has the labels of the graph. -/
  members : ∀ e, e ∈ g.insertionOrder ↔ g.containsPos e
  /-- It lists every label once. -/
  nodup : g.insertionOrder.Nodup
  /-- It is sorted by stamps. -/
  sorted : g.insertionOrder.Pairwise fun e e' => g.stampOf e < g.stampOf e'
  /-- Stamps increase along every thread. -/
  threads : ∀ e e', g.containsPos e → g.containsPos e' → e.thread = e'.thread →
    e.index < e'.index → g.stampOf e < g.stampOf e'
  /-- The next stamp is larger than those of the labels. -/
  bounded : ∀ e, g.containsPos e → g.stampOf e < g.timestamp

/-- Positions and stamps of the part of a graph that passes a test. -/
lemma containsPos_stampOf_of_map {p : Event → Bool} {e : Event}
    (h : (g'.getEventLabel e).map (·.getStamp) =
      if p e then (g.getEventLabel e).map (·.getStamp) else none) :
    g'.containsPos e = (p e && g.containsPos e) ∧ (p e → g'.stampOf e = g.stampOf e) := by
  unfold containsPos stampOf
  refine ⟨?_, fun hp => by rw [h, if_pos hp]⟩
  rw [← Option.isSome_map (f := (·.getStamp)), h]
  split <;> simp [*]

namespace StampInvariant

/-- The part of a graph that passes a test. -/
lemma restrict (hg : StampInvariant g) (p : Event → Bool)
    (hlabel : ∀ e, (g'.getEventLabel e).map (·.getStamp) =
      if p e then (g.getEventLabel e).map (·.getStamp) else none)
    (horder : g'.insertionOrder = g.insertionOrder.filter p)
    (htime : g'.timestamp = g.timestamp) : StampInvariant g' := by
  have hcontains := fun e => (containsPos_stampOf_of_map (hlabel e)).1
  have hstamp := fun e => (containsPos_stampOf_of_map (hlabel e)).2
  refine ⟨fun e => ?_, ?_, ?_, fun e e' he he' => ?_, fun e he => ?_⟩
  · rw [horder, List.mem_filter, hg.members, hcontains, Bool.and_eq_true, and_comm]
  · rw [horder]
    exact hg.nodup.filter p
  · rw [horder]
    refine (hg.sorted.filter p).imp_of_mem fun ha hb h => ?_
    rw [hstamp _ (List.mem_filter.mp ha).2, hstamp _ (List.mem_filter.mp hb).2]
    exact h
  · rw [hcontains, Bool.and_eq_true] at he he'
    rw [hstamp e he.1, hstamp e' he'.1]
    exact hg.threads e e' he.2 he'.2
  · rw [hcontains, Bool.and_eq_true] at he
    rw [hstamp e he.1, htime]
    exact hg.bounded e he.2

/-- A graph with the same positions and stamps. -/
lemma congr (hg : StampInvariant g)
    (hlabel : ∀ e, (g'.getEventLabel e).map (·.getStamp) = (g.getEventLabel e).map (·.getStamp))
    (horder : g'.insertionOrder = g.insertionOrder) (htime : g'.timestamp = g.timestamp) :
    StampInvariant g' :=
  hg.restrict (fun _ => true) (fun e => (hlabel e).trans (if_pos rfl).symm)
    (by rw [horder, List.filter_true]) htime

/-- Changing links. -/
lemma relinks (hg : StampInvariant g) (h : Relinks g g') : StampInvariant g' :=
  hg.congr (h.map_eq fun _ => rfl) h.order h.timestamp

/-- No two labels have the same stamp. -/
lemma injective (hg : StampInvariant g) {e e' : Event} (he : g.containsPos e)
    (he' : g.containsPos e') (h : g.stampOf e = g.stampOf e') : e = e' := by
  have hnodup : (g.insertionOrder.map g.stampOf).Nodup := by
    rw [List.Nodup, List.pairwise_map]
    exact hg.sorted.imp fun h => ne_of_lt h
  exact List.inj_on_of_nodup_map hnodup ((hg.members e).mpr he) ((hg.members e').mpr he') h

/-- The label with the next stamp is put at the end of a thread. -/
lemma places (hg : StampInvariant g) {lab : EventLabel} (h : Places g lab g')
    (hstamp : lab.getStamp = g.timestamp) (htime : g'.timestamp = g.timestamp + 1)
    (hlast : ∀ e, g.containsPos e → e.thread = lab.pos.thread → e.index ≤ lab.pos.index) :
    StampInvariant g' := by
  have hnew : g'.containsPos lab.pos ∧ g'.stampOf lab.pos = g.timestamp := by
    have hget : g'.getEventLabel lab.pos = some lab := by rw [h.label, if_pos rfl]
    exact ⟨containsPos_iff.mpr ⟨lab, hget⟩, by rw [stampOf_of_getEventLabel hget, hstamp]⟩
  have hold : ∀ e, e ≠ lab.pos →
      g'.containsPos e = g.containsPos e ∧ g'.stampOf e = g.stampOf e := by
    intro e he
    unfold containsPos stampOf
    rw [h.label, if_neg he]
    exact ⟨rfl, rfl⟩
  have horder : g'.insertionOrder = g.insertionOrder.filter (fun e => !decide (e = lab.pos)) ++
      [lab.pos] := by
    rw [h.order]
    split
    · rw [hg.nodup.erase_eq_filter]
      rfl
    next hnot =>
      rw [List.filter_eq_self.mpr]
      intro e he
      have hne : e ≠ lab.pos := fun heq => hnot (heq ▸ (hg.members e).mp he)
      simpa using hne
  have hkept : ∀ e, e ∈ g.insertionOrder.filter (fun e => !decide (e = lab.pos)) ↔
      e ≠ lab.pos ∧ g.containsPos e := by
    intro e
    rw [List.mem_filter, hg.members, and_comm]
    simp
  refine ⟨fun e => ?_, ?_, ?_, fun e e' he he' hthread hindex => ?_, fun e he => ?_⟩
  · rw [horder, List.mem_append, hkept, List.mem_singleton]
    by_cases hne : e = lab.pos
    · simp [hne, hnew.1]
    · simp [hne, (hold e hne).1]
  · rw [horder, List.nodup_append]
    refine ⟨hg.nodup.filter _, List.nodup_singleton _, fun a ha b hb => ?_⟩
    rw [List.mem_singleton.mp hb]
    exact ((hkept a).mp ha).1
  · rw [horder, List.pairwise_append]
    refine ⟨(hg.sorted.filter _).imp_of_mem fun ha hb hlt => ?_, List.pairwise_singleton _ _,
      fun a ha b hb => ?_⟩
    · rw [(hold _ ((hkept _).mp ha).1).2, (hold _ ((hkept _).mp hb).1).2]
      exact hlt
    · rw [List.mem_singleton.mp hb, hnew.2, (hold a ((hkept a).mp ha).1).2]
      exact hg.bounded a ((hkept a).mp ha).2
  · by_cases hne : e = lab.pos
    · -- Nothing comes behind the new label.
      have hne' : e' ≠ lab.pos := by
        rintro rfl
        rw [hne] at hindex
        exact lt_irrefl _ hindex
      rw [(hold e' hne').1] at he'
      have := hlast e' he' (by rw [← hthread, hne])
      rw [hne] at hindex
      omega
    · rw [(hold e hne).1] at he
      rw [(hold e hne).2]
      by_cases hne' : e' = lab.pos
      · rw [hne', hnew.2]
        exact hg.bounded e he
      · rw [(hold e' hne').1] at he'
        rw [(hold e' hne').2]
        exact hg.threads e e' he he' hthread hindex
  · rw [htime]
    by_cases hne : e = lab.pos
    · rw [hne, hnew.2]
      exact Nat.lt_succ_self _
    · rw [(hold e hne).1] at he
      rw [(hold e hne).2]
      exact Nat.lt_succ_of_lt (hg.bounded e he)

/-- Taking the last label of a thread away. -/
lemma removesLast (hg : StampInvariant g) {lab : EventLabel} {g₁ : ExecutionGraph}
    (h : RemovesLast g lab g₁ g') : StampInvariant g' := by
  obtain ⟨hrelinks, -⟩ := unlinkLast_eq h.unlink
  refine hg.restrict (fun e => !decide (e = lab.pos)) (fun e => ?_) ?_ h.timestamp
  · rw [h.label, ← hrelinks.map_eq (f := (·.getStamp)) (fun _ => rfl)]
    by_cases he : e = lab.pos <;> simp [he]
  · rw [h.order, hg.nodup.erase_eq_filter]
    rfl

/-- Cutting a graph. -/
lemma cuts (hg : StampInvariant g) {preds : View} {keep : List SAddr} (h : Cuts g preds keep g')
    (hpositioned : Positioned g) : StampInvariant g' := by
  refine hg.restrict preds.contains (fun e => ?_) h.order h.timestamp
  rw [h.label_eq hpositioned]
  split
  · rw [Option.map_map]
    rfl
  · rfl

end StampInvariant

/-! ## Copies -/

namespace CopyState

variable {other : ExecutionGraph} {v pv : VectorClock}

/-- A label of the copy is the initializer, a clone or a hole. -/
lemma label_cases (h : Complete g v pv other) {e : Event} {lab : EventLabel}
    (hlab : other.getEventLabel e = some lab) :
    (e = .init ∧ lab = (EventLabel.initLabel pv).setStamp 0) ∨
      (v.contains e ∧ ∃ gLab, g.getEventLabel e = some gLab ∧ lab = gLab.clone) ∨
      (v.contains e = false ∧ ∃ s, lab = (EventLabel.createHoleLabel e).setStamp s) := by
  by_cases hinit : e = .init
  · rw [hinit, h.init] at hlab
    exact Or.inl ⟨hinit, (Option.some.inj hlab).symm⟩
  · have hmem : e ∈ copyPositions g.getNumThreads v := by
      by_contra hnot
      rw [h.outside e hnot hinit] at hlab
      cases hlab
    cases hc : v.contains e with
    | true =>
      rw [h.label e hmem hc] at hlab
      obtain ⟨gLab, hgLab, rfl⟩ := Option.map_eq_some_iff.mp hlab
      exact Or.inr (Or.inl ⟨rfl, gLab, hgLab, rfl⟩)
    | false =>
      obtain ⟨s, hs⟩ := h.hole e hmem hc
      rw [hs] at hlab
      exact Or.inr (Or.inr ⟨rfl, s, (Option.some.inj hlab).symm⟩)

/-- The labels of the copy are where they should be. -/
lemma positioned (h : Complete g v pv other) (hg : Positioned g) : Positioned other := by
  refine ⟨fun e lab hlab => h.pos hg.pos hlab, fun e lab hlab hindex => ?_, fun e => ?_⟩
  · rcases h.label_cases hlab with ⟨-, rfl⟩ | ⟨-, gLab, hgLab, rfl⟩ | ⟨hc, -⟩
    · rfl
    · exact (LabelBody.isThreadStart_mapFields _ _).trans (hg.starts e gLab hgLab hindex)
    · rw [v.contains_of_index_eq_zero hindex] at hc
      cases hc
  · rw [h.isa_eq ((hg.initOnly _).mpr rfl) _ rfl, Bool.and_eq_true, hg.initOnly]
    exact ⟨fun he => he.2, fun he => ⟨he ▸ v.contains_init, he⟩⟩

/-- The labels of the copy have stamps. -/
lemma stamp_isSome (h : Complete g v pv other)
    (hg : ∀ e lab, g.getEventLabel e = some lab → lab.stamp.isSome) {e : Event} {lab : EventLabel}
    (hlab : other.getEventLabel e = some lab) : lab.stamp.isSome := by
  rcases h.label_cases hlab with ⟨-, rfl⟩ | ⟨-, gLab, hgLab, rfl⟩ | ⟨-, s, rfl⟩
  · rfl
  · exact hg e gLab hgLab
  · rfl

/-- A copy without holes has the stamps of the contained labels. -/
lemma map_getStamp (h : Complete g v pv other) (hholes : ∀ e, g.inRange v e → v.contains e)
    (hinit : g.containsPos .init) (hstamp : g.stampOf .init = 0) (e : Event) :
    (other.getEventLabel e).map (·.getStamp) =
      if v.contains e then (g.getEventLabel e).map (·.getStamp) else none := by
  by_cases he : e = .init
  · subst he
    obtain ⟨lab, hlab⟩ := containsPos_iff.mp hinit
    rw [stampOf_of_getEventLabel hlab] at hstamp
    rw [if_pos v.contains_init, h.init, hlab, Option.map_some, Option.map_some, hstamp]
    rfl
  · by_cases hmem : e ∈ copyPositions g.getNumThreads v
    · have hc := hholes e (mem_copyPositions_iff.mp hmem).1
      rw [if_pos hc, h.label e hmem hc, Option.map_map]
      rfl
    · rw [h.outside e hmem he, Option.map_none]
      split
      next hc =>
        -- A contained position that is not visited lies beyond the threads.
        rw [eq_comm, Option.map_eq_none_iff, ← Option.not_isSome_iff_eq_none]
        intro hsome
        obtain ⟨lab, hlab⟩ := containsPos_iff.mp hsome
        exact hmem (mem_copyPositions.mpr
          ⟨thread_lt_of_getEventLabel hlab, VectorClock.le_getMax_of_contains hc, he⟩)
      next => rfl

end CopyState

/-! ## Compressing stamps -/

/-- The labels of a list whose stamps are larger than `st`. -/
def laterThan (g : ExecutionGraph) (st : ℕ) (l : List Event) : List Event :=
  l.filter fun e => decide (st < g.stampOf e)

/-- The effect of `compressStampsAfter`. -/
structure Compresses (g : ExecutionGraph) (st : ℕ) (g' : ExecutionGraph) : Prop where
  /-- Nothing of a label changes but its stamp. -/
  label : ∀ e, g'.getEventLabel e = (g.getEventLabel e).map (EventLabel.setStamp (g'.stampOf e))
  /-- Nothing of the graph changes but the labels and the timestamp. -/
  graph : ∃ events, g' = { g with events := events, timestamp := g'.timestamp }
  /-- The threads are the same. -/
  numThreads : g'.getNumThreads = g.getNumThreads
  /-- Small stamps stay. -/
  kept : ∀ e, g.stampOf e ≤ st → g'.stampOf e = g.stampOf e
  /-- The other labels have consecutive stamps. -/
  consecutive : ∀ k e, (g.laterThan st g.insertionOrder)[k]? = some e → g'.stampOf e = st + 1 + k
  /-- The labels are ordered as before. -/
  order : ∀ e e', g.containsPos e → g.containsPos e' →
    (g'.stampOf e < g'.stampOf e' ↔ g.stampOf e < g.stampOf e')
  /-- The next stamp continues the consecutive ones. -/
  timestamp : g'.timestamp = st + 1 + (g.laterThan st g.insertionOrder).length

/-- Setting the stamp that a label has. -/
lemma setStamp_stampOf (hg : ∀ e lab, g.getEventLabel e = some lab → lab.stamp.isSome) (e : Event) :
    (g.getEventLabel e).map (EventLabel.setStamp (g.stampOf e)) = g.getEventLabel e := by
  cases hlab : g.getEventLabel e with
  | none => rfl
  | some lab =>
    obtain ⟨n, hn⟩ := Option.isSome_iff_exists.mp (hg e lab hlab)
    rw [stampOf_of_getEventLabel hlab, Option.map_some]
    unfold EventLabel.setStamp EventLabel.getStamp
    rw [hn, Option.getD_some, ← hn]

/-- A graph in which the labels `done` have been visited. -/
structure Compressing (g : ExecutionGraph) (st : ℕ) (done : List Event) (s : ExecutionGraph) :
    Prop where
  /-- The visited labels with large stamps are renumbered. -/
  label : ∀ e, s.getEventLabel e = (g.getEventLabel e).map
    (EventLabel.setStamp (renumber (g.laterThan st done) (st + 1) g.stampOf e))
  /-- Nothing of the graph changes but the labels and the timestamp. -/
  graph : ∃ events, s = { g with events := events, timestamp := s.timestamp }
  /-- The threads are the same. -/
  numThreads : s.getNumThreads = g.getNumThreads
  /-- The next stamp continues the consecutive ones. -/
  timestamp : s.timestamp = st + 1 + (g.laterThan st done).length

namespace Compressing

variable {s : ExecutionGraph} {st : ℕ} {done : List Event}

/-- Before the first label is visited. -/
lemma base (hg : ∀ e lab, g.getEventLabel e = some lab → lab.stamp.isSome)
    (hst : st + 1 < stampSize) :
    Compressing g st [] (g.resetStamp ((st + 1) % stampSize)) := by
  rw [Nat.mod_eq_of_lt hst]
  refine ⟨fun e => ?_, ⟨g.events, rfl⟩, rfl, rfl⟩
  exact (setStamp_stampOf hg e).symm

/-- Visiting a label. -/
lemma step (h : Compressing g st done s) {e : Event} (he : e ∉ done)
    (hroom : st + 1 + (g.laterThan st (done ++ [e])).length < stampSize) :
    Compressing g st (done ++ [e]) (compressLabel st s e) := by
  have hnot : e ∉ g.laterThan st done := fun hmem => he (List.mem_filter.mp hmem).1
  have hlater : g.laterThan st (done ++ [e]) =
      g.laterThan st done ++ if st < g.stampOf e then [e] else [] := by
    unfold laterThan
    rw [List.filter_append, List.filter_singleton]
    simp
  have hcond : ((s.getEventLabel e).any fun lab => decide (st < lab.getStamp)) =
      decide (st < g.stampOf e) := by
    rw [h.label, renumber_of_not_mem _ hnot]
    cases hlab : g.getEventLabel e with
    | none =>
      unfold stampOf
      rw [hlab]
      rfl
    | some lab => rfl
  unfold compressLabel
  rw [hcond]
  by_cases hst : st < g.stampOf e
  · rw [if_pos hst] at hlater
    rw [hlater, List.length_append, List.length_singleton] at hroom
    rw [if_pos (decide_eq_true hst)]
    have hnext : s.nextStamp.2.timestamp = s.timestamp + 1 :=
      Nat.mod_eq_of_lt (by rw [h.timestamp]; omega)
    refine ⟨fun e' => ?_, ?_, (getNumThreads_updateLabel _ _).trans h.numThreads, ?_⟩
    · rw [getEventLabel_updateLabel, hlater, renumber_append_singleton _ hnot,
        Function.update_apply]
      change (if e' = e then (s.getEventLabel e').map _ else s.getEventLabel e') = _
      split
      next heq =>
        rw [h.label, Option.map_map, ← h.timestamp]
        rfl
      next hne => exact h.label e'
    · obtain ⟨events, hgraph⟩ := h.graph
      refine ⟨(s.updateLabel e (EventLabel.setStamp s.nextStamp.1)).events, ?_⟩
      have hfields := congrArg (fun x : ExecutionGraph =>
        (x.coherence, x.initRfs, x.insertionOrder, x.recoveryTID)) hgraph
      simp only [Prod.mk.injEq] at hfields
      obtain ⟨hco, hrfs, horder, hrec⟩ := hfields
      rw [← hco, ← hrfs, ← horder, ← hrec]
      rfl
    · refine hnext.trans ?_
      rw [hlater, List.length_append, List.length_singleton, h.timestamp, add_assoc]
  · rw [if_neg hst, List.append_nil] at hlater
    rw [if_neg (by simpa using hst)]
    exact ⟨fun e' => by rw [hlater]; exact h.label e', h.graph, h.numThreads,
      by rw [hlater]; exact h.timestamp⟩

/-- The loop of `compressStampsAfter`, if there are enough stamps. -/
lemma loop (hnodup : g.insertionOrder.Nodup)
    (hstamps : ∀ e lab, g.getEventLabel e = some lab → lab.stamp.isSome) (hst : st + 1 < stampSize)
    (hroom : st + 1 + (g.laterThan st g.insertionOrder).length < stampSize) :
    Compressing g st g.insertionOrder (g.compressStampsAfter st) := by
  suffices h : ∀ done, done.IsPrefix g.insertionOrder → Compressing g st done
      (done.foldl (compressLabel st) (g.resetStamp ((st + 1) % stampSize))) from
    h _ (List.prefix_refl _)
  intro done
  induction done using List.reverseRecOn with
  | nil => exact fun _ => Compressing.base hstamps hst
  | append_singleton done e ih =>
    intro hvisit
    have hdone := (List.prefix_append done [e]).trans hvisit
    rw [List.foldl_append]
    refine (ih hdone).step (fun he => ?_) ?_
    · have hnodup' := hnodup.sublist hvisit.sublist
      exact (List.nodup_append.mp hnodup').2.2 e he e (List.mem_singleton.mpr rfl) rfl
    · have hlater : (g.laterThan st (done ++ [e])).length ≤
          (g.laterThan st g.insertionOrder).length :=
        (hvisit.sublist.filter _).length_le
      omega

/-- The stamps of the labels in a graph in which the visited ones are renumbered. -/
lemma stampOf (h : Compressing g st done s) {e : Event} (he : g.containsPos e) :
    s.stampOf e = renumber (g.laterThan st done) (st + 1) g.stampOf e := by
  obtain ⟨lab, hlab⟩ := containsPos_iff.mp he
  rw [stampOf_of_getEventLabel (by rw [h.label, hlab]; rfl)]
  rfl

end Compressing

namespace StampInvariant

/-- The later labels are sorted by stamps. -/
lemma sorted_laterThan (hg : StampInvariant g) (st : ℕ) {l : List Event}
    (hl : l.Sublist g.insertionOrder) :
    (g.laterThan st l).Pairwise fun e e' => g.stampOf e < g.stampOf e' :=
  hg.sorted.sublist (List.filter_sublist.trans hl)

/-- The new stamps do not exceed the timestamp. -/
lemma length_laterThan_le (hg : StampInvariant g) (st : ℕ) {l : List Event}
    (hl : l.Sublist g.insertionOrder) :
    (g.laterThan st l).length ≤ g.timestamp - (st + 1) := by
  refine length_le_of_pairwise_lt (hg.sorted_laterThan st hl) (fun e he => ?_) fun e he => ?_
  · exact of_decide_eq_true (List.mem_filter.mp he).2
  · exact hg.bounded e ((hg.members e).mp (hl.subset (List.mem_filter.mp he).1))

/-- The loop of `compressStampsAfter`. -/
lemma compressing (hg : StampInvariant g)
    (hstamps : ∀ e lab, g.getEventLabel e = some lab → lab.stamp.isSome)
    (hrange : g.timestamp < stampSize) {st : ℕ} (hst : st + 1 < stampSize) :
    Compressing g st g.insertionOrder (g.compressStampsAfter st) := by
  refine Compressing.loop hg.nodup hstamps hst ?_
  have := hg.length_laterThan_le st (List.Sublist.refl g.insertionOrder)
  omega

/-- **Compressing.**  `compressStampsAfter` gives the later labels consecutive stamps and keeps the
order of all labels. -/
lemma compressStampsAfter (hg : StampInvariant g)
    (hstamps : ∀ e lab, g.getEventLabel e = some lab → lab.stamp.isSome)
    (hrange : g.timestamp < stampSize) {st : ℕ} (hst : st + 1 < stampSize) :
    Compresses g st (g.compressStampsAfter st) := by
  have h := hg.compressing hstamps hrange hst
  have hsorted := hg.sorted_laterThan st (List.Sublist.refl g.insertionOrder)
  have hmem : ∀ e, g.containsPos e →
      (e ∈ g.laterThan st g.insertionOrder ↔ st < g.stampOf e) := by
    intro e he
    unfold laterThan
    rw [List.mem_filter, decide_eq_true_iff]
    exact and_iff_right ((hg.members e).mpr he)
  have hstamp : ∀ e, (g.compressStampsAfter st).stampOf e =
      renumber (g.laterThan st g.insertionOrder) (st + 1) g.stampOf e := by
    intro e
    cases hlab : g.getEventLabel e with
    | none =>
      have hnot : e ∉ g.laterThan st g.insertionOrder := by
        intro he
        obtain ⟨lab, hsome⟩ := containsPos_iff.mp ((hg.members e).mp (List.mem_filter.mp he).1)
        rw [hlab] at hsome
        cases hsome
      rw [renumber_of_not_mem _ hnot]
      unfold stampOf
      rw [h.label, hlab]
      rfl
    | some lab => exact h.stampOf (containsPos_iff.mpr ⟨lab, hlab⟩)
  have hmono : ∀ e e', g.containsPos e → g.containsPos e' → g.stampOf e < g.stampOf e' →
      (g.compressStampsAfter st).stampOf e < (g.compressStampsAfter st).stampOf e' := by
    intro e e' he he' hlt
    rw [hstamp, hstamp]
    exact renumber_lt_renumber hsorted (hmem e he) (hmem e' he') hlt
  refine ⟨fun e => ?_, h.graph, h.numThreads, fun e he => ?_, fun k e hk => ?_,
    fun e e' he he' => ⟨fun hlt => ?_, hmono e e' he he'⟩, h.timestamp⟩
  · rw [hstamp]
    exact h.label e
  · rw [hstamp, renumber_of_not_mem]
    intro hlater
    have := of_decide_eq_true (List.mem_filter.mp hlater).2
    omega
  · rw [hstamp]
    exact renumber_getElem hsorted _ hk
  · rcases lt_trichotomy (g.stampOf e) (g.stampOf e') with hle | heq | hgt
    · exact hle
    · rw [hstamp, hstamp] at hlt
      rw [hg.injective he he' heq] at hlt
      exact absurd hlt (lt_irrefl _)
    · exact absurd hlt (not_lt.mpr (hmono e' e he' he hgt).le)

end StampInvariant

namespace Compresses

variable {st : ℕ}

/-- A label after compressing. -/
lemma getEventLabel (h : Compresses g st g') {e : Event} {lab' : EventLabel}
    (hlab : g'.getEventLabel e = some lab') :
    ∃ lab, g.getEventLabel e = some lab ∧ lab' = lab.setStamp (g'.stampOf e) := by
  rw [h.label, Option.map_eq_some_iff] at hlab
  obtain ⟨lab, hlab, heq⟩ := hlab
  exact ⟨lab, hlab, heq.symm⟩

/-- Compressing keeps the positions. -/
lemma containsPos (h : Compresses g st g') (e : Event) : g'.containsPos e = g.containsPos e := by
  unfold ExecutionGraph.containsPos
  rw [h.label, Option.isSome_map]

/-- Compressing keeps the classes. -/
lemma isa (h : Compresses g st g') (p : LabelBody → Bool) (e : Event) :
    g'.isa p e = g.isa p e := by
  unfold ExecutionGraph.isa
  rw [h.label]
  cases g.getEventLabel e <;> rfl

/-- Compressing keeps the insertion order. -/
lemma insertionOrder (h : Compresses g st g') : g'.insertionOrder = g.insertionOrder := by
  obtain ⟨events, hgraph⟩ := h.graph
  rw [hgraph]

/-- Compressing keeps the labels where they should be. -/
lemma positioned (h : Compresses g st g') (hg : Positioned g) : Positioned g' := by
  refine ⟨fun e lab' hlab' => ?_, fun e lab' hlab' hindex => ?_, fun e => ?_⟩
  · obtain ⟨lab, hlab, rfl⟩ := h.getEventLabel hlab'
    exact hg.pos e lab hlab
  · obtain ⟨lab, hlab, rfl⟩ := h.getEventLabel hlab'
    exact hg.starts e lab hlab hindex
  · rw [h.isa]
    exact hg.initOnly e

/-- A new stamp is an old one, or one of the consecutive ones. -/
lemma stampOf_cases (h : Compresses g st g') (hg : StampInvariant g) {e : Event}
    (he : g.containsPos e) : (g.stampOf e ≤ st ∧ g'.stampOf e = g.stampOf e) ∨
      (st < g.stampOf e ∧
        ∃ k < (g.laterThan st g.insertionOrder).length, g'.stampOf e = st + 1 + k) := by
  by_cases hst : st < g.stampOf e
  · have hmem : e ∈ g.laterThan st g.insertionOrder :=
      List.mem_filter.mpr ⟨(hg.members e).mpr he, decide_eq_true hst⟩
    obtain ⟨k, hk, hget⟩ := List.mem_iff_getElem.mp hmem
    exact Or.inr ⟨hst, k, hk, h.consecutive k e (List.getElem?_eq_some_iff.mpr ⟨hk, hget⟩)⟩
  · exact Or.inl ⟨not_lt.mp hst, h.kept e (not_lt.mp hst)⟩

/-- Compressing keeps the stamp invariant. -/
lemma stampInvariant (h : Compresses g st g') (hg : StampInvariant g) : StampInvariant g' := by
  have hmem : ∀ e, e ∈ g'.insertionOrder ↔ g.containsPos e := by
    intro e
    rw [h.insertionOrder]
    exact hg.members e
  refine ⟨fun e => ?_, ?_, ?_, fun e e' he he' hthread hindex => ?_, fun e he => ?_⟩
  · rw [hmem, h.containsPos]
  · rw [h.insertionOrder]
    exact hg.nodup
  · rw [h.insertionOrder]
    refine hg.sorted.imp_of_mem fun {e e'} he he' hlt => ?_
    exact (h.order e e' ((hg.members e).mp he) ((hg.members e').mp he')).mpr hlt
  · rw [h.containsPos] at he he'
    exact (h.order e e' he he').mpr (hg.threads e e' he he' hthread hindex)
  · rw [h.containsPos] at he
    rw [h.timestamp]
    rcases h.stampOf_cases hg he with ⟨hle, heq⟩ | ⟨-, k, hk, heq⟩ <;> omega

/-- The timestamp stays in range. -/
lemma timestamp_lt (h : Compresses g st g') (hg : StampInvariant g)
    (hrange : g.timestamp < stampSize) (hst : st + 1 < stampSize) : g'.timestamp < stampSize := by
  have := hg.length_laterThan_le st (List.Sublist.refl g.insertionOrder)
  rw [h.timestamp]
  omega

end Compresses

end ExecutionGraph

end GenMC
