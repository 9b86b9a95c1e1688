import GenMC.ADT.DepView
import GenMC.ExecutionGraph.DepExecutionGraph
import GenMC.ExecutionGraph.StampRuns
import GenMC.Verification.ChoiceMap

/-!
# The copy of a revisit and its choices

A backward revisit copies the part of the graph that a view contains and renumbers the labels
behind the revisited read.  The choice map of the copy is built by looking up every label of the
original in both graphs: the choices are found under the old stamp and stored under the new one.

In a copy without holes the new stamps are distinct, so that the choices of different labels do not
mix, and `find?_createChoiceMapForCopy` says what the new map consists of.
-/

namespace GenMC

/-- `BackwardRevisit`: `rev` revisits `pos`; a `BackwardRevisitHELPER` also has an intermediate
write. -/
structure BackwardRevisit where
  /-- The revisited read. -/
  pos : Event
  /-- The write that revisits it. -/
  rev : Event
  /-- The intermediate write. -/
  mid : Option Event := none

namespace BackwardRevisit

/-- The part of `copyGraph` that adjusts the view: the intermediate write and the read before it are
left out.  The maximum of a plain view is at least 2 where there are such events. -/
def adjustView (br : BackwardRevisit) (v : VectorClock) : Option VectorClock :=
  match br.mid, v with
  | none, v => some v
  | some mid, .depView v =>
    ((v.addHole mid).bind fun v => v.addHole ⟨mid.thread, mid.index - 1⟩).map .depView
  | some mid, .view v => some (.view (v.setMax ⟨mid.thread, v.getMax mid.thread - 2⟩))

end BackwardRevisit

namespace ExecutionGraph

variable {g g' og : ExecutionGraph} {v pv : VectorClock}

/-- The virtual `getCopyUpTo`, of a plain graph or of one that tracks dependencies. -/
def getCopyUpToOf (tracksDeps : Bool) (g : ExecutionGraph) (v : VectorClock) :
    Option ExecutionGraph :=
  if tracksDeps then DepExecutionGraph.getCopyUpTo g v else g.getCopyUpTo v

/-- The last loop of `copyGraph`: the prefix of the write will not be revisitable. -/
def fixPrefix (pre : VectorClock) (og : ExecutionGraph) : ExecutionGraph :=
  og.insertionOrder.foldl
    (fun og e =>
      if pre.contains e then og.updateLabel e (EventLabel.setRevisitStatus false) else og) og

/-- `copyGraph`, with the prefix view of the revisiting write. -/
def copyGraph (tracksDeps : Bool) (getPrefixView : Event → VectorClock) (g : ExecutionGraph)
    (br : BackwardRevisit) (v : VectorClock) : Option ExecutionGraph := do
  let v ← br.adjustView v
  let og ← getCopyUpToOf tracksDeps g v
  if g.containsPos br.rev ∧ og.isa LabelBody.isRead br.pos then
    return fixPrefix (getPrefixView br.rev) (og.compressStampsAfter (og.stampOf br.pos))
  else none

/-- The choices of a label that go with it into a copy: those of stores in the copy, if the label
itself is there. -/
def keptChoices (g og : ExecutionGraph) (choices : ChoiceMap) (e : Event) : Finset (Event × ℤ) :=
  if og.containsPos e then (choices.choicesAt (g.stampOf e)).filter fun p => og.containsPos p.1
  else ∅

/-- `createChoiceMapForCopy`. -/
def createChoiceMapForCopy (g og : ExecutionGraph) (choices : ChoiceMap) : ChoiceMap :=
  g.insertionOrder.foldl
    (fun result e => result.insertAll (og.stampOf e) (g.keptChoices og choices e)) .empty

/-! ## Copies without holes -/

/-- What the copies need of the stamps: every label has one, and the labels of the insertion order
have distinct ones, below the next one. -/
structure StampsDistinct (g : ExecutionGraph) : Prop where
  /-- The labels are where they should be. -/
  pos : ∀ e lab, g.getEventLabel e = some lab → lab.pos = e
  /-- Every label has a stamp. -/
  stamps : ∀ e lab, g.getEventLabel e = some lab → lab.stamp.isSome
  /-- There is an initializer. -/
  init : g.containsPos .init
  /-- The initializer came first. -/
  initStamp : g.stampOf .init = 0
  /-- The insertion order has the labels of the graph. -/
  members : ∀ e, e ∈ g.insertionOrder ↔ g.containsPos e
  /-- The stamps of the listed labels are distinct. -/
  nodup : (g.insertionOrder.map g.stampOf).Nodup
  /-- They are below the next one. -/
  bounded : ∀ e ∈ g.insertionOrder, g.stampOf e < g.timestamp
  /-- The timestamp is a stamp. -/
  range : g.timestamp < stampSize

/-- The stamps are distinct in every run in which they are in order. -/
lemma Stamped.stampsDistinct (hg : Stamped g) : StampsDistinct g := by
  refine ⟨hg.positioned.pos, hg.stamps, hg.containsPos_init, hg.initStamp,
    hg.order.members, ?_, fun e he => ?_, hg.range⟩
  · rw [List.Nodup, List.pairwise_map]
    exact hg.order.sorted.imp fun h => ne_of_lt h
  · exact hg.order.bounded e ((hg.order.members e).mp he)

/-- All positions up to the maxima of a clock are contained. -/
def NoHoles (g : ExecutionGraph) (v : VectorClock) : Prop := ∀ e, g.inRange v e → v.contains e

/-- Plain views have no holes. -/
lemma noHoles_view (g : ExecutionGraph) (w : View) : NoHoles g (.view w) :=
  fun _ he => decide_eq_true (inRange_iff.mp he).2

namespace StampsDistinct

/-- The labels and stamps of a copy without holes. -/
lemma copy (hg : StampsDistinct g) (hv : NoHoles g v) (h : g.copyGraphUpTo v (new pv) = some og) :
    StampsDistinct og ∧ ∀ e, og.containsPos e = (v.contains e && g.containsPos e) := by
  obtain ⟨lab, hlab⟩ := containsPos_iff.mp hg.init
  obtain ⟨other, hother, hrelinks⟩ := copyGraphUpTo_relinks hg.pos hg.stamps
    (thread_lt_of_getEventLabel hlab) h
  have hmap (e : Event) : og.containsPos e = (v.contains e && g.containsPos e) ∧
      (v.contains e → og.stampOf e = g.stampOf e) := containsPos_stampOf_of_map
    ((hrelinks.map_eq (fun _ => rfl) e).trans (hother.map_getStamp hv hg.init hg.initStamp e))
  have horder : og.insertionOrder = g.insertionOrder.filter v.contains := by
    rw [hrelinks.order]
    refine List.filter_congr fun e he => ?_
    obtain ⟨lab, hlab⟩ := containsPos_iff.mp ((hg.members e).mp he)
    rw [Bool.eq_iff_iff, Bool.or_eq_true, decide_eq_true_iff, or_iff_left_iff_imp]
    exact fun hindex => hv e (inRange_iff.mpr ⟨thread_lt_of_getEventLabel hlab, hindex⟩)
  have htime : og.timestamp = g.timestamp :=
    hrelinks.timestamp.trans <| hother.timestamp fun e he =>
      hv e (CopyState.mem_copyPositions_iff.mp he).1
  have hmem {e : Event} (he : e ∈ og.insertionOrder) : e ∈ g.insertionOrder ∧ v.contains e := by
    rw [horder] at he
    exact List.mem_filter.mp he
  have hsame {e : Event} {lab' : EventLabel} (hlab' : og.getEventLabel e = some lab') :
      ∃ lab, other.getEventLabel e = some lab ∧ (lab.pos, lab.stamp) = (lab'.pos, lab'.stamp) := by
    have heq := hrelinks.map_eq (f := fun lab => (lab.pos, lab.stamp)) (fun _ => rfl) e
    rw [hlab', Option.map_some, eq_comm, Option.map_eq_some_iff] at heq
    exact heq
  refine ⟨⟨fun e lab' hlab' => ?_, fun e lab' hlab' => ?_, ?_, ?_, fun e => ?_, ?_,
    fun e he => ?_, htime ▸ hg.range⟩, fun e => (hmap e).1⟩
  · obtain ⟨lab, hlab, heq⟩ := hsame hlab'
    exact (congrArg Prod.fst heq).symm.trans (hother.pos hg.pos hlab)
  · obtain ⟨lab, hlab, heq⟩ := hsame hlab'
    have hstamp : lab.stamp = lab'.stamp := congrArg Prod.snd heq
    rw [← hstamp]
    exact hother.stamp_isSome hg.stamps hlab
  · rw [(hmap _).1, v.contains_init, hg.init]
    rfl
  · rw [(hmap _).2 v.contains_init, hg.initStamp]
  · rw [horder, List.mem_filter, hg.members, (hmap e).1, Bool.and_eq_true, and_comm]
  · rw [List.map_congr_left fun e he => (hmap e).2 (hmem he).2, horder]
    exact hg.nodup.sublist (List.filter_sublist.map _)
  · rw [(hmap e).2 (hmem he).2, htime]
    exact hg.bounded e (hmem he).1

/-- **Compressing keeps stamps distinct.** -/
lemma compressStampsAfter (hg : StampsDistinct g) {st : ℕ} (hst : st + 1 < stampSize) :
    (∀ e, (g.compressStampsAfter st).containsPos e = g.containsPos e) ∧
      ∀ e ∈ g.insertionOrder, ∀ e' ∈ g.insertionOrder,
        (g.compressStampsAfter st).stampOf e = (g.compressStampsAfter st).stampOf e' → e = e' := by
  have hnodup : g.insertionOrder.Nodup := hg.nodup.of_map _
  have hroom : (g.laterThan st g.insertionOrder).length ≤ g.timestamp - (st + 1) := by
    refine length_le_of_nodup_map (hg.nodup.sublist (List.filter_sublist.map _)) (fun e he => ?_)
      fun e he => hg.bounded e (List.mem_filter.mp he).1
    exact of_decide_eq_true (List.mem_filter.mp he).2
  have hrange := hg.range
  have h := Compressing.loop hnodup hg.stamps hst (by omega)
  have hsmall {e : Event} (he : e ∈ g.insertionOrder)
      (hnot : e ∉ g.laterThan st g.insertionOrder) : g.stampOf e < st + 1 := by
    by_contra hlt
    exact hnot (List.mem_filter.mpr ⟨he, decide_eq_true (by omega)⟩)
  refine ⟨fun e => ?_, fun e he e' he' heq => ?_⟩
  · unfold containsPos
    rw [h.label, Option.isSome_map]
  · rw [h.stampOf ((hg.members e).mp he), h.stampOf ((hg.members e').mp he')] at heq
    exact renumber_inj (hsmall he) (hsmall he')
      (fun hold => List.inj_on_of_nodup_map hg.nodup he he' hold) heq

end StampsDistinct

/-- What holds before the last loop and is kept when a label is marked holds after it. -/
lemma fixPrefix_induction {P : ExecutionGraph → Prop} (pre : VectorClock) (h : P og)
    (hmark : ∀ s e, P s → P (s.updateLabel e (EventLabel.setRevisitStatus false))) :
    P (fixPrefix pre og) := by
  unfold fixPrefix
  refine List.foldlRecOn og.insertionOrder _ h fun s hs e _ => ?_
  split
  · exact hmark s e hs
  · exact hs

/-- The last loop keeps positions and stamps. -/
lemma map_getStamp_fixPrefix (pre : VectorClock) (og : ExecutionGraph) (e : Event) :
    ((fixPrefix pre og).getEventLabel e).map (·.getStamp) =
      (og.getEventLabel e).map (·.getStamp) :=
  fixPrefix_induction
    (P := fun s => (s.getEventLabel e).map (·.getStamp) = (og.getEventLabel e).map (·.getStamp))
    pre rfl fun _ e' hs => (map_getEventLabel_updateLabel
      (m := EventLabel.setRevisitStatus false) (fun _ => rfl) e' e).trans hs

/-- What `copyGraph` does to positions and stamps: the copy has the labels of the adjusted view, and
different labels of the copy have different stamps. -/
lemma copyGraph_spec (hg : StampsDistinct g) {tracksDeps : Bool}
    {getPrefixView : Event → VectorClock} {br : BackwardRevisit} {v v' : VectorClock}
    (hv : br.adjustView v = some v') (hholes : NoHoles g v')
    (h : copyGraph tracksDeps getPrefixView g br v = some og) :
    (∀ e, og.containsPos e = (v'.contains e && g.containsPos e)) ∧
      ∀ e e', og.containsPos e → og.containsPos e' → og.stampOf e = og.stampOf e' → e = e' := by
  unfold copyGraph at h
  rw [hv, Option.bind_eq_bind, Option.bind_some] at h
  obtain ⟨copy, hcopy, h⟩ := Option.bind_eq_some_iff.mp h
  split at h
  next hread =>
    obtain rfl := Option.some.inj h
    obtain ⟨pv, hcopy⟩ : ∃ pv, g.copyGraphUpTo v' (new pv) = some copy := by
      unfold getCopyUpToOf at hcopy
      split at hcopy
      · exact ⟨_, hcopy⟩
      · exact ⟨_, hcopy⟩
    obtain ⟨hdistinct, hcontains⟩ := hg.copy hholes hcopy
    have hst : copy.stampOf br.pos + 1 < stampSize := by
      obtain ⟨lab, hlab, -⟩ := isa_iff.mp hread.2
      have hlt := hdistinct.bounded br.pos
        ((hdistinct.members _).mpr (containsPos_iff.mpr ⟨lab, hlab⟩))
      have hrange := hdistinct.range
      omega
    obtain ⟨hcompressed, hinj⟩ := hdistinct.compressStampsAfter hst
    have hmap (e : Event) := containsPos_stampOf_of_map (p := fun _ => true) (e := e)
      ((map_getStamp_fixPrefix (getPrefixView br.rev)
        (copy.compressStampsAfter (copy.stampOf br.pos)) e).trans (if_pos rfl).symm)
    have hpos (e : Event) : (fixPrefix (getPrefixView br.rev)
        (copy.compressStampsAfter (copy.stampOf br.pos))).containsPos e =
          (v'.contains e && g.containsPos e) := by
      rw [(hmap e).1, hcompressed, hcontains]
      rfl
    have hlisted {e : Event} (he : (fixPrefix (getPrefixView br.rev)
        (copy.compressStampsAfter (copy.stampOf br.pos))).containsPos e) :
        e ∈ copy.insertionOrder := by
      rw [hdistinct.members, hcontains, ← hpos]
      exact he
    refine ⟨hpos, fun e e' he he' heq => ?_⟩
    rw [(hmap e).2 rfl, (hmap e').2 rfl] at heq
    exact hinj e (hlisted he) e' (hlisted he') heq
  next => cases h

/-! ## The choices of the copy -/

/-- The choices that go into the copy, if there are any. -/
lemma keptChoices_eq_iff {choices : ChoiceMap} {e : Event} {cs' : Finset (Event × ℤ)} :
    g.keptChoices og choices e = cs' ∧ cs'.Nonempty ↔
      ∃ cs, og.containsPos e ∧ choices.find? (g.stampOf e) = some cs ∧
        cs' = cs.filter (fun p => og.containsPos p.1) ∧ cs'.Nonempty := by
  constructor
  · rintro ⟨rfl, hne⟩
    unfold keptChoices ChoiceMap.choicesAt at hne ⊢
    by_cases he : og.containsPos e
    · rw [if_pos he] at hne ⊢
      cases hfind : choices.find? (g.stampOf e) with
      | none =>
        rw [hfind] at hne
        exact absurd hne Finset.not_nonempty_empty
      | some cs => exact ⟨cs, he, rfl, rfl, hfind ▸ hne⟩
    · rw [if_neg he] at hne
      exact absurd hne Finset.not_nonempty_empty
  · rintro ⟨cs, he, hfind, rfl, hne⟩
    unfold keptChoices ChoiceMap.choicesAt
    rw [if_pos he, hfind]
    exact ⟨rfl, hne⟩

/-- **The choice map of a copy.**  If the adjusted view has no holes, the copy has the labels of the
view, with different stamps, and its choice map has an entry for exactly those of them that have an
entry under their old stamp with a choice whose store is also in the copy; the entry consists of
these choices. -/
theorem find?_createChoiceMapForCopy (hg : StampsDistinct g) (tracksDeps : Bool)
    (getPrefixView : Event → VectorClock) (br : BackwardRevisit) (v v' : VectorClock)
    (hv : br.adjustView v = some v') (hholes : NoHoles g v')
    (hcopy : copyGraph tracksDeps getPrefixView g br v = some og) (choices : ChoiceMap) :
    (∀ e, og.containsPos e ↔ v'.contains e ∧ g.containsPos e) ∧
    (∀ e e', og.containsPos e → og.containsPos e' → og.stampOf e = og.stampOf e' → e = e') ∧
    ∀ k cs', (g.createChoiceMapForCopy og choices).find? k = some cs' ↔
      ∃ e cs, og.containsPos e ∧ og.stampOf e = k ∧ choices.find? (g.stampOf e) = some cs ∧
        cs' = cs.filter (fun p => og.containsPos p.1) ∧ cs'.Nonempty := by
  obtain ⟨hpos, hinj⟩ := copyGraph_spec hg hv hholes hcopy
  refine ⟨fun e => ?_, hinj, fun k cs' => ?_⟩
  · rw [hpos, Bool.and_eq_true]
  · unfold createChoiceMapForCopy
    have hcontained {e : Event} (h : (g.keptChoices og choices e).Nonempty) : og.containsPos e := by
      obtain ⟨-, he, -⟩ := keptChoices_eq_iff.mp ⟨rfl, h⟩
      exact he
    rw [SortedMap.find?_foldl_insertAll fun e _ e' _ hne hne' heq =>
      congrArg _ (hinj e e' (hcontained hne) (hcontained hne') heq)]
    constructor
    · rintro ⟨e, -, hstamp, hrest⟩
      obtain ⟨cs, he, hrest⟩ := keptChoices_eq_iff.mp hrest
      exact ⟨e, cs, he, hstamp, hrest⟩
    · rintro ⟨e, cs, he, hstamp, hrest⟩
      refine ⟨e, ?_, hstamp, keptChoices_eq_iff.mpr ⟨cs, he, hrest⟩⟩
      rw [hpos, Bool.and_eq_true] at he
      exact (hg.members e).mpr he.2

/-- Two writes and a read from the initializer, which is older than both. -/
def revisitOps : List StampOp :=
  [.mutate .addNewThread,
    .mutate .addNewThread,
    .mutate (.addLabelToGraph (beginLabel 1)),
    .mutate (.addLabelToGraph
      { pos := ⟨1, 1⟩, body := .read .read { addr := ⟨8⟩ } none false }),
    .mutate (.setRf ⟨1, 1⟩ (some .init)),
    .mutate (.addLabelToGraph (beginLabel 2)),
    .mutate (.addLabelToGraph { pos := ⟨2, 1⟩, body := .write .write { addr := ⟨8⟩ } [] }),
    .mutate (.addStoreToCOAfter ⟨2, 1⟩ .init),
    .mutate (.addLabelToGraph { pos := ⟨0, 1⟩, body := .write .write { addr := ⟨8⟩ } [] }),
    .mutate (.addStoreToCOAfter ⟨0, 1⟩ ⟨2, 1⟩)]

/-- The graph with the two writes. -/
def revisitGraph : ExecutionGraph := (PartialRun.exec StampOp.apply initial revisitOps).getD initial

/-- The stamps of the graph with the two writes. -/
lemma stampsDistinct_revisitGraph : StampsDistinct revisitGraph := by
  obtain ⟨g, hg⟩ : ∃ g, PartialRun.exec StampOp.apply initial revisitOps = some g :=
    Option.isSome_iff_exists.mp (by decide +kernel)
  have hstamped : Stamped g := PartialRun.exec_invariant
    (fun _ _ _ hg hop h => StampOp.stamped hg hop h) stamped_initial (by decide +kernel) hg
  have heq : revisitGraph = g := by
    unfold revisitGraph
    rw [hg, Option.getD_some]
  exact heq ▸ hstamped.stampsDistinct

/-- The second write revisits the read, without the first one. -/
def revisitView : View := (View.empty.setMax ⟨0, 1⟩).setMax ⟨1, 1⟩

/-- The copy of the revisit. -/
def revisitCopy : Option ExecutionGraph :=
  copyGraph false (fun _ => .view (View.empty.setMax ⟨0, 1⟩)) revisitGraph
    { pos := ⟨1, 1⟩, rev := ⟨0, 1⟩ } (.view revisitView)

/-- The choices of the read and of both writes. -/
def revisitChoices : ChoiceMap :=
  ((SortedMap.empty.upsert 2 {(.init, -1), (⟨2, 1⟩, -1), (⟨0, 1⟩, -1)} id).upsert 4
    {(.init, -1)} id).upsert 5 {(.init, -1), (⟨2, 1⟩, -1)} id

/-- The copy of the revisit and its choices. -/
theorem find?_createChoiceMapForCopy_revisit : ∃ og, revisitCopy = some og ∧
    ((∀ e, og.containsPos e ↔ revisitView.contains e ∧ revisitGraph.containsPos e) ∧
    (∀ e e', og.containsPos e → og.containsPos e' → og.stampOf e = og.stampOf e' → e = e') ∧
    ∀ k cs', (revisitGraph.createChoiceMapForCopy og revisitChoices).find? k = some cs' ↔
      ∃ e cs, og.containsPos e ∧ og.stampOf e = k ∧
        revisitChoices.find? (revisitGraph.stampOf e) = some cs ∧
        cs' = cs.filter (fun p => og.containsPos p.1) ∧ cs'.Nonempty) := by
  obtain ⟨og, hog⟩ : ∃ og, revisitCopy = some og :=
    Option.isSome_iff_exists.mp (by decide +kernel)
  exact ⟨og, hog, find?_createChoiceMapForCopy stampsDistinct_revisitGraph _ _ _ _
    (.view revisitView) rfl (noHoles_view _ _) hog revisitChoices⟩

/-- Choices of which the read loses all in the copy. -/
def lostChoices : ChoiceMap :=
  (SortedMap.empty.upsert 2 {(⟨2, 1⟩, -1)} id).upsert 5 {(.init, -1)} id

/-- The read is in the copy and had an entry, but has none any more; the write, which is no read,
has one. -/
theorem createChoiceMapForCopy_keys : ∃ og, revisitCopy = some og ∧
    og.isa LabelBody.isRead ⟨1, 1⟩ ∧ (lostChoices.find? (revisitGraph.stampOf ⟨1, 1⟩)).isSome ∧
    (revisitGraph.createChoiceMapForCopy og lostChoices).find? (og.stampOf ⟨1, 1⟩) = none ∧
    ((revisitGraph.createChoiceMapForCopy og lostChoices).find? (og.stampOf ⟨0, 1⟩)).isSome ∧
    ∀ r ∈ og.insertionOrder, og.isa LabelBody.isRead r → og.stampOf r ≠ og.stampOf ⟨0, 1⟩ := by
  obtain ⟨og, hog, h⟩ := Option.any_eq_true _ _ |>.mp (show revisitCopy.any (fun og => decide
    (og.isa LabelBody.isRead ⟨1, 1⟩ ∧ (lostChoices.find? (revisitGraph.stampOf ⟨1, 1⟩)).isSome ∧
    (revisitGraph.createChoiceMapForCopy og lostChoices).find? (og.stampOf ⟨1, 1⟩) = none ∧
    ((revisitGraph.createChoiceMapForCopy og lostChoices).find? (og.stampOf ⟨0, 1⟩)).isSome ∧
    ∀ r ∈ og.insertionOrder, og.isa LabelBody.isRead r → og.stampOf r ≠ og.stampOf ⟨0, 1⟩)) = true
    from by decide +kernel)
  exact ⟨og, hog, of_decide_eq_true h⟩

end ExecutionGraph

end GenMC
