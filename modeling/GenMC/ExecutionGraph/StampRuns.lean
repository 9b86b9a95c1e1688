import GenMC.ExecutionGraph.ReaderRuns
import GenMC.ExecutionGraph.Stamps

/-!
# Runs that edit stamps

The mutators together with copies and the compression of stamps, and what holds of the stamps after
any run of them.
-/

namespace GenMC

namespace ExecutionGraph

/-- A call that may edit stamps. -/
inductive StampOp
  | mutate (m : Mutation)
  | getCopyUpTo (v : View)
  | compressStampsAfter (st : ℕ)

/-- The effect of a call; a copy takes the place of the original. -/
def StampOp.apply (g : ExecutionGraph) : StampOp → Option ExecutionGraph
  | .mutate m => m.apply g
  | .getCopyUpTo v => g.getCopyUpTo (.view v)
  | .compressStampsAfter st => some (g.compressStampsAfter st)

/-- The calls of the runs: the labels that are added are fresh and have no stamp yet, and stamps are
32-bit numbers. -/
def StampOp.Admissible (_ : ExecutionGraph) : StampOp → Prop
  | .mutate (.addLabelToGraph lab) => lab.Fresh ∧ lab.stamp = none
  | .mutate (.cutToStamp st) => st < stampSize
  | .compressStampsAfter st => st < stampSize
  | _ => True

/-- The calls that keep the stamps in order: the timestamp does not wrap around, a label only
replaces the last one of its thread, and the initializer stays. -/
def StampOp.KeepsOrder (g : ExecutionGraph) : StampOp → Prop
  | .mutate (.addLabelToGraph lab) =>
    g.timestamp + 1 < stampSize ∧ lab.pos.index + 1 ≥ g.getThreadSize lab.pos.thread
  | .mutate (.removeLast t) => g.lastPos t ≠ .init
  | .compressStampsAfter st => st + 1 < stampSize
  | _ => True

instance (g : ExecutionGraph) : DecidablePred (StampOp.Admissible g)
  | .mutate (.addLabelToGraph _) => inferInstanceAs (Decidable (_ ∧ _))
  | .mutate (.cutToStamp _) | .compressStampsAfter _ => inferInstanceAs (Decidable (_ < _))
  | .mutate .addNewThread | .mutate (.setRf ..) | .mutate (.addStoreToCOBefore ..)
  | .mutate (.addStoreToCOAfter ..) | .mutate (.moveStoreCOBefore ..)
  | .mutate (.moveStoreCOAfter ..) | .mutate (.removeLast _) | .getCopyUpTo _ => isTrue trivial

instance (g : ExecutionGraph) : DecidablePred (StampOp.KeepsOrder g)
  | .mutate (.addLabelToGraph _) => inferInstanceAs (Decidable (_ ∧ _))
  | .mutate (.removeLast _) => inferInstanceAs (Decidable (_ ≠ _))
  | .compressStampsAfter _ => inferInstanceAs (Decidable (_ < _))
  | .mutate .addNewThread | .mutate (.setRf ..) | .mutate (.addStoreToCOBefore ..)
  | .mutate (.addStoreToCOAfter ..) | .mutate (.moveStoreCOBefore ..)
  | .mutate (.moveStoreCOAfter ..) | .mutate (.cutToStamp _) | .getCopyUpTo _ => isTrue trivial

/-- What the runs keep: the stamp invariant, and what it rests on. -/
structure Stamped (g : ExecutionGraph) : Prop where
  /-- The labels are where they should be. -/
  positioned : Positioned g
  /-- Every label has a stamp. -/
  stamps : ∀ e lab, g.getEventLabel e = some lab → lab.stamp.isSome
  /-- The initializer came first. -/
  initStamp : g.stampOf .init = 0
  /-- The stamps are in order. -/
  order : StampInvariant g
  /-- The timestamp is a stamp. -/
  range : g.timestamp < stampSize

/-- The initial graph. -/
lemma stamped_initial : Stamped initial := by
  have hcontains : ∀ e, initial.containsPos e ↔ e = .init := by
    intro e
    unfold containsPos
    rw [getEventLabel_initial]
    split <;> simp [*]
  refine ⟨readerLists_initial.positioned, fun e lab hlab => ?_, rfl, ⟨fun e => ?_, ?_, ?_,
    fun e e' he he' _ hindex => ?_, fun e he => ?_⟩, by decide⟩
  · rw [getEventLabel_initial] at hlab
    split at hlab
    · rw [← Option.some.inj hlab]
      rfl
    · cases hlab
  · rw [hcontains]
    exact List.mem_singleton
  · exact List.nodup_singleton _
  · exact List.pairwise_singleton _ _
  · rw [(hcontains e).mp he, (hcontains e').mp he'] at hindex
    exact absurd hindex (lt_irrefl _)
  · rw [(hcontains e).mp he]
    decide

namespace Stamped

variable {g g' : ExecutionGraph}

/-- The position of the initializer. -/
lemma containsPos_init (hg : Stamped g) : g.containsPos .init := by
  obtain ⟨lab, hlab, -⟩ := isa_iff.mp ((hg.positioned.initOnly .init).mpr rfl)
  exact containsPos_iff.mpr ⟨lab, hlab⟩

/-- The stamp of every label of a relinked graph. -/
lemma relinks (hg : Stamped g) (h : Relinks g g') : Stamped g' := by
  refine ⟨hg.positioned.relinks h, fun e lab' hlab' => ?_, (h.stampOf _).trans hg.initStamp,
    hg.order.relinks h, ?_⟩
  · have hmap := h.map_eq (f := (·.stamp)) (fun _ => rfl) e
    rw [hlab', Option.map_some, eq_comm, Option.map_eq_some_iff] at hmap
    obtain ⟨lab, hlab, heq⟩ := hmap
    rw [← heq]
    exact hg.stamps e lab hlab
  · rw [h.timestamp]
    exact hg.range

/-- A new thread has no labels yet. -/
lemma addNewThread (hg : Stamped g) : Stamped g.addNewThread := by
  have hlabel := getEventLabel_addNewThread (g := g)
  refine ⟨⟨fun e lab hlab => ?_, fun e lab hlab => ?_, fun e => ?_⟩, fun e lab hlab => ?_, ?_,
    hg.order.congr (fun e => by rw [hlabel]) rfl rfl, hg.range⟩
  · exact hg.positioned.pos e lab (hlabel e ▸ hlab)
  · exact hg.positioned.starts e lab (hlabel e ▸ hlab)
  · unfold isa
    rw [hlabel]
    exact hg.positioned.initOnly e
  · exact hg.stamps e lab (hlabel e ▸ hlab)
  · unfold stampOf
    rw [hlabel]
    exact hg.initStamp

/-- Adding a label at the end of a thread. -/
lemma addLabelToGraph (hg : Stamped g) {lab : EventLabel} (hfresh : lab.Fresh)
    (hstamp : lab.stamp = none) (hroom : g.timestamp + 1 < stampSize)
    (hlast : g.getThreadSize lab.pos.thread ≤ lab.pos.index + 1)
    (h : g.addLabelToGraph lab = some g') : Stamped g' := by
  obtain ⟨hplaces, -, -, htime⟩ := addLabelToGraph_spec h
  have hassign : g.assignStamp lab = (lab.setStamp g.timestamp,
      { g with timestamp := g.timestamp + 1 }) := by
    unfold assignStamp nextStamp
    rw [hstamp, Nat.mod_eq_of_lt hroom]
  rw [hassign] at htime
  have hpos : lab.pos ≠ .init := by
    intro hinit
    have hfree := hplaces.free_eq.2.2
    rw [pos_stamped, hinit, (hg.positioned.initOnly .init).mpr rfl] at hfree
    cases hfree
  refine ⟨hplaces.positioned hg.positioned ?_ ?_, fun e lab' hlab' => ?_, ?_,
    hg.order.places hplaces ?_ htime fun e he hthread => ?_, ?_⟩
  · rw [body_stamped]
    exact hfresh.notInit
  · rw [body_stamped, pos_stamped]
    exact hfresh.starts
  · rw [hplaces.label] at hlab'
    split at hlab'
    · exact Option.some.inj hlab' ▸ stamp_stamped_isSome lab
    · exact hg.stamps e lab' hlab'
  · unfold stampOf
    rw [hplaces.label, pos_stamped, if_neg hpos.symm]
    exact hg.initStamp
  · unfold stamped
    rw [hassign]
    rfl
  · rw [pos_stamped] at hthread ⊢
    have := containsPos_iff_lt.mp he
    rw [hthread] at this
    omega
  · rw [htime]
    exact hroom

/-- Removing the last label of a thread. -/
lemma removeLast (hg : Stamped g) {t : ℕ} (hinit : g.lastPos t ≠ .init)
    (h : g.removeLast t = some g') : Stamped g' := by
  obtain ⟨lab, g₁, hlab, hpos, hrem⟩ := removeLast_spec h hg.positioned.pos
  rw [← hpos] at hinit
  obtain ⟨hrelinks, -⟩ := unlinkLast_eq hrem.unlink
  have hg₁ := hg.relinks hrelinks
  refine ⟨hrem.positioned hg.positioned hinit, fun e lab' hlab' => ?_, ?_,
    hg.order.removesLast hrem, hrem.timestamp ▸ hg.range⟩
  · rw [hrem.label] at hlab'
    split at hlab'
    · cases hlab'
    · exact hg₁.stamps e lab' hlab'
  · unfold stampOf
    rw [hrem.label, if_neg hinit.symm]
    exact hg₁.initStamp

/-- Cutting. -/
lemma cutToStamp (hg : Stamped g) {st : ℕ} (h : g.cutToStamp st = some g') : Stamped g' := by
  obtain ⟨keep, hcuts⟩ := cutToStamp_spec h
  have hlabel := hcuts.label_eq hg.positioned
  have hcases : ∀ e lab', g'.getEventLabel e = some lab' → ∃ lab, g.getEventLabel e = some lab ∧
      cutPointers (.view (g.getViewFromStamp st)) lab = lab' := by
    intro e lab' hlab'
    rw [hlabel] at hlab'
    split at hlab'
    · exact Option.map_eq_some_iff.mp hlab'
    · cases hlab'
  have hinit := hcuts.getEventLabel_init hg.positioned
  refine ⟨⟨fun e lab' hlab' => ?_, fun e lab' hlab' hindex => ?_, fun e => ?_⟩,
    fun e lab' hlab' => ?_, ?_, hg.order.cuts hcuts hg.positioned, hcuts.timestamp ▸ hg.range⟩
  · obtain ⟨lab, hlab, rfl⟩ := hcases e lab' hlab'
    exact hg.positioned.pos e lab hlab
  · obtain ⟨lab, hlab, rfl⟩ := hcases e lab' hlab'
    exact (LabelBody.isThreadStart_mapFields _ _).trans (hg.positioned.starts e lab hlab hindex)
  · constructor
    · intro hisa
      obtain ⟨lab', hlab', hbody⟩ := isa_iff.mp hisa
      obtain ⟨lab, hlab, rfl⟩ := hcases e lab' hlab'
      refine (hg.positioned.initOnly e).mp (isa_iff.mpr ⟨lab, hlab, ?_⟩)
      exact (LabelBody.isInit_mapFields _ _).symm.trans hbody
    · rintro rfl
      unfold isa
      rw [hinit]
      exact (hg.positioned.initOnly _).mpr rfl
  · obtain ⟨lab, hlab, rfl⟩ := hcases e lab' hlab'
    exact hg.stamps e lab hlab
  · unfold stampOf
    rw [hinit]
    exact hg.initStamp

/-- Copying up to a view. -/
lemma getCopyUpTo (hg : Stamped g) {v : View} (h : g.getCopyUpTo (.view v) = some g') :
    Stamped g' := by
  have hinit := hg.containsPos_init
  obtain ⟨lab, hlab⟩ := containsPos_iff.mp hinit
  obtain ⟨other, hother, hrelinks⟩ := copyGraphUpTo_relinks hg.positioned.pos hg.stamps
    (thread_lt_of_getEventLabel hlab) h
  have htime : other.timestamp = g.timestamp :=
    hother.timestamp fun e he => decide_eq_true (mem_copyPositions.mp he).2.1
  have hpositioned := hother.positioned hg.positioned
  refine Stamped.relinks ?_ hrelinks
  refine ⟨⟨hpositioned.pos, hpositioned.starts, hpositioned.initOnly⟩,
    fun e lab hlab => hother.stamp_isSome hg.stamps hlab, ?_, hg.order.restrict v.contains
      (hother.map_getStamp (fun e he => decide_eq_true (inRange_iff.mp he).2) hinit hg.initStamp) ?_
      htime, htime ▸ hg.range⟩
  · exact stampOf_of_getEventLabel (g := other) hother.init
  · exact List.filter_congr fun e _ => Bool.or_self _

/-- Compressing stamps. -/
lemma compressStampsAfter (hg : Stamped g) {st : ℕ} (hst : st + 1 < stampSize) :
    Stamped (g.compressStampsAfter st) := by
  have h := hg.order.compressStampsAfter hg.stamps hg.range hst
  refine ⟨h.positioned hg.positioned, fun e lab' hlab' => ?_, ?_, h.stampInvariant hg.order,
    h.timestamp_lt hg.order hg.range hst⟩
  · obtain ⟨lab, -, rfl⟩ := h.getEventLabel hlab'
    rfl
  · rw [h.kept _ (by rw [hg.initStamp]; exact Nat.zero_le _)]
    exact hg.initStamp

end Stamped

/-- One call keeps the stamps in order. -/
lemma StampOp.stamped {g g' : ExecutionGraph} {op : StampOp} (hg : Stamped g)
    (hop : op.Admissible g ∧ op.KeepsOrder g) (h : op.apply g = some g') : Stamped g' := by
  cases op with
  | mutate m =>
    cases m with
    | addLabelToGraph lab => exact hg.addLabelToGraph hop.1.1 hop.1.2 hop.2.1 hop.2.2 h
    | addNewThread => exact Option.some.inj h ▸ hg.addNewThread
    | setRf r rf => exact hg.relinks (setRf_relinks h)
    | addStoreToCOBefore w succ => exact hg.relinks (addStoreToCOBefore_turnsCO h).relinks
    | addStoreToCOAfter w pred => exact hg.relinks (addStoreToCOAfter_turnsCO h).relinks
    | moveStoreCOBefore w succ => exact hg.relinks (moveStoreCOBefore_turnsCO h).relinks
    | moveStoreCOAfter w pred => exact hg.relinks (moveStoreCOAfter_turnsCO h).relinks
    | removeLast t => exact hg.removeLast hop.2 h
    | cutToStamp st => exact hg.cutToStamp h
  | getCopyUpTo v => exact hg.getCopyUpTo h
  | compressStampsAfter st => exact Option.some.inj h ▸ hg.compressStampsAfter hop.2

/-- **Stamps.**  In every run from the initial graph in which the timestamp does not wrap around, no
label replaces an inner one of its thread and the initializer stays, the stamps are in order, and
`compressStampsAfter` makes the later ones consecutive. -/
theorem run_stampInvariant {ops : List StampOp} {g : ExecutionGraph}
    (hops : PartialRun.Meets StampOp.apply (fun g op => op.Admissible g ∧ op.KeepsOrder g) initial
      ops) (hrun : PartialRun.exec StampOp.apply initial ops = some g) :
    StampInvariant g ∧ ∀ st, st + 1 < stampSize → Compresses g st (g.compressStampsAfter st) := by
  have hg := PartialRun.exec_invariant (fun _ _ _ hg hop h => StampOp.stamped hg hop h)
    stamped_initial hops hrun
  exact ⟨hg.order, fun st hst => hg.order.compressStampsAfter hg.stamps hg.range hst⟩

/-- A begin label of a thread. -/
def beginLabel (t : ℕ) : EventLabel := { pos := ⟨t, 0⟩, body := .threadStart .init }

/-- A fence. -/
def fenceLabel (pos : Event) : EventLabel := { pos := pos, body := .plain .fence }

/-- Two threads of which the second one loses a fence, a compression that moves the stamps of the
rest, and a copy. -/
def stampRun : List StampOp :=
  [.mutate .addNewThread,
    .mutate (.addLabelToGraph (beginLabel 1)),
    .mutate (.addLabelToGraph (fenceLabel ⟨1, 1⟩)),
    .mutate (.removeLast 1),
    .mutate (.addLabelToGraph (fenceLabel ⟨0, 1⟩)),
    .compressStampsAfter 1,
    .mutate (.cutToStamp 2),
    .getCopyUpTo (View.empty.setMax ⟨0, 1⟩)]

/-- The stamps at the end of the run. -/
theorem stampRun_stampInvariant :
    ∃ g, PartialRun.exec StampOp.apply initial stampRun = some g ∧
      (StampInvariant g ∧
        ∀ st, st + 1 < stampSize → Compresses g st (g.compressStampsAfter st)) := by
  obtain ⟨g, hg⟩ : ∃ g, PartialRun.exec StampOp.apply initial stampRun = some g :=
    Option.isSome_iff_exists.mp (by decide)
  exact ⟨g, hg, run_stampInvariant (by decide) hg⟩

/-- The timestamp wraps around. -/
def wrappedTimestamp : List StampOp := [.compressStampsAfter (stampSize - 1)]

/-- The initializer is replaced by a begin label, and is back in the copy, behind another label in
the insertion order. -/
def replacedInit : List StampOp :=
  [.mutate .addNewThread,
    .mutate (.addLabelToGraph (beginLabel 1)),
    .mutate (.removeLast 0),
    .mutate (.addLabelToGraph (beginLabel 0)),
    .getCopyUpTo .empty]

/-- An empty label is replaced after another label has been added behind it. -/
def replacedHole : List StampOp :=
  [.mutate (.addLabelToGraph (EventLabel.createHoleLabel ⟨0, 1⟩)),
    .mutate (.addLabelToGraph (fenceLabel ⟨0, 2⟩)),
    .mutate (.addLabelToGraph (fenceLabel ⟨0, 1⟩))]

/-- A run that ends in a graph whose stamps are not in order. -/
def BreaksOrder (ops : List StampOp) : Prop :=
  PartialRun.Meets StampOp.apply StampOp.Admissible initial ops ∧
    ∃ g, PartialRun.exec StampOp.apply initial ops = some g ∧ ¬ StampInvariant g

/-- Each of the conditions on the runs is needed. -/
theorem breaksOrder : BreaksOrder wrappedTimestamp ∧ BreaksOrder replacedInit ∧
    BreaksOrder replacedHole := by
  refine ⟨⟨by decide, ?_⟩, ⟨by decide, ?_⟩, ⟨by decide, ?_⟩⟩
  · refine ⟨_, rfl, fun h => ?_⟩
    have := h.bounded .init (by decide)
    exact absurd this (by decide)
  · refine ⟨_, rfl, fun h => ?_⟩
    have := h.sorted
    exact absurd this (by decide)
  · refine ⟨_, rfl, fun h => ?_⟩
    have := h.threads ⟨0, 1⟩ ⟨0, 2⟩ (by decide) (by decide) rfl (by decide)
    exact absurd this (by decide)

end ExecutionGraph

end GenMC
