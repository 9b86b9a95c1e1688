import GenMC.ExecutionGraph.GraphIterators
import GenMC.ExecutionGraph.WellFormed
import GenMC.ExecutionGraph.ReaderRuns

/-!
# Pending read-modify-writes

When the write of a read-modify-write is added, another one that succeeds may already read from the
same event.  `getPendingRMW` finds the conflicting read with the least stamp in the reader list of
that event, which is a list of the write, or one of the initializer for each location;
`violatesAtomicity` only asks whether there is one.
-/

namespace GenMC

/-! ## The code -/

/-- `CasReadLabel::classofKind`. -/
def ReadKind.isCas : ReadKind → Bool
  | casRead | lockCasRead | trylockCasRead | helpedCasRead | confirmingCasRead => true
  | _ => false

/-- `FaiReadLabel::classofKind`. -/
def ReadKind.isFai : ReadKind → Bool
  | faiRead | noRetFaiRead | bIncFaiRead => true
  | _ => false

/-- `CasWriteLabel::classofKind`. -/
def WriteKind.isCas : WriteKind → Bool
  | casWrite | lockCasWrite | trylockCasWrite | helpedCasWrite | confirmingCasWrite => true
  | _ => false

/-- `FaiWriteLabel::classofKind`. -/
def WriteKind.isFai : WriteKind → Bool
  | faiWrite | noRetFaiWrite | bIncFaiWrite => true
  | _ => false

namespace LabelBody

/-- Whether the label is a read of a class that read-modify-writes use. -/
def isRMWRead : LabelBody → Bool
  | read k _ _ _ => k.isCas || k.isFai
  | _ => false

/-- `WriteLabel::isRMW`. -/
def isRMWWrite : LabelBody → Bool
  | write k _ _ => k.isCas || k.isFai
  | _ => false

/-- The write of a read-modify-write is a write. -/
lemma isWrite_of_isRMWWrite {b : LabelBody} (h : b.isRMWWrite = true) : b.isWrite = true := by
  cases b <;> first | rfl | cases h

/-- A read of a read-modify-write is a read. -/
lemma isRead_of_isRMWRead {b : LabelBody} (h : b.isRMWRead = true) : b.isRead = true := by
  cases b <;> first | rfl | cases h

end LabelBody

/-- `Event::prev`. -/
def Event.prev (e : Event) : Event := ⟨e.thread, e.index - 1⟩

namespace ExecutionGraph

variable (g : ExecutionGraph)

/-- `ExecutionGraph::getPreviousLabel`. -/
def getPreviousLabel (lab : EventLabel) : Option EventLabel :=
  if lab.pos.index = 0 then none else g.getEventLabel lab.pos.prev

/-- `ReadLabel::isRMW`. -/
def readIsRMW (rLab : EventLabel) : Bool :=
  rLab.body.isRMWRead &&
    (g.getNextLabel rLab.pos).any fun nLab =>
      nLab.body.isRMWWrite && decide (nLab.body.addr = rLab.body.addr)

/-- Whether there is a read that is part of a read-modify-write at a position. -/
def isRMW (r : Event) : Bool := (g.getEventLabel r).any g.readIsRMW

/-- `ExecutionGraph::getMinimumStampEvent`. -/
def getMinimumStampEvent (es : List Event) : Event := (es.argmin g.stampOf).getD .init

/-- `ExecutionGraph::getPendingRMW`. -/
def getPendingRMW (sLab : EventLabel) : Option Event :=
  if sLab.body.isRMWWrite then do
    let pLab ← g.getPreviousLabel sLab
    let rf ← pLab.body.rf
    if g.isa LabelBody.isWrite rf then
      -- Fastpath: non-init rf
      return g.getMinimumStampEvent
        ((g.readersOf rf).filter fun r => g.isRMW r && decide (r ≠ pLab.pos))
    else
      -- Slowpath: scan init rfs
      let a ← pLab.body.addr
      let rs ← g.initRfs.find? a
      return g.getMinimumStampEvent
        (rs.filter fun r =>
          decide (g.rfOf r = some rf) && decide (r ≠ pLab.pos) && g.isRMW r)
  else some .init

/-- `ExecutionGraph::violatesAtomicity`. -/
def violatesAtomicity (sLab : EventLabel) : Option Bool :=
  if sLab.body.isRMWWrite then
    (g.getPendingRMW sLab).map fun pending => !decide (pending = .init)
  else some false

/-! ## What it should compute -/

variable {g}

/-- The read-modify-writes of a graph are whole: reads have the address of the write that they read
from, and the write of a read-modify-write comes right after its read. -/
structure RMWFormed (g : ExecutionGraph) : Prop where
  /-- Reads have the address of the write that they read from. -/
  sameAddr : ∀ r w, g.rfOf r = some w → g.isa LabelBody.isWrite w → g.addrOf r = g.addrOf w
  /-- The label before the write of a read-modify-write is its read, which has a source. -/
  paired : ∀ w, g.isa LabelBody.isRMWWrite w → 0 < w.index ∧ g.isa LabelBody.isRMWRead w.prev ∧
    g.addrOf w.prev = g.addrOf w ∧ (g.rfOf w.prev).isSome

/-- A different read-modify-write that succeeds reads from the same event as the one of the write,
at the same address. -/
structure RMWConflict (g : ExecutionGraph) (w r : Event) : Prop where
  /-- It is a different one. -/
  ne : r ≠ w.prev
  /-- It succeeds. -/
  isRMW : g.isRMW r
  /-- It reads from the same event. -/
  rf : g.rfOf r = g.rfOf w.prev
  /-- It has the same address. -/
  addr : g.addrOf r = g.addrOf w

/-- A read of a read-modify-write is a read. -/
lemma isa_isRead_of_isRMW {r : Event} (h : g.isRMW r) : g.isa LabelBody.isRead r := by
  obtain ⟨lab, hlab, hrmw⟩ := (Option.any_eq_true _ _).mp h
  exact isa_iff.mpr ⟨lab, hlab, LabelBody.isRead_of_isRMWRead (Bool.and_eq_true_iff.mp hrmw).1⟩

/-- The read of a read-modify-write is where its write says it is. -/
lemma RMWFormed.getPreviousLabel (h : RMWFormed g) {w : Event} {sLab : EventLabel}
    (hlab : g.getEventLabel w = some sLab) (hpos : sLab.pos = w) (hrmw : sLab.body.isRMWWrite) :
    ∃ pLab rf a, g.getPreviousLabel sLab = some pLab ∧ g.getEventLabel w.prev = some pLab ∧
      pLab.body.rf = some rf ∧ g.rfOf w.prev = some rf ∧ pLab.body.addr = some a ∧
      g.addrOf w.prev = some a ∧ g.addrOf w = some a := by
  obtain ⟨hindex, hread, haddr, hrf⟩ := h.paired w (isa_iff.mpr ⟨sLab, hlab, hrmw⟩)
  obtain ⟨pLab, hpLab, -⟩ := isa_iff.mp hread
  obtain ⟨rf, hrf⟩ := Option.isSome_iff_exists.mp hrf
  obtain ⟨a, ha⟩ : ∃ a, g.addrOf w.prev = some a := by
    rw [← Option.isSome_iff_exists, haddr, addrOf_of_getEventLabel hlab, LabelBody.addr_isSome,
      LabelBody.isWrite_of_isRMWWrite hrmw, Bool.or_true]
  refine ⟨pLab, rf, a, ?_, hpLab, ?_, hrf, ?_, ha, haddr.symm.trans ha⟩
  · unfold ExecutionGraph.getPreviousLabel
    rw [hpos, if_neg hindex.ne', hpLab]
  · rw [← rfOf_of_getEventLabel hpLab, hrf]
  · rw [← addrOf_of_getEventLabel hpLab, ha]

/-- The code collects the conflicting reads and returns the one with the least stamp. -/
lemma getPendingRMW_eq (hg : WellFormed g) (h : RMWFormed g) {w : Event} {sLab : EventLabel}
    (hlab : g.getEventLabel w = some sLab) (hrmw : sLab.body.isRMWWrite) :
    ∃ pending, g.getPendingRMW sLab = some (g.getMinimumStampEvent pending) ∧
      ∀ r, r ∈ pending ↔ RMWConflict g w r := by
  have hpos : sLab.pos = w := hg.readerLists.positioned.pos w sLab hlab
  obtain ⟨pLab, rf, a, hprev, hpLab, hrf, hrfOf, haddr, hprevAddr, hwAddr⟩ :=
    h.getPreviousLabel hlab hpos hrmw
  have hpLabPos : pLab.pos = w.prev := hg.readerLists.positioned.pos _ _ hpLab
  unfold getPendingRMW
  rw [if_pos hrmw, hprev, Option.bind_eq_bind, Option.bind_some, hrf, Option.bind_eq_bind,
    Option.bind_some]
  rcases hg.readerLists.sources _ _ hrfOf with hwrite | hinit
  · -- The readers of a write have its address.
    rw [if_pos hwrite]
    refine ⟨_, rfl, fun r => ?_⟩
    have hmem : r ∈ g.readersOf rf ↔ g.rfOf r = some rf := by
      rw [← List.count_pos_iff, hg.readerLists.count_readersOf hwrite]
      split <;> simp_all
    rw [List.mem_filter, hmem, Bool.and_eq_true, decide_eq_true_iff, hpLabPos]
    constructor
    · rintro ⟨hr, hisRMW, hne⟩
      refine ⟨hne, hisRMW, hr.trans hrfOf.symm, ?_⟩
      rw [h.sameAddr _ _ hr hwrite, ← h.sameAddr _ _ hrfOf hwrite, hprevAddr, hwAddr]
    · rintro ⟨hne, hisRMW, hr, -⟩
      exact ⟨hr.trans hrfOf, hisRMW, hne⟩
  · -- The readers of the initializer are listed for each location.
    have hrfInit : rf = .init := (hg.readerLists.positioned.initOnly rf).mp hinit
    have hnot : ¬g.isa LabelBody.isWrite rf := by
      intro hwrite
      rw [isa_isInit_eq_false hwrite] at hinit
      exact absurd hinit Bool.false_ne_true
    obtain ⟨rs, hrs⟩ : ∃ rs, g.initRfs.find? a = some rs := by
      have ha := hg.readerLists.tracked w a hwAddr
      rw [← hg.readerLists.keys] at ha
      by_contra hnone
      exact KeyedList.find?_eq_none_iff.mp (Option.eq_none_iff_forall_ne_some.mpr
        fun rs hrs => hnone ⟨rs, hrs⟩) ha
    have hmem : ∀ r, r ∈ rs ↔ g.rfOf r = some .init ∧ g.addrOf r = some a := by
      intro r
      have hcount := hg.readerLists.count_initReaders a r
      have hreaders : g.initReaders a = rs := by
        unfold initReaders
        rw [hrs]
        rfl
      rw [hreaders] at hcount
      rw [← List.count_pos_iff, hcount]
      split <;> simp_all
    rw [if_neg hnot, haddr, Option.bind_eq_bind, Option.bind_some, hrs, Option.bind_eq_bind,
      Option.bind_some]
    refine ⟨_, rfl, fun r => ?_⟩
    rw [List.mem_filter, hmem, Bool.and_eq_true, Bool.and_eq_true, decide_eq_true_iff,
      decide_eq_true_iff, hpLabPos]
    constructor
    · rintro ⟨⟨-, ha⟩, ⟨hr, hne⟩, hisRMW⟩
      exact ⟨hne, hisRMW, hr.trans hrfOf.symm, ha.trans hwAddr.symm⟩
    · rintro ⟨hne, hisRMW, hr, ha⟩
      have hr' := hr.trans hrfOf
      exact ⟨⟨hrfInit ▸ hr', ha.trans hwAddr⟩, ⟨hr', hne⟩, hisRMW⟩

/-- The events of a list with the least stamp. -/
lemma getMinimumStampEvent_spec (g : ExecutionGraph) {es : List Event} {e : Event} (he : e ∈ es) :
    g.getMinimumStampEvent es ∈ es ∧ g.stampOf (g.getMinimumStampEvent es) ≤ g.stampOf e := by
  obtain ⟨m, hm⟩ : ∃ m, es.argmin g.stampOf = some m := by
    rw [← Option.ne_none_iff_exists']
    intro hnone
    rw [List.argmin_eq_none.mp hnone] at he
    cases he
  have heq : g.getMinimumStampEvent es = m := by
    unfold getMinimumStampEvent
    rw [hm]
    rfl
  rw [heq]
  exact ⟨List.argmin_mem hm, List.le_of_mem_argmin he hm⟩

/-- The initializer stands for no event. -/
lemma getMinimumStampEvent_mem {es : List Event}
    (h : (!decide (g.getMinimumStampEvent es = .init)) = true) :
    g.getMinimumStampEvent es ∈ es := by
  cases es with
  | nil => exact absurd h (by simp [getMinimumStampEvent])
  | cons e es => exact (getMinimumStampEvent_spec g List.mem_cons_self).1

/-- **The test for atomicity.**  In a well-formed graph, the write of a read-modify-write violates
atomicity if and only if a different read-modify-write that succeeds reads from the same event at
the same address, and then the pending one is the conflicting read with the least stamp. -/
theorem violatesAtomicity_spec (hg : WellFormed g) (h : RMWFormed g) {w : Event}
    {sLab : EventLabel} (hlab : g.getEventLabel w = some sLab) (hrmw : sLab.body.isRMWWrite) :
    ∃ b pending, g.violatesAtomicity sLab = some b ∧ g.getPendingRMW sLab = some pending ∧
      (b = true ↔ ∃ r, RMWConflict g w r) ∧
      (b = true → RMWConflict g w pending ∧
        ∀ r, RMWConflict g w r → r ≠ pending → g.stampOf pending < g.stampOf r) := by
  obtain ⟨es, hpending, hmem⟩ := getPendingRMW_eq hg h hlab hrmw
  have hviolates : g.violatesAtomicity sLab =
      some (!decide (g.getMinimumStampEvent es = .init)) := by
    unfold violatesAtomicity
    rw [if_pos hrmw, hpending]
    rfl
  refine ⟨_, _, hviolates, hpending, ⟨fun hb => ?_, ?_⟩, fun hb => ?_⟩
  · exact ⟨_, (hmem _).mp (getMinimumStampEvent_mem hb)⟩
  · rintro ⟨r, hr⟩
    have hconflict := (hmem _).mp (getMinimumStampEvent_spec g ((hmem r).mpr hr)).1
    have hread := isa_isRead_of_isRMW hconflict.isRMW
    rw [Bool.not_eq_true', decide_eq_false_iff_not]
    intro hinit
    rw [hinit] at hread
    exact hg.not_isRead_init hread
  · have hconflict := (hmem _).mp (getMinimumStampEvent_mem hb)
    refine ⟨hconflict, fun r hr hne => ?_⟩
    have hle := (getMinimumStampEvent_spec g ((hmem r).mpr hr)).2
    refine lt_of_le_of_ne hle fun heq => hne ?_
    exact (hg.stampOf_injective (containsPos_of_isa (isa_isRead_of_isRMW hconflict.isRMW))
      (containsPos_of_isa (isa_isRead_of_isRMW hr.isRMW)) heq).symm

/-- The read-modify-writes of a concrete graph are whole if those at its positions are. -/
lemma RMWFormed.of_positions
    (hsources : ∀ r ∈ g.positions, ∀ w ∈ g.rfOf r, g.isa LabelBody.isWrite w →
      g.addrOf r = g.addrOf w)
    (hpaired : ∀ w ∈ g.positions, g.isa LabelBody.isRMWWrite w → 0 < w.index ∧
      g.isa LabelBody.isRMWRead w.prev ∧ g.addrOf w.prev = g.addrOf w ∧ (g.rfOf w.prev).isSome) :
    RMWFormed g :=
  ⟨fun r w hrf =>
      hsources r (mem_positions.mpr (containsPos_of_isa (isa_isRead_of_rfOf hrf))) w hrf,
    fun w hw => hpaired w (mem_positions.mpr (containsPos_of_isa hw)) hw⟩

/-- Two fetch-and-adds and a failed compare-and-swap of a location read from the initializer, and
then a third fetch-and-add. -/
def pendingRMWs : ExecutionGraph :=
  (PartialRun.exec Mutation.apply initial
    [.addLabelToGraph { pos := ⟨0, 1⟩, body := .plain (.threadCreate 1) },
      .addNewThread,
      .addLabelToGraph { pos := ⟨1, 0⟩, body := .threadStart ⟨0, 1⟩ },
      .addLabelToGraph { pos := ⟨0, 2⟩, body := .plain (.threadCreate 2) },
      .addNewThread,
      .addLabelToGraph { pos := ⟨2, 0⟩, body := .threadStart ⟨0, 2⟩ },
      .addLabelToGraph { pos := ⟨2, 1⟩, body := .read .casRead { addr := ⟨8⟩ } none false },
      .setRf ⟨2, 1⟩ (some .init),
      .addLabelToGraph { pos := ⟨2, 2⟩, body := .read .faiRead { addr := ⟨8⟩ } none false },
      .setRf ⟨2, 2⟩ (some .init),
      .addLabelToGraph { pos := ⟨2, 3⟩, body := .write .faiWrite { addr := ⟨8⟩ } [] },
      .addStoreToCOAfter ⟨2, 3⟩ .init,
      .addLabelToGraph { pos := ⟨1, 1⟩, body := .read .faiRead { addr := ⟨8⟩ } none false },
      .setRf ⟨1, 1⟩ (some .init),
      .addLabelToGraph { pos := ⟨1, 2⟩, body := .write .faiWrite { addr := ⟨8⟩ } [] },
      .addStoreToCOAfter ⟨1, 2⟩ .init,
      .addLabelToGraph { pos := ⟨0, 3⟩, body := .read .faiRead { addr := ⟨8⟩ } none false },
      .setRf ⟨0, 3⟩ (some .init),
      .addLabelToGraph { pos := ⟨0, 4⟩, body := .write .faiWrite { addr := ⟨8⟩ } [] },
      .addStoreToCOAfter ⟨0, 4⟩ .init]).getD initial

/-- The write of the third one violates atomicity, and the second read of the second thread is
pending. -/
theorem pendingRMWs_violates :
    ∃ sLab, pendingRMWs.getEventLabel ⟨0, 4⟩ = some sLab ∧
      pendingRMWs.violatesAtomicity sLab = some true ∧
      pendingRMWs.getPendingRMW sLab = some ⟨2, 2⟩ ∧ RMWConflict pendingRMWs ⟨0, 4⟩ ⟨2, 2⟩ := by
  have hlab : (pendingRMWs.getEventLabel ⟨0, 4⟩).any (fun sLab => sLab.body.isRMWWrite &&
      decide (pendingRMWs.violatesAtomicity sLab = some true) &&
      decide (pendingRMWs.getPendingRMW sLab = some ⟨2, 2⟩)) = true := by decide +kernel
  obtain ⟨sLab, hlab, h⟩ := (Option.any_eq_true _ _).mp hlab
  simp only [Bool.and_eq_true, decide_eq_true_iff] at h
  obtain ⟨⟨hrmw, hviolates⟩, hpending⟩ := h
  have hg : WellFormed pendingRMWs := WellFormed.of_check (by decide +kernel)
  have hformed : RMWFormed pendingRMWs :=
    RMWFormed.of_positions (by decide +kernel) (by decide +kernel)
  obtain ⟨b, pending, hb, hp, -, hconflict⟩ := violatesAtomicity_spec hg hformed hlab hrmw
  rw [hviolates, Option.some_inj] at hb
  rw [hpending, Option.some_inj] at hp
  rw [← hp] at hconflict
  exact ⟨sLab, hlab, hviolates, hpending, (hconflict hb.symm).1⟩

end ExecutionGraph

end GenMC
