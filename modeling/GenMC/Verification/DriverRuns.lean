import GenMC.Verification.DanglingReads

/-!
# Runs of the driver

Every graph that a run of the driver reaches satisfies the invariant, also those that wait on the
stack of executions.  So no read loses its source when the graph is restricted or copied, but for
the last reads of the threads, and those get a new one.
-/

namespace GenMC

namespace ExecutionGraph

variable {g g' : ExecutionGraph}

/-! ## Restrictions of the driver -/

namespace RepairedCut

variable {st : ℕ}

/-- The classes of the labels. -/
lemma isa (h : RepairedCut g st g') (p : LabelBody → Bool) [ClassTest p] (e : Event) :
    g'.isa p e = ((g.getViewFromStamp st).contains e && g.isa p e) := by
  obtain ⟨cut, hcuts, hrepairs⟩ := h
  rw [hrepairs.relinks.isa, hcuts.isa]

/-- The prefix views. -/
lemma viewOf (h : RepairedCut g st g') (e : Event) :
    g'.viewOf e = if (g.getViewFromStamp st).contains e then g.viewOf e else none := by
  obtain ⟨cut, hcuts, hrepairs⟩ := h
  rw [hrepairs.relinks.viewOf, hcuts.viewOf]

/-- The labels up to a stamp stay. -/
lemma isa_of_stampOf_le (h : RepairedCut g st g') {p : LabelBody → Bool} [ClassTest p] {e : Event}
    (he : g.isa p e) (hst : g.stampOf e ≤ st) : g'.isa p e := by
  rw [h.isa, contains_of_stampOf_le (containsPos_of_isa he) hst, he]
  rfl

/-- The labels are ordered as before. -/
lemma order (h : RepairedCut g st g') {e e' : Event} (he : g'.containsPos e)
    (he' : g'.containsPos e') : g'.stampOf e < g'.stampOf e' ↔ g.stampOf e < g.stampOf e' := by
  obtain ⟨cut, hcuts, hrepairs⟩ := h
  rw [hrepairs.relinks.containsPos] at he he'
  rw [hrepairs.relinks.stampOf, hrepairs.relinks.stampOf]
  exact hcuts.order e e' he he'

end RepairedCut

/-! ## Backward revisits -/

/-- A read that a write may revisit: the write's prefix does not contain the read. -/
structure MayRevisit (g : ExecutionGraph) (r w : Event) (u : View) : Prop where
  /-- The read. -/
  read : g.isa LabelBody.isRead r
  /-- The write. -/
  write : g.isa LabelBody.isWrite w
  /-- The prefix of the write. -/
  view : g.viewOf w = some (.view u)
  /-- The read is not in the prefix. -/
  outside : u.contains r = false

/-- What the copy of a backward revisit contains: what was there before the read, and the prefix of
the write. -/
def revisitViewOf (g : ExecutionGraph) (r : Event) (u : View) : View :=
  (g.getViewFromStamp (g.stampOf r)).update u

namespace MayRevisit

variable {r w : Event} {u : View}

/-- The view contains the read. -/
lemma contains_read (h : MayRevisit g r w u) : (g.revisitViewOf r u).contains r := by
  unfold revisitViewOf
  rw [View.contains_update, contains_of_stampOf_le (containsPos_of_isa h.read) le_rfl]
  rfl

/-- The view contains the write. -/
lemma contains_write (h : MayRevisit g r w u) (hg : PrefixClosed g) :
    (g.revisitViewOf r u).contains w := by
  obtain ⟨u', hu', hmem⟩ := hg.self w _ h.view
  obtain rfl := VectorClock.view.inj hu'
  unfold revisitViewOf
  rw [View.contains_update, hmem, Bool.or_true]

/-- The view does not go beyond the read. -/
lemma not_contains_next (h : MayRevisit g r w u) (hg : StampInvariant g) :
    (g.revisitViewOf r u).contains r.next = false := by
  have hnext : u.contains r.next = false := by
    rw [Bool.eq_false_iff]
    intro hc
    have hle : r.index + 1 ≤ u.getMax r.thread := of_decide_eq_true hc
    have hout := h.outside
    rw [show u.contains r = true from decide_eq_true (Nat.le_of_succ_le hle)] at hout
    cases hout
  unfold revisitViewOf
  rw [View.contains_update, hg.not_contains_next (containsPos_of_isa h.read), hnext]
  rfl

end MayRevisit

/-- **Backward revisits.**  The copy is repaired, and the read turned to the write. -/
lemma DriverInvariant.backwardRevisit_spec (hg : DriverInvariant g) {r w : Event} {u : View}
    (h : MayRevisit g r w u) : ∃ copy rep g' a maxLab, g.copyForRevisit r w = some copy ∧
      CutsTo g (g.revisitViewOf r u) copy ∧ copy.repairDanglingReads = some rep ∧
      DriverInvariant rep ∧ Repairs copy rep ∧ rep.containsPos r.next = false ∧
      rep.revisitRead r w none = some g' ∧ DriverInvariant g' ∧ rep.addrOf r = some a ∧
      rep.coMax a = some maxLab ∧ Assigns rep r w (fun _ => decide (w = maxLab)) g' := by
  have hjoin : g.isa LabelBody.isThreadJoin w = false := by
    obtain ⟨lab, hlab, hwrite⟩ := isa_iff.mp h.write
    rw [isa_of_getEventLabel hlab]
    exact (LabelBody.classes_of_isWrite hwrite).2.1
  obtain ⟨copy, hcopy, hcuts⟩ := hg.copyForRevisit h.read hjoin h.view
  obtain ⟨rep, hrep, hinv, hrepairs⟩ := hcuts.repairable.repairDanglingReads
  have hlast : rep.containsPos r.next = false := by
    rw [hrepairs.relinks.containsPos, hcuts.containsPos]
    rw [show (g.getViewFromStamp (g.stampOf r)).update u = g.revisitViewOf r u from rfl,
      h.not_contains_next hg.linked.stamped.order, Bool.false_and]
  have hisa : ∀ (p : LabelBody → Bool) [ClassTest p] e, (g.revisitViewOf r u).contains e →
      rep.isa p e = g.isa p e := by
    intro p _ e he
    rw [hrepairs.relinks.isa, hcuts.isa]
    rw [show (g.getViewFromStamp (g.stampOf r)).update u = g.revisitViewOf r u from rfl, he,
      Bool.true_and]
  obtain ⟨g', hrevisit⟩ := hinv.revisitRead_isSome ((hisa _ r h.contains_read).trans h.read)
    ((hisa _ w (h.contains_write hg.closed)).trans h.write) none
  obtain ⟨hg', a, maxLab, ha, hmax, hassigns⟩ := hinv.revisitRead hlast hrevisit
  exact ⟨copy, rep, g', a, maxLab, hcopy, hcuts, hrep, hinv, hrepairs, hlast, hrevisit, hg', ha,
    hmax, hassigns⟩

/-- The graph that is pushed. -/
lemma DriverInvariant.backwardRevisit (hg : DriverInvariant g) {r w : Event} {u : View}
    (h : MayRevisit g r w u) (hrevisit : g.backwardRevisit r w = some g') :
    DriverInvariant g' := by
  obtain ⟨copy, rep, g'', -, -, hcopy, -, hrep, -, -, -, hrevisit', hg', -⟩ :=
    hg.backwardRevisit_spec h
  unfold ExecutionGraph.backwardRevisit at hrevisit
  rw [hcopy, Option.bind_eq_bind, Option.bind_some, hrep, Option.bind_some, hrevisit'] at hrevisit
  exact Option.some.inj hrevisit ▸ hg'

/-! ## Calls and runs -/

open DriverCall

/-- **Calls.**  What a call makes of the current graph. -/
lemma DriverInvariant.onGraph (hg : DriverInvariant g) {call : DriverCall}
    (hcall : call.AdmissibleFor g) (h : call.onGraph g = some g') : DriverInvariant g' := by
  cases call with
  | addLabel lab =>
    obtain ⟨hroom, hadds, haddr, hblock, hjoin⟩ := hcall
    exact (hg.addLabel hroom hadds haddr hblock h (not_isJoinOf hjoin)).1
  | handleLoad lab rf =>
    obtain ⟨hroom, hadds, hread⟩ := hcall
    exact (hg.handleLoad hroom hadds hread h).1
  | handleBlockedLoad lab =>
    obtain ⟨hroom, hadds, hread⟩ := hcall
    exact (hg.handleBlockedLoad hroom hadds hread h).1
  | handleStore lab pred =>
    obtain ⟨hroom, hadds, hwrite⟩ := hcall
    exact (hg.handleStore hroom hadds hwrite h).1
  | handleThreadCreate pos =>
    obtain ⟨hroom, hindex, hpos, hthread⟩ := hcall
    exact (hg.handleThreadCreate hroom hindex hpos hthread h).1
  | handleThreadJoin pos childId =>
    obtain ⟨hroom, hindex, hpos, hthread⟩ := hcall
    exact (hg.handleThreadJoin hroom hindex hpos hthread h).1
  | handleFree pos kind freeAddr =>
    obtain ⟨hroom, hindex, hpos, hthread⟩ := hcall
    exact (hg.handleFree hroom hindex hpos hthread h).1
  | blockThread bLab =>
    obtain ⟨hroom, hnew, hblock, hindex⟩ := hcall
    exact (hg.blockThread hroom hnew hblock hindex h).1
  | unblockThread t => exact (hg.unblockThread h).1
  | restrictGraph stamp => exact (hg.restrictGraph hcall h).1
  | revisitRead r rev isMaximal => exact (hg.revisitReadForward h).1
  | revisitWrite w pred => exact (hg.revisitWrite h).1
  | revisitInPlace r w => exact (hg.revisitInPlace hcall h).1
  | revisitBarrier rLab w =>
    obtain ⟨hroom, hnew, hread, hnext, htaken, hprev⟩ := hcall
    exact (hg.revisitBarrier hroom hnew hread hnext htaken hprev h).1
  | backwardRevisit r w => cases h
  | popExecution => cases h

/-- A write that has been restricted to may revisit the reads that it may revisit before. -/
lemma DriverInvariant.mayRevisit (hg : DriverInvariant g) {r w : Event}
    (hcall : (DriverCall.backwardRevisit r w).AdmissibleFor g)
    (hcut : RepairedCut g (g.stampOf w) g') : ∃ u, MayRevisit g' r w u := by
  obtain ⟨hr, hw, hlt, hout⟩ := hcall
  -- Writes have views.
  obtain ⟨v, hv⟩ : ∃ v, g.viewOf w = some v := by
    rw [← Option.ne_none_iff_exists']
    intro hnone
    obtain ⟨lab, hlab, hblock⟩ := isa_iff.mp
      ((hg.closed.blocks w (containsPos_of_isa hw)).mp hnone)
    rw [isa_of_getEventLabel hlab] at hw
    rw [(LabelBody.classes_of_isWrite hw).1] at hblock
    cases hblock
  obtain ⟨u, rfl, -⟩ := hg.closed.self w v hv
  refine ⟨u, hcut.isa_of_stampOf_le hr hlt.le, hcut.isa_of_stampOf_le hw le_rfl, ?_, hout _ hv⟩
  rw [hcut.viewOf, contains_of_stampOf_le (containsPos_of_isa hw) le_rfl]
  exact hv

/-- **Steps.**  A call keeps the invariant of all graphs on the stack. -/
lemma driverInvariant_apply {execs execs' : List ExecutionGraph} {call : DriverCall}
    (hexecs : ∀ g ∈ execs, DriverInvariant g) (hcall : Admissible execs call)
    (h : DriverCall.apply execs call = some execs') : ∀ g ∈ execs', DriverInvariant g := by
  cases execs with
  | nil => cases h
  | cons g execs =>
    have hg := hexecs g List.mem_cons_self
    have hrest : ∀ g' ∈ execs, DriverInvariant g' := fun g' hg' =>
      hexecs g' (List.mem_cons_of_mem _ hg')
    have hadmissible : call.AdmissibleFor g := hcall g rfl
    -- A call that changes the current graph only.
    have honGraph : (call.onGraph g).map (· :: execs) = some execs' →
        ∀ g ∈ execs', DriverInvariant g := by
      intro hmap
      obtain ⟨g', hg', rfl⟩ := Option.map_eq_some_iff.mp hmap
      exact List.forall_mem_cons.mpr ⟨hg.onGraph hadmissible hg', hrest⟩
    cases call with
    | backwardRevisit r w =>
      obtain ⟨g₁, hrestrict, h⟩ := Option.bind_eq_some_iff.mp h
      obtain ⟨og, hog, h⟩ := Option.bind_eq_some_iff.mp h
      obtain rfl := Option.some.inj h
      obtain ⟨hg₁, -, hcut⟩ := hg.restrictTo hrestrict
      obtain ⟨u, hmay⟩ := hg.mayRevisit hadmissible hcut
      exact List.forall_mem_cons.mpr ⟨hg₁.backwardRevisit hmay hog,
        List.forall_mem_cons.mpr ⟨hg₁, hrest⟩⟩
    | popExecution => exact Option.some.inj h ▸ hrest
    | _ => exact honGraph h

/-- **Runs.**  Every graph that a run reaches satisfies the invariant. -/
lemma driverInvariant_exec {calls : List DriverCall} {execs : List ExecutionGraph}
    (hcalls : PartialRun.Meets DriverCall.apply Admissible [initial] calls)
    (h : PartialRun.exec DriverCall.apply [initial] calls = some execs) :
    ∀ g ∈ execs, DriverInvariant g :=
  PartialRun.exec_invariant
    (fun _ _ _ hexecs hcall hstep => driverInvariant_apply hexecs hcall hstep)
    (by simpa using driverInvariant_initial) hcalls h

/-! ## Reads without a source -/

/-- The labels and the sources of a cut; a read without a source is the last label of its thread. -/
structure CutSources (g : ExecutionGraph) (v : View) (cut : ExecutionGraph) : Prop where
  /-- The labels are those that the view contains. -/
  containsPos : ∀ e, cut.containsPos e = (v.contains e && g.containsPos e)
  /-- A read loses its source where the view does not contain it. -/
  rfOf : ∀ r, cut.rfOf r = if v.contains r then (g.rfOf r).filter v.contains else none
  /-- A read without a source is the last label of its thread. -/
  last : ∀ r, cut.isa LabelBody.isRead r → cut.rfOf r = none → r = cut.lastPos r.thread

/-- Every read has a source, which is a write of the graph or the initializer. -/
def Sourced (g : ExecutionGraph) : Prop :=
  ∀ r, g.isa LabelBody.isRead r →
    ∃ w, g.rfOf r = some w ∧ (g.isa LabelBody.isWrite w ∨ g.isa LabelBody.isInit w)

/-- `g'` is `cut` with sources for the reads that have none; nothing is behind these. -/
structure Resourced (cut g' : ExecutionGraph) : Prop where
  /-- The labels are the same. -/
  containsPos : ∀ e, g'.containsPos e = cut.containsPos e
  /-- Every read has a source. -/
  sourced : Sourced g'
  /-- The other sources stay. -/
  kept : ∀ r w, cut.rfOf r = some w → g'.rfOf r = some w
  /-- Nothing is behind a read that gets a new source. -/
  last : ∀ r, g'.rfOf r ≠ cut.rfOf r → g'.containsPos r.next = false

/-- Every read of a graph of the driver has a source in the graph. -/
lemma DriverInvariant.sourced_reads (hg : DriverInvariant g) : Sourced g := by
  intro r hr
  obtain ⟨w, hw⟩ := Option.isSome_iff_exists.mp (hg.sourced r hr)
  exact ⟨w, hw, hg.linked.readerLists.sources r w hw⟩

/-- Cuts to closed views. -/
lemma CutsTo.cutSources {v : View} (h : CutsTo g v g') : CutSources g v g' :=
  ⟨h.containsPos, h.rfOf, fun _ hr hnone => h.repairable.eq_lastPos hr hnone⟩

/-- Repaired graphs. -/
lemma Repairs.resourced (h : Repairs g g') (hg : Repairable g) (hg' : DriverInvariant g') :
    Resourced g g' := by
  refine ⟨h.relinks.containsPos, hg'.sourced_reads, fun r w hr => h.rfOf hr, fun r hne => ?_⟩
  rcases h.changed r with ⟨hrf, -⟩ | ⟨hnone, _, w, -, -, hw⟩
  · exact absurd hrf hne
  · rw [h.relinks.containsPos]
    refine hg.dangling r ?_ hnone
    obtain ⟨lab, hlab, hread⟩ := Option.bind_eq_some_iff.mp hw
    rw [← h.relinks.isa]
    exact isa_iff.mpr ⟨lab, hlab, LabelBody.isRead_of_rf hread⟩

/-- **No dangling reads.**  In every graph that a run of the driver reaches, restricting to a stamp
and copying for a backward revisit take sources away only from reads at the ends of the threads;
repairing gives these a source that is kept, and the revisited read becomes the last label of its
thread. -/
theorem no_dangling_reads {calls : List DriverCall} {execs : List ExecutionGraph}
    (hcalls : PartialRun.Meets DriverCall.apply Admissible [initial] calls)
    (hexec : PartialRun.exec DriverCall.apply [initial] calls = some execs) (hg : g ∈ execs) :
    (∀ stamp, stamp + 1 < stampSize → ∃ cut g', g.cutAndCompress stamp = some cut ∧
      CutSources g (g.getViewFromStamp stamp) cut ∧ g.restrictGraph stamp = some g' ∧
      Resourced cut g') ∧
    ∀ r w u, MayRevisit g r w u → ∃ copy rep g', g.copyForRevisit r w = some copy ∧
      CutSources g (g.revisitViewOf r u) copy ∧ copy.repairDanglingReads = some rep ∧
      Resourced copy rep ∧ g.backwardRevisit r w = some g' ∧ Sourced g' ∧
      (∀ r', g'.rfOf r' = if r' = r then some w else rep.rfOf r') ∧
      g'.containsPos r.next = false := by
  have hinv := driverInvariant_exec hcalls hexec g hg
  refine ⟨fun stamp hstamp => ?_, fun r w u h => ?_⟩
  · obtain ⟨cut, hcut, hcuts⟩ := hinv.cutAndCompress hstamp
    obtain ⟨g', hg', hinv', hrepairs⟩ := hcuts.repairable.repairDanglingReads
    refine ⟨cut, g', hcut, hcuts.cutSources, ?_, hrepairs.resourced hcuts.repairable hinv'⟩
    unfold ExecutionGraph.restrictGraph
    rw [hcut, Option.bind_some, hg']
  · obtain ⟨copy, rep, g', _, _, hcopy, hcuts, hrep, hinvRep, hrepairs, hlast, hrevisit, hinv', -,
      -, hassigns⟩ := hinv.backwardRevisit_spec h
    refine ⟨copy, rep, g', hcopy, hcuts.cutSources, hrep,
      hrepairs.resourced hcuts.repairable hinvRep, ?_, hinv'.sourced_reads, hassigns.rfOf, ?_⟩
    · unfold ExecutionGraph.backwardRevisit
      rw [hcopy, Option.bind_eq_bind, Option.bind_some, hrep, Option.bind_some, hrevisit]
    · rw [hassigns.relinks.containsPos]
      exact hlast

/-- The read of the main thread is added before the write of thread 1, which then revisits it. -/
def revisitRun : List DriverCall :=
  [.handleThreadCreate ⟨0, 1⟩,
    .handleLoad { pos := ⟨0, 2⟩, body := .read .read { addr := ⟨8⟩ } none false } .init,
    .handleStore { pos := ⟨1, 1⟩, body := .write .write { addr := ⟨8⟩ } [] } .init,
    .backwardRevisit ⟨0, 2⟩ ⟨1, 1⟩]

/-- Restricting the graph of the revisit to the stamp of the read cuts the read's source. -/
theorem no_dangling_reads_revisitRun : ∃ execs,
    PartialRun.exec DriverCall.apply [initial] revisitRun = some execs ∧ ∃ g ∈ execs,
      g.rfOf ⟨0, 2⟩ = some ⟨1, 1⟩ ∧ ∃ cut g', g.cutAndCompress 3 = some cut ∧
        CutSources g (g.getViewFromStamp 3) cut ∧ g.restrictGraph 3 = some g' ∧
        Resourced cut g' := by
  obtain ⟨execs, hexec⟩ : ∃ execs,
      PartialRun.exec DriverCall.apply [initial] revisitRun = some execs :=
    Option.isSome_iff_exists.mp (by decide)
  have hany : (PartialRun.exec DriverCall.apply [initial] revisitRun).any fun execs =>
      execs.any fun g => decide (g.rfOf ⟨0, 2⟩ = some ⟨1, 1⟩) := by decide
  rw [hexec] at hany
  obtain ⟨g, hg, hrf⟩ := List.any_eq_true.mp hany
  exact ⟨execs, hexec, g, hg, of_decide_eq_true hrf,
    (no_dangling_reads (by decide) hexec hg).1 3 (by decide)⟩

end ExecutionGraph

end GenMC
