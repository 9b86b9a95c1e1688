import GenMC.Verification.NavigationCalls
import GenMC.Verification.Consistency.TSOChecker

/-!
# Navigating the graphs of a run

In every graph that a run of the driver reaches, also in those that wait on the stack of executions,
the consistency checks find the labels that they step to, so that they always answer.
-/

namespace GenMC

open ExecutionGraph

namespace DriverCall

/-- What the driver and the program observe in addition: loads read from stores of their location,
begins and creates are added by `handleThreadCreate` only, and the program joins no thread twice
(`handleThreadJoin` would accept a second join). -/
def KeepsLinks (g : ExecutionGraph) : DriverCall → Prop
  | addLabel lab => lab.body.isThreadStart = false ∧ lab.body.createdThread = none
  | handleLoad lab w | revisitBarrier lab w =>
    g.isa LabelBody.isWrite w → g.addrOf w = lab.body.addr
  | handleThreadJoin _ childId => ∀ j ∈ g.positions, g.joinedOf j ≠ some childId
  | revisitRead r w _ | revisitInPlace r w | backwardRevisit r w =>
    g.isa LabelBody.isWrite w → g.addrOf w = g.addrOf r
  | _ => True

instance (g : ExecutionGraph) : DecidablePred (KeepsLinks g)
  | addLabel _ => inferInstanceAs (Decidable (_ ∧ _))
  | handleLoad .. | revisitBarrier .. | revisitRead .. | revisitInPlace .. | backwardRevisit .. =>
    inferInstanceAs (Decidable (_ → _ = _))
  | handleThreadJoin .. => inferInstanceAs (Decidable (∀ j ∈ g.positions, _ ≠ _))
  | handleBlockedLoad _ | handleStore .. | handleThreadCreate _ | handleFree .. | blockThread _
  | unblockThread _ | restrictGraph _ | revisitWrite .. | popExecution => .isTrue trivial

/-- A call that the driver makes with the current graph, and that keeps the links. -/
def AdmissibleLinks (execs : List ExecutionGraph) (call : DriverCall) : Prop :=
  ∀ g ∈ execs.head?, call.AdmissibleFor g ∧ call.KeepsLinks g

instance (execs : List ExecutionGraph) : DecidablePred (AdmissibleLinks execs) := fun _ =>
  inferInstanceAs (Decidable (∀ _ ∈ _, _))

end DriverCall

namespace ExecutionGraph

variable {g g' : ExecutionGraph}

/-- The new graph. -/
lemma navigationInvariant_initial : NavigationInvariant initial := by
  have hlabel : ∀ e lab, initial.getEventLabel e = some lab → lab.body = .init ∧ e = .init := by
    intro e lab hlab
    rw [getEventLabel_initial] at hlab
    split at hlab
    next he => exact ⟨by rw [← Option.some.inj hlab]; rfl, he⟩
    next => cases hlab
  -- the initializer is all there is
  have hbind : ∀ {α : Type} {f : LabelBody → Option α} {e : Event} {x : α},
      ((initial.getEventLabel e).bind fun lab => f lab.body) = some x → f .init = some x := by
    intro α f e x he
    obtain ⟨lab, hlab, hf⟩ := Option.bind_eq_some_iff.mp he
    rwa [(hlabel e lab hlab).1] at hf
  refine ⟨driverInvariant_initial, ⟨⟨⟨fun e he => ?_, fun e he => ?_, fun c t hc => ?_,
    fun c t _ hc => ?_, fun j t hj => ?_, fun f j hf => ?_⟩, fun c t hc => ?_,
    fun t t' c ht ht' => ?_⟩, fun r w hrf => ?_⟩⟩
  · obtain ⟨lab, hlab, -⟩ := isa_iff.mp he
    rw [(hlabel e lab hlab).2]
    rfl
  · obtain ⟨lab, hlab, hterm⟩ := isa_iff.mp he
    rw [(hlabel e lab hlab).1] at hterm
    cases hterm
  · cases hbind hc
  · obtain ⟨lab, hlab, hcreate⟩ := isa_iff.mp hc
    rw [(hlabel c lab hlab).1] at hcreate
    cases hcreate
  · cases hbind hj
  · cases hbind hf
  · cases hbind hc
  · obtain ⟨lab, hlab, -⟩ := Option.bind_eq_some_iff.mp ht
    obtain ⟨lab', hlab', -⟩ := Option.bind_eq_some_iff.mp ht'
    exact (congrArg Event.thread (hlabel _ lab hlab).2).trans
      (congrArg Event.thread (hlabel _ lab' hlab').2).symm
  · cases hbind hrf

open DriverCall

/-- **Calls** keep the links. -/
lemma NavigationInvariant.onGraph (hg : NavigationInvariant g) {call : DriverCall}
    (hcall : call.AdmissibleFor g) (hlinks : call.KeepsLinks g) (h : call.onGraph g = some g') :
    NavigationInvariant g' := by
  cases call with
  | addLabel lab =>
    obtain ⟨hroom, hadds, haddr, hblock, hjoin⟩ := hcall
    exact (hg.addLabel hroom hadds haddr hblock hjoin hlinks.1 hlinks.2 h).1
  | handleLoad lab rf =>
    obtain ⟨hroom, hadds, hread⟩ := hcall
    exact (hg.handleLoad hroom hadds hread hlinks h).1
  | handleBlockedLoad lab =>
    obtain ⟨hroom, hadds, hread⟩ := hcall
    exact (hg.handleBlockedLoad hroom hadds hread h).1
  | handleStore lab pred =>
    obtain ⟨hroom, hadds, hwrite⟩ := hcall
    exact (hg.handleStore hroom hadds hwrite h).1
  | handleThreadCreate pos =>
    obtain ⟨hroom, hindex, hpos, hthread⟩ := hcall
    exact (hg.handleThreadCreate hroom hindex hpos hthread h).1
  | handleThreadJoin pos childId =>
    obtain ⟨hroom, hindex, hpos, hthread⟩ := hcall
    refine (hg.handleThreadJoin hroom hindex hpos hthread (fun j hj => ?_) h).1
    exact hlinks j (mem_positions.mpr (containsPos_of_isa (joinedOf_eq_some_iff.mp hj))) hj
  | handleFree pos kind freeAddr =>
    obtain ⟨hroom, hindex, hpos, hthread⟩ := hcall
    exact (hg.handleFree hroom hindex hpos hthread h).1
  | blockThread bLab =>
    obtain ⟨hroom, hnew, hblock, hindex⟩ := hcall
    exact (hg.blockThread hroom hnew hblock hindex h).1
  | unblockThread t => exact (hg.unblockThread h).1
  | restrictGraph stamp => exact (hg.restrictGraph hcall h).1
  | revisitRead r rev isMaximal => exact (hg.revisitReadForward hlinks h).1
  | revisitWrite w pred => exact (hg.revisitWrite h).1
  | revisitInPlace r w => exact (hg.revisitInPlace hcall hlinks h).1
  | revisitBarrier rLab w =>
    obtain ⟨hroom, hnew, hread, hnext, htaken, hprev⟩ := hcall
    exact (hg.revisitBarrier hroom hnew hread hnext htaken hprev hlinks h).1
  | backwardRevisit r w => cases h
  | popExecution => cases h

/-- The write of a backward revisit and its read are where they were after restricting. -/
lemma RepairedCut.addrOf_eq_of_backwardRevisit {r w : Event}
    (hcall : (DriverCall.backwardRevisit r w).AdmissibleFor g)
    (hlinks : (DriverCall.backwardRevisit r w).KeepsLinks g)
    (h : RepairedCut g (g.stampOf w) g') : g'.addrOf w = g'.addrOf r := by
  obtain ⟨hr, hw, hlt, -⟩ := hcall
  exact h.sameLocation (containsPos_of_isa (h.isa_of_stampOf_le hr hlt.le)) hlinks
    (h.isa_of_stampOf_le hw le_rfl)

/-- **Steps.**  A call keeps the links of all graphs on the stack. -/
lemma navigationInvariant_apply {execs execs' : List ExecutionGraph} {call : DriverCall}
    (hexecs : ∀ g ∈ execs, NavigationInvariant g) (hcall : AdmissibleLinks execs call)
    (h : DriverCall.apply execs call = some execs') : ∀ g ∈ execs', NavigationInvariant g := by
  cases execs with
  | nil => cases h
  | cons g execs =>
    have hg := hexecs g List.mem_cons_self
    have hrest : ∀ g' ∈ execs, NavigationInvariant g' := fun g' hg' =>
      hexecs g' (List.mem_cons_of_mem _ hg')
    obtain ⟨hadmissible, hlinks⟩ := hcall g rfl
    -- A call that changes the current graph only.
    have honGraph : (call.onGraph g).map (· :: execs) = some execs' →
        ∀ g ∈ execs', NavigationInvariant g := by
      intro hmap
      obtain ⟨g', hg', rfl⟩ := Option.map_eq_some_iff.mp hmap
      exact List.forall_mem_cons.mpr ⟨hg.onGraph hadmissible hlinks hg', hrest⟩
    cases call with
    | backwardRevisit r w =>
      obtain ⟨g₁, hrestrict, h⟩ := Option.bind_eq_some_iff.mp h
      obtain ⟨og, hog, h⟩ := Option.bind_eq_some_iff.mp h
      obtain rfl := Option.some.inj h
      obtain ⟨-, -, hcut⟩ := hg.toDriverInvariant.restrictTo hrestrict
      obtain ⟨u, hmay⟩ := hg.mayRevisit hadmissible hcut
      have hg₁ := (hg.restrictTo hrestrict).1
      exact List.forall_mem_cons.mpr ⟨(hg₁.backwardRevisit hmay
        (hcut.addrOf_eq_of_backwardRevisit hadmissible hlinks) hog).1,
        List.forall_mem_cons.mpr ⟨hg₁, hrest⟩⟩
    | popExecution => exact Option.some.inj h ▸ hrest
    | _ => exact honGraph h

/-- **Runs.**  The links are right in every graph that a run reaches. -/
lemma navigationInvariant_exec {calls : List DriverCall} {execs : List ExecutionGraph}
    (hcalls : PartialRun.Meets DriverCall.apply AdmissibleLinks [initial] calls)
    (h : PartialRun.exec DriverCall.apply [initial] calls = some execs) :
    ∀ g ∈ execs, NavigationInvariant g :=
  PartialRun.exec_invariant
    (fun _ _ _ hexecs hcall hstep => navigationInvariant_apply hexecs hcall hstep)
    (by simpa using navigationInvariant_initial) hcalls h

/-- **The checkers find their way.**  Every graph that a run of the driver reaches can be navigated
and its threads are linked, so that the checks for sequential consistency and for total store order
answer for all of its labels. -/
theorem navigable_of_run {calls : List DriverCall} {execs : List ExecutionGraph}
    (hcalls : PartialRun.Meets DriverCall.apply AdmissibleLinks [initial] calls)
    (hexec : PartialRun.exec DriverCall.apply [initial] calls = some execs) (hg : g ∈ execs) :
    Navigable g ∧ Threaded g ∧ ∀ e, g.containsPos e → (SCChecker.isConsistent g e).isSome ∧
      ∀ sc, (TSOChecker.isConsistent g sc e).isSome := by
  have hinv := navigationInvariant_exec hcalls hexec g hg
  refine ⟨hinv.navigable, hinv.links.toThreaded, fun e he => ⟨?_, fun sc => ?_⟩⟩
  · obtain ⟨b, hb, -⟩ := Visitor.visit_spec hinv.navigable SCChecker.proper_visitConsAcyclic1
      (q := 0) (by simp [SCChecker.visitConsAcyclic1]) he
    exact Option.isSome_iff_exists.mpr ⟨b, hb⟩
  · have hproper : (TSOChecker.visitConsAcyclic1 g sc).Proper :=
      TSOChecker.proper_visitConsAcyclic1
    obtain ⟨b, hb, -⟩ := Visitor.visit_spec hinv.navigable hproper (q := 3)
      (by simp [TSOChecker.visitConsAcyclic1]) he
    exact Option.isSome_iff_exists.mpr ⟨b, hb⟩

/-- A thread is created and joined, and its write revisits a read of the main thread. -/
def joinRun : List DriverCall :=
  [.handleThreadCreate ⟨0, 1⟩,
    .handleLoad { pos := ⟨0, 2⟩, body := .read .read { addr := ⟨8⟩ } none false } .init,
    .handleStore { pos := ⟨1, 1⟩, body := .write .write { addr := ⟨8⟩ } [] } .init,
    .addLabel { pos := ⟨1, 2⟩, body := .threadFinish none },
    .handleThreadJoin ⟨0, 3⟩ 1,
    .backwardRevisit ⟨0, 2⟩ ⟨1, 1⟩]

/-- The checkers find their way in both graphs of the run. -/
theorem navigable_of_joinRun : ∃ execs,
    PartialRun.exec DriverCall.apply [initial] joinRun = some execs ∧ execs.length = 2 ∧
      ∀ g ∈ execs, Navigable g ∧ Threaded g ∧ ∀ e, g.containsPos e →
        (SCChecker.isConsistent g e).isSome ∧ ∀ sc, (TSOChecker.isConsistent g sc e).isSome := by
  obtain ⟨execs, hexec⟩ : ∃ execs,
      PartialRun.exec DriverCall.apply [initial] joinRun = some execs :=
    Option.isSome_iff_exists.mp (by decide +kernel)
  have hlength : (PartialRun.exec DriverCall.apply [initial] joinRun).map List.length = some 2 := by
    decide +kernel
  rw [hexec] at hlength
  exact ⟨execs, hexec, Option.some.inj hlength,
    fun g hg => navigable_of_run (by decide +kernel) hexec hg⟩

end ExecutionGraph

end GenMC
