import GenMC.ExecutionGraph.PendingRMW
import GenMC.Verification.Consistency.Interleavings
import GenMC.Verification.Consistency.RevisitCycles

/-!
# Safety of the exploration

The driver extends an execution without checking it as long as the extensions are maximal: loads
read from the coherence-last store, and stores are placed behind it.  After a revisit the execution
is completed and may be copied before `isRevisitValid` checks it, and then only the revisited access
and the write of its read-modify-write are checked.

This is enough for sequential consistency: every execution that has been checked, or was extended
from one that has been, can be run by interleaving its threads (`exists_interleaving_of_run`), and
the check of a revisit passes exactly when there is such a run (`isRevisitValid_iff_of_run`).

There is one exception.  If the read that is revisited in a copy of an unchecked execution is taken
back (`removeCASReadIfBlocks`), nothing is left to check and `isRevisitValid` lets the copy pass.
This is harmless if the read got the coherence-last store of its location; otherwise the copy may
have kept a cycle of the execution (`not_interleaving_of_skippedRun`).
-/

namespace GenMC

namespace ExecutionGraph

variable {g g' : ExecutionGraph} {e : Event}

/-! ## The check of a revisit -/

/-- What is checked besides consistency. -/
structure OtherChecks where
  /-- The execution is the one that its symmetry class explores. -/
  isSymmetryOK : ExecutionGraph → Event → Bool
  /-- The execution needs more preemptions or rounds than the bound. -/
  partialExecutionExceedsBound : ExecutionGraph → Bool
  /-- The read does not get an uninitialized value. -/
  checkInitializedMem : ExecutionGraph → Event → Bool
  /-- The write does not race. -/
  checkForRaces : ExecutionGraph → Event → Bool

/-- `isExecutionValid`. -/
def isExecutionValid (g : ExecutionGraph) (c : OtherChecks) (e : Event) : Option Bool :=
  if c.isSymmetryOK g e then do
    let consistent ← SCChecker.isConsistent g e
    return consistent && !c.partialExecutionExceedsBound g
  else some false

/-- `isRevisitValid`. -/
def isRevisitValid (g : ExecutionGraph) (c : OtherChecks) (pos : Event) : Option Bool := do
  let mLab ← g.getEventLabel pos
  if mLab.body.isRead || mLab.body.isWrite then
    if !(← g.isExecutionValid c pos) then return false
    if mLab.body.isRead && !c.checkInitializedMem g pos then return false
    if g.readIsRMW mLab then
      return (← g.isExecutionValid c pos.next) && c.checkForRaces g pos.next
    return true
  else return true

/-- The other checks pass. -/
structure OtherChecks.Pass (c : OtherChecks) (g : ExecutionGraph) (e : Event) : Prop where
  /-- The execution is the representative of its symmetry class and within the bound. -/
  valid : c.isSymmetryOK g e ∧ c.partialExecutionExceedsBound g = false
  /-- A read gets an initialized value. -/
  initialized : g.isa LabelBody.isRead e → c.checkInitializedMem g e
  /-- The write of a read-modify-write passes as well. -/
  next : g.isRMW e → c.isSymmetryOK g e.next ∧ c.checkForRaces g e.next

/-- A consistent execution is valid if it passes the other checks. -/
lemma isExecutionValid_of_isConsistent {c : OtherChecks}
    (h : SCChecker.isConsistent g e = some true) :
    g.isExecutionValid c e = some (c.isSymmetryOK g e && !c.partialExecutionExceedsBound g) := by
  unfold isExecutionValid
  cases c.isSymmetryOK g e with
  | true => rw [if_pos rfl, h]; rfl
  | false => rfl

/-- An inconsistent execution is not valid. -/
lemma isExecutionValid_of_not_isConsistent {c : OtherChecks}
    (h : SCChecker.isConsistent g e = some false) : g.isExecutionValid c e = some false := by
  unfold isExecutionValid
  cases c.isSymmetryOK g e with
  | true => rw [if_pos rfl, h]; rfl
  | false => rfl

/-- The check of a revisit in a consistent execution. -/
lemma NavigationInvariant.isRevisitValid_of_acyclic (hg : NavigationInvariant g)
    (hacyclic : Acyclic g.SCBefore) (hinit : e ≠ .init)
    (haccess : g.isa LabelBody.isRead e ∨ g.isa LabelBody.isWrite e) (c : OtherChecks) :
    ∃ valid, g.isRevisitValid c e = some valid ∧ (valid ↔ c.Pass g e) := by
  have he : g.containsPos e := haccess.elim containsPos_of_isa containsPos_of_isa
  obtain ⟨lab, hlab⟩ := containsPos_iff.mp he
  have hread : g.isa LabelBody.isRead e = lab.body.isRead := isa_of_getEventLabel hlab _
  have hwrite : g.isa LabelBody.isWrite e = lab.body.isWrite := isa_of_getEventLabel hlab _
  have hrmw : g.isRMW e = g.readIsRMW lab := by
    unfold isRMW
    rw [hlab, Option.any_some]
  have hnext : g.readIsRMW lab → g.isExecutionValid c e.next =
      some (c.isSymmetryOK g e.next && !c.partialExecutionExceedsBound g) := by
    intro h
    -- the write of the read-modify-write is in the graph
    have hpos := hg.linked.stamped.positioned.pos e lab hlab
    obtain ⟨nLab, hnLab, -⟩ := (Option.any_eq_true _ _).mp (Bool.and_eq_true_iff.mp h).2
    refine isExecutionValid_of_isConsistent (hg.isConsistent_of_acyclic
      (containsPos_iff.mpr ⟨nLab, ?_⟩) (fun heq => ?_) hacyclic)
    · rw [← hpos]
      exact hnLab
    · exact absurd (congrArg Event.index heq) (Nat.succ_ne_zero _)
  rw [← Bool.or_eq_true, hread, hwrite] at haccess
  unfold isRevisitValid
  simp only [hlab, Option.bind_eq_bind, Option.bind_some, haccess, if_true,
    isExecutionValid_of_isConsistent (hg.isConsistent_of_acyclic he hinit hacyclic)]
  have hpass : c.Pass g e ↔ (c.isSymmetryOK g e && !c.partialExecutionExceedsBound g) ∧
      (lab.body.isRead → c.checkInitializedMem g e) ∧
      (g.readIsRMW lab → c.isSymmetryOK g e.next ∧ c.checkForRaces g e.next) := by
    rw [Bool.and_eq_true, Bool.not_eq_true', ← hread, ← hrmw]
    exact ⟨fun h => ⟨h.valid, h.initialized, h.next⟩, fun ⟨h₁, h₂, h₃⟩ => ⟨h₁, h₂, h₃⟩⟩
  rw [hpass]
  cases hvalid : c.isSymmetryOK g e && !c.partialExecutionExceedsBound g with
  | false => exact ⟨false, rfl, by simp⟩
  | true =>
    cases hi : lab.body.isRead && !c.checkInitializedMem g e with
    | true => exact ⟨false, rfl, by simp_all⟩
    | false =>
      cases hr : g.readIsRMW lab with
      | false => exact ⟨true, rfl, by simp_all⟩
      | true =>
        rw [hnext hr]
        exact ⟨_, rfl, by simp_all⟩

/-- **`isRevisitValid`** finds all inconsistencies of an execution that has not been checked. -/
lemma Unchecked.isRevisitValid_iff (hu : Unchecked g e) (hg : NavigationInvariant g)
    (c : OtherChecks) : ∃ valid, g.isRevisitValid c e = some valid ∧
      (valid ↔ Acyclic g.SCBefore ∧ c.Pass g e) := by
  have he : g.containsPos e := hu.access.elim containsPos_of_isa containsPos_of_isa
  have hinit : e ≠ .init := by
    rintro rfl
    exact hg.linked.index_ne_zero hu.access rfl
  by_cases hacyclic : Acyclic g.SCBefore
  · obtain ⟨valid, hvalid, hpass⟩ := hg.isRevisitValid_of_acyclic hacyclic hinit hu.access c
    exact ⟨valid, hvalid, hpass.trans (and_iff_right hacyclic).symm⟩
  · obtain ⟨b, hb, -⟩ := Visitor.visit_spec hg.navigable SCChecker.proper_visitConsAcyclic1
      (q := 0) (by simp [SCChecker.visitConsAcyclic1]) he
    have hb : SCChecker.isConsistent g e = some b := hb
    cases b with
    | true => exact absurd (hu.acyclic_of_isConsistent hg hb) hacyclic
    | false =>
      obtain ⟨lab, hlab⟩ := containsPos_iff.mp he
      have haccess := hu.access
      rw [isa_of_getEventLabel hlab, isa_of_getEventLabel hlab, ← Bool.or_eq_true] at haccess
      refine ⟨false, ?_, by simp [hacyclic]⟩
      unfold isRevisitValid
      simp only [hlab, Option.bind_eq_bind, Option.bind_some, haccess, if_true,
        isExecutionValid_of_not_isConsistent hb]
      rfl

/-! ## Executions and what has been checked of them -/

/-- What has been checked of an execution. -/
inductive Status
  /-- The execution has been checked, or extends one that has been. -/
  | checked
  /-- An access of a checked execution has been revisited. -/
  | revisited (e : Event)
  /-- The execution is the copy of one that has not been checked, with another read revisited. -/
  | copied (e : Event)
  /-- The revisited read of such a copy has been taken back, so that `isRevisitValid` checks
  nothing, and it did not read from the coherence-last store of its location. -/
  | skipped
  deriving DecidableEq, Repr

namespace Status

/-- The access that has not been checked since its revisit. -/
def access : Status → Option Event
  | checked | skipped => none
  | revisited e | copied e => some e

/-- Restricting to a label takes away what has not been checked. -/
def Settles (s : Status) (g : ExecutionGraph) (x : Event) : Prop :=
  s ≠ skipped ∧ ∀ e ∈ s.access, g.stampOf x < g.stampOf e

instance (s : Status) (g : ExecutionGraph) : DecidablePred (s.Settles g) := fun _ =>
  inferInstanceAs (Decidable (_ ∧ ∀ _ ∈ _, _))

/-- What has been checked of a copy in which a read is revisited. -/
def copy (r : Event) : Status → Status
  | checked => revisited r
  | revisited _ | copied _ => copied r
  | skipped => skipped

/-- What has been checked once the revisited read is taken back. -/
def takeBack (g : ExecutionGraph) : Status → Status
  | checked | revisited _ => checked
  | copied e => if g.ReadsLast e then checked else skipped
  | skipped => skipped

/-- The status `s'` comes next, but a check that has been skipped is never made up for. -/
def next (s s' : Status) : Status := if s = skipped then skipped else s'

/-- What has been checked after a call that changes the current graph. -/
def after (s : Status) (g : ExecutionGraph) : DriverCall → Status
  | .revisitRead r .. => s.next (revisited r)
  | .revisitWrite w _ => s.next (revisited w)
  | .restrictGraph _ => s.next checked
  | .blockThread bLab => if s.access = some bLab.pos then s.takeBack g else s
  | _ => s

/-- What a status says about the graph. -/
def Holds (g : ExecutionGraph) : Status → Prop
  | checked => Acyclic g.SCBefore
  | revisited e => Unchecked g e ∧ (g.isa LabelBody.isRead e → g.containsPos e.next = false →
      FeedbackSet g.SCBefore {e})
  | copied e => Unchecked g e
  | skipped => True

/-- Where an access has not been checked, no check has been skipped. -/
lemma next_of_access {s : Status} (he : s.access = some e) (s' : Status) : s.next s' = s' := by
  refine if_neg ?_
  rintro rfl
  cases he

/-- The executions that have not been checked. -/
lemma Holds.unchecked {s : Status} (h : s.Holds g) (he : s.access = some e) : Unchecked g e := by
  cases s with
  | checked | skipped => cases he
  | revisited e' => exact Option.some.inj he ▸ h.1
  | copied e' => exact Option.some.inj he ▸ h

/-- A status where the access is no read or has the write of its read-modify-write. -/
lemma holds_of_unchecked {s : Status} (he : s.access = some e) (hu : Unchecked g e)
    (hnext : g.isa LabelBody.isRead e → g.containsPos e.next) : s.Holds g := by
  cases s with
  | checked | skipped => cases he
  | revisited e' =>
    obtain rfl := Option.some.inj he
    refine ⟨hu, fun hread hlast => ?_⟩
    rw [hnext hread] at hlast
    cases hlast
  | copied e' => exact Option.some.inj he ▸ hu

end Status

/-- An execution of the driver's stack, with what has been checked of it. -/
structure TrackedExecution where
  /-- The execution. -/
  graph : ExecutionGraph
  /-- What has been checked of it. -/
  status : Status

/-- A call of the driver, or the check of the last revisit. -/
inductive CheckedCall
  | call (call : DriverCall)
  | isRevisitValid (pos : Event)

/-- How the driver extends an execution that has been checked: maximally
(`findConsistentRf`, `findConsistentCo`), or so that the new access passes its check.  The write of
a read-modify-write comes right behind what its read has read. -/
def ExtendsChecked (g : ExecutionGraph) : DriverCall → Prop
  | .handleLoad lab rf => (∀ a ∈ lab.body.addr, g.coLast a = rf) ∨
      ∀ g' ∈ g.handleLoad lab rf, SCChecker.isConsistent g' lab.pos = some true
  | .handleStore lab pred => (∀ a ∈ lab.body.addr, g.coLast a = pred) ∨
      (g.rfOf lab.pos.prev = some pred ∧ g.addrOf lab.pos.prev = lab.body.addr) ∨
      ∀ g' ∈ g.handleStore lab pred, SCChecker.isConsistent g' lab.pos = some true
  | .revisitInPlace r w => ∀ a ∈ g.addrOf r, g.coLast a = w
  | .revisitBarrier rLab w => ∀ a ∈ rLab.body.addr, g.coLast a = w
  | _ => True

/-- What the driver does between the revisit of an access and its check: it takes a read that blocks
back (`removeCASReadIfBlocks`), completes the revisit (`completeRevisitedRMW`, block labels), lets
the write of the access revisit other reads (`calcRevisits`, in place also those that wait at a
barrier), and goes on with revisits that are not younger. -/
def CompletesRevisit (g : ExecutionGraph) (e : Event) : DriverCall → Prop
  | .handleStore lab pred =>
    lab.pos = e.next ∧ g.rfOf e = some pred ∧ g.addrOf e = lab.body.addr
  | .blockThread bLab => bLab.pos = e.next ∧ g.containsPos e.next = false ∨ bLab.pos = e
  | .revisitInPlace r w => r ≠ e ∧ g.IsWriteOf e w
  | .revisitBarrier _ w => g.IsWriteOf e w
  | .restrictGraph stamp => stamp < g.stampOf e
  | .revisitRead x .. | .revisitWrite x _ => g.stampOf x < g.stampOf e ∨ x = e
  | .backwardRevisit r w =>
    g.stampOf w < g.stampOf e ∨ g.IsWriteOf e w ∧ g.stampOf r < g.stampOf e
  | .popExecution => True
  | _ => False

instance (g : ExecutionGraph) : DecidablePred g.ExtendsChecked
  | .handleLoad .. => inferInstanceAs (Decidable ((∀ _ ∈ _, _) ∨ ∀ _ ∈ _, _))
  | .handleStore .. => inferInstanceAs (Decidable ((∀ _ ∈ _, _) ∨ _ ∨ ∀ _ ∈ _, _))
  | .revisitInPlace .. | .revisitBarrier .. => inferInstanceAs (Decidable (∀ _ ∈ _, _))
  | .addLabel _ | .handleBlockedLoad _ | .handleThreadCreate _ | .handleThreadJoin ..
  | .handleFree .. | .blockThread _ | .unblockThread _ | .restrictGraph _ | .revisitRead ..
  | .revisitWrite .. | .backwardRevisit .. | .popExecution => .isTrue trivial

instance (g : ExecutionGraph) (e w : Event) : Decidable (g.IsWriteOf e w) :=
  inferInstanceAs (Decidable (_ ∧ (_ ∨ _)))

instance (g : ExecutionGraph) (e : Event) : DecidablePred (g.CompletesRevisit e)
  | .handleStore .. | .revisitInPlace .. => inferInstanceAs (Decidable (_ ∧ _))
  | .blockThread _ => inferInstanceAs (Decidable (_ ∧ _ ∨ _))
  | .revisitBarrier _ w => inferInstanceAs (Decidable (g.IsWriteOf e w))
  | .restrictGraph _ => inferInstanceAs (Decidable (_ < _))
  | .revisitRead .. | .revisitWrite .. => inferInstanceAs (Decidable (_ ∨ _))
  | .backwardRevisit .. => inferInstanceAs (Decidable (_ ∨ _ ∧ _))
  | .popExecution => .isTrue trivial
  | .addLabel _ | .handleLoad .. | .handleBlockedLoad _ | .handleThreadCreate _
  | .handleThreadJoin .. | .handleFree .. | .unblockThread _ => .isFalse id

/-- What the driver calls depends on what has been checked; where nothing is left to check it calls
anything. -/
def Status.Continues (g : ExecutionGraph) (call : DriverCall) : Status → Prop
  | checked => g.ExtendsChecked call
  | revisited e | copied e => g.CompletesRevisit e call
  | skipped => True

instance (g : ExecutionGraph) (call : DriverCall) : DecidablePred (Status.Continues g call)
  | .checked => inferInstanceAs (Decidable (g.ExtendsChecked call))
  | .revisited e | .copied e => inferInstanceAs (Decidable (g.CompletesRevisit e call))
  | .skipped => .isTrue trivial

namespace TrackedExecution

/-- The effect of a call on the stack of executions. -/
def apply (c : OtherChecks) : List TrackedExecution → CheckedCall → Option (List TrackedExecution)
  | [], _ => none
  | x :: execs, .isRevisitValid pos =>
    (x.graph.isRevisitValid c pos).map fun valid =>
      { x with status := if valid then x.status.next .checked else x.status } :: execs
  | x :: execs, .call (.backwardRevisit r w) => do
    let g ← x.graph.restrictTo w
    let og ← g.backwardRevisit r w
    let s := if x.status.Settles x.graph w then .checked else x.status
    return ⟨og, s.copy r⟩ :: ⟨g, s⟩ :: execs
  | _ :: execs, .call .popExecution => some execs
  | x :: execs, .call call =>
    (call.onGraph x.graph).map fun g => ⟨g, x.status.after x.graph call⟩ :: execs

/-- The calls that the driver makes with an execution. -/
def Allows (x : TrackedExecution) : CheckedCall → Prop
  | .call call => call.AdmissibleFor x.graph ∧ call.KeepsLinks x.graph ∧
    x.status.Continues x.graph call
  | .isRevisitValid pos => ∀ e ∈ x.status.access, pos = e

instance (x : TrackedExecution) : DecidablePred x.Allows
  | .call _ => inferInstanceAs (Decidable (_ ∧ _ ∧ _))
  | .isRevisitValid _ => inferInstanceAs (Decidable (∀ _ ∈ _, _))

/-- A call that the driver makes with the current execution. -/
def AllowedCall (execs : List TrackedExecution) (call : CheckedCall) : Prop :=
  ∀ x ∈ execs.head?, x.Allows call

instance (execs : List TrackedExecution) : DecidablePred (AllowedCall execs) := fun _ =>
  inferInstanceAs (Decidable (∀ _ ∈ _, _))

end TrackedExecution

/-! ## Calls -/

namespace NavigationInvariant

/-- A label that has passed its check, where nothing else has changed. -/
lemma acyclic_of_check (hg' : NavigationInvariant g') (hacyclic : Acyclic g.SCBefore)
    (hout : PartOutside {e} g g') (haccess : g'.isa LabelBody.isRead e ∨ g'.isa LabelBody.isWrite e)
    (hcheck : SCChecker.isConsistent g' e = some true) : Acyclic g'.SCBefore := by
  have hset : FeedbackSet g'.SCBefore {e} :=
    Set.empty_union {e} ▸ hout.feedbackSet (feedbackSet_empty.mpr hacyclic)
  refine hg'.acyclic_of_isConsistent (haccess.elim containsPos_of_isa containsPos_of_isa) ?_ hset
    (fun x hx => Set.mem_singleton_iff.mp hx ▸ .refl) hcheck
  rintro rfl
  exact hg'.linked.index_ne_zero haccess rfl

/-- Restricting to a label that what has not been checked is younger than. -/
lemma acyclic_of_settles (hg : NavigationInvariant g) {s : Status} {x : Event} (hs : s.Holds g)
    (hx : s.Settles g x) (h : g.restrictTo x = some g') : Acyclic g'.SCBefore := by
  obtain ⟨hg', hcycles⟩ := hg.restrictTo h
  obtain ⟨-, -, hcut⟩ := hg.toDriverInvariant.restrictTo h
  cases he : s.access with
  | none =>
    cases s with
    | checked => exact hcycles.acyclic hs
    | skipped => exact absurd rfl hx.1
    | _ => cases he
  | some e =>
    exact (hs.unchecked he).acyclic_of_cut (hcut.partOf hg.linked hg') hcycles hg'.linked
      fun y hy hindex =>
        (hcut.stampOf_le hg.linked.stamped.order hy hindex).trans_lt (hx.2 e he)

open DriverCall

variable {call : DriverCall} (hg : NavigationInvariant g)
include hg

/-- **Extending a checked execution.** -/
lemma holds_of_extendsChecked (hacyclic : Acyclic g.SCBefore) (hcall : call.AdmissibleFor g)
    (hlinks : call.KeepsLinks g) (hext : g.ExtendsChecked call) (h : call.onGraph g = some g') :
    (Status.checked.after g call).Holds g' := by
  have hbase : ∀ x g₁, g.restrictTo x = some g₁ → g₁.CyclesThrough x := fun x g₁ hx =>
    (feedbackSet_empty.mpr ((hg.restrictTo hx).2.acyclic hacyclic)).mono (Set.empty_subset _)
  have hg' := hg.onGraph hcall hlinks h
  cases call with
  | addLabel lab =>
    obtain ⟨hroom, hadds, haddr, hblock, hjoin⟩ := hcall
    exact (hg.addLabel hroom hadds haddr hblock hjoin hlinks.1 hlinks.2 h).2.acyclic hacyclic
  | handleLoad lab rf =>
    obtain ⟨hroom, hadds, hread⟩ := hcall
    obtain ⟨-, hout, hmax, hr⟩ := hg.handleLoad hroom hadds hread hlinks h
    obtain hext | hext := hext
    · obtain ⟨a, ha⟩ : ∃ a, lab.body.addr = some a := by
        rw [← Option.isSome_iff_exists, LabelBody.addr_isSome, hread, Bool.true_or]
      exact (hmax a ha (hext a ha)).acyclic hacyclic
    · exact hg'.acyclic_of_check hacyclic hout (.inl hr) (hext g' h)
  | handleBlockedLoad lab =>
    obtain ⟨hroom, hadds, hread⟩ := hcall
    exact (hg.handleBlockedLoad hroom hadds hread h).2.acyclic hacyclic
  | handleStore lab pred =>
    obtain ⟨hroom, hadds, hwrite⟩ := hcall
    obtain ⟨-, hout, hstore⟩ := hg.handleStore hroom hadds hwrite h
    obtain hext | ⟨hrf, haddr⟩ | hext := hext
    · exact (hstore.addsNoCycle hg.linked hg'.linked hwrite hout hext).acyclic hacyclic
    · exact hstore.acyclic_of_rmw hg hg' (hadds.new.index_ne_zero
        (LabelBody.threads_of_addr (.inr hwrite)).1) hrf haddr hwrite hout hacyclic
    · refine hg'.acyclic_of_check hacyclic hout (.inr ?_) (hext g' h)
      rw [hstore.isa, if_pos rfl]
      exact hwrite
  | handleThreadCreate pos =>
    obtain ⟨hroom, hindex, hpos, hthread⟩ := hcall
    exact (hg.handleThreadCreate hroom hindex hpos hthread h).2.acyclic hacyclic
  | handleThreadJoin pos childId =>
    obtain ⟨hroom, hindex, hpos, hthread⟩ := hcall
    refine (hg.handleThreadJoin hroom hindex hpos hthread (fun j hj => ?_) h).2.acyclic hacyclic
    exact hlinks j (mem_positions.mpr (containsPos_of_isa (joinedOf_eq_some_iff.mp hj))) hj
  | handleFree pos kind freeAddr =>
    obtain ⟨hroom, hindex, hpos, hthread⟩ := hcall
    exact (hg.handleFree hroom hindex hpos hthread h).2.acyclic hacyclic
  | blockThread bLab =>
    obtain ⟨hroom, hnew, hblock, hindex⟩ := hcall
    exact (hg.blockThread hroom hnew hblock hindex h).2.1.acyclic hacyclic
  | unblockThread t => exact (hg.unblockThread h).2.acyclic hacyclic
  | restrictGraph stamp => exact (hg.restrictGraph hcall h).2.acyclic hacyclic
  | revisitRead r rev isMaximal =>
    obtain ⟨hu, hset⟩ := hg.feedbackSet_revisitReadForward hlinks h (hbase r)
    exact ⟨hu, fun _ _ => hset⟩
  | revisitWrite w pred =>
    refine ⟨hg.unchecked_revisitWrite h (hbase w), fun hread => ?_⟩
    obtain ⟨-, -, -, -, -, -, -, -, hw⟩ := hg.revisitWrite h
    rw [(isa_of_isRead hread).1] at hw
    cases hw
  | revisitInPlace r w => exact ((hg.revisitInPlace hcall hlinks h).2.1 hext).acyclic hacyclic
  | revisitBarrier rLab w =>
    obtain ⟨hroom, hnew, hread, hnext, htaken, hprev⟩ := hcall
    exact ((hg.revisitBarrier hroom hnew hread hnext htaken hprev hlinks h).2.1 hext).acyclic
      hacyclic
  | backwardRevisit r w => cases h
  | popExecution => cases h

/-- The thread of an access that has not been checked is blocked behind it. -/
lemma holds_of_blockNext {s : Status} {bLab : EventLabel} (hs : s.Holds g) (he : s.access = some e)
    (hcall : (DriverCall.blockThread bLab).AdmissibleFor g) (hnext : bLab.pos = e.next)
    (hfree : g.containsPos e.next = false)
    (h : (DriverCall.blockThread bLab).onGraph g = some g') : s.Holds g' := by
  obtain ⟨hroom, hnew, hblock, ⟨hindex, hrunning⟩ | ⟨-, hclass⟩⟩ := hcall
  · obtain ⟨hgrows, -, -, hlead⟩ := hg.addBlock hroom hnew hblock hindex hrunning h
    have hwrite : bLab.body.isWrite = false := by
      rw [Bool.eq_false_iff]
      intro hw
      rw [(LabelBody.classes_of_isWrite hw).1] at hblock
      cases hblock
    exact Status.holds_of_unchecked he
      (hgrows.unchecked (hs.unchecked he) hg.linked hindex (hnext ▸ Nat.succ_ne_zero _) hwrite
        hlead)
      fun _ => (hgrows.containsPos _).mpr (.inl hnext.symm)
  · rw [← hnext, hclass.elim containsPos_of_isa fun htaken => containsPos_of_isa htaken.1] at hfree
    cases hfree

/-- A read that has not been checked is taken back, as it blocks. -/
lemma holds_of_takeBack {s : Status} {bLab : EventLabel} (hs : s.Holds g) (he : s.access = some e)
    (hcall : (DriverCall.blockThread bLab).AdmissibleFor g) (hpos : bLab.pos = e)
    (h : (DriverCall.blockThread bLab).onGraph g = some g') : (s.takeBack g).Holds g' := by
  obtain ⟨hroom, hnew, hblock, hindex⟩ := hcall
  have hu := hs.unchecked he
  have heIn : g.containsPos bLab.pos := hpos ▸ hu.access.elim containsPos_of_isa containsPos_of_isa
  obtain ⟨hlast, hclass⟩ := hindex.resolve_left fun hfresh => by
    rw [containsPos_eq_false hfresh.1] at heIn
    cases heIn
  have hread : g.isa LabelBody.isRead e := by
    refine hpos ▸ hclass.elim (fun hblocked => ?_) And.left
    obtain ⟨lab, hlab, hisBlock⟩ := isa_iff.mp hblocked
    have haccess := hu.access
    rw [← hpos, isa_of_getEventLabel hlab, isa_of_getEventLabel hlab] at haccess
    rw [haccess.elim (fun hr => (LabelBody.classes_of_isRead hr).1)
      fun hw => (LabelBody.classes_of_isWrite hw).1] at hisBlock
    cases hisBlock
  have hnext : g.containsPos e.next = false := by
    rw [← hpos, hlast]
    exact containsPos_next_lastPos _
  obtain ⟨-, hcycles, hlead⟩ := hg.blockThread hroom hnew hblock (.inr ⟨hlast, hclass⟩) h
  cases s with
  | checked | skipped => cases he
  | copied e' =>
    obtain rfl := Option.some.inj he
    by_cases hreads : g.ReadsLast e'
    · rw [Status.takeBack, if_pos hreads]
      exact hcycles.acyclic (hu.acyclic_of_readsLast hg hread hreads)
    · rw [Status.takeBack, if_neg hreads]
      trivial
  | revisited e' =>
    obtain rfl := Option.some.inj he
    -- the cycles went through the read, and nothing comes after its block label
    refine feedbackSet_empty.mp ((hcycles _ (hs.2 hread hnext)).drop fun x hx _ b hb => ?_)
    rw [Set.mem_singleton_iff.mp hx, ← hpos] at hb
    exact absurd hb (hlead b)

/-- **Completing a revisit.** -/
lemma holds_of_completesRevisit {s : Status} (hs : s.Holds g) (he : s.access = some e)
    (hcall : call.AdmissibleFor g) (hlinks : call.KeepsLinks g)
    (hext : g.CompletesRevisit e call) (h : call.onGraph g = some g') :
    (s.after g call).Holds g' := by
  have hu := hs.unchecked he
  have hg' := hg.onGraph hcall hlinks h
  cases call with
  | handleStore lab pred =>
    obtain ⟨hroom, hadds, hwrite⟩ := hcall
    obtain ⟨hnext, hrf, haddr⟩ := hext
    obtain ⟨-, hout, hstore⟩ := hg.handleStore hroom hadds hwrite h
    exact Status.holds_of_unchecked he (hstore.unchecked hu hg hg' hwrite hout hnext hrf haddr)
      fun _ => (hstore.containsPos _).mpr (.inl hnext.symm)
  | blockThread bLab =>
    obtain ⟨hnext, hfree⟩ | hpos := hext
    · have hafter : s.after g (.blockThread bLab) = s := if_neg fun heq => by
        have hself : e = e.next := Option.some.inj (he.symm.trans (heq.trans (congrArg some hnext)))
        exact absurd (congrArg Event.index hself) (Nat.succ_ne_self _).symm
      rw [hafter]
      exact hg.holds_of_blockNext hs he hcall hnext hfree h
    · have hafter : s.after g (.blockThread bLab) = s.takeBack g :=
        if_pos (he.trans (congrArg some hpos.symm))
      rw [hafter]
      exact hg.holds_of_takeBack hs he hcall hpos h
  | revisitInPlace r w =>
    obtain ⟨hne, hw⟩ := hext
    obtain ⟨-, -, g₁, flag, hpart, hg₁, hcycles, hlast, hout, hassigns⟩ :=
      hg.revisitInPlace hcall hlinks h
    have hwIn : g'.containsPos w := hg'.linked.readerLists.containsPos_of_rfOf (r := r) (by
      rw [hassigns.rfOf, if_pos rfl])
    obtain ⟨hu₁, hw₁⟩ := hu.part hpart hcycles hg₁.linked hw (hassigns.relinks.containsPos w ▸ hwIn)
    refine Status.holds_of_unchecked he
      (hassigns.unchecked hu₁ hg₁.linked hg'.linked hout hw₁ hne hlast) fun hread => ?_
    rw [hassigns.relinks.isa] at hread
    rw [hassigns.relinks.containsPos]
    exact hw₁.containsPos_next hread
  | revisitBarrier rLab w =>
    obtain ⟨hroom, hnew, hread, hnext, htaken, hprev⟩ := hcall
    obtain ⟨-, -, g₁, g₂, g₃, hstages⟩ :=
      hg.revisitBarrier hroom hnew hread hnext htaken hprev hlinks h
    obtain ⟨hu', hw'⟩ := hstages.unchecked hu hg'.linked hread htaken.1 hext
    exact Status.holds_of_unchecked he hu' hw'.containsPos_next
  | restrictGraph stamp =>
    have hg₁ := hg.restrictGraph hcall h
    obtain ⟨-, hcut⟩ := hg.toDriverInvariant.restrictGraph hcall h
    rw [show s.after g (.restrictGraph stamp) = .checked from Status.next_of_access he _]
    exact hu.acyclic_of_cut (hcut.partOf hg.linked hg') hg₁.2 hg'.linked fun x hx hindex =>
      (hcut.stampOf_le hg.linked.stamped.order hx hindex).trans_lt hext
  | revisitRead r rev isMaximal =>
    obtain ⟨hr, hset⟩ := hg.feedbackSet_revisitReadForward hlinks h fun g₁ hg₁ =>
      hg.cyclesThrough_of_restrictTo hu hext hg₁
    rw [show s.after g (.revisitRead r rev isMaximal) = .revisited r from
      Status.next_of_access he _]
    exact ⟨hr, fun _ _ => hset⟩
  | revisitWrite w pred =>
    rw [show s.after g (.revisitWrite w pred) = .revisited w from Status.next_of_access he _]
    refine ⟨hg.unchecked_revisitWrite h fun g₁ hg₁ =>
      hg.cyclesThrough_of_restrictTo hu hext hg₁, fun hread => ?_⟩
    obtain ⟨-, -, -, -, -, -, -, -, hw⟩ := hg.revisitWrite h
    rw [(isa_of_isRead hread).1] at hw
    cases hw
  | backwardRevisit r w => cases h
  | popExecution => cases h
  | _ => cases hext

end NavigationInvariant

namespace TrackedExecution

/-- What holds of every execution on the stack. -/
structure Sound (x : TrackedExecution) : Prop where
  /-- The links are right. -/
  navigation : NavigationInvariant x.graph
  /-- What has been checked holds. -/
  status : x.status.Holds x.graph

/-- A call that changes the current graph only. -/
lemma sound_onGraph {x : TrackedExecution} {call : DriverCall} (hx : x.Sound)
    (hcall : x.Allows (.call call)) (h : call.onGraph x.graph = some g') :
    Sound ⟨g', x.status.after x.graph call⟩ := by
  obtain ⟨hg, hs⟩ := hx
  obtain ⟨hadmissible, hlinks, hallowed⟩ := hcall
  refine ⟨hg.onGraph hadmissible hlinks h, ?_⟩
  cases hstatus : x.status with
  | checked =>
    rw [hstatus] at hs hallowed
    exact hg.holds_of_extendsChecked hs hadmissible hlinks hallowed h
  | revisited e | copied e =>
    rw [hstatus] at hs hallowed
    exact hg.holds_of_completesRevisit hs rfl hadmissible hlinks hallowed h
  | skipped =>
    have hafter : Status.skipped.after x.graph call = .skipped := by cases call <;> rfl
    rw [hafter]
    trivial

/-- **Backward revisits** of checked and unchecked executions. -/
lemma sound_backwardRevisit {x : TrackedExecution} {r w : Event} {og : ExecutionGraph} {s : Status}
    (hx : x.Sound) (hcall : x.Allows (.call (.backwardRevisit r w)))
    (h : x.graph.restrictTo w = some g) (hog : g.backwardRevisit r w = some og)
    (hstatus : s = if x.status.Settles x.graph w then .checked else x.status) :
    Sound ⟨og, s.copy r⟩ ∧ Sound ⟨g, s⟩ := by
  obtain ⟨hg, hs⟩ := hx
  obtain ⟨hadmissible, hlinks, hallowed⟩ := hcall
  obtain ⟨-, -, hcut⟩ := hg.toDriverInvariant.restrictTo h
  obtain ⟨u, hmay⟩ := hg.mayRevisit hadmissible hcut
  have hloc := hcut.addrOf_eq_of_backwardRevisit hadmissible hlinks
  obtain ⟨hg₁, hcycles⟩ := hg.restrictTo h
  obtain ⟨hfresh, hcopy⟩ := hg₁.unchecked_backwardRevisit hmay hloc hog
  have hnav := (hg₁.backwardRevisit hmay hloc hog).1
  -- a copy of a checked execution, and of one where an access is not checked
  have hchecked : Acyclic g.SCBefore → Sound ⟨og, .revisited r⟩ ∧ Sound ⟨g, .checked⟩ := by
    intro hacyclic
    obtain ⟨hu, hset⟩ := hfresh hacyclic
    exact ⟨⟨hnav, hu, fun _ _ => hset⟩, hg₁, hacyclic⟩
  have hunchecked : ∀ e, x.status.access = some e →
      x.graph.CompletesRevisit e (.backwardRevisit r w) →
      ¬x.graph.stampOf w < x.graph.stampOf e → Sound ⟨og, .copied r⟩ ∧ Sound ⟨g, x.status⟩ := by
    intro e he hallowed hle
    obtain ⟨hw, hlt⟩ := hallowed.resolve_left hle
    have hpart := hcut.partOf hg.linked hg₁
    obtain ⟨hu₁, hw₁⟩ := (hs.unchecked he).part hpart hcycles hg₁.linked hw
      (containsPos_of_isa hmay.write)
    refine ⟨⟨hnav, hcopy e hu₁ hw₁ ((hpart.order r e (containsPos_of_isa hmay.read)
      (hu₁.access.elim containsPos_of_isa containsPos_of_isa)).mpr hlt)⟩, hg₁, ?_⟩
    exact Status.holds_of_unchecked he hu₁ hw₁.containsPos_next
  split at hstatus
  next hsettles =>
    subst hstatus
    exact hchecked (hg.acyclic_of_settles hs hsettles h)
  next hsettles =>
    subst hstatus
    cases hstatus : x.status with
    | checked =>
      rw [hstatus] at hsettles
      refine absurd ⟨?_, fun e he => ?_⟩ hsettles
      · rintro ⟨⟩
      · cases he
    | skipped => exact ⟨⟨hnav, trivial⟩, hg₁, trivial⟩
    | revisited e | copied e =>
      rw [hstatus] at hallowed hunchecked hsettles
      refine hunchecked e rfl hallowed fun hlt => hsettles ⟨?_, fun e' he' => ?_⟩
      · rintro ⟨⟩
      · exact Option.some.inj he' ▸ hlt

/-- The check of a revisit. -/
lemma sound_isRevisitValid {c : OtherChecks} {x : TrackedExecution} {pos : Event} {valid : Bool}
    (hx : x.Sound) (hcall : x.Allows (.isRevisitValid pos))
    (h : x.graph.isRevisitValid c pos = some valid) :
    Sound { x with status := if valid then x.status.next .checked else x.status } := by
  obtain ⟨hg, hs⟩ := hx
  refine ⟨hg, ?_⟩
  cases valid with
  | false => exact hs
  | true =>
    have hunchecked : ∀ e, x.status.access = some e → Acyclic x.graph.SCBefore := by
      intro e he
      obtain rfl := hcall e he
      obtain ⟨valid, hvalid, hiff⟩ := (hs.unchecked he).isRevisitValid_iff hg c
      obtain rfl := Option.some.inj (h.symm.trans hvalid)
      exact (hiff.mp rfl).1
    cases hstatus : x.status with
    | checked =>
      rw [hstatus] at hs
      exact hs
    | revisited e | copied e => exact hunchecked e (congrArg Status.access hstatus)
    | skipped => trivial

/-- **Steps.**  A call keeps all executions on the stack sound. -/
lemma sound_apply {c : OtherChecks} {execs execs' : List TrackedExecution} {call : CheckedCall}
    (hexecs : ∀ x ∈ execs, x.Sound) (hcall : AllowedCall execs call)
    (h : apply c execs call = some execs') : ∀ x ∈ execs', x.Sound := by
  cases execs with
  | nil => cases h
  | cons x execs =>
    have hx := hexecs x List.mem_cons_self
    have hrest : ∀ y ∈ execs, y.Sound := fun y hy => hexecs y (List.mem_cons_of_mem _ hy)
    have hcall := hcall x rfl
    cases call with
    | isRevisitValid pos =>
      obtain ⟨valid, hvalid, rfl⟩ := Option.map_eq_some_iff.mp h
      exact List.forall_mem_cons.mpr ⟨sound_isRevisitValid hx hcall hvalid, hrest⟩
    | call call =>
      -- A call that changes the current graph only.
      have honGraph : ((call.onGraph x.graph).map fun g =>
          ⟨g, x.status.after x.graph call⟩ :: execs) = some execs' → ∀ y ∈ execs', y.Sound := by
        intro hmap
        obtain ⟨g, hg, rfl⟩ := Option.map_eq_some_iff.mp hmap
        exact List.forall_mem_cons.mpr ⟨sound_onGraph hx hcall hg, hrest⟩
      cases call with
      | backwardRevisit r w =>
        obtain ⟨g, hg, h⟩ := Option.bind_eq_some_iff.mp h
        obtain ⟨og, hog, h⟩ := Option.bind_eq_some_iff.mp h
        obtain ⟨hog', hg'⟩ := sound_backwardRevisit hx hcall hg hog rfl
        obtain rfl := Option.some.inj h
        exact List.forall_mem_cons.mpr ⟨hog', List.forall_mem_cons.mpr ⟨hg', hrest⟩⟩
      | popExecution => exact Option.some.inj h ▸ hrest
      | _ => exact honGraph h

/-- The new graph has no cycles. -/
lemma acyclic_initial : Acyclic initial.SCBefore := by
  have hinit : ∀ e, initial.containsPos e → e = .init := by
    intro e he
    unfold ExecutionGraph.containsPos at he
    rw [getEventLabel_initial] at he
    split at he
    next heq => exact heq
    next => cases he
  intro e hcycle
  obtain ⟨b, hb, -⟩ := Relation.TransGen.head'_iff.mp hcycle
  obtain ⟨he, hbIn⟩ := containsPos_of_scBefore navigationInvariant_initial.linked.readerLists
    navigationInvariant_initial.linked.stores hb
  rw [hinit e he, hinit b hbIn] at hb
  revert hb
  decide

/-- **Runs.**  All executions on the stack are sound. -/
lemma sound_exec {c : OtherChecks} {calls : List CheckedCall} {execs : List TrackedExecution}
    (hcalls : PartialRun.Meets (apply c) AllowedCall [⟨initial, .checked⟩] calls)
    (h : PartialRun.exec (apply c) [⟨initial, .checked⟩] calls = some execs) :
    ∀ x ∈ execs, x.Sound := by
  refine PartialRun.exec_invariant
    (fun _ _ _ hexecs hcall hstep => sound_apply hexecs hcall hstep) ?_ hcalls h
  intro x hx
  obtain rfl := List.mem_singleton.mp hx
  exact ⟨navigationInvariant_initial, acyclic_initial⟩

/-- Checks that always pass. -/
def allPass : OtherChecks := ⟨fun _ _ => true, fun _ => false, fun _ _ => true, fun _ _ => true⟩

/-- The read of a fetch-and-add is revisited by a write of another thread, and the fetch-and-add is
completed. -/
def completedRun : List CheckedCall :=
  [.call (.handleThreadCreate ⟨0, 1⟩),
    .call (.handleLoad { pos := ⟨0, 2⟩, body := .read .faiRead { addr := ⟨8⟩ } none false } .init),
    .call (.handleStore { pos := ⟨0, 3⟩, body := .write .faiWrite { addr := ⟨8⟩ } [] } .init),
    .call (.handleStore { pos := ⟨1, 1⟩, body := .write .write { addr := ⟨8⟩ } [] } ⟨0, 3⟩),
    .call (.backwardRevisit ⟨0, 2⟩ ⟨1, 1⟩),
    .call (.handleStore { pos := ⟨0, 3⟩, body := .write .faiWrite { addr := ⟨8⟩ } [] } ⟨1, 1⟩)]

/-- **Safety.**  Every execution of a run that has been checked, or that extends one that has been,
can be run by interleaving its threads, so that the checks that the driver has left out would have
passed. -/
theorem exists_interleaving_of_run {c : OtherChecks} {calls : List CheckedCall}
    {execs : List TrackedExecution} {x : TrackedExecution}
    (hcalls : PartialRun.Meets (apply c) AllowedCall [⟨initial, .checked⟩] calls)
    (hexec : PartialRun.exec (apply c) [⟨initial, .checked⟩] calls = some execs)
    (hx : x ∈ execs) (hchecked : x.status = .checked) : (∃ q, Interleaving x.graph q) ∧
      ∀ e, x.graph.containsPos e → e ≠ .init → SCChecker.isConsistent x.graph e = some true := by
  obtain ⟨hg, hs⟩ := sound_exec hcalls hexec x hx
  rw [hchecked] at hs
  exact ⟨exists_interleaving hg.navigable hs, fun e he hinit =>
    hg.isConsistent_of_acyclic he hinit hs⟩

/-- After the check of the revisit both executions of the run can be run by interleaving. -/
theorem exists_interleaving_of_completedRun : ∃ execs,
    PartialRun.exec (apply allPass) [⟨initial, .checked⟩]
      (completedRun ++ [.isRevisitValid ⟨0, 2⟩]) = some execs ∧ execs.length = 2 ∧
    ∀ x ∈ execs, (∃ q, Interleaving x.graph q) ∧ ∀ e, x.graph.containsPos e → e ≠ .init →
      SCChecker.isConsistent x.graph e = some true := by
  obtain ⟨execs, hexec⟩ : ∃ execs, PartialRun.exec (apply allPass) [⟨initial, .checked⟩]
      (completedRun ++ [.isRevisitValid ⟨0, 2⟩]) = some execs :=
    Option.isSome_iff_exists.mp (by decide +kernel)
  have hall : (PartialRun.exec (apply allPass) [⟨initial, .checked⟩]
      (completedRun ++ [.isRevisitValid ⟨0, 2⟩])).any (fun execs =>
        execs.length = 2 ∧ ∀ x ∈ execs, x.status = .checked) := by decide +kernel
  rw [hexec, Option.any_some, decide_eq_true_eq] at hall
  exact ⟨execs, hexec, hall.1, fun x hx =>
    exists_interleaving_of_run (by decide +kernel) hexec hx (hall.2 x hx)⟩

/-- The write of a fetch-and-add revisits a compare-and-swap, which then fails, so that its read is
taken back; the fetch-and-add has not been checked. -/
def skippedRun : List CheckedCall :=
  [.call (.handleThreadCreate ⟨0, 1⟩), .call (.handleThreadCreate ⟨0, 2⟩),
    .call (.handleStore { pos := ⟨0, 3⟩, body := .write .write { addr := ⟨8⟩ } [] } .init),
    .call (.handleLoad { pos := ⟨0, 4⟩, body := .read .read { addr := ⟨16⟩ } none false } .init),
    .call (.handleLoad { pos := ⟨1, 1⟩, body := .read .casRead { addr := ⟨8⟩ } none false } ⟨0, 3⟩),
    .call (.handleStore { pos := ⟨1, 2⟩, body := .write .casWrite { addr := ⟨8⟩ } [] } ⟨0, 3⟩),
    .call (.handleStore { pos := ⟨2, 1⟩, body := .write .write { addr := ⟨16⟩ } [] } .init),
    .call (.handleLoad { pos := ⟨2, 2⟩, body := .read .faiRead { addr := ⟨8⟩ } none false } ⟨1, 2⟩),
    .call (.handleStore { pos := ⟨2, 3⟩, body := .write .faiWrite { addr := ⟨8⟩ } [] } ⟨1, 2⟩),
    .call (.revisitRead ⟨2, 2⟩ .init false),
    .call (.handleStore { pos := ⟨2, 3⟩, body := .write .faiWrite { addr := ⟨8⟩ } [] } .init),
    .isRevisitValid ⟨2, 2⟩,
    .call (.backwardRevisit ⟨1, 1⟩ ⟨2, 3⟩),
    .call (.blockThread { pos := ⟨1, 1⟩, body := .plain (.readOptBlock ⟨8⟩) }),
    .isRevisitValid ⟨1, 1⟩]

/-- Where the check of a copy has been skipped, there can be no such run: the copy has kept a cycle
of the execution that it was made from. -/
theorem not_interleaving_of_skippedRun :
    PartialRun.Meets (apply allPass) AllowedCall [⟨initial, .checked⟩] skippedRun ∧
    ∃ execs, PartialRun.exec (apply allPass) [⟨initial, .checked⟩] skippedRun = some execs ∧
      ∃ x ∈ execs, x.status = .skipped ∧ x.graph.isRevisitValid allPass ⟨1, 1⟩ = some true ∧
        ¬∃ q, Interleaving x.graph q := by
  have hcalls : PartialRun.Meets (apply allPass) AllowedCall [⟨initial, .checked⟩] skippedRun := by
    decide +kernel
  obtain ⟨execs, hexec⟩ : ∃ execs, PartialRun.exec (apply allPass) [⟨initial, .checked⟩]
      skippedRun = some execs := Option.isSome_iff_exists.mp (by decide +kernel)
  have hany : (PartialRun.exec (apply allPass) [⟨initial, .checked⟩] skippedRun).any fun execs =>
      ∃ x ∈ execs, x.status = .skipped ∧ x.graph.isRevisitValid allPass ⟨1, 1⟩ = some true ∧
        x.graph.containsPos ⟨0, 4⟩ ∧ SCChecker.isConsistent x.graph ⟨0, 4⟩ = some false := by
    decide +kernel
  rw [hexec, Option.any_some, decide_eq_true_eq] at hany
  obtain ⟨x, hx, hstatus, hvalid, he, hcheck⟩ := hany
  refine ⟨hcalls, execs, hexec, x, hx, hstatus, hvalid, ?_⟩
  rintro ⟨q, hq⟩
  have hg := (sound_exec hcalls hexec x hx).navigation
  have htrue := hg.isConsistent_of_acyclic he (by decide) (hq.acyclic hg.navigable)
  rw [hcheck] at htrue
  cases htrue

/-- In a contended lock the second acquisition revisits the first one before it is checked.  The
copy counts as checked, as the read got the last write of the lock. -/
example : (PartialRun.exec (apply allPass) [⟨initial, .checked⟩]
    [.call (.handleThreadCreate ⟨0, 1⟩),
      .call (.handleLoad { pos := ⟨0, 2⟩, body := .read .lockCasRead { addr := ⟨8⟩ } none false }
        .init),
      .call (.handleStore { pos := ⟨0, 3⟩, body := .write .lockCasWrite { addr := ⟨8⟩ } [] } .init),
      .call (.handleStore { pos := ⟨0, 4⟩, body := .write .unlockWrite { addr := ⟨8⟩ } [] } ⟨0, 3⟩),
      .call (.handleLoad { pos := ⟨1, 1⟩, body := .read .lockCasRead { addr := ⟨8⟩ } none false }
        ⟨0, 4⟩),
      .call (.handleStore { pos := ⟨1, 2⟩, body := .write .lockCasWrite { addr := ⟨8⟩ } [] }
        ⟨0, 4⟩),
      .call (.revisitRead ⟨1, 1⟩ .init false),
      .call (.handleStore { pos := ⟨1, 2⟩, body := .write .lockCasWrite { addr := ⟨8⟩ } [] } .init),
      .call (.backwardRevisit ⟨0, 2⟩ ⟨1, 2⟩),
      .call (.blockThread { pos := ⟨0, 2⟩, body := .plain (.readOptBlock ⟨8⟩) })]).any (fun execs =>
    execs.map TrackedExecution.status = [.checked, .revisited ⟨1, 1⟩]) := by
  decide +kernel

/-- **Exactness.**  In an execution of a run that has not been checked since a revisit, the check of
the revisited access passes if and only if the other checks do and the execution can be run by
interleaving its threads; the check of the read-modify-write's write finds nothing more. -/
theorem isRevisitValid_iff_of_run {c : OtherChecks} {calls : List CheckedCall}
    {execs : List TrackedExecution} {x : TrackedExecution}
    (hcalls : PartialRun.Meets (apply c) AllowedCall [⟨initial, .checked⟩] calls)
    (hexec : PartialRun.exec (apply c) [⟨initial, .checked⟩] calls = some execs)
    (hx : x ∈ execs) (he : x.status.access = some e) :
    ∃ valid, x.graph.isRevisitValid c e = some valid ∧
      (valid ↔ (∃ q, Interleaving x.graph q) ∧ c.Pass x.graph e) := by
  obtain ⟨hg, hs⟩ := sound_exec hcalls hexec x hx
  obtain ⟨valid, hvalid, hiff⟩ := (hs.unchecked he).isRevisitValid_iff hg c
  exact ⟨valid, hvalid, hiff.trans (and_congr_left' ⟨exists_interleaving hg.navigable,
    fun ⟨_, h⟩ => h.acyclic hg.navigable⟩)⟩

/-- The check of the revisit is exact. -/
theorem isRevisitValid_iff_of_completedRun : ∃ execs,
    PartialRun.exec (apply allPass) [⟨initial, .checked⟩] completedRun = some execs ∧
    ∃ x ∈ execs, x.status = .revisited ⟨0, 2⟩ ∧ ∃ valid,
      x.graph.isRevisitValid allPass ⟨0, 2⟩ = some valid ∧
      (valid ↔ (∃ q, Interleaving x.graph q) ∧ allPass.Pass x.graph ⟨0, 2⟩) := by
  obtain ⟨execs, hexec⟩ : ∃ execs, PartialRun.exec (apply allPass) [⟨initial, .checked⟩]
      completedRun = some execs := Option.isSome_iff_exists.mp (by decide +kernel)
  have hany : (PartialRun.exec (apply allPass) [⟨initial, .checked⟩] completedRun).any
      fun execs => ∃ x ∈ execs, x.status = .revisited ⟨0, 2⟩ := by decide +kernel
  rw [hexec, Option.any_some, decide_eq_true_eq] at hany
  obtain ⟨x, hx, hstatus⟩ := hany
  exact ⟨execs, hexec, x, hx, hstatus, isRevisitValid_iff_of_run (by decide +kernel) hexec hx
    (congrArg Status.access hstatus)⟩

end TrackedExecution

end ExecutionGraph

end GenMC
