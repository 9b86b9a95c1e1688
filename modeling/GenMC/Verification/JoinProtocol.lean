import GenMC.Verification.FreeHandler
import Mathlib.Data.BitVec

/-!
# Joining threads

A join returns the value of a thread that has finished and blocks its thread otherwise.  The handler
looks at the last label of the joined thread first and checks the identifier only when the join has
been added.  So a wrong identifier is never reported: it leads to an access outside of the graph, to
another thread if it is wider than 32 bits, or to a thread that waits for itself.  For the
identifier of another thread the handler does what it should (`joinProtocol`), and a thread that
waits is woken up by the label that finishes the other thread, and by no other one.
-/

namespace GenMC

/-- `JoinBlockLabel` of a thread that waits for another one. -/
def LabelBody.isJoinBlockOf (c : ℕ) (b : LabelBody) : Bool := b = plain (.joinBlock c)

instance (c : ℕ) : ClassTest (LabelBody.isJoinBlockOf c) :=
  ⟨fun m b => by cases b <;> simp [LabelBody.isJoinBlockOf, LabelBody.mapFields]⟩

/-- `isa<JoinBlockLabel>`. -/
def LabelBody.isJoinBlock : LabelBody → Bool
  | plain (.joinBlock _) => true
  | _ => false

lemma LabelBody.isJoinBlock_of_isJoinBlockOf {c : ℕ} {b : LabelBody} (h : b.isJoinBlockOf c) :
    b.isJoinBlock := by
  obtain rfl := of_decide_eq_true h
  rfl

lemma LabelBody.isBlock_of_isJoinBlockOf {c : ℕ} {b : LabelBody} (h : b.isJoinBlockOf c) :
    b.isBlock := by
  obtain rfl := of_decide_eq_true h
  rfl

/-- What a join yields. -/
inductive JoinResult where
  /-- The value that the join returns. -/
  | value (v : SVal)
  /-- `VE_InvalidJoin` with its text. -/
  | invalidJoin (err : String)
  /-- The thread is blocked. -/
  | blocked
  /-- The execution exceeds the bound. -/
  | moot
deriving DecidableEq

/-- The text of `VE_InvalidJoin`. -/
def invalidJoinError (t cid : ℕ) : String :=
  "ERROR: Invalid TID in pthread_join(): " ++ toString cid ++
    (if cid = t then " (TID cannot be the same as the calling thread)" else "")

/-- `callThreadJoin`: the argument becomes the `unsigned int` of a `ThreadJoinLabel`. -/
def joinTarget (arg : BitVec 64) : ℕ := (arg.setWidth 32).toNat

namespace ExecutionGraph

/-- `getJoinValue`, where the return values of the threads are given by the places of their ends. -/
def getJoinValue (g : ExecutionGraph) (retVal : Event → SVal) (c : ℕ) : Option SVal :=
  if g.isa LabelBody.isThreadFinish (g.lastPos c) then some (retVal (g.lastPos c)) else none

/-- `handleThreadJoin`, where it is known whether the execution then exceeds the bound.  The last
label of a thread can only be looked at if the thread exists. -/
def handleThreadJoinLabel (g : ExecutionGraph) (retVal : Event → SVal) (exceedsBound : Bool)
    (pos : Event) (childId : ℕ) : Option (ExecutionGraph × JoinResult) :=
  if g.isExecutionDrivenByGraph pos then
    ((g.getEventLabel pos).bind fun lab => lab.body.joinedThread).bind fun c =>
      (g.getJoinValue retVal c).map fun v => (g, .value v)
  else if g.containsPos (g.lastPos childId) = false then none
  else if g.isa LabelBody.isThreadFinish (g.lastPos childId) = false then
    (g.blockThread { pos := pos, body := .plain (.joinBlock childId) }).map fun g => (g, .blocked)
  else do
    let g ← g.addLabelWithViews { pos := pos, body := .plain (.threadJoin childId) }
    let g ← (if g.isa LabelBody.isThreadFinish (g.lastPos childId) then
        some (g.updateLabel (g.lastPos childId) (EventLabel.setParentJoin (some pos)))
      else none)
    if g.getNumThreads ≤ childId ∨ childId = pos.thread then
      return (g, .invalidJoin (invalidJoinError pos.thread childId))
    if exceedsBound then return (g, .moot)
    let v ← g.getJoinValue retVal childId
    return (g, .value v)

/-- The loop body of `handleThreadFinish`. -/
def wakeWaiting (c : ℕ) (g : ExecutionGraph) (t : ℕ) : Option ExecutionGraph :=
  if g.containsPos (g.lastPos t) = false then none
  else if g.isa (LabelBody.isJoinBlockOf c) (g.lastPos t) then g.unblockThread t
  else some g

/-- `handleThreadFinish`. -/
def handleThreadFinish (g : ExecutionGraph) (lab : EventLabel) : Option ExecutionGraph :=
  if g.isExecutionDrivenByGraph lab.pos then some g
  else do
    let g ← g.addLabelWithViews lab
    (List.range g.getNumThreads).foldlM (wakeWaiting lab.pos.thread) g

variable {g g' g'' : ExecutionGraph}

/-! ## What happens to the other threads -/

/-- The threads and the classes of their labels are the same. -/
structure SameShape (g g' : ExecutionGraph) : Prop where
  /-- The threads are the same. -/
  numThreads : g'.getNumThreads = g.getNumThreads
  /-- The positions are the same. -/
  containsPos : ∀ e, g'.containsPos e = g.containsPos e
  /-- The classes are the same. -/
  isa : ∀ (p : LabelBody → Bool) [ClassTest p] e, g'.isa p e = g.isa p e

namespace SameShape

lemma trans (h : SameShape g g') (h' : SameShape g' g'') : SameShape g g'' :=
  ⟨h'.numThreads.trans h.numThreads, fun e => (h'.containsPos e).trans (h.containsPos e),
    fun p _ e => (h'.isa p e).trans (h.isa p e)⟩

/-- Turning links keeps the shape. -/
lemma of_relinks (h : Relinks g g') : SameShape g g' :=
  ⟨h.numThreads, h.containsPos, fun p _ e => h.isa p e⟩

/-- The last label of a thread is at the same place. -/
lemma lastPos (h : SameShape g g') (t : ℕ) : g'.lastPos t = g.lastPos t :=
  lastPos_congr fun i => by rw [h.containsPos]

end SameShape

/-- The labels of a thread are the same up to their mutable fields. -/
structure SameThread (t : ℕ) (g g' : ExecutionGraph) : Prop where
  /-- The positions are the same. -/
  containsPos : ∀ i, g'.containsPos ⟨t, i⟩ = g.containsPos ⟨t, i⟩
  /-- The classes are the same. -/
  isa : ∀ (p : LabelBody → Bool) [ClassTest p] i, g'.isa p ⟨t, i⟩ = g.isa p ⟨t, i⟩

namespace SameThread

variable {t : ℕ}

lemma refl (t : ℕ) (g : ExecutionGraph) : SameThread t g g := ⟨fun _ => rfl, fun _ _ _ => rfl⟩

lemma trans (h : SameThread t g g') (h' : SameThread t g' g'') : SameThread t g g'' :=
  ⟨fun i => (h'.containsPos i).trans (h.containsPos i), fun p _ i => (h'.isa p i).trans (h.isa p i)⟩

lemma of_sameShape (h : SameShape g g') : SameThread t g g' :=
  ⟨fun i => h.containsPos ⟨t, i⟩, fun p _ i => h.isa p ⟨t, i⟩⟩

/-- Turning links changes no thread. -/
lemma of_relinks (h : Relinks g g') : SameThread t g g' := of_sameShape (.of_relinks h)

/-- Adding a label to a thread does not change the others. -/
lemma of_adds {lab : EventLabel} (h : Adds g lab g') (ht : lab.pos.thread ≠ t) :
    SameThread t g g' := by
  have hne (i : ℕ) : (⟨t, i⟩ : Event) ≠ lab.pos := fun heq => ht (congrArg Event.thread heq).symm
  refine ⟨fun i => ?_, fun p _ i => ?_⟩
  · rw [Bool.eq_iff_iff, h.containsPos, or_iff_right (hne i)]
  · rw [h.isa, if_neg (hne i)]

/-- Removing a label from a thread does not change the others. -/
lemma of_removeLast (hg : Positioned g) {t' : ℕ} (h : g.removeLast t' = some g') (ht : t' ≠ t) :
    SameThread t g g' := by
  obtain ⟨lab, g₁, -, hpos, hrem⟩ := removeLast_spec h hg.pos
  obtain ⟨hrelinks, -⟩ := unlinkLast_eq hrem.unlink
  have hlabel (i : ℕ) : g'.getEventLabel ⟨t, i⟩ = g₁.getEventLabel ⟨t, i⟩ := by
    rw [hrem.label, if_neg]
    intro heq
    exact ht ((congrArg Event.thread (heq.trans hpos)).symm)
  refine ⟨fun i => ?_, fun p _ i => ?_⟩
  · rw [← hrelinks.containsPos]
    unfold ExecutionGraph.containsPos
    rw [hlabel]
  · rw [← hrelinks.isa]
    unfold ExecutionGraph.isa
    rw [hlabel]

/-- The last label of the thread is at the same place. -/
lemma lastPos (h : SameThread t g g') : g'.lastPos t = g.lastPos t :=
  lastPos_congr fun i => by rw [h.containsPos]

end SameThread

/-- Listing an access at its allocation turns links. -/
lemma addAlloc_relinks {aLab : Option Event} {m : Event} (h : g.addAlloc aLab m = some g') :
    Relinks g g' := by
  unfold addAlloc at h
  split at h
  · exact Option.some.inj h ▸ .refl _
  · split at h
    · cases h
    · exact Option.some.inj h ▸ (Relinks.updateLabel _ _ _).trans (.updateLabel _ _ _)

/-- Adding a label with its view and its allocation. -/
lemma addLabelWithViews_shape {lab : EventLabel} (h : g.addLabelWithViews lab = some g') :
    ∃ g₁, Adds g lab g₁ ∧ SameShape g₁ g' := by
  obtain ⟨g₁, hadd, h⟩ := Option.bind_eq_some_iff.mp h
  obtain ⟨v, -, h⟩ := Option.bind_eq_some_iff.mp h
  refine ⟨g₁, addLabelToGraph_spec hadd, ?_⟩
  have hbodies : SameBodies g₁ (g₁.updateLabel lab.pos (EventLabel.setPrefixView (.view v))) :=
    sameBodies_updateLabel (f := EventLabel.setPrefixView (.view v)) (fun _ => ⟨rfl, rfl⟩) _
  have hshape : SameShape g₁ (g₁.updateLabel lab.pos (EventLabel.setPrefixView (.view v))) :=
    ⟨getNumThreads_updateLabel _ _, hbodies.containsPos, fun p _ e => hbodies.isa p e⟩
  cases haddr : lab.body.addr with
  | none =>
    rw [haddr] at h
    exact Option.some.inj h ▸ hshape
  | some addr =>
    rw [haddr] at h
    exact hshape.trans (.of_relinks (addAlloc_relinks h))

/-- Adding a label to another thread. -/
lemma addLabelWithViews_sameThread {lab : EventLabel} {t : ℕ}
    (h : g.addLabelWithViews lab = some g') (ht : lab.pos.thread ≠ t) : SameThread t g g' := by
  obtain ⟨g₁, hadds, hshape⟩ := addLabelWithViews_shape h
  exact (SameThread.of_adds hadds ht).trans (.of_sameShape hshape)

/-! ## The answer of a join -/

/-- What is expected of a join with an argument. -/
structure JoinsRight (g : ExecutionGraph) (retVal : Event → SVal) (pos : Event) (arg : BitVec 64)
    (out : Option (ExecutionGraph × JoinResult)) : Prop where
  /-- A wrong identifier is reported. -/
  invalid : (g.getNumThreads ≤ arg.toNat ∨ arg.toNat = pos.thread) →
    ∃ g' err, out = some (g', .invalidJoin err)
  /-- The value of a thread that has finished is returned. -/
  finished : arg.toNat < g.getNumThreads → arg.toNat ≠ pos.thread →
    g.isa LabelBody.isThreadFinish (g.lastPos arg.toNat) →
      ∃ g', out = some (g', .value (retVal (g.lastPos arg.toNat)))
  /-- Any other thread is waited for. -/
  waiting : arg.toNat < g.getNumThreads → arg.toNat ≠ pos.thread →
    g.isa LabelBody.isThreadFinish (g.lastPos arg.toNat) = false →
      ∃ g', out = some (g', .blocked) ∧ g'.isa (LabelBody.isJoinBlockOf arg.toNat) pos ∧
        g'.lastPos pos.thread = pos

/-- There are not more threads than stamps. -/
lemma DriverInvariant.getNumThreads_le (hg : DriverInvariant g) :
    g.getNumThreads ≤ g.timestamp := by
  have hstarted := hg.settled.started
  rw [← Finset.card_range g.getNumThreads, ← Finset.card_range g.timestamp]
  refine Finset.card_le_card_of_injOn (fun t => g.stampOf ⟨t, 0⟩) (fun t ht => ?_) ?_
  · have hc := hstarted t (Finset.mem_range.mp ht)
    exact Finset.mem_coe.mpr (Finset.mem_range.mpr (hg.wellFormed.bounded _ hc))
  · intro t ht t' ht' heq
    have hc := hstarted t (Finset.mem_range.mp ht)
    have hc' := hstarted t' (Finset.mem_range.mp ht')
    exact congrArg Event.thread (hg.wellFormed.stampOf_injective hc hc' heq)

/-- The last label of a thread. -/
lemma DriverInvariant.containsPos_lastPos_iff (hg : DriverInvariant g) {t : ℕ} :
    g.containsPos (g.lastPos t) ↔ t < g.getNumThreads := by
  constructor
  · intro hc
    by_contra hge
    have hlt : g.getThreadSize t - 1 < g.getThreadSize t := containsPos_iff_lt.mp hc
    rw [getThreadSize_eq_zero (not_lt.mp hge)] at hlt
    exact absurd hlt (Nat.not_lt_zero _)
  · intro ht
    have hlt : 0 < g.getThreadSize t := containsPos_iff_lt.mp (hg.settled.started t ht)
    exact containsPos_iff_lt.mpr (Nat.sub_one_lt hlt.ne')

/-- The target of a join whose argument is the identifier of a thread. -/
lemma DriverInvariant.joinTarget_eq (hg : DriverInvariant g) {arg : BitVec 64}
    (h : arg.toNat < g.getNumThreads) : joinTarget arg = arg.toNat := by
  have hlt : arg.toNat < 2 ^ 32 := (h.trans_le hg.getNumThreads_le).trans hg.linked.stamped.range
  unfold joinTarget
  rw [BitVec.toNat_setWidth, Nat.mod_eq_of_lt hlt]

section

variable {retVal : Event → SVal} {exceedsBound : Bool} {pos : Event}

/-- A join of a thread that does not exist looks at a label outside of the graph. -/
lemma handleThreadJoinLabel_of_le (hg : DriverInvariant g) {c : ℕ}
    (hdriven : g.isExecutionDrivenByGraph pos = false) (hc : g.getNumThreads ≤ c) :
    g.handleThreadJoinLabel retVal exceedsBound pos c = none := by
  have hnone : g.containsPos (g.lastPos c) = false :=
    Bool.eq_false_iff.mpr fun h => absurd (hg.containsPos_lastPos_iff.mp h) (not_lt.mpr hc)
  unfold handleThreadJoinLabel
  rw [hdriven, if_neg Bool.false_ne_true, if_pos hnone]

/-- A join of a thread that has not finished. -/
lemma handleThreadJoinLabel_waiting (hg : DriverInvariant g) {c : ℕ}
    (hdriven : g.isExecutionDrivenByGraph pos = false) (hc : c < g.getNumThreads)
    (hfinish : g.isa LabelBody.isThreadFinish (g.lastPos c) = false) :
    g.handleThreadJoinLabel retVal exceedsBound pos c =
      (g.blockThread { pos := pos, body := .plain (.joinBlock c) }).map fun g => (g, .blocked) := by
  have hlast := hg.containsPos_lastPos_iff.mpr hc
  unfold handleThreadJoinLabel
  rw [hdriven, if_neg Bool.false_ne_true, hlast, if_neg Bool.false_ne_true.symm,
    if_pos hfinish]

/-- The thread of a join can be extended by the join, or by a block label. -/
lemma joins_addsNext {c : ℕ} {body : LabelBody}
    (hbody : body = .plain (.joinBlock c) ∨ body = .plain (.threadJoin c))
    (hcall : (DriverCall.handleThreadJoin pos c).AdmissibleFor g) :
    DriverCall.AddsNext g { pos := pos, body := body } := by
  obtain ⟨-, hindex, hpos, hthread⟩ := hcall
  rcases hbody with rfl | rfl
  · exact addsNext_of_body hindex rfl rfl rfl (by exact rfl) hpos hthread
  · exact addsNext_of_body hindex rfl rfl rfl (by exact rfl) hpos hthread

/-- A thread waits. -/
lemma DriverInvariant.blockThread_join (hg : DriverInvariant g) {c : ℕ}
    (hcall : (DriverCall.handleThreadJoin pos c).AdmissibleFor g) : ∃ g',
      g.blockThread { pos := pos, body := .plain (.joinBlock c) } = some g' ∧ DriverInvariant g' ∧
        Adds g { pos := pos, body := .plain (.joinBlock c) } g' := by
  have hadds := joins_addsNext (Or.inl rfl) hcall
  obtain ⟨hroom, hindex, hpos, hthread⟩ := hcall
  have hsize : g.getThreadSize pos.thread ≠ 0 := hindex ▸ hpos
  have hne : pos ≠ g.lastPos pos.thread := fun heq => by
    have : pos.index = g.getThreadSize pos.thread - 1 := congrArg Event.index heq
    omega
  have hexists : pos.thread < g.getNumThreads := by
    by_contra hge
    exact hsize (getThreadSize_eq_zero (not_lt.mp hge))
  obtain ⟨g', hadd⟩ := addLabelToGraph_isSome { pos := pos, body := .plain (.joinBlock c) }
    hg.wellFormed.isa_init hexists hindex
  have hblock : g.blockThread { pos := pos, body := .plain (.joinBlock c) } = some g' := by
    unfold ExecutionGraph.blockThread
    rw [if_neg hne]
    exact hadd
  exact ⟨g', hblock, (hg.blockThread hroom hadds.new rfl (Or.inl ⟨hindex, hthread.running⟩)
    hblock).1, addLabelToGraph_spec hadd⟩

variable (retVal exceedsBound) in
/-- A join of a thread that has finished. -/
lemma DriverInvariant.handleThreadJoinLabel_finished (hg : DriverInvariant g) {c : ℕ}
    (hcall : (DriverCall.handleThreadJoin pos c).AdmissibleFor g)
    (hfinish : g.isa LabelBody.isThreadFinish (g.lastPos c)) : ∃ g',
      g.handleThreadJoin pos c = some g' ∧ g.handleThreadJoinLabel retVal exceedsBound pos c =
        some (g', if exceedsBound then .moot else .value (retVal (g.lastPos c))) := by
  have hadds := joins_addsNext (Or.inr rfl) hcall
  obtain ⟨hroom, hindex, hpos, hthread⟩ := hcall
  have hlast := containsPos_of_isa hfinish
  have hexists := hg.containsPos_lastPos_iff.mp hlast
  have hdriven : g.isExecutionDrivenByGraph pos = false := by
    unfold isExecutionDrivenByGraph
    rw [containsPos_eq_false hindex, Bool.false_and]
  have hne : c ≠ pos.thread := by
    rintro rfl
    have hrunning := isThreadFinish_eq_false hthread.running
    rw [hfinish] at hrunning
    cases hrunning
  obtain ⟨g₁, hadd⟩ := hg.addLabelWithViews_isSome hadds hpos rfl
  obtain ⟨g₂, hadds₂, hshape⟩ := addLabelWithViews_shape hadd
  have hsame : SameThread c g g₁ := addLabelWithViews_sameThread hadd hne.symm
  have hfinish₁ : g₁.isa LabelBody.isThreadFinish (g₁.lastPos c) := by
    rw [hsame.lastPos]
    exact (hsame.isa _ _).trans hfinish
  set g' := g₁.updateLabel (g₁.lastPos c) (EventLabel.setParentJoin (some pos)) with hg'
  have hrelinks : Relinks g₁ g' := Relinks.updateLabel g₁ _ _
  have hthreads : g'.getNumThreads = g.getNumThreads := by
    rw [hrelinks.numThreads, hshape.numThreads, hadds₂.places.numThreads]
  have hvalue : g'.getJoinValue retVal c = some (retVal (g.lastPos c)) := by
    have hlast' : g'.lastPos c = g.lastPos c := by rw [hrelinks.lastPos, hsame.lastPos]
    unfold getJoinValue
    rw [hlast', if_pos]
    rw [← hsame.lastPos, hrelinks.isa]
    exact hfinish₁
  refine ⟨g', ?_, ?_⟩
  · unfold ExecutionGraph.handleThreadJoin
    simp only [Option.bind_eq_bind, hadd, Option.bind_some, hfinish₁, if_true]
    rfl
  · have hvalid : ¬(g'.getNumThreads ≤ c ∨ c = pos.thread) := by
      rw [hthreads, not_or]
      exact ⟨not_le.mpr hexists, hne⟩
    unfold handleThreadJoinLabel
    rw [hdriven, if_neg Bool.false_ne_true, hlast, if_neg Bool.false_ne_true.symm, hfinish,
      if_neg Bool.false_ne_true.symm]
    simp only [Option.bind_eq_bind, hadd, Option.bind_some, hfinish₁, if_true, ← hg', hvalid,
      if_false]
    cases exceedsBound with
    | true => rfl
    | false => rw [if_neg Bool.false_ne_true, hvalue]; rfl

variable (retVal exceedsBound) in
/-- What a join yields, and what becomes of the graph. -/
lemma DriverInvariant.handleThreadJoinLabel_cases (hg : DriverInvariant g) {c : ℕ}
    (hcall : (DriverCall.handleThreadJoin pos c).AdmissibleFor g) :
    (g.getNumThreads ≤ c ∧ g.handleThreadJoinLabel retVal exceedsBound pos c = none) ∨
      (g.isa LabelBody.isThreadFinish (g.lastPos c) ∧ ∃ g', g.handleThreadJoin pos c = some g' ∧
        g.handleThreadJoinLabel retVal exceedsBound pos c =
          some (g', if exceedsBound then .moot else .value (retVal (g.lastPos c)))) ∨
      (c < g.getNumThreads ∧ g.isa LabelBody.isThreadFinish (g.lastPos c) = false ∧ ∃ g',
        g.handleThreadJoinLabel retVal exceedsBound pos c = some (g', .blocked) ∧
          DriverInvariant g' ∧ Adds g { pos := pos, body := .plain (.joinBlock c) } g') := by
  have hdriven : g.isExecutionDrivenByGraph pos = false := by
    unfold isExecutionDrivenByGraph
    rw [containsPos_eq_false hcall.2.1, Bool.false_and]
  rcases le_or_gt g.getNumThreads c with hc | hc
  · exact Or.inl ⟨hc, handleThreadJoinLabel_of_le hg hdriven hc⟩
  · cases hfinish : g.isa LabelBody.isThreadFinish (g.lastPos c) with
    | true =>
      have hfinished := hg.handleThreadJoinLabel_finished retVal exceedsBound hcall hfinish
      exact Or.inr (Or.inl ⟨rfl, hfinished⟩)
    | false =>
      obtain ⟨g', hblock, hg', hadds⟩ := hg.blockThread_join hcall
      refine Or.inr (Or.inr ⟨hc, rfl, g', ?_, hg', hadds⟩)
      rw [handleThreadJoinLabel_waiting hg hdriven hc hfinish, hblock]
      rfl

/-- Wrong identifiers are not reported. -/
lemma DriverInvariant.handleThreadJoinLabel_ne_invalidJoin (hg : DriverInvariant g) {c : ℕ}
    (hcall : (DriverCall.handleThreadJoin pos c).AdmissibleFor g) (err : String) :
    g.handleThreadJoinLabel retVal exceedsBound pos c ≠ some (g', .invalidJoin err) := by
  intro h
  rcases hg.handleThreadJoinLabel_cases retVal exceedsBound hcall
    with ⟨-, h'⟩ | ⟨-, g₁, -, h'⟩ | ⟨-, -, g₁, h', -⟩
  · rw [h'] at h
    cases h
  · rw [h'] at h
    have heq := congrArg Prod.snd (Option.some.inj h)
    dsimp only at heq
    split at heq <;> cases heq
  · rw [h'] at h
    cases h

/-- **The answer of a join** is right for the identifiers of other threads, if a value that is
returned does not make the execution exceed the bound. -/
lemma DriverInvariant.joinsRight_iff (hg : DriverInvariant g) {arg : BitVec 64}
    (hcall : (DriverCall.handleThreadJoin pos (joinTarget arg)).AdmissibleFor g) :
    JoinsRight g retVal pos arg
        (g.handleThreadJoinLabel retVal exceedsBound pos (joinTarget arg)) ↔
      arg.toNat < g.getNumThreads ∧ arg.toNat ≠ pos.thread ∧
        (exceedsBound → g.isa LabelBody.isThreadFinish (g.lastPos arg.toNat) = false) := by
  constructor
  · intro h
    have hvalid : arg.toNat < g.getNumThreads ∧ arg.toNat ≠ pos.thread := by
      by_contra hnot
      rw [not_and_or, not_lt, not_not] at hnot
      obtain ⟨g', err, heq⟩ := h.invalid hnot
      exact hg.handleThreadJoinLabel_ne_invalidJoin hcall err heq
    refine ⟨hvalid.1, hvalid.2, fun hexceeds => ?_⟩
    rw [Bool.eq_false_iff]
    intro hfinish
    obtain ⟨g', hvalue⟩ := h.finished hvalid.1 hvalid.2 hfinish
    rw [hg.joinTarget_eq hvalid.1] at hvalue hcall
    obtain ⟨g₁, -, heq⟩ :=
      hg.handleThreadJoinLabel_finished retVal exceedsBound hcall hfinish
    rw [heq, if_pos hexceeds] at hvalue
    cases hvalue
  · rintro ⟨hlt, hne, hbound⟩
    rw [hg.joinTarget_eq hlt] at hcall ⊢
    refine ⟨fun hwrong => absurd hwrong (not_or.mpr ⟨not_le.mpr hlt, hne⟩), fun _ _ hfinish => ?_,
      fun _ _ hfinish => ?_⟩
    · obtain ⟨g', -, heq⟩ :=
        hg.handleThreadJoinLabel_finished retVal exceedsBound hcall hfinish
      refine ⟨g', ?_⟩
      rw [heq, if_neg]
      intro hexceeds
      rw [hbound hexceeds] at hfinish
      cases hfinish
    · rcases hg.handleThreadJoinLabel_cases retVal exceedsBound hcall
        with ⟨hle, -⟩ | ⟨hfinish', -⟩ | ⟨-, -, g', heq, -, hadds⟩
      · exact absurd hlt (not_lt.mpr hle)
      · rw [hfinish] at hfinish'
        cases hfinish'
      · refine ⟨g', heq, ?_, ?_⟩
        · rw [hadds.isa, if_pos rfl]
          exact decide_eq_true rfl
        · exact lastPos_of_added hadds.containsPos hcall.2.1

end

/-! ## Waking up -/

/-- What happens in an execution. -/
inductive ThreadEvent where
  | handleThreadJoin (pos : Event) (arg : BitVec 64)
  | handleThreadFinish (lab : EventLabel)
  /-- Any other call of the driver. -/
  | other (call : DriverCall)

/-- The calls that go on with the current execution and neither end nor join threads. -/
def withinExecution : DriverCall → Bool
  | .addLabel lab => !lab.body.isThreadFinish
  | .handleLoad .. | .handleBlockedLoad .. | .handleStore .. | .handleThreadCreate .. => true
  | .handleFree .. | .blockThread .. | .unblockThread .. => true
  | .revisitInPlace .. | .revisitBarrier .. => true
  | _ => false

/-- Where a call takes back a block label or puts another label in its place. -/
def takenBack (g : ExecutionGraph) : DriverCall → Option Event
  | .unblockThread t => some (g.lastPos t)
  | .blockThread bLab => some bLab.pos
  | .revisitInPlace r _ => some r.next
  | .revisitBarrier rLab _ => some (g.lastPos rLab.pos.thread)
  | _ => none

/-- What the driver does with a graph: a handler is called for the next label of a thread that runs,
and apart from `handleThreadFinish` the threads that are unblocked wait for something else.  The
callers of `unblockThread` test that: `rescheduleReads` and `checkReconsiderReadOpts` look for
`ReadOptBlockLabel`s, `checkReconsiderFaiSpinloop` for `FaiZNEBlockLabel`s, `unblockWaitingHelping`
for `HelpedCASBlockLabel`s and `tryOptimizeBarrierRevisits` for `BarrierBlockLabel`s.
`revisitInPlace` takes back the block label of a failed assume, and `blockThread` puts a block label
in the place of the access or of the block label that it is called for. -/
def Occurs (g : ExecutionGraph) : ThreadEvent → Prop
  | .handleThreadJoin pos arg => (DriverCall.handleThreadJoin pos (joinTarget arg)).AdmissibleFor g
  | .handleThreadFinish lab => DriverCall.HasRoom g ∧ DriverCall.AddsNext g lab ∧
      lab.pos.index ≠ 0 ∧ lab.body.isThreadFinish
  | .other call => call.AdmissibleFor g ∧ withinExecution call ∧
      ∀ e ∈ takenBack g call, g.isa LabelBody.isJoinBlock e = false

/-- What an event makes of the graph. -/
def stepEvent (retVal : Event → SVal) (exceedsBound : Bool) (g : ExecutionGraph) :
    ThreadEvent → Option ExecutionGraph
  | .handleThreadJoin pos arg =>
    (g.handleThreadJoinLabel retVal exceedsBound pos (joinTarget arg)).map Prod.fst
  | .handleThreadFinish lab => g.handleThreadFinish lab
  | .other call => call.onGraph g

/-- The event finishes a thread. -/
def ThreadEvent.Finishes (c : ℕ) : ThreadEvent → Prop
  | .handleThreadFinish lab => lab.pos.thread = c
  | _ => False

/-- The last label of a thread blocks it until another thread has finished. -/
structure BlockedOn (g : ExecutionGraph) (p : Event) (c : ℕ) : Prop where
  /-- The label is the last one of its thread. -/
  last : g.lastPos p.thread = p
  /-- The label is a `JoinBlockLabel`. -/
  label : g.isa (LabelBody.isJoinBlockOf c) p

namespace BlockedOn

variable {p : Event} {c : ℕ}

/-- A thread that is blocked does not run. -/
lemma ne_of_not_terminator (h : BlockedOn g p c) {t : ℕ}
    (ht : g.isa LabelBody.isTerminator (g.lastPos t) = false) : t ≠ p.thread := by
  rintro rfl
  obtain ⟨lab, hlab, hbody⟩ := isa_iff.mp h.label
  rw [h.last, isa_of_getEventLabel hlab, LabelBody.isTerminator,
    LabelBody.isBlock_of_isJoinBlockOf hbody] at ht
  cases ht

/-- The block label is a `JoinBlockLabel`. -/
lemma isJoinBlock (h : BlockedOn g p c) : g.isa LabelBody.isJoinBlock p := by
  obtain ⟨lab, hlab, hbody⟩ := isa_iff.mp h.label
  exact isa_iff.mpr ⟨lab, hlab, LabelBody.isJoinBlock_of_isJoinBlockOf hbody⟩

/-- It is not the first label of its thread. -/
lemma index_ne_zero (h : BlockedOn g p c) (hg : Positioned g) : p.index ≠ 0 := by
  intro hzero
  obtain ⟨lab, hlab, hbody⟩ := isa_iff.mp h.label
  have hstart := hg.starts p lab hlab hzero
  rw [of_decide_eq_true hbody] at hstart
  cases hstart

/-- What happens to other threads keeps the thread blocked. -/
lemma of_sameThread (h : BlockedOn g p c) (hsame : SameThread p.thread g g') :
    BlockedOn g' p c :=
  ⟨hsame.lastPos.trans h.last, (hsame.isa _ p.index).trans h.label⟩

end BlockedOn

/-- `blockThread` for another thread. -/
lemma blockThread_sameThread (hg : Positioned g) {bLab : EventLabel} {t : ℕ}
    (h : g.blockThread bLab = some g') (ht : bLab.pos.thread ≠ t) : SameThread t g g' := by
  obtain ⟨g₁, hremove, hadd⟩ := Option.bind_eq_some_iff.mp h
  have hadds := SameThread.of_adds (addLabelToGraph_spec hadd) ht
  split at hremove
  · exact (SameThread.of_removeLast hg hremove ht).trans hadds
  · exact Option.some.inj hremove ▸ hadds

/-- `unblockThread` for another thread. -/
lemma unblockThread_sameThread (hg : Positioned g) {t t' : ℕ}
    (h : g.unblockThread t' = some g') (ht : t' ≠ t) : SameThread t g g' := by
  unfold unblockThread at h
  split at h
  · exact .of_removeLast hg h ht
  · cases h

/-- A new thread does not change the others. -/
lemma addNewThread_sameThread {t : ℕ} (ht : t < g.getNumThreads) :
    SameThread t g g.addNewThread := by
  have hlabel (i : ℕ) : g.addNewThread.getEventLabel ⟨t, i⟩ = g.getEventLabel ⟨t, i⟩ := by
    unfold addNewThread getEventLabel
    rw [List.getD_append _ _ _ _ ht]
  refine ⟨fun i => ?_, fun p _ i => ?_⟩
  · unfold containsPos
    rw [hlabel]
  · unfold ExecutionGraph.isa
    rw [hlabel]

/-- `handleThreadCreate` leaves alone threads that exist and have more than their begin. -/
lemma DriverInvariant.handleThreadCreate_sameThread (hg : DriverInvariant g) {pos p : Event}
    (hcall : (DriverCall.handleThreadCreate pos).AdmissibleFor g) (hp : g.containsPos p)
    (hindex : p.index ≠ 0) (ht : pos.thread ≠ p.thread) (h : g.handleThreadCreate pos = some g') :
    SameThread p.thread g g' := by
  obtain ⟨hroom, hnext, hpos, hthread⟩ := hcall
  obtain ⟨g₁, hadd, h⟩ := Option.bind_eq_some_iff.mp h
  obtain ⟨g₂, hcreate, hbegin⟩ := Option.bind_eq_some_iff.mp h
  have hsame₁ : SameThread p.thread g g₁ := addLabelWithViews_sameThread hadd ht
  obtain ⟨hg₁, -⟩ := hg.addLabel hroom
    (addsNext_of_body hnext rfl rfl rfl (by exact rfl) hpos hthread) rfl rfl hadd (not_isJoinOf rfl)
  have hsize : p.index < g₁.getThreadSize p.thread :=
    containsPos_iff_lt.mp ((hsame₁.containsPos p.index).trans hp)
  have hexists : p.thread < g₁.getNumThreads := by
    by_contra hge
    rw [getThreadSize_eq_zero (not_lt.mp hge)] at hsize
    exact absurd hsize (Nat.not_lt_zero _)
  -- the thread that is created is a new one or has nothing but its begin
  obtain ⟨hsame₂, hne⟩ : SameThread p.thread g₁ g₂ ∧ g.threadCreatedBy pos ≠ p.thread := by
    split at hcreate
    next hnew =>
      refine ⟨Option.some.inj hcreate ▸ addNewThread_sameThread hexists, ?_⟩
      rw [hnew]
      exact hexists.ne'
    next =>
      split at hcreate
      next hone =>
        have hne : g.threadCreatedBy pos ≠ p.thread := fun heq => by
          rw [heq] at hone
          omega
        exact ⟨.of_removeLast hg₁.linked.stamped.positioned hcreate hne, hne⟩
      next => cases hcreate
  exact (hsame₁.trans hsame₂).trans (addLabelWithViews_sameThread hbegin hne)

/-- **Other calls** do not touch a thread that waits for another one. -/
lemma DriverInvariant.onGraph_sameThread (hg : DriverInvariant g) {call : DriverCall} {p : Event}
    {c : ℕ} (hcall : call.AdmissibleFor g) (hwithin : withinExecution call)
    (hback : ∀ e ∈ takenBack g call, g.isa LabelBody.isJoinBlock e = false)
    (hblocked : BlockedOn g p c) (h : call.onGraph g = some g') : SameThread p.thread g g' := by
  have hpositioned := hg.linked.stamped.positioned
  -- the label is not the one that is taken back
  have hkept (e : Event) (he : e ∈ takenBack g call) : e ≠ p := by
    rintro rfl
    have hfalse := hback e he
    rw [hblocked.isJoinBlock] at hfalse
    cases hfalse
  have hrunning (t : ℕ) (ht : DriverCall.Scheduled g t) : t ≠ p.thread :=
    hblocked.ne_of_not_terminator ht.running
  cases call with
  | addLabel lab => exact addLabelWithViews_sameThread h (hrunning _ hcall.2.1.scheduled)
  | handleLoad lab rf =>
    obtain ⟨g₁, hadd, hset⟩ := Option.bind_eq_some_iff.mp h
    exact (addLabelWithViews_sameThread hadd (hrunning _ hcall.2.1.scheduled)).trans
      (.of_relinks (setRf_relinks hset))
  | handleBlockedLoad lab =>
    obtain ⟨hroom, hadds, hread⟩ := hcall
    have hne := hrunning _ hadds.scheduled
    obtain ⟨g₁, hadd, h⟩ := Option.bind_eq_some_iff.mp h
    obtain ⟨addr, -, hblock⟩ := Option.bind_eq_some_iff.mp h
    obtain ⟨hg₁, -⟩ := hg.addRead (Nat.lt_of_succ_lt hroom) hadds.new
      (extends_of_addsNext hg.closed hadds) hread hadd
    exact (addLabelWithViews_sameThread hadd hne).trans
      (blockThread_sameThread hg₁.linked.stamped.positioned hblock hne)
  | handleStore lab pred =>
    obtain ⟨g₁, hadd, hstore⟩ := Option.bind_eq_some_iff.mp h
    exact (addLabelWithViews_sameThread hadd (hrunning _ hcall.2.1.scheduled)).trans
      (.of_relinks (addStoreToCOAfter_turnsCO hstore).relinks)
  | handleThreadCreate pos =>
    exact hg.handleThreadCreate_sameThread hcall (containsPos_of_isa hblocked.label)
      (hblocked.index_ne_zero hpositioned) (hrunning _ hcall.2.2.2) h
  | handleFree pos kind freeAddr =>
    obtain ⟨alloc, -, h⟩ := Option.bind_eq_some_iff.mp h
    obtain ⟨g₁, hadd, h⟩ := Option.bind_eq_some_iff.mp h
    have hrelinks : Relinks g₁ g' :=
      Option.some.inj h ▸ (Relinks.updateLabel _ _ _).trans (.updateLabel _ _ _)
    exact (addLabelWithViews_sameThread hadd (hrunning _ hcall.2.2.2)).trans (.of_relinks hrelinks)
  | blockThread bLab =>
    refine blockThread_sameThread hpositioned h ?_
    obtain ⟨-, -, -, ⟨-, hterminator⟩ | ⟨hlast, -⟩⟩ := hcall
    · exact hblocked.ne_of_not_terminator hterminator
    · intro ht
      rw [ht, hblocked.last] at hlast
      exact hkept _ rfl hlast
  | unblockThread t =>
    refine unblockThread_sameThread hpositioned h fun ht => hkept (g.lastPos t) rfl ?_
    rw [ht, hblocked.last]
  | revisitInPlace r w =>
    obtain ⟨g₁, hremove, h⟩ := Option.bind_eq_some_iff.mp h
    obtain ⟨g₂, hset, h⟩ := Option.bind_eq_some_iff.mp h
    have hsame : SameThread p.thread g g₁ := by
      split at hremove
      next hnext =>
        refine .of_removeLast hpositioned hremove fun ht => hkept r.next rfl ?_
        rcases hcall with hindex | ⟨hlast, -⟩
        · have hlt : r.index + 1 < g.getThreadSize r.thread := containsPos_iff_lt.mp hnext
          omega
        · rw [hlast, ht, hblocked.last]
      next => exact Option.some.inj hremove ▸ .refl _ _
    have hrelinks : Relinks g₂ g' :=
      Option.some.inj h ▸ (Relinks.updateLabel _ _ _).trans (.updateLabel _ _ _)
    exact hsame.trans (.of_relinks ((setRf_relinks hset).trans hrelinks))
  | revisitBarrier rLab w =>
    have hne : rLab.pos.thread ≠ p.thread := fun ht => hkept (g.lastPos rLab.pos.thread) rfl (by
      rw [ht, hblocked.last])
    obtain ⟨g₁, hunblock, h⟩ := Option.bind_eq_some_iff.mp h
    obtain ⟨g₂, hremove, h⟩ := Option.bind_eq_some_iff.mp h
    obtain ⟨g₃, hadd, h⟩ := Option.bind_eq_some_iff.mp h
    obtain ⟨g₄, hset, h⟩ := Option.bind_eq_some_iff.mp h
    obtain ⟨a, -, h⟩ := Option.bind_eq_some_iff.mp h
    obtain ⟨maxLab, -, h⟩ := Option.bind_eq_some_iff.mp h
    have hg₁ := (hg.unblockThread hunblock).1
    have hrelinks : Relinks g₄ g' := Option.some.inj h ▸ Relinks.updateLabel _ _ _
    have hsame₁ := unblockThread_sameThread hpositioned hunblock hne
    have hsame₂ := hsame₁.trans (.of_removeLast hg₁.linked.stamped.positioned hremove hne)
    have hsame₃ := hsame₂.trans (addLabelWithViews_sameThread hadd hne)
    exact hsame₃.trans (.of_relinks ((setRf_relinks hset).trans hrelinks))
  | _ => cases hwithin

section

variable {c : ℕ}

/-- Waking up at most one thread. -/
lemma DriverInvariant.wakeWaiting (hg : DriverInvariant g) {t : ℕ}
    (h : wakeWaiting c g t = some g') : DriverInvariant g' ∧ ∀ t', t ≠ t' → SameThread t' g g' := by
  unfold ExecutionGraph.wakeWaiting at h
  split at h
  · cases h
  · split at h
    · exact ⟨(hg.unblockThread h).1,
        fun t' ht => unblockThread_sameThread hg.linked.stamped.positioned h ht⟩
    · exact Option.some.inj h ▸ ⟨hg, fun t' _ => .refl t' g⟩

/-- A thread that waits for the thread that has finished is woken up. -/
lemma DriverInvariant.wakeWaiting_woken (hg : DriverInvariant g) {p : Event}
    (hblocked : BlockedOn g p c) (h : ExecutionGraph.wakeWaiting c g p.thread = some g') :
    g'.containsPos p = false := by
  unfold ExecutionGraph.wakeWaiting at h
  rw [hblocked.last, containsPos_of_isa hblocked.label, if_neg Bool.false_ne_true.symm,
    hblocked.label, if_pos rfl] at h
  have hback := (hg.unblockThread h).2
  rw [Bool.eq_false_iff]
  intro hc
  exact ((hback.containsPos_iff p).mp hc).1 hblocked.last.symm

/-- A thread that waits for another one goes on waiting. -/
lemma DriverInvariant.wakeWaiting_kept (hg : DriverInvariant g) {p : Event} {c' t : ℕ}
    (hblocked : BlockedOn g p c') (hne : t = p.thread → c' ≠ c)
    (h : ExecutionGraph.wakeWaiting c g t = some g') : BlockedOn g' p c' := by
  by_cases ht : t = p.thread
  · have hother : g.isa (LabelBody.isJoinBlockOf c) p = false := by
      rw [Bool.eq_false_iff]
      intro hlabel
      obtain ⟨lab, hlab, hbody⟩ := isa_iff.mp hlabel
      have hbody' := hblocked.label
      rw [isa_of_getEventLabel hlab, LabelBody.isJoinBlockOf, of_decide_eq_true hbody] at hbody'
      have heq := LabelBody.plain.inj (of_decide_eq_true hbody')
      exact hne ht (PlainKind.joinBlock.inj heq).symm
    unfold ExecutionGraph.wakeWaiting at h
    rw [ht, hblocked.last, containsPos_of_isa hblocked.label, if_neg Bool.false_ne_true.symm,
      hother, if_neg Bool.false_ne_true] at h
    exact Option.some.inj h ▸ hblocked
  · exact hblocked.of_sameThread ((hg.wakeWaiting h).2 _ ht)

/-- The loop over threads leaves the others alone. -/
lemma DriverInvariant.wakeWaiting_loop (hg : DriverInvariant g) {ts : List ℕ}
    (h : ts.foldlM (ExecutionGraph.wakeWaiting c) g = some g') :
    DriverInvariant g' ∧ ∀ t', t' ∉ ts → SameThread t' g g' := by
  induction ts generalizing g with
  | nil => exact Option.some.inj h ▸ ⟨hg, fun t' _ => .refl t' g⟩
  | cons t ts ih =>
    rw [List.foldlM_cons] at h
    obtain ⟨g₁, hwake, hrest⟩ := Option.bind_eq_some_iff.mp h
    obtain ⟨hg₁, hsame⟩ := hg.wakeWaiting hwake
    obtain ⟨hg', hsame'⟩ := ih hg₁ hrest
    refine ⟨hg', fun t' ht' => ?_⟩
    rw [List.mem_cons, not_or] at ht'
    exact (hsame t' (Ne.symm ht'.1)).trans (hsame' t' ht'.2)

/-- The loop wakes up a thread if it waits for the thread that has finished. -/
lemma DriverInvariant.wakeWaiting_loop_blocked (hg : DriverInvariant g) {ts : List ℕ}
    (hnodup : ts.Nodup) {p : Event} {c' : ℕ} (hblocked : BlockedOn g p c') (hp : p.thread ∈ ts)
    (h : ts.foldlM (ExecutionGraph.wakeWaiting c) g = some g') :
    (c' = c → g'.containsPos p = false) ∧ (c' ≠ c → BlockedOn g' p c') := by
  induction ts generalizing g with
  | nil => cases hp
  | cons t ts ih =>
    rw [List.foldlM_cons] at h
    obtain ⟨g₁, hwake, hrest⟩ := Option.bind_eq_some_iff.mp h
    obtain ⟨hnot, hnodup⟩ := List.nodup_cons.mp hnodup
    obtain ⟨hg₁, -⟩ := hg.wakeWaiting hwake
    by_cases ht : t = p.thread
    · subst ht
      have hsame := (hg₁.wakeWaiting_loop hrest).2 p.thread hnot
      refine ⟨fun hc => ?_, fun hne => ?_⟩
      · subst hc
        exact (hsame.containsPos p.index).trans (hg.wakeWaiting_woken hblocked hwake)
      · exact (hg.wakeWaiting_kept hblocked (fun _ => hne) hwake).of_sameThread hsame
    · have hmem : p.thread ∈ ts := (List.mem_cons.mp hp).resolve_left (Ne.symm ht)
      exact ih hg₁ hnodup (hg.wakeWaiting_kept hblocked (fun heq => absurd heq ht) hwake) hmem hrest

end

/-- `handleThreadFinish`. -/
lemma DriverInvariant.handleThreadFinish (hg : DriverInvariant g) {lab : EventLabel}
    (hoccurs : Occurs g (.handleThreadFinish lab)) (h : g.handleThreadFinish lab = some g') :
    DriverInvariant g' ∧ ∀ p c, BlockedOn g p c →
      (lab.pos.thread = c → g'.containsPos p = false) ∧
        (lab.pos.thread ≠ c → BlockedOn g' p c) := by
  obtain ⟨hroom, hadds, hindex, hfinish⟩ := hoccurs
  have hdriven : g.isExecutionDrivenByGraph lab.pos = false := by
    unfold isExecutionDrivenByGraph
    rw [containsPos_eq_false hadds.index, Bool.false_and]
  unfold ExecutionGraph.handleThreadFinish at h
  rw [hdriven, if_neg Bool.false_ne_true] at h
  obtain ⟨g₁, hadd, hloop⟩ := Option.bind_eq_some_iff.mp h
  have hclass : lab.body.addr = none ∧ lab.body.isThreadJoin = false := by
    cases hb : lab.body with
    | threadFinish j => exact ⟨rfl, rfl⟩
    | _ =>
      rw [hb] at hfinish
      cases hfinish
  obtain ⟨hg₁, -⟩ := hg.addLabel hroom hadds hclass.1 (LabelBody.isBlock_of_isThreadFinish hfinish)
    hadd (not_isJoinOf hclass.2)
  refine ⟨(hg₁.wakeWaiting_loop hloop).1, fun p c hblocked => ?_⟩
  have hblocked₁ : BlockedOn g₁ p c := hblocked.of_sameThread
    (addLabelWithViews_sameThread hadd (hblocked.ne_of_not_terminator hadds.scheduled.running))
  have hmem : p.thread ∈ List.range g₁.getNumThreads := by
    refine List.mem_range.mpr (hg₁.containsPos_lastPos_iff.mp ?_)
    rw [hblocked₁.last]
    exact containsPos_of_isa hblocked₁.label
  obtain ⟨hwoken, hkept⟩ := hg₁.wakeWaiting_loop_blocked List.nodup_range hblocked₁ hmem hloop
  exact ⟨fun hc => hwoken hc.symm, fun hc => hkept (Ne.symm hc)⟩

/-! ## Runs -/

variable {retVal : Event → SVal} {exceedsBound : Bool}

/-- **One event.**  It wakes up a thread if and only if it finishes the thread that is waited
for. -/
lemma DriverInvariant.stepEvent (hg : DriverInvariant g) {ev : ThreadEvent} (hoccurs : Occurs g ev)
    (h : stepEvent retVal exceedsBound g ev = some g') : DriverInvariant g' ∧
      ∀ p c, BlockedOn g p c → (ev.Finishes c → g'.containsPos p = false) ∧
        (¬ev.Finishes c → BlockedOn g' p c) := by
  cases ev with
  | handleThreadJoin pos arg =>
    have hcall : (DriverCall.handleThreadJoin pos (joinTarget arg)).AdmissibleFor g := hoccurs
    have hne (p : Event) (c : ℕ) (hblocked : BlockedOn g p c) : pos.thread ≠ p.thread :=
      hblocked.ne_of_not_terminator hcall.2.2.2.running
    obtain ⟨⟨g'', res⟩, hjoin, rfl⟩ := Option.map_eq_some_iff.mp h
    rcases hg.handleThreadJoinLabel_cases retVal exceedsBound hcall
      with ⟨-, hnone⟩ | ⟨-, g₁, hgraph, hres⟩ | ⟨-, -, g₁, hres, hg₁, hadds⟩
    · rw [hnone] at hjoin
      cases hjoin
    · rw [hres] at hjoin
      obtain ⟨rfl, -⟩ := Prod.mk.inj (Option.some.inj hjoin)
      obtain ⟨hroom, hindex, hpos, hthread⟩ := hcall
      refine ⟨(hg.handleThreadJoin hroom hindex hpos hthread hgraph).1, fun p c hblocked =>
        ⟨False.elim, fun _ => hblocked.of_sameThread ?_⟩⟩
      obtain ⟨g₂, hadd, hgraph⟩ := Option.bind_eq_some_iff.mp hgraph
      have hsame := addLabelWithViews_sameThread hadd (hne p c hblocked)
      split at hgraph
      · exact hsame.trans (Option.some.inj hgraph ▸ .of_relinks (.updateLabel _ _ _))
      · cases hgraph
    · rw [hres] at hjoin
      obtain ⟨rfl, -⟩ := Prod.mk.inj (Option.some.inj hjoin)
      exact ⟨hg₁, fun p c hblocked => ⟨False.elim, fun _ =>
        hblocked.of_sameThread (.of_adds hadds (hne p c hblocked))⟩⟩
  | handleThreadFinish lab => exact hg.handleThreadFinish hoccurs h
  | other call =>
    obtain ⟨hcall, hwithin, hback⟩ := hoccurs
    exact ⟨hg.onGraph hcall h, fun p c hblocked => ⟨False.elim, fun _ =>
      hblocked.of_sameThread (hg.onGraph_sameThread hcall hwithin hback hblocked h)⟩⟩

/-- **Sequences of events.**  A thread goes on waiting as long as the thread that it waits for does
not finish. -/
lemma DriverInvariant.exec_blockedOn (hg : DriverInvariant g) {events : List ThreadEvent}
    {p : Event} {c : ℕ} (hblocked : BlockedOn g p c)
    (hoccurs : PartialRun.Meets (ExecutionGraph.stepEvent retVal exceedsBound) Occurs g events)
    (hnot : ∀ ev ∈ events, ¬ev.Finishes c)
    (h : PartialRun.exec (ExecutionGraph.stepEvent retVal exceedsBound) g events = some g') :
    DriverInvariant g' ∧ BlockedOn g' p c := by
  induction events generalizing g with
  | nil => exact Option.some.inj h ▸ ⟨hg, hblocked⟩
  | cons ev events ih =>
    obtain ⟨g₁, hstep, hrest⟩ := Option.bind_eq_some_iff.mp h
    obtain ⟨hg₁, hstep'⟩ := hg.stepEvent hoccurs.1 hstep
    exact ih hg₁ ((hstep' p c hblocked).2 (hnot ev List.mem_cons_self)) (hoccurs.2 g₁ hstep)
      (fun ev' hev' => hnot ev' (List.mem_cons_of_mem _ hev')) hrest

/-- **The join protocol.**  In every graph that a run of the driver reaches, a join answers as it
should if and only if its argument is the identifier of another thread of the graph and no value is
kept back because of the bound.  A thread that waits goes on waiting during all events that do not
finish the thread that it waits for, and the next event wakes it up if and only if it does. -/
theorem joinProtocol {calls : List DriverCall} {execs : List ExecutionGraph}
    (hcalls : PartialRun.Meets DriverCall.apply DriverCall.Admissible [initial] calls)
    (hexec : PartialRun.exec DriverCall.apply [initial] calls = some execs) (hg : g ∈ execs)
    (retVal : Event → SVal) (exceedsBound : Bool) :
    (∀ pos arg, (DriverCall.handleThreadJoin pos (joinTarget arg)).AdmissibleFor g →
      (JoinsRight g retVal pos arg
          (g.handleThreadJoinLabel retVal exceedsBound pos (joinTarget arg)) ↔
        arg.toNat < g.getNumThreads ∧ arg.toNat ≠ pos.thread ∧
          (exceedsBound → g.isa LabelBody.isThreadFinish (g.lastPos arg.toNat) = false))) ∧
    ∀ p c events g₁ ev g₂, BlockedOn g p c →
      PartialRun.Meets (stepEvent retVal exceedsBound) Occurs g events →
      PartialRun.exec (stepEvent retVal exceedsBound) g events = some g₁ →
      (∀ ev' ∈ events, ¬ev'.Finishes c) → Occurs g₁ ev →
      stepEvent retVal exceedsBound g₁ ev = some g₂ →
      BlockedOn g₁ p c ∧ (ev.Finishes c → g₂.containsPos p = false) ∧
        (¬ev.Finishes c → BlockedOn g₂ p c) := by
  have hinv := driverInvariant_exec hcalls hexec g hg
  refine ⟨fun pos arg hcall => hinv.joinsRight_iff hcall,
    fun p c events g₁ ev g₂ hblocked hmeets hrun hnot hoccurs hstep => ?_⟩
  obtain ⟨hinv₁, hblocked₁⟩ := hinv.exec_blockedOn hblocked hmeets hnot hrun
  exact ⟨hblocked₁, (hinv₁.stepEvent hoccurs hstep).2 p c hblocked₁⟩

/-- The main thread creates thread 1. -/
def createRun : List DriverCall := [.handleThreadCreate ⟨0, 1⟩]

/-- The main thread then waits for thread 1. -/
def waitRun : List DriverCall :=
  createRun ++ [.blockThread { pos := ⟨0, 2⟩, body := .plain (.joinBlock 1) }]

/-- The graph after a run. -/
def graphOf (calls : List DriverCall) : ExecutionGraph :=
  ((PartialRun.exec DriverCall.apply [initial] calls).bind List.head?).getD initial

/-- Thread 1 finishes. -/
def finishOne : ThreadEvent :=
  .handleThreadFinish { pos := ⟨1, 1⟩, body := .threadFinish none }

/-- The main thread waits for thread 1, which wakes it up. -/
theorem joinProtocol_createRun :
    JoinsRight (graphOf createRun) (fun _ => 0) ⟨0, 2⟩ 1
        ((graphOf createRun).handleThreadJoinLabel (fun _ => 0) false ⟨0, 2⟩ (joinTarget 1)) ∧
      ∃ g', stepEvent (fun _ => 0) false (graphOf waitRun) finishOne = some g' ∧
        g'.containsPos ⟨0, 2⟩ = false := by
  have hcreate : PartialRun.exec DriverCall.apply [initial] createRun =
      some [graphOf createRun] := by rfl
  have hwait : PartialRun.exec DriverCall.apply [initial] waitRun = some [graphOf waitRun] := by rfl
  refine ⟨((joinProtocol (by decide) hcreate List.mem_cons_self (fun _ => 0) false).1 ⟨0, 2⟩ 1
    (by decide)).mpr (by decide), ?_⟩
  obtain ⟨g', hg'⟩ : ∃ g', stepEvent (fun _ => 0) false (graphOf waitRun) finishOne = some g' :=
    Option.isSome_iff_exists.mp (by decide)
  have hblocked : BlockedOn (graphOf waitRun) ⟨0, 2⟩ 1 := ⟨by decide, by decide⟩
  have hoccurs : Occurs (graphOf waitRun) finishOne :=
    ⟨by decide, by decide, by decide, by decide⟩
  exact ⟨g', hg', ((joinProtocol (by decide) hwait List.mem_cons_self (fun _ => 0) false).2
    ⟨0, 2⟩ 1 [] (graphOf waitRun) finishOne g' hblocked trivial rfl
    (fun ev hev => absurd hev List.not_mem_nil) hoccurs hg').2.1 rfl⟩

/-- A join of thread 7, which does not exist, looks at one of its labels; a join of the calling
thread blocks it; and `2 ^ 32 + 1` is taken for thread 1. -/
theorem invalid_joins_not_reported :
    (graphOf createRun).handleThreadJoinLabel (fun _ => 0) false ⟨0, 2⟩ (joinTarget 7) = none ∧
      ((graphOf createRun).handleThreadJoinLabel (fun _ => 0) false ⟨0, 2⟩ (joinTarget 0)).map
        Prod.snd = some .blocked ∧
      ((graphOf createRun).handleThreadJoinLabel (fun _ => 0) false ⟨0, 2⟩
        (joinTarget (2 ^ 32 + 1))).map Prod.snd = some .blocked := by
  decide

end ExecutionGraph

end GenMC
