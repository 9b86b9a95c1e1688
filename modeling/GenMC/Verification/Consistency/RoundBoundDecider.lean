import GenMC.Verification.Consistency.SCOrder

/-!
# The round bound

The decider schedules the events of a graph round by round: in a round, every thread in turn places
its events until one of them has to wait for an event that is not placed yet.  The number of rounds
is computed by `calculate`, and compared with a bound by `doesExecutionExceedBound`, a second copy
of the same loop.

`none` stands for a failed assertion or for following a null pointer.
-/

namespace GenMC

open ExecutionGraph

namespace RoundBoundDecider

variable (g : ExecutionGraph)

/-! ## The decider -/

/-- `areSCPredsInView`. -/
def areSCPredsInView (v : View) (e : Event) : Option Bool := do
  let lab ← g.getEventLabel e
  if lab.body.isThreadStart then
    return v.contains (← g.tcPred lab)
  else if lab.body.isThreadJoin then
    return v.contains (← g.tjPred lab)
  else if !lab.body.isAccess then
    return true
  else if lab.body.isRead then
    return v.contains (← lab.body.rf)
  else
    let pLab ← g.coImmPred e
    if pLab.any fun p => !v.contains p then return false
    else return (← g.frImmPreds e).all v.contains

/-- The state of the round loop. -/
structure RoundState where
  /-- The events that have been placed, as a view. -/
  curr : View
  /-- The placed events in the order of their placement; the source only keeps the view. -/
  placed : List Event
  /-- `exists`: the round has placed an event. -/
  progress : Bool
  /-- No thread has had to wait in this round. -/
  done : Bool
deriving DecidableEq

/-- The state before the first round. -/
def RoundState.start : RoundState := ⟨.empty, [], false, true⟩

/-- The turn of thread `i`, which still has `n` events from index `j + 1` on. -/
def placeThread (i : ℕ) : ℕ → ℕ → RoundState → Option RoundState
  | 0, _, s => some s
  | n + 1, j, s => do
    let next : Event := ⟨i, j + 1⟩
    if ← areSCPredsInView g s.curr next then
      placeThread i n (j + 1)
        { s with progress := true, curr := s.curr.updateIdx next, placed := s.placed ++ [next] }
    else return { s with done := false }

/-- The turn of thread `i`. -/
def turn (s : RoundState) (i : ℕ) : Option RoundState :=
  placeThread g i (g.full.getMax i - s.curr.getMax i) (s.curr.getMax i) s

/-- A round: the body of the loop up to its tests. -/
def round (s : RoundState) : Option RoundState :=
  (List.range g.getNumThreads).foldlM (turn g) { s with progress := false, done := true }

/-- The loop of `doesExecutionExceedBound`, with its answer and its last state. -/
def boundedRounds (bound : ℕ) (s : RoundState) : Option (Bool × RoundState) := do
  let s ← round g s
  if !s.progress then none
  else if s.done then return (false, s)
  else
    match bound with
    | 0 => return (true, s)
    | bound + 1 => boundedRounds bound s

/-- `RoundBoundDecider::doesExecutionExceedBound`. -/
def doesExecutionExceedBound (bound : ℕ) : Option Bool :=
  (boundedRounds g bound .start).map Prod.fst

/-- The loop of `calculate`, run for `fuel` rounds at most, with its answer and its last state. -/
def unboundedRounds : ℕ → ℕ → RoundState → Option (ℕ × RoundState)
  | 0, _, _ => none
  | fuel + 1, bound, s => do
    let s ← round g s
    if s.done then return (bound, s)
    else if !s.progress then none
    else unboundedRounds fuel (bound + 1) s

/-- The number of events to place. -/
def numEvents : ℕ := ((List.range g.getNumThreads).map g.full.getMax).sum

/-- `RoundBoundDecider::calculate`; every round but the last one places an event. -/
def calculate : Option ℕ := (unboundedRounds g (numEvents g + 1) 0 .start).map Prod.fst

variable {g}

/-! ## The predecessors that are tested -/

/-- The predecessors in other threads that `areSCPredsInView` looks for. -/
def Tested (g : ExecutionGraph) (p e : Event) : Prop :=
  g.Rf p e ∨ g.coImmPred e = some (some p) ∨ (∃ rs, g.frImmPreds e = some rs ∧ p ∈ rs) ∨ g.Joins p e

/-- What an event waits for: its predecessor in the thread and those that are tested. -/
def Awaited (g : ExecutionGraph) (p e : Event) : Prop :=
  (p.thread = e.thread ∧ p.index + 1 = e.index) ∨ Tested g p e

/-- What is tested for the label of a class. -/
lemma tested_iff {p e : Event} {lab : EventLabel} (hlab : g.getEventLabel e = some lab) :
    Tested g p e ↔ lab.body.rf = some p ∨ (g.coImmPred e = some (some p) ∨
      ∃ rs, g.frImmPreds e = some rs ∧ p ∈ rs) ∨ (g.isa LabelBody.isThreadFinish p ∧
        ∃ child, lab.body.joinedThread = some child ∧ p = g.lastPos child) := by
  unfold Tested Rf Joins
  rw [rfOf_of_getEventLabel hlab, hlab, Option.bind_some, or_assoc]
  rfl

/-- Labels that are no writes have no predecessors in coherence order, and overwrite no reads. -/
lemma coImmPred_eq_none (hg : g.SCConsistent) {e : Event} (h : g.isa LabelBody.isWrite e = false) :
    g.coImmPred e = none ∧ g.frImmPreds e = none := by
  have hpred := (hg.neighbours_eq_none h).2
  refine ⟨hpred, ?_⟩
  simp only [frImmPreds, hpred, Option.bind_eq_bind, Option.bind_none]

/-- The test of a write. -/
lemma areSCPredsInView_write (hg : g.SCConsistent) (v : View) {e : Event}
    (hwrite : g.isa LabelBody.isWrite e) : ∃ b, areSCPredsInView g v e = some b ∧
      (b = true ↔ ∀ p, (g.coImmPred e = some (some p) ∨
        ∃ rs, g.frImmPreds e = some rs ∧ p ∈ rs) → v.contains p) := by
  obtain ⟨lab, hlab, hw⟩ := isa_iff.mp hwrite
  obtain ⟨a, s, t, hco⟩ := hg.exists_split hwrite
  obtain ⟨-, -, -, hpred⟩ := hg.neighbours hco
  obtain ⟨rs, hrs, -⟩ := hg.frImmPreds_eq hco
  have hbody : lab.body.isThreadStart = false ∧ lab.body.isThreadJoin = false ∧
      lab.body.isAccess = true ∧ lab.body.isRead = false := by
    cases hb : lab.body <;> rw [hb] at hw <;> first | exact ⟨rfl, rfl, rfl, rfl⟩ | cases hw
  obtain ⟨h₁, h₂, h₃, h₄⟩ := hbody
  refine ⟨!(s.getLast?.any fun p => !v.contains p) && rs.all v.contains, ?_, ?_⟩
  · simp only [areSCPredsInView, hlab, hpred, hrs, h₁, h₂, h₃, h₄, Option.bind_eq_bind,
      Option.bind_some, Bool.false_eq_true, if_false, Bool.not_true]
    split
    next hany => rw [hany]; rfl
    next hany => rw [Bool.eq_false_iff.mpr hany]; rfl
  · rw [hpred, hrs]
    cases s.getLast? <;> simp [or_imp, forall_and]

/-- The test of a label that is no write. -/
lemma areSCPredsInView_of_not_write (hg : g.SCConsistent) (v : View) {e : Event} {lab : EventLabel}
    (hlab : g.getEventLabel e = some lab) (hi : 0 < e.index) (hwrite : lab.body.isWrite = false) :
    ∃ b, areSCPredsInView g v e = some b ∧ (b = true ↔ ∀ p, (lab.body.rf = some p ∨
      (g.isa LabelBody.isThreadFinish p ∧
        ∃ child, lab.body.joinedThread = some child ∧ p = g.lastPos child)) → v.contains p) := by
  have hstart : lab.body.isThreadStart = false := by
    refine Bool.eq_false_iff.mpr fun h => ?_
    have := hg.begins e (isa_iff.mpr ⟨lab, hlab, h⟩)
    omega
  by_cases hjoin : lab.body.isThreadJoin
  · -- a join waits for the end of the thread
    obtain ⟨child, hchild⟩ : ∃ child, lab.body = .plain (.threadJoin child) := by
      cases hb : lab.body <;> rw [hb] at hjoin <;> try cases hjoin
      next kind => cases kind <;> first | exact ⟨_, rfl⟩ | cases hjoin
    have hj := hg.joins e child (by rw [hlab, Option.bind_some, hchild]; rfl)
    obtain ⟨fLab, hfLab, hf⟩ := Option.bind_eq_some_iff.mp hj
    have hfinish : fLab.body.isThreadFinish := by
      cases hb : fLab.body <;> rw [hb] at hf <;> first | rfl | cases hf
    refine ⟨v.contains (g.lastPos child), ?_, ?_⟩
    · simp only [areSCPredsInView, hlab, tjPred, hchild, LabelBody.joinedThread, hfLab, hfinish,
        Option.bind_eq_bind, Option.bind_some, if_true]
      rfl
    · rw [hchild]
      constructor
      · rintro h p (hrf | ⟨-, c, hc, rfl⟩)
        · cases hrf
        · cases hc
          exact h
      · exact fun h => h _ (.inr ⟨isa_iff.mpr ⟨fLab, hfLab, hfinish⟩, child, rfl, rfl⟩)
  have hnone : lab.body.joinedThread = none := by
    cases hb : lab.body <;> first | rfl | skip
    next kind => cases kind <;> first | rfl | (rw [hb] at hjoin; exact absurd rfl hjoin)
  by_cases hread : lab.body.isRead
  · -- a read waits for its source
    have hsource := hg.reads e (isa_iff.mpr ⟨lab, hlab, hread⟩)
    rw [rfOf_of_getEventLabel hlab] at hsource
    obtain ⟨w, hw⟩ := Option.isSome_iff_exists.mp hsource
    have haccess : lab.body.isAccess = true := by
      cases hb : lab.body <;> rw [hb] at hread <;> first | rfl | cases hread
    refine ⟨v.contains w, ?_, ?_⟩
    · simp only [areSCPredsInView, hlab, hstart, hjoin, haccess, hread, hw, Option.bind_eq_bind,
        Option.bind_some, Bool.false_eq_true, if_false, if_true, Bool.not_true]
      rfl
    · rw [hw, hnone]
      simp
  · -- other labels do not wait
    have haccess : lab.body.isAccess = false := by
      cases hb : lab.body <;> rw [hb] at hread hwrite <;>
        first | rfl | exact absurd rfl hread | cases hwrite
    refine ⟨true, ?_, ?_⟩
    · simp only [areSCPredsInView, hlab, hstart, hjoin, haccess, Option.bind_eq_bind,
        Option.bind_some, Bool.false_eq_true, if_false, if_true, Bool.not_false]
      rfl
    · rw [LabelBody.rf_eq_none (Bool.eq_false_iff.mpr hread), hnone]
      simp

/-- The test succeeds iff the tested predecessors are in the view; it does not fail. -/
lemma areSCPredsInView_spec (hg : g.SCConsistent) (v : View) {e : Event} (he : g.containsPos e)
    (hi : 0 < e.index) : ∃ b, areSCPredsInView g v e = some b ∧
      (b = true ↔ ∀ p, Tested g p e → v.contains p) := by
  obtain ⟨lab, hlab⟩ := containsPos_iff.mp he
  simp only [tested_iff hlab]
  by_cases hwrite : lab.body.isWrite
  · obtain ⟨b, hb, hiff⟩ := areSCPredsInView_write hg v (isa_iff.mpr ⟨lab, hlab, hwrite⟩)
    refine ⟨b, hb, hiff.trans (forall_congr' fun p => imp_congr_left ?_)⟩
    have hnone : lab.body.rf = none ∧ lab.body.joinedThread = none := by
      cases h : lab.body <;> rw [h] at hwrite <;> first | exact ⟨rfl, rfl⟩ | cases hwrite
    rw [hnone.1, hnone.2]
    simp
  · have hfalse := Bool.eq_false_iff.mpr hwrite
    obtain ⟨b, hb, hiff⟩ := areSCPredsInView_of_not_write hg v hlab hi hfalse
    refine ⟨b, hb, hiff.trans (forall_congr' fun p => imp_congr_left ?_)⟩
    obtain ⟨hpred, hfr⟩ := coImmPred_eq_none hg ((isa_of_getEventLabel hlab _).trans hfalse)
    rw [hpred, hfr]
    simp

/-! ## Chains of awaited events -/

/-- Events of a thread are linked by a chain. -/
lemma transGen_of_po {p e : Event} (h : g.Po p e) : Relation.TransGen (Awaited g) p e := by
  obtain ⟨t, i⟩ := p
  obtain ⟨t', k⟩ := e
  obtain ⟨rfl, hlt, -⟩ := h
  replace hlt : i < k := hlt
  induction k with
  | zero => omega
  | succ k ih =>
    have hlast : Awaited g ⟨t, k⟩ ⟨t, k + 1⟩ := .inl ⟨rfl, rfl⟩
    rcases Nat.lt_succ_iff_lt_or_eq.mp hlt with hik | rfl
    · exact .tail (ih hik) hlast
    · exact .single hlast

/-- A write is linked by chains to the writes before it in coherence order, and to the reads that
it overwrites. -/
lemma transGen_of_split (hg : g.SCConsistent) {a : SAddr} {s t : List Event} {e : Event}
    (hco : g.co a = s ++ e :: t) :
    (∀ p ∈ s, Relation.TransGen (Awaited g) p e ∧
      ∀ r, g.Rf p r → Relation.TransGen (Awaited g) r e) ∧
    ∀ r, g.Rf .init r → g.addrOf r = some a → Relation.TransGen (Awaited g) r e := by
  induction s using List.reverseRecOn generalizing e t with
  | nil =>
    obtain ⟨rs, hrs, hmem⟩ := hg.frImmPreds_eq hco
    refine ⟨fun p hp => absurd hp List.not_mem_nil, fun r hr ha => .single (.inr ?_)⟩
    exact .inr (.inr (.inl ⟨rs, hrs, (hmem r).mpr ⟨hr, ha⟩⟩))
  | append_singleton s q ih =>
    obtain ⟨rs, hrs, hmem⟩ := hg.frImmPreds_eq hco
    obtain ⟨-, -, -, hpred⟩ := hg.neighbours hco
    rw [List.getLast?_concat] at hpred hmem
    have hq : Awaited g q e := .inr (.inr (.inl hpred))
    obtain ⟨hs, hinit⟩ := ih (e := q) (t := e :: t) (by rw [hco, List.append_assoc]; rfl)
    refine ⟨fun p hp => ?_, fun r hr ha => .tail (hinit r hr ha) hq⟩
    rcases List.mem_append.mp hp with hp | hp
    · exact ⟨.tail (hs p hp).1 hq, fun r hr => .tail ((hs p hp).2 r hr) hq⟩
    · obtain rfl := List.mem_singleton.mp hp
      refine ⟨.single hq, fun r hr => .single (.inr ?_)⟩
      exact .inr (.inr (.inl ⟨rs, hrs, (hmem r).mpr hr⟩))

/-- Whatever comes before an event, except for the create of its thread, is linked to it by a chain
of awaited events. -/
lemma transGen_of_scBefore (hg : g.SCConsistent) {p e : Event} (h : g.SCBefore p e)
    (hcreate : ¬g.Creates p e) : Relation.TransGen (Awaited g) p e := by
  rcases h with hpo | hrf | hco | ⟨w, hw, hfr⟩ | hc | hj
  · exact transGen_of_po hpo
  · exact .single (.inr (.inl hrf))
  · obtain ⟨a, -, s, t, hst, hp⟩ := co_iff_split.mp hco
    exact ((transGen_of_split hg hst).1 p hp).1
  · rcases hfr with hco | ⟨rfl, a, ha, hmem⟩
    · obtain ⟨a, -, s, t, hst, hp⟩ := co_iff_split.mp hco
      exact ((transGen_of_split hg hst).1 w hp).2 p hw
    · obtain ⟨s, t, hst⟩ := List.append_of_mem hmem
      exact (transGen_of_split hg hst).2 p hw ha
  · exact absurd hc hcreate
  · exact .single (.inr (.inr (.inr (.inr hj))))

/-- The tested predecessors come before the event in the relations between threads. -/
lemma of_tested (hg : g.SCConsistent) {p e : Event} (h : Tested g p e) :
    g.Rf p e ∨ g.Co p e ∨ g.Fr p e ∨ g.Joins p e := by
  have hco : ∀ {a s t}, g.co a = s ++ e :: t → ∀ q ∈ s, g.Co q e := fun {a s t} hco q hq =>
    co_iff_split.mpr ⟨a, (hg.of_mem_co (hco ▸ List.mem_append_left _ hq)).2, s, t, hco, hq⟩
  have hsplit : g.coImmPred e ≠ none → ∃ a s t, g.co a = s ++ e :: t := fun hne => by
    by_contra hnot
    have hwrite : g.isa LabelBody.isWrite e = false :=
      Bool.eq_false_iff.mpr fun hw => hnot (hg.exists_split hw)
    exact hne (coImmPred_eq_none hg hwrite).1
  rcases h with hrf | hpred | ⟨rs, hrs, hp⟩ | hj
  · exact .inl hrf
  · obtain ⟨a, s, t, hst⟩ := hsplit (by rw [hpred]; exact Option.some_ne_none _)
    obtain ⟨-, -, -, hpred'⟩ := hg.neighbours hst
    have hlast : s.getLast? = some p := Option.some.inj (hpred'.symm.trans hpred)
    exact .inr (.inl (hco hst p (List.mem_of_getLast? hlast)))
  · obtain ⟨a, s, t, hst⟩ := hsplit fun hnone => by
      simp only [frImmPreds, hnone, Option.bind_eq_bind, Option.bind_none] at hrs
      cases hrs
    obtain ⟨rs', hrs', hmem⟩ := hg.frImmPreds_eq hst
    obtain rfl := Option.some.inj (hrs'.symm.trans hrs)
    refine .inr (.inr (.inl ?_))
    have hread := (hmem p).mp hp
    cases hlast : s.getLast? with
    | none =>
      rw [hlast] at hread
      exact ⟨.init, hread.1, .inr ⟨rfl, a, hread.2, hst ▸ List.mem_append_right s
        List.mem_cons_self⟩⟩
    | some w =>
      rw [hlast] at hread
      exact ⟨w, hread, .inl (hco hst w (List.mem_of_getLast? hlast))⟩
  · exact .inr (.inr (.inr hj))

/-- What an event waits for comes before it. -/
lemma scBefore_of_awaited (hg : g.SCConsistent) {p e : Event} (he : g.containsPos e)
    (h : Awaited g p e) : g.SCBefore p e := by
  rcases h with ⟨ht, hi⟩ | htested
  · exact .inl ⟨ht, by omega, he⟩
  · rcases of_tested hg htested with hrf | hco | hfr | hj
    · exact .inr (.inl hrf)
    · exact .inr (.inr (.inl hco))
    · exact .inr (.inr (.inr (.inl hfr)))
    · exact .inr (.inr (.inr (.inr (.inr hj))))

/-- An event with tested predecessors is not the first one of its thread. -/
lemma index_pos_of_tested (hg : g.SCConsistent) {p e : Event} (h : Tested g p e) :
    0 < e.index := by
  rcases of_tested hg h with hrf | ⟨a, -, hco⟩ | ⟨w, -, hfr⟩ | hj
  · exact hg.index_pos_of_read (isa_isRead_of_rfOf hrf)
  · exact hg.index_pos_of_write
      (hg.of_mem_co (hco.subset (List.mem_cons_of_mem p List.mem_cons_self))).1
  · rcases hfr with ⟨a, -, hco⟩ | ⟨-, a, -, hco⟩
    · exact hg.index_pos_of_write
        (hg.of_mem_co (hco.subset (List.mem_cons_of_mem w List.mem_cons_self))).1
    · exact hg.index_pos_of_write (hg.of_mem_co hco).1
  · exact hg.index_pos_of_joins hj

/-- A tested predecessor is not the first event of its thread, unless it is the initializer. -/
lemma tested_index_pos (hg : g.SCConsistent) {p e : Event} (h : Tested g p e) :
    0 < p.index ∨ p = .init := by
  rcases of_tested hg h with hrf | ⟨a, -, hco⟩ | ⟨w, hw, -⟩ | ⟨hf, -⟩
  · rcases hg.readerLists.sources e p hrf with hw | hinit
    · exact .inl (hg.index_pos_of_write hw)
    · exact .inr ((hg.readerLists.positioned.initOnly p).mp hinit)
  · exact .inl (hg.index_pos_of_write (hg.of_mem_co (hco.subset List.mem_cons_self)).1)
  · exact .inl (hg.index_pos_of_read (isa_isRead_of_rfOf hw))
  · exact .inl (hg.index_pos_of_finish hf)

end RoundBoundDecider

end GenMC
