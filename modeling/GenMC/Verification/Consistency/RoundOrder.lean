import GenMC.Verification.Consistency.RoundSchedule

/-!
# The order of the round bound's schedule

The schedule that the rounds build never places an event before its predecessors in program order,
reads-from, coherence, from-read and joins.  The create of a thread is different: the loop places
the events from index 1 on, and the test for creates is the one of the start of a thread, which has
index 0.  So the create comes before the events of the thread only if the events that it waits for
are placed soon enough, which `CreatedInTime` says exactly.
-/

namespace GenMC

open ExecutionGraph

namespace RoundBoundDecider

variable {g : ExecutionGraph} {k : ℕ} {s : RoundState}

/-- The schedule that the calculation builds. -/
def schedule (g : ExecutionGraph) : Option (List Event) :=
  (unboundedRounds g (numEvents g + 1) 0 .start).map fun r => r.2.placed

/-- The schedule that the decision builds until it stops. -/
def boundedSchedule (g : ExecutionGraph) (bound : ℕ) : Option (List Event) :=
  (boundedRounds g bound .start).map fun r => r.2.placed

/-- No event is placed before one of its predecessors; the first labels of the threads are not
placed at all. -/
def Respects (before : Event → Event → Prop) (l : List Event) : Prop :=
  ∀ l₁ e l₂, l = l₁ ++ e :: l₂ → ∀ p, before p e → 0 < p.index → p ∈ l₁

/-- The create of a thread does not have to wait longer than the thread's first event: every chain
of awaited events into the create is matched by a chain into the first event that goes back to
earlier threads as often, and once more if the creating thread comes after the created one. -/
def CreatedInTime (g : ExecutionGraph) : Prop :=
  ∀ c t, g.Creates c ⟨t, 1⟩ → Sooner (Awaited g) Event.thread c ⟨t, 1⟩

/-- Of two related events of one thread, the first one has the smaller index. -/
lemma index_lt_of_scBefore (hg : g.SCConsistent) {p e : Event} (h : g.SCBefore p e)
    (ht : p.thread = e.thread) : p.index < e.index := by
  by_contra hle
  rcases Nat.eq_or_lt_of_le (not_lt.mp hle) with heq | hlt
  · have hself : p = e := Event.ext ht heq.symm
    exact hg.acyclic.irrefl e (hself ▸ h)
  · exact hg.acyclic.asymm h (.inl ⟨ht.symm, hlt, (hg.containsPos h).1⟩)

/-- A thread is created by another one. -/
lemma thread_ne_of_creates (hg : g.SCConsistent) {c e : Event} (h : g.Creates c e) :
    c.thread ≠ e.thread := by
  intro ht
  -- otherwise the create would come before itself
  have hself : g.Creates c c := ⟨h.1, containsPos_of_isa h.1, by rw [ht]; exact h.2.2⟩
  exact hg.acyclic.irrefl c (.inr (.inr (.inr (.inr (.inl hself)))))

/-- What comes before an event, apart from the create of its thread, is earlier in the order of the
placements. -/
lemma placed_of_scBefore (hg : g.SCConsistent) {p e : Event} (h : g.SCBefore p e)
    (hcreate : ¬g.Creates p e) : Placed g p e := by
  unfold Placed
  split
  next ht => exact index_lt_of_scBefore hg h ht
  next => exact sooner_of_transGen (transGen_of_scBefore hg h hcreate)

/-- Two events are not earlier than each other if the first one is placed at all. -/
lemma placed_asymm {p e : Event} (h : Placed g p e) (hp : ¬WaitsFor g k p) : ¬Placed g e p := by
  unfold Placed at h ⊢
  by_cases ht : p.thread = e.thread
  · rw [if_pos ht] at h
    rw [if_pos ht.symm]
    omega
  · rw [if_neg ht] at h
    rw [if_neg (Ne.symm ht)]
    exact h.asymm ht hp

/-- A placed event comes after all events that are earlier in the order of the placements. -/
lemma mem_of_placed (hg : g.SCConsistent) (h : AfterRounds g k s) {l₁ l₂ : List Event} {p e : Event}
    (hsplit : s.placed = l₁ ++ e :: l₂) (hpos : g.containsPos p) (hi : 0 < p.index)
    (hplaced : Placed g p e) : p ∈ l₁ := by
  obtain ⟨hei, hmem⟩ := (h.placed e).mp (hsplit ▸ List.mem_append_right l₁ List.mem_cons_self)
  have hepos := containsPos_of_bounded hg h.bounded hei hmem
  have hew := (h.view e hepos hei).mp hmem
  have hpw : ¬WaitsFor g k p := by
    intro hpw
    unfold Placed at hplaced
    split at hplaced
    next ht =>
      obtain ⟨t, m⟩ := p
      obtain ⟨t', m'⟩ := e
      obtain rfl : t = t' := ht
      exact hew (waitsFor_mono hpw hplaced.le hepos)
    next =>
      refine hew (Waits.of_le (hplaced k hpw) ?_)
      split <;> omega
  have hp : p ∈ l₁ ++ e :: l₂ := hsplit ▸ (h.placed p).mpr ⟨hi, (h.view p hpos hi).mpr hpw⟩
  have hsorted := h.sorted
  rw [hsplit, List.pairwise_append] at hsorted
  rcases List.mem_append.mp hp with hp | hp
  · exact hp
  rcases List.mem_cons.mp hp with rfl | hp
  · exact absurd hplaced (placed_asymm hplaced hpw)
  · exact absurd ((List.pairwise_cons.mp hsorted.2.1).1 p hp) (placed_asymm hplaced hpw)

/-- Placements respect every predecessor that is earlier in their order. -/
lemma respects_of_placed (hg : g.SCConsistent) (h : AfterRounds g k s)
    {before : Event → Event → Prop} (hbefore : ∀ p e, 0 < e.index → before p e →
      g.containsPos p ∧ Placed g p e) : Respects before s.placed := by
  intro l₁ e l₂ hsplit p hpe hi
  have hei := ((h.placed e).mp (hsplit ▸ List.mem_append_right l₁ List.mem_cons_self)).1
  obtain ⟨hpos, hplaced⟩ := hbefore p e hei hpe
  exact mem_of_placed hg h hsplit hpos hi hplaced

/-- Creates in time are earlier in the order of the placements than all events of their threads. -/
lemma placed_of_creates (hg : g.SCConsistent) (hcreated : CreatedInTime g) {c e : Event}
    (he : 0 < e.index) (h : g.Creates c e) : Placed g c e := by
  obtain ⟨t, m⟩ := e
  have hne := thread_ne_of_creates hg h
  have hfirst : g.containsPos ⟨t, 1⟩ := by
    refine containsPos_iff_lt.mpr ?_
    have hm := containsPos_iff_lt.mp h.2.1
    change m < g.getThreadSize t at hm
    change 0 < m at he
    change 1 < g.getThreadSize t
    omega
  have hsooner := hcreated c t ⟨h.1, hfirst, h.2.2⟩
  unfold Placed
  rw [if_neg hne]
  exact fun k hk => waitsFor_mono (hsooner k hk) he h.2.1

/-- The calculation builds a schedule of all events. -/
lemma exists_schedule (hg : g.SCConsistent) : ∃ k s, schedule g = some s.placed ∧
    AfterRounds g k s ∧ ∀ e, g.containsPos e → 0 < e.index → e ∈ s.placed := by
  obtain ⟨r, hle, hr, hmin⟩ := exists_lastRound hg
  obtain ⟨s, hrun, hs⟩ := unboundedRounds_spec hg hr hmin (numEvents g + 1) 0 afterRounds_start
    (Nat.zero_le r) (by omega)
  refine ⟨r + 1, s, ?_, hs, fun e he hi => ?_⟩
  · unfold schedule
    rw [hrun, Option.map_some]
  · exact (hs.placed e).mpr ⟨hi, (hs.view e he hi).mpr (hr e he hi)⟩

/-- The schedule of the decision is one of its rounds. -/
lemma afterRounds_of_boundedSchedule (hg : g.SCConsistent) {bound : ℕ} {l : List Event}
    (h : boundedSchedule g bound = some l) : ∃ k s, l = s.placed ∧ AfterRounds g k s := by
  obtain ⟨⟨b, s⟩, hrun, rfl⟩ := Option.map_eq_some_iff.mp h
  by_cases hnone : ∃ e, g.containsPos e ∧ 0 < e.index
  · obtain ⟨e, he, hi⟩ := hnone
    obtain ⟨r, -, hr, hmin⟩ := exists_lastRound hg
    obtain ⟨k, s', hrun', hs'⟩ := boundedRounds_spec hg hr hmin bound afterRounds_start
      (Nat.zero_le r) ⟨e, he, hi, Waits.start e⟩
    rw [hrun'] at hrun
    obtain ⟨-, rfl⟩ := Prod.ext_iff.mp (Option.some.inj hrun)
    exact ⟨k, s', rfl, hs'⟩
  · rw [boundedRounds_of_no_events hg hnone] at hrun
    cases hrun

/-- The schedules respect program order, reads-from, coherence, from-read and joins. -/
theorem schedule_respects (hg : g.SCConsistent) :
    (∃ l, schedule g = some l ∧ Respects (fun p e => g.SCBefore p e ∧ ¬g.Creates p e) l) ∧
      ∀ bound l, boundedSchedule g bound = some l →
        Respects (fun p e => g.SCBefore p e ∧ ¬g.Creates p e) l := by
  have hbefore : ∀ p e, 0 < e.index → g.SCBefore p e ∧ ¬g.Creates p e →
      g.containsPos p ∧ Placed g p e := fun p e _ hpe =>
    ⟨(hg.containsPos hpe.1).1, placed_of_scBefore hg hpe.1 hpe.2⟩
  constructor
  · obtain ⟨k, s, hs, hafter, -⟩ := exists_schedule hg
    exact ⟨s.placed, hs, respects_of_placed hg hafter hbefore⟩
  · intro bound l hl
    obtain ⟨k, s, rfl, hafter⟩ := afterRounds_of_boundedSchedule hg hl
    exact respects_of_placed hg hafter hbefore

/-- **When the schedules respect the creates of threads, too.** -/
theorem schedule_respects_creates_iff (hg : g.SCConsistent) :
    ((∃ l, schedule g = some l ∧ Respects g.SCBefore l) ∧
      ∀ bound l, boundedSchedule g bound = some l → Respects g.SCBefore l) ↔
    CreatedInTime g := by
  constructor
  · rintro ⟨⟨l, hl, hrespects⟩, -⟩ c t hcreate
    obtain ⟨k, s, hs, hafter, hall⟩ := exists_schedule hg
    obtain rfl : s.placed = l := Option.some.inj (hs.symm.trans hl)
    obtain ⟨l₁, l₂, hsplit⟩ := List.append_of_mem (hall ⟨t, 1⟩ hcreate.2.1 Nat.one_pos)
    have hi : 0 < c.index := hg.index_pos_of_isa (q := LabelBody.isThreadCreate)
      (fun b hb => by cases b <;> first | rfl | cases hb) hcreate.1
    have hc := hrespects l₁ ⟨t, 1⟩ l₂ hsplit c (.inr (.inr (.inr (.inr (.inl hcreate))))) hi
    have hsorted := hafter.sorted
    rw [hsplit, List.pairwise_append] at hsorted
    have hplaced := hsorted.2.2 c hc ⟨t, 1⟩ List.mem_cons_self
    unfold Placed at hplaced
    rwa [if_neg (thread_ne_of_creates hg hcreate)] at hplaced
  · intro hcreated
    have hbefore : ∀ p e, 0 < e.index → g.SCBefore p e → g.containsPos p ∧ Placed g p e := by
      intro p e hi hpe
      refine ⟨(hg.containsPos hpe).1, ?_⟩
      by_cases hcreate : g.Creates p e
      · exact placed_of_creates hg hcreated hi hcreate
      · exact placed_of_scBefore hg hpe hcreate
    constructor
    · obtain ⟨k, s, hs, hafter, -⟩ := exists_schedule hg
      exact ⟨s.placed, hs, respects_of_placed hg hafter hbefore⟩
    · intro bound l hl
      obtain ⟨k, s, rfl, hafter⟩ := afterRounds_of_boundedSchedule hg hl
      exact respects_of_placed hg hafter hbefore

/-- A thread that creates another one only after it has read from a later thread. -/
def lateCreate : ExecutionGraph :=
  (PartialRun.exec Mutation.apply initial
    [.addLabelToGraph { pos := ⟨0, 1⟩, body := .plain (.threadCreate 1) },
      .addNewThread,
      .addLabelToGraph { pos := ⟨1, 0⟩, body := .threadStart ⟨0, 1⟩ },
      .addLabelToGraph { pos := ⟨1, 1⟩, body := .write .write { addr := ⟨8⟩ } [] },
      .addStoreToCOAfter ⟨1, 1⟩ .init,
      .addLabelToGraph { pos := ⟨0, 2⟩, body := .read .read { addr := ⟨8⟩ } none false },
      .setRf ⟨0, 2⟩ (some ⟨1, 1⟩),
      .addLabelToGraph { pos := ⟨0, 3⟩, body := .plain (.threadCreate 2) },
      .addNewThread,
      .addLabelToGraph { pos := ⟨2, 0⟩, body := .threadStart ⟨0, 3⟩ },
      .addLabelToGraph { pos := ⟨2, 1⟩, body := .write .write { addr := ⟨16⟩ } [] },
      .addStoreToCOAfter ⟨2, 1⟩ .init]).getD initial

/-- The graph is sequentially consistent. -/
lemma scConsistent_lateCreate : lateCreate.SCConsistent :=
  .of_check (by decide +kernel) (by decide +kernel)
    [.init, ⟨0, 1⟩, ⟨1, 0⟩, ⟨1, 1⟩, ⟨0, 2⟩, ⟨0, 3⟩, ⟨2, 0⟩, ⟨2, 1⟩] (by decide +kernel)

/-- The event of the last thread is placed before the create of the thread. -/
theorem lateCreate_not_respected : lateCreate.SCConsistent ∧
    schedule lateCreate = some [⟨0, 1⟩, ⟨1, 1⟩, ⟨2, 1⟩, ⟨0, 2⟩, ⟨0, 3⟩] ∧
    lateCreate.Creates ⟨0, 3⟩ ⟨2, 1⟩ ∧
    ¬Respects lateCreate.SCBefore [⟨0, 1⟩, ⟨1, 1⟩, ⟨2, 1⟩, ⟨0, 2⟩, ⟨0, 3⟩] := by
  have hcreate : lateCreate.Creates ⟨0, 3⟩ ⟨2, 1⟩ := by decide +kernel
  refine ⟨scConsistent_lateCreate, by decide +kernel, hcreate, fun h => ?_⟩
  have hmem := h [⟨0, 1⟩, ⟨1, 1⟩] ⟨2, 1⟩ [⟨0, 2⟩, ⟨0, 3⟩] rfl ⟨0, 3⟩
    (.inr (.inr (.inr (.inr (.inl hcreate))))) (by decide)
  revert hmem
  decide

/-- The exact condition at this graph. -/
theorem lateCreate_respects_iff :
    ((∃ l, schedule lateCreate = some l ∧ Respects lateCreate.SCBefore l) ∧
      ∀ bound l, boundedSchedule lateCreate bound = some l → Respects lateCreate.SCBefore l) ↔
    CreatedInTime lateCreate :=
  schedule_respects_creates_iff scConsistent_lateCreate

end RoundBoundDecider

end GenMC
