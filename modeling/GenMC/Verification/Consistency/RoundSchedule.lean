import GenMC.Lib.PartialRun
import GenMC.Verification.Consistency.RoundBoundDecider

/-!
# The schedule of the round bound

What the rounds place: after `k` rounds, the placed events are those that do not wait for another
round, where an event waits as long as the events that it is linked to do, and a round longer for
each thread that comes after its own (`Waits`).  The order of the placements is the one by round,
thread and index (`Placed`).  As the order of a sequentially consistent graph has no cycles, every
round places an event until there are none left.
-/

namespace GenMC

open ExecutionGraph

namespace RoundBoundDecider

variable {g : ExecutionGraph} {k i j n : ℕ} {s s' : RoundState}

/-- The event cannot be placed in the first `k` rounds. -/
def WaitsFor (g : ExecutionGraph) (k : ℕ) (e : Event) : Prop := Waits (Awaited g) Event.thread k e

/-- The order of the placements: by index in a thread, by round and thread otherwise. -/
def Placed (g : ExecutionGraph) (p e : Event) : Prop :=
  if p.thread = e.thread then p.index < e.index else Sooner (Awaited g) Event.thread p e

/-! ## Waiting -/

/-- The events of a thread wait for each other. -/
lemma waitsFor_mono {t m m' : ℕ} (h : WaitsFor g k ⟨t, m⟩) (hle : m ≤ m')
    (hpos : g.containsPos ⟨t, m'⟩) : WaitsFor g k ⟨t, m'⟩ := by
  rcases Nat.eq_or_lt_of_le hle with rfl | hlt
  · exact h
  · have hpo : g.Po ⟨t, m⟩ ⟨t, m'⟩ := ⟨rfl, hlt, hpos⟩
    have hchain := Waits.transGen (transGen_of_po hpo) h
    rwa [if_neg (lt_irrefl t)] at hchain

/-- The first labels of the threads do not wait for a round. -/
lemma not_waitsFor_of_index (hg : g.SCConsistent) {e : Event} (he : e.index = 0) :
    ¬WaitsFor g (k + 1) e := by
  intro h
  obtain ⟨p, ⟨-, hi⟩ | htested, -⟩ := Waits.succ_iff.mp h
  · omega
  · have := index_pos_of_tested hg htested
    omega

/-! ## The turn of a thread -/

/-- What holds when thread `i` has placed its events up to index `j` in the round after `k` rounds:
the threads before have had their turn, the others have not. -/
structure TurnInv (g : ExecutionGraph) (k i j : ℕ) (s : RoundState) : Prop where
  /-- The threads that have had their turn are a round ahead. -/
  others : ∀ e, g.containsPos e → 0 < e.index → e.thread ≠ i →
    (s.curr.contains e ↔ ¬WaitsFor g (if e.thread < i then k + 1 else k) e)
  /-- The thread has placed the events up to the index. -/
  max : s.curr.getMax i = j
  /-- These do not wait for another round. -/
  before : ∀ m, 0 < m → m ≤ j → ¬WaitsFor g (k + 1) ⟨i, m⟩
  /-- The rest could not be placed earlier. -/
  after : ∀ m, j < m → g.containsPos ⟨i, m⟩ → WaitsFor g k ⟨i, m⟩
  /-- Only events of the graph are placed. -/
  bounded : ∀ t, s.curr.getMax t ≤ g.full.getMax t
  /-- The view has the placed events. -/
  placed : ∀ e, e ∈ s.placed ↔ 0 < e.index ∧ s.curr.contains e
  /-- The events are placed in order. -/
  sorted : s.placed.Pairwise (Placed g)

/-- Events in a view below the full one are in the graph. -/
lemma containsPos_of_bounded (hg : g.SCConsistent) (h : ∀ t, s.curr.getMax t ≤ g.full.getMax t)
    {e : Event} (he : 0 < e.index) (hmem : s.curr.contains e) : g.containsPos e :=
  (hg.containsPos_iff_full he).mpr ((of_decide_eq_true hmem).trans (h e.thread))

/-- The next event of the thread can be placed iff it does not wait for another round. -/
lemma ready_iff (hg : g.SCConsistent) (h : TurnInv g k i j s) (hpos : g.containsPos ⟨i, j + 1⟩) :
    (∀ p, Tested g p ⟨i, j + 1⟩ → s.curr.contains p) ↔ ¬WaitsFor g (k + 1) ⟨i, j + 1⟩ := by
  -- tested predecessors in the thread are before the event
  have hsame : ∀ p, Tested g p ⟨i, j + 1⟩ → p.thread = i → p.index ≤ j := by
    intro p hp ht
    have hbefore := scBefore_of_awaited hg hpos (.inr hp)
    by_contra hlt
    rcases Nat.eq_or_lt_of_le (Nat.succ_le_of_lt (not_le.mp hlt)) with heq | hgt
    · have hself : p = ⟨i, j + 1⟩ := Event.ext ht heq.symm
      exact hg.acyclic.irrefl _ (hself ▸ hbefore)
    · exact hg.acyclic.asymm hbefore (.inl ⟨ht.symm, hgt, (hg.containsPos hbefore).1⟩)
  constructor
  · intro hready hwaits
    obtain ⟨p, ⟨ht, hi⟩ | hp, hpw⟩ := Waits.succ_iff.mp hwaits
    · -- the predecessor in the thread
      obtain ⟨t, m⟩ := p
      obtain rfl : t = i := ht
      obtain rfl : m = j := Nat.succ_injective hi
      rw [if_neg (lt_irrefl _)] at hpw
      rcases Nat.eq_zero_or_pos m with hm | hm
      · exact not_waitsFor_of_index hg hm hpw
      · exact h.before m hm le_rfl hpw
    · have hmem := hready p hp
      rcases tested_index_pos hg hp with hpi | rfl
      · have hcont := (hg.containsPos (scBefore_of_awaited hg hpos (.inr hp))).1
        by_cases hpt : p.thread = i
        · rw [if_neg (by rw [hpt]; exact lt_irrefl i)] at hpw
          exact h.before p.index hpi (hsame p hp hpt) (hpt ▸ hpw)
        · refine (h.others p hcont hpi hpt).mp hmem ?_
          by_cases hlt : i < p.thread
          · rw [if_pos hlt] at hpw
            rwa [if_neg (by omega)]
          · rw [if_neg hlt] at hpw
            rwa [if_pos (by omega)]
      · rw [if_neg (show ¬i < Event.init.thread from Nat.not_lt_zero i)] at hpw
        exact not_waitsFor_of_index hg rfl hpw
  · intro hwaits p hp
    by_contra hmem
    have hpi : 0 < p.index := by
      refine Nat.pos_of_ne_zero fun hzero => hmem ?_
      exact (VectorClock.view s.curr).contains_of_index_eq_zero hzero
    have hcont := (hg.containsPos (scBefore_of_awaited hg hpos (.inr hp))).1
    refine hwaits (Waits.succ_iff.mpr ⟨p, .inr hp, ?_⟩)
    by_cases hpt : p.thread = i
    · refine absurd (decide_eq_true ?_) hmem
      rw [hpt, h.max]
      exact hsame p hp hpt
    · have hpw : WaitsFor g (if p.thread < i then k + 1 else k) p := by
        by_contra hnot
        exact hmem ((h.others p hcont hpi hpt).mpr hnot)
      by_cases hlt : i < p.thread
      · rw [if_neg (by omega)] at hpw
        rwa [if_pos hlt]
      · rw [if_pos (by omega)] at hpw
        rwa [if_neg hlt]

/-- Placing the next event of the thread. -/
lemma TurnInv.step (hg : g.SCConsistent) (h : TurnInv g k i j s)
    (hpos : g.containsPos ⟨i, j + 1⟩) (hready : ¬WaitsFor g (k + 1) ⟨i, j + 1⟩) :
    TurnInv g k i (j + 1) { s with
      progress := true, curr := s.curr.updateIdx ⟨i, j + 1⟩,
      placed := s.placed ++ [⟨i, j + 1⟩] } := by
  have hwaits := h.after (j + 1) (Nat.lt_succ_self j) hpos
  have hmax := h.max
  refine ⟨fun e he hi ht => ?_, ?_, fun m hm hle => ?_, fun m hm => h.after m (by omega),
    fun t => ?_, fun e => ?_, ?_⟩
  · rw [← h.others e he hi ht]
    unfold View.contains
    rw [View.getMax_updateIdx, if_neg ht]
  · rw [View.getMax_updateIdx, if_pos rfl, hmax]
    exact max_eq_right (Nat.le_succ j)
  · rcases Nat.eq_or_lt_of_le hle with rfl | hlt
    · exact hready
    · exact h.before m hm (by omega)
  · rw [View.getMax_updateIdx]
    split
    next ht =>
      rw [ht]
      exact max_le (h.bounded i) ((hg.containsPos_iff_full (Nat.succ_pos j)).mp hpos)
    next => exact h.bounded t
  · rw [List.mem_append, h.placed, List.mem_singleton]
    unfold View.contains
    rw [View.getMax_updateIdx]
    by_cases ht : e.thread = i
    · rw [if_pos ht, ht, hmax, max_eq_right (Nat.le_succ j), Event.ext_iff, ht]
      simp only [decide_eq_true_eq, true_and]
      omega
    · rw [if_neg ht, Event.ext_iff]
      simp only [ht, false_and, or_false]
  · rw [List.pairwise_append]
    refine ⟨h.sorted, List.pairwise_singleton _ _, fun p hp e he => ?_⟩
    obtain rfl := List.mem_singleton.mp he
    obtain ⟨hpi, hmem⟩ := (h.placed p).mp hp
    unfold Placed
    split
    next ht =>
      have hle : p.index ≤ s.curr.getMax p.thread := of_decide_eq_true hmem
      rw [ht, hmax] at hle
      exact Nat.lt_succ_of_le hle
    next ht =>
      -- the placed event does not wait for this turn, and the next one does
      have hnot := (h.others p (containsPos_of_bounded hg h.bounded hpi hmem) hpi ht).mp hmem
      intro m hm
      have hlt : m < if p.thread < i then k + 1 else k := by
        by_contra hge
        exact hnot (Waits.of_le hm (not_lt.mp hge))
      refine Waits.of_le hwaits ?_
      change (if i < p.thread then m + 1 else m) ≤ k
      split <;> split at hlt <;> omega

/-- The rest of a turn: it places what does not wait for another round. -/
lemma placeThread_spec (hg : g.SCConsistent) (h : TurnInv g k i j s)
    (hn : j + n = g.full.getMax i) : ∃ s' j', placeThread g i n j s = some s' ∧
      TurnInv g k i j' s' ∧
      (∀ m, j' < m → g.containsPos ⟨i, m⟩ → WaitsFor g (k + 1) ⟨i, m⟩) ∧
      (s'.done ↔ s.done ∧ ∀ m, j < m → g.containsPos ⟨i, m⟩ → ¬WaitsFor g (k + 1) ⟨i, m⟩) ∧
      (s'.progress ↔ s.progress ∨
        ∃ m, j < m ∧ g.containsPos ⟨i, m⟩ ∧ ¬WaitsFor g (k + 1) ⟨i, m⟩) := by
  induction n generalizing j s with
  | zero =>
    have hend : ∀ m, j < m → ¬g.containsPos ⟨i, m⟩ := by
      intro m hm hpos
      have := (hg.containsPos_iff_full (e := ⟨i, m⟩) (by change 0 < m; omega)).mp hpos
      change m ≤ g.full.getMax i at this
      omega
    refine ⟨s, j, rfl, h, fun m hm hpos => absurd hpos (hend m hm), ?_, ?_⟩
    · exact ⟨fun hd => ⟨hd, fun m hm hpos => absurd hpos (hend m hm)⟩, fun hd => hd.1⟩
    · exact ⟨.inl, fun hp => hp.elim id fun ⟨m, hm, hpos, _⟩ => absurd hpos (hend m hm)⟩
  | succ n ih =>
    have hpos : g.containsPos ⟨i, j + 1⟩ :=
      (hg.containsPos_iff_full (Nat.succ_pos j)).mpr (by change j + 1 ≤ g.full.getMax i; omega)
    obtain ⟨b, hb, hbiff⟩ := areSCPredsInView_spec hg s.curr hpos (Nat.succ_pos j)
    have hwaits := hbiff.trans (ready_iff hg h hpos)
    cases b with
    | true =>
      -- the next event is placed
      have hready := hwaits.mp rfl
      obtain ⟨s', j', hrun, hinv, hrest, hdone, hprogress⟩ := ih (h.step hg hpos hready) (by omega)
      refine ⟨s', j', ?_, hinv, hrest, hdone.trans (and_congr_right fun _ => ?_), ?_⟩
      · simp only [placeThread, hb, Option.bind_eq_bind, Option.bind_some, if_true]
        exact hrun
      · constructor
        · intro hall m hm hmpos
          rcases Nat.eq_or_lt_of_le (Nat.succ_le_of_lt hm) with rfl | hlt
          · exact hready
          · exact hall m hlt hmpos
        · exact fun hall m hm => hall m (by omega)
      · exact hprogress.trans ⟨fun _ => .inr ⟨j + 1, Nat.lt_succ_self j, hpos, hready⟩,
          fun _ => .inl rfl⟩
    | false =>
      -- the thread has to wait for another round, and so do all of its further events
      have hnext : WaitsFor g (k + 1) ⟨i, j + 1⟩ := by
        by_contra hnot
        exact Bool.false_ne_true (hwaits.mpr hnot)
      have hrest : ∀ m, j < m → g.containsPos ⟨i, m⟩ → WaitsFor g (k + 1) ⟨i, m⟩ :=
        fun m hm hmpos => waitsFor_mono hnext hm hmpos
      refine ⟨{ s with done := false }, j, ?_, ⟨h.others, h.max, h.before, h.after, h.bounded,
        h.placed, h.sorted⟩, hrest, ?_, ?_⟩
      · simp only [placeThread, hb, Option.bind_eq_bind, Option.bind_some, Bool.false_eq_true,
          if_false]
        rfl
      · exact ⟨fun hd => absurd hd Bool.false_ne_true, fun hd =>
          absurd hnext (hd.2 (j + 1) (Nat.lt_succ_self j) hpos)⟩
      · exact ⟨.inl, fun hp => hp.elim id fun ⟨m, hm, hmpos, hnot⟩ =>
          absurd (hrest m hm hmpos) hnot⟩

/-! ## Rounds -/

/-- What holds in the round after `k` rounds when the threads before `i` have had their turn. -/
structure RoundInv (g : ExecutionGraph) (k i : ℕ) (s : RoundState) : Prop where
  /-- The threads that have had their turn are a round ahead. -/
  view : ∀ e, g.containsPos e → 0 < e.index →
    (s.curr.contains e ↔ ¬WaitsFor g (if e.thread < i then k + 1 else k) e)
  /-- Only events of the graph are placed. -/
  bounded : ∀ t, s.curr.getMax t ≤ g.full.getMax t
  /-- The view has the placed events. -/
  placed : ∀ e, e ∈ s.placed ↔ 0 < e.index ∧ s.curr.contains e
  /-- The events are placed in order. -/
  sorted : s.placed.Pairwise (Placed g)
  /-- The threads have had to wait if events were left for the next round. -/
  done : s.done ↔ ∀ e, g.containsPos e → 0 < e.index → e.thread < i → ¬WaitsFor g (k + 1) e
  /-- The threads have made progress if there were events to place. -/
  progress : s.progress ↔ ∃ e, g.containsPos e ∧ 0 < e.index ∧ e.thread < i ∧ WaitsFor g k e ∧
    ¬WaitsFor g (k + 1) e

/-- The turn of a thread begins. -/
lemma RoundInv.turnInv (hg : g.SCConsistent) (h : RoundInv g k i s) :
    TurnInv g k i (s.curr.getMax i) s := by
  refine ⟨fun e he hi _ => h.view e he hi, rfl, fun m hm hle hwaits => ?_, fun m hm hpos => ?_,
    h.bounded, h.placed, h.sorted⟩
  · have hmem : s.curr.contains ⟨i, m⟩ := decide_eq_true hle
    have hnot := (h.view ⟨i, m⟩ (containsPos_of_bounded hg h.bounded hm hmem) hm).mp hmem
    rw [if_neg (lt_irrefl i)] at hnot
    exact hnot (Waits.of_succ hwaits)
  · by_contra hnot
    have hmem := (h.view ⟨i, m⟩ hpos (by change 0 < m; omega)).mpr
      (by rwa [if_neg (lt_irrefl i)])
    exact absurd (of_decide_eq_true hmem) (not_le.mpr hm)

/-- The turn of a thread. -/
lemma turn_spec (hg : g.SCConsistent) (h : RoundInv g k i s) :
    ∃ s', turn g s i = some s' ∧ RoundInv g k (i + 1) s' := by
  have hle := h.bounded i
  have hturn := h.turnInv hg
  obtain ⟨s', j', hrun, hinv, hrest, hdone, hprogress⟩ :=
    placeThread_spec hg hturn (n := g.full.getMax i - s.curr.getMax i) (by omega)
  refine ⟨s', hrun, ?_, hinv.bounded, hinv.placed, hinv.sorted, ?_, ?_⟩
  · intro e he hi
    by_cases ht : e.thread = i
    · rw [if_pos (by omega)]
      obtain ⟨t, m⟩ := e
      obtain rfl : t = i := ht
      constructor
      · intro hmem
        have hm : m ≤ s'.curr.getMax t := of_decide_eq_true hmem
        rw [hinv.max] at hm
        exact hinv.before m hi hm
      · intro hnot
        refine decide_eq_true ?_
        change m ≤ s'.curr.getMax t
        rw [hinv.max]
        exact not_lt.mp fun hm => hnot (hrest m hm he)
    · rw [hinv.others e he hi ht]
      have hiff : e.thread < i ↔ e.thread < i + 1 := by omega
      simp only [hiff]
  · rw [hdone, h.done]
    constructor
    · rintro ⟨hbefore, hturns⟩ ⟨t, m⟩ he hi hlt
      rcases Nat.lt_succ_iff_lt_or_eq.mp hlt with hlt | heq
      · exact hbefore ⟨t, m⟩ he hi hlt
      · obtain rfl : t = i := heq
        rcases le_or_gt m (s.curr.getMax t) with hm | hm
        · exact hturn.before m hi hm
        · exact hturns m hm he
    · intro hall
      exact ⟨fun e he hi hlt => hall e he hi (by omega),
        fun m hm hpos => hall ⟨i, m⟩ hpos (by change 0 < m; omega) (Nat.lt_succ_self i)⟩
  · rw [hprogress, h.progress]
    constructor
    · rintro (⟨e, he, hi, hlt, hw⟩ | ⟨m, hm, hpos, hnot⟩)
      · exact ⟨e, he, hi, by omega, hw⟩
      · exact ⟨⟨i, m⟩, hpos, by change 0 < m; omega, Nat.lt_succ_self i,
          hturn.after m hm hpos, hnot⟩
    · rintro ⟨⟨t, m⟩, he, hi, hlt, hw, hnot⟩
      rcases Nat.lt_succ_iff_lt_or_eq.mp hlt with hlt | heq
      · exact .inl ⟨⟨t, m⟩, he, hi, hlt, hw, hnot⟩
      · obtain rfl : t = i := heq
        refine .inr ⟨m, not_le.mp fun hm => ?_, he, hnot⟩
        have hmem := (h.view ⟨t, m⟩ he hi).mp (decide_eq_true hm)
        rw [if_neg (lt_irrefl t)] at hmem
        exact hmem hw

/-- What holds after `k` rounds. -/
structure AfterRounds (g : ExecutionGraph) (k : ℕ) (s : RoundState) : Prop where
  /-- The events that do not wait for another round are placed. -/
  view : ∀ e, g.containsPos e → 0 < e.index → (s.curr.contains e ↔ ¬WaitsFor g k e)
  /-- Only events of the graph are placed. -/
  bounded : ∀ t, s.curr.getMax t ≤ g.full.getMax t
  /-- The view has the placed events. -/
  placed : ∀ e, e ∈ s.placed ↔ 0 < e.index ∧ s.curr.contains e
  /-- The events are placed in order. -/
  sorted : s.placed.Pairwise (Placed g)

/-- Nothing is placed before the first round. -/
lemma afterRounds_start : AfterRounds g 0 .start := by
  refine ⟨fun e _ hi => ?_, fun t => ?_, fun e => ?_, List.Pairwise.nil⟩
  · have hnot : ¬RoundState.start.curr.contains e := by
      simp only [RoundState.start, View.contains, View.getMax_empty, decide_eq_true_eq]
      omega
    exact ⟨fun hmem => absurd hmem hnot, fun h => absurd (Waits.start e) h⟩
  · simp [RoundState.start]
  · simp only [RoundState.start, View.contains, View.getMax_empty, decide_eq_true_eq,
      List.not_mem_nil, false_iff]
    omega

/-- **A round** does not fail.  It is the last one iff no event waits for another round, and it has
placed an event iff some event waits for this round only. -/
theorem round_spec (hg : g.SCConsistent) (h : AfterRounds g k s) :
    ∃ s', round g s = some s' ∧ AfterRounds g (k + 1) s' ∧
      (s'.done ↔ ∀ e, g.containsPos e → 0 < e.index → ¬WaitsFor g (k + 1) e) ∧
      (s'.progress ↔
        ∃ e, g.containsPos e ∧ 0 < e.index ∧ WaitsFor g k e ∧ ¬WaitsFor g (k + 1) e) := by
  have hstart : RoundInv g k 0 { s with progress := false, done := true } := by
    refine ⟨fun e he hi => ?_, h.bounded, h.placed, h.sorted, ?_, ?_⟩
    · rw [if_neg (Nat.not_lt_zero _)]
      exact h.view e he hi
    · exact ⟨fun _ e _ _ hlt => absurd hlt (Nat.not_lt_zero _), fun _ => rfl⟩
    · exact ⟨fun hp => absurd hp Bool.false_ne_true,
        fun ⟨e, _, _, hlt, _⟩ => absurd hlt (Nat.not_lt_zero _)⟩
  obtain ⟨s', hrun, hinv⟩ := PartialRun.foldlM_total (f := turn g) (List.range g.getNumThreads)
    (fun l => RoundInv g k l.length) (fun l i rest hl s hs => by
      have hi : l.length = i := by
        have hget := congrArg (·[l.length]?) hl
        simp only [List.getElem?_append_right le_rfl, Nat.sub_self, List.getElem?_cons_zero] at hget
        rw [List.getElem?_range (by
          have := congrArg List.length hl
          simp only [List.length_range, List.length_append, List.length_cons] at this
          omega)] at hget
        exact Option.some.inj hget
      obtain ⟨s', hturn, hs'⟩ := turn_spec hg (hi ▸ hs)
      exact ⟨s', hturn, by rw [List.length_append, hi]; exact hs'⟩) hstart
  rw [List.length_range] at hinv
  have hthread : ∀ e, g.containsPos e → e.thread < g.getNumThreads := fun e he =>
    have ⟨_, hlab⟩ := containsPos_iff.mp he
    thread_lt_of_getEventLabel hlab
  refine ⟨s', hrun, ⟨fun e he hi => ?_, hinv.bounded, hinv.placed, hinv.sorted⟩, ?_, ?_⟩
  · rw [hinv.view e he hi, if_pos (hthread e he)]
  · exact hinv.done.trans ⟨fun hd e he hi => hd e he hi (hthread e he),
      fun hd e he hi _ => hd e he hi⟩
  · exact hinv.progress.trans ⟨fun ⟨e, he, hi, _, hw⟩ => ⟨e, he, hi, hw⟩,
      fun ⟨e, he, hi, hw⟩ => ⟨e, he, hi, hthread e he, hw⟩⟩

/-- **Progress.**  While events are left, some event does not wait for another round. -/
theorem exists_placed (hg : g.SCConsistent)
    (hleft : ∃ e, g.containsPos e ∧ 0 < e.index ∧ WaitsFor g k e) :
    ∃ e, g.containsPos e ∧ 0 < e.index ∧ WaitsFor g k e ∧ ¬WaitsFor g (k + 1) e := by
  obtain ⟨e, ⟨he, hi, hw⟩, hfirst⟩ := hg.acyclic.exists_first
    (s := {e | g.containsPos e ∧ 0 < e.index ∧ WaitsFor g k e})
    ((finite_containsPos g).subset fun e he => he.1) hleft
  refine ⟨e, he, hi, hw, fun hnext => ?_⟩
  obtain ⟨p, hp, hpw⟩ := Waits.succ_iff.mp hnext
  have hbefore := scBefore_of_awaited hg he hp
  by_cases hpi : p.index = 0
  · -- the first label of the thread, or the initializer
    have hthread : ¬e.thread < p.thread := by
      rcases hp with ⟨ht, -⟩ | htested
      · rw [ht]
        exact lt_irrefl _
      · rcases tested_index_pos hg htested with hpos | rfl
        · omega
        · exact Nat.not_lt_zero _
    rw [if_neg hthread] at hpw
    exact not_waitsFor_of_index hg hpi hpw
  · refine hfirst p ⟨(hg.containsPos hbefore).1, Nat.pos_of_ne_zero hpi, ?_⟩ hbefore
    split at hpw
    · exact hpw
    · exact Waits.of_succ hpw

/-! ## The number of rounds -/

/-- The events to place. -/
def events (g : ExecutionGraph) : Set Event := {e | g.containsPos e ∧ 0 < e.index}

/-- There are `numEvents` of them. -/
lemma ncard_events_le (hg : g.SCConsistent) : (events g).ncard ≤ numEvents g := by
  let l := (List.range g.getNumThreads).flatMap fun t =>
    (List.range (g.full.getMax t)).map fun m => Event.mk t (m + 1)
  have hsub : events g ⊆ (l.toFinset : Set Event) := by
    rintro ⟨t, m⟩ ⟨he, hi⟩
    obtain ⟨lab, hlab⟩ := containsPos_iff.mp he
    have hm := (hg.containsPos_iff_full hi).mp he
    change m ≤ g.full.getMax t at hm
    change 0 < m at hi
    rw [Finset.mem_coe, List.mem_toFinset, List.mem_flatMap]
    refine ⟨t, List.mem_range.mpr (thread_lt_of_getEventLabel hlab), List.mem_map.mpr
      ⟨m - 1, List.mem_range.mpr (by omega), ?_⟩⟩
    rw [Nat.sub_add_cancel hi]
  calc (events g).ncard ≤ (l.toFinset : Set Event).ncard := Set.ncard_le_ncard hsub
    _ = l.toFinset.card := Set.ncard_coe_finset _
    _ ≤ l.length := List.toFinset_card_le l
    _ = numEvents g := by
      simp only [l, numEvents, List.length_flatMap, List.length_map, List.length_range]

/-- There are fewer rounds than events before the last one, since each places an event. -/
lemma lt_numEvents (hg : g.SCConsistent) {e : Event} (he : g.containsPos e) (hi : 0 < e.index)
    (hw : WaitsFor g k e) : k < numEvents g := by
  have hfin : (events g).Finite := (finite_containsPos g).subset fun e he => he.1
  have hcount : ∀ k e, e ∈ events g → WaitsFor g k e →
      k ≤ {e ∈ events g | ¬WaitsFor g k e}.ncard := by
    intro k
    induction k with
    | zero => exact fun _ _ _ => Nat.zero_le _
    | succ k ih =>
      intro e he hw
      obtain ⟨p, hp, hpi, hpw, hpn⟩ := exists_placed hg ⟨e, he.1, he.2, Waits.of_succ hw⟩
      refine Nat.succ_le_of_lt (lt_of_le_of_lt (ih e he (Waits.of_succ hw)) ?_)
      refine Set.ncard_lt_ncard
        ⟨fun q hq => ⟨hq.1, fun h => hq.2 (Waits.of_succ h)⟩, fun hsub => ?_⟩
        (hfin.subset fun q hq => hq.1)
      exact (hsub ⟨⟨hp, hpi⟩, hpn⟩).2 hpw
  refine lt_of_lt_of_le (lt_of_le_of_lt (hcount k e ⟨he, hi⟩ hw) ?_) (ncard_events_le hg)
  exact Set.ncard_lt_ncard ⟨fun q hq => hq.1, fun hsub => (hsub ⟨he, hi⟩).2 hw⟩ hfin

/-- The last round: no event waits for another one. -/
def LastRound (g : ExecutionGraph) (k : ℕ) : Prop :=
  ∀ e, g.containsPos e → 0 < e.index → ¬WaitsFor g (k + 1) e

/-- There is a first last round, which is among the first `numEvents + 1` rounds. -/
lemma exists_lastRound (hg : g.SCConsistent) :
    ∃ r ≤ numEvents g, LastRound g r ∧ ∀ k < r, ¬LastRound g k := by
  classical
  have hex : ∃ r, LastRound g r := ⟨numEvents g, fun e he hi hw =>
    absurd (lt_numEvents hg he hi hw) (by omega)⟩
  refine ⟨Nat.find hex, Nat.find_min' hex fun e he hi hw => ?_, Nat.find_spec hex,
    fun k hk => Nat.find_min hex hk⟩
  exact absurd (lt_numEvents hg he hi hw) (by omega)

/-- In a round that is not the last one, some event has to wait. -/
lemma exists_waiting (h : ¬LastRound g k) :
    ∃ e, g.containsPos e ∧ 0 < e.index ∧ WaitsFor g (k + 1) e := by
  unfold LastRound at h
  push Not at h
  exact h

/-- The loop of the calculation counts the rounds before the last one. -/
lemma unboundedRounds_spec (hg : g.SCConsistent) {r : ℕ} (hr : LastRound g r)
    (hmin : ∀ k < r, ¬LastRound g k) (fuel bound : ℕ) (h : AfterRounds g k s) (hk : k ≤ r)
    (hfuel : r - k < fuel) : ∃ s', unboundedRounds g fuel bound s = some (bound + (r - k), s') ∧
      AfterRounds g (r + 1) s' := by
  induction fuel generalizing k bound s with
  | zero => omega
  | succ fuel ih =>
    have harith : k < r → r - (k + 1) < fuel ∧ bound + 1 + (r - (k + 1)) = bound + (r - k) := by
      omega
    obtain ⟨s', hround, hafter, hdone, hprogress⟩ := round_spec hg h
    rcases Nat.eq_or_lt_of_le hk with rfl | hlt
    · refine ⟨s', ?_, hafter⟩
      have hd : s'.done = true := hdone.mpr hr
      simp only [unboundedRounds, hround, hd, Option.bind_eq_bind, Option.bind_some, if_true,
        Nat.sub_self, Nat.add_zero]
      rfl
    · obtain ⟨hfuel', hsum⟩ := harith hlt
      obtain ⟨e, he, hi, hw⟩ := exists_waiting (hmin k hlt)
      have hd : s'.done = false := Bool.eq_false_iff.mpr fun hd => hmin k hlt (hdone.mp hd)
      have hp : s'.progress = true :=
        hprogress.mpr (exists_placed hg ⟨e, he, hi, Waits.of_succ hw⟩)
      obtain ⟨s'', hrun, hs''⟩ := ih (bound + 1) hafter hlt hfuel'
      refine ⟨s'', ?_, hs''⟩
      simp only [unboundedRounds, hround, hd, hp, Option.bind_eq_bind, Option.bind_some,
        Bool.false_eq_true, if_false, Bool.not_true, hrun, hsum]

/-- The loop of the decision compares this number with the bound, unless there is nothing to
place. -/
lemma boundedRounds_spec (hg : g.SCConsistent) {r : ℕ} (hr : LastRound g r)
    (hmin : ∀ k < r, ¬LastRound g k) (bound : ℕ) (h : AfterRounds g k s) (hk : k ≤ r)
    (hleft : ∃ e, g.containsPos e ∧ 0 < e.index ∧ WaitsFor g k e) :
    ∃ l s', boundedRounds g bound s = some (decide (bound < r - k), s') ∧ AfterRounds g l s' := by
  induction bound generalizing k s with
  | zero =>
    obtain ⟨s', hround, hafter, hdone, hprogress⟩ := round_spec hg h
    have hp : s'.progress = true := hprogress.mpr (exists_placed hg hleft)
    refine ⟨k + 1, s', ?_, hafter⟩
    by_cases hkr : k = r
    · have hd : s'.done = true := hdone.mpr (hkr ▸ hr)
      simp only [boundedRounds, hround, hp, hd, Option.bind_eq_bind, Option.bind_some,
        Bool.not_true, Bool.false_eq_true, if_false, if_true]
      rw [hkr, Nat.sub_self]
      rfl
    · have hd : s'.done = false :=
        Bool.eq_false_iff.mpr fun hd => hmin k (by omega) (hdone.mp hd)
      simp only [boundedRounds, hround, hp, hd, Option.bind_eq_bind, Option.bind_some,
        Bool.not_true, Bool.false_eq_true, if_false]
      rw [decide_eq_true (by omega : 0 < r - k)]
      rfl
  | succ bound ih =>
    obtain ⟨s', hround, hafter, hdone, hprogress⟩ := round_spec hg h
    have hp : s'.progress = true := hprogress.mpr (exists_placed hg hleft)
    by_cases hkr : k = r
    · have hd : s'.done = true := hdone.mpr (hkr ▸ hr)
      refine ⟨k + 1, s', ?_, hafter⟩
      unfold boundedRounds
      simp only [hround, hp, hd, Option.bind_eq_bind, Option.bind_some,
        Bool.not_true, Bool.false_eq_true, if_false, if_true]
      rw [hkr, Nat.sub_self]
      rfl
    · have hlt : k < r := by omega
      have hd : s'.done = false := Bool.eq_false_iff.mpr fun hd => hmin k hlt (hdone.mp hd)
      obtain ⟨l, s'', hrun, hs''⟩ := ih hafter hlt (exists_waiting (hmin k hlt))
      refine ⟨l, s'', ?_, hs''⟩
      have hiff : (bound + 1 < r - k) = (bound < r - (k + 1)) := by
        rw [eq_iff_iff]
        omega
      unfold boundedRounds
      simp only [hround, hp, hd, Option.bind_eq_bind, Option.bind_some, Bool.not_true,
        Bool.false_eq_true, if_false, hrun, hiff]

/-- Without events, the first round of the decision makes no progress, which is a bug. -/
lemma boundedRounds_of_no_events (hg : g.SCConsistent) {bound : ℕ}
    (hnone : ¬∃ e, g.containsPos e ∧ 0 < e.index) : boundedRounds g bound .start = none := by
  obtain ⟨s', hround, -, -, hprogress⟩ := round_spec hg afterRounds_start
  have hp : s'.progress = false := Bool.eq_false_iff.mpr fun hp =>
    have ⟨e, he, hi, _⟩ := hprogress.mp hp
    hnone ⟨e, he, hi⟩
  unfold boundedRounds
  simp only [hround, hp, Option.bind_eq_bind, Option.bind_some, Bool.not_false, if_true]

/-- **The two copies of the round loop.**  The calculation never fails, and the decision agrees with
it for every bound iff there is an event to place. -/
theorem decision_agrees_iff (hg : g.SCConsistent) :
    (∃ n, calculate g = some n ∧
      ∀ bound, doesExecutionExceedBound g bound = some (decide (bound < n))) ↔
    ∃ e, g.containsPos e ∧ 0 < e.index := by
  obtain ⟨r, hle, hr, hmin⟩ := exists_lastRound hg
  constructor
  · rintro ⟨n, -, hdecide⟩
    by_contra hnone
    have h := hdecide 0
    unfold doesExecutionExceedBound at h
    rw [boundedRounds_of_no_events hg hnone] at h
    cases h
  · rintro ⟨e, he, hi⟩
    refine ⟨r, ?_, fun bound => ?_⟩
    · obtain ⟨s', hrun, -⟩ := unboundedRounds_spec hg hr hmin (numEvents g + 1) 0
        afterRounds_start (Nat.zero_le r) (by omega)
      unfold calculate
      rw [hrun, Option.map_some, Nat.sub_zero, Nat.zero_add]
    · obtain ⟨l, s', hrun, -⟩ := boundedRounds_spec hg hr hmin bound afterRounds_start
        (Nat.zero_le r) ⟨e, he, hi, Waits.start e⟩
      unfold doesExecutionExceedBound
      rw [hrun, Option.map_some, Nat.sub_zero]

/-- The sample graph has events. -/
theorem sampleGraph_decision_agrees_iff :
    (∃ n, calculate sampleGraph = some n ∧
      ∀ bound, doesExecutionExceedBound sampleGraph bound = some (decide (bound < n))) ↔
    ∃ e, sampleGraph.containsPos e ∧ 0 < e.index :=
  decision_agrees_iff scConsistent_sampleGraph

/-- On the graph that only has the initializer, the calculation returns 0 and the decision runs into
its assertion. -/
theorem initial_decision_fails : initial.SCConsistent ∧ calculate initial = some 0 ∧
    doesExecutionExceedBound initial 0 = none := by
  refine ⟨.of_check (by decide +kernel) (by decide +kernel) [] (by decide +kernel), ?_, ?_⟩ <;>
    decide +kernel

end RoundBoundDecider

end GenMC
