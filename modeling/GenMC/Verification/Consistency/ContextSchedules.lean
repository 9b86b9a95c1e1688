import GenMC.Verification.Consistency.ContextBound

/-!
# The schedules behind the context bound

A schedule of a view is a list of its events that respects the order of the graph; the latest event
comes first, as the search finds them.  The preemptions of a schedule are the switches away from a
thread that could go on.  The calculation returns the least number of preemptions of the schedules
that are unfolded: going backwards, every thread takes its events as long as `unfoldPrefix` does.
-/

namespace GenMC

open ExecutionGraph

namespace ContextBoundDecider

variable {g : ExecutionGraph} {getVal : Event → SVal} {v v' w : View} {t : ℕ} {l : List Event}

/-! ## Schedules -/

/-- A linearisation of the events of a view, the latest event first. -/
structure Linearises (g : ExecutionGraph) (v : View) (l : List Event) : Prop where
  /-- No event is scheduled twice. -/
  nodup : l.Nodup
  /-- The scheduled events are those of the view, apart from the first labels of the threads. -/
  mem : ∀ e, e ∈ l ↔ 0 < e.index ∧ v.contains e
  /-- No event is scheduled after one that it comes before. -/
  order : l.Pairwise fun e p => ¬g.SCBefore e p

/-- The events that have been scheduled, as a view. -/
def viewOf (l : List Event) : View := l.foldr (fun e v => v.updateIdx e) .empty

/-- The preemptions of a schedule after which thread `t` runs. -/
def preemptionsBefore (g : ExecutionGraph) (getVal : Event → SVal) : ℕ → List Event → ℕ
  | _, [] => 0
  | t, e :: l => preemptionsBefore g getVal e.thread l +
    if preempts g getVal (viewOf (e :: l)) t e.thread = some true then 1 else 0

/-- The preemptions of a schedule. -/
def preemptions (g : ExecutionGraph) (getVal : Event → SVal) : List Event → ℕ
  | [] => 0
  | e :: l => preemptionsBefore g getVal e.thread l

/-- Going backwards from thread `t`, every thread takes its events as long as `unfoldPrefix`
does. -/
def UnfoldedBefore (g : ExecutionGraph) : ℕ → List Event → Prop
  | _, [] => True
  | t, e :: l => (Droppable g (viewOf (e :: l)) t → e.thread = t) ∧ UnfoldedBefore g e.thread l

/-- Going backwards, every thread takes its events as long as `unfoldPrefix` does. -/
def Unfolded (g : ExecutionGraph) : List Event → Prop
  | [] => True
  | e :: l => UnfoldedBefore g e.thread l

/-! ## Views up to their maxima -/

/-- Views with the same maxima contain the same events. -/
lemma contains_congr (h : ∀ t, v.getMax t = w.getMax t) : v.contains = w.contains := by
  funext e
  unfold View.contains
  rw [h]

/-- The tests depend on the maxima of the view. -/
lemma isEnabled_congr (h : ∀ t, v.getMax t = w.getMax t) (t : ℕ) :
    isEnabled g getVal v t = isEnabled g getVal w t := by
  simp only [isEnabled, isLockEnabled, isBarrierEnabled, contains_congr h, h]

/-- The tests depend on the maxima of the view. -/
lemma preempts_congr (h : ∀ t, v.getMax t = w.getMax t) (t tp : ℕ) :
    preempts g getVal v t tp = preempts g getVal w t tp := by
  simp only [preempts, isEnabled_congr h]

/-- The tests depend on the maxima of the view. -/
lemma isSCMaximal_congr (h : ∀ t, v.getMax t = w.getMax t) (t : ℕ) :
    isSCMaximal g v t = isSCMaximal g w t := by
  simp only [isSCMaximal, isStoreMaximal, contains_congr h, h]

/-- The tests depend on the maxima of the view. -/
lemma droppable_congr (h : ∀ t, v.getMax t = w.getMax t) (t : ℕ) :
    Droppable g v t ↔ Droppable g w t := by
  unfold Droppable
  rw [h, isSCMaximal_congr h, canBlock, canBlock, h]

/-- The maxima of the view of a schedule. -/
lemma getMax_viewOf (l : List Event) (t m : ℕ) :
    m ≤ (viewOf l).getMax t ↔ m = 0 ∨ ∃ e ∈ l, e.thread = t ∧ m ≤ e.index := by
  induction l with
  | nil => simp [viewOf]
  | cons e l ih =>
    change m ≤ ((viewOf l).updateIdx e).getMax t ↔ _
    rw [View.getMax_updateIdx]
    by_cases ht : t = e.thread
    · rw [if_pos ht, le_max_iff, ih]
      simp only [List.mem_cons, exists_eq_or_imp, ht, true_and, or_assoc]
      exact or_congr_right or_comm
    · rw [if_neg ht, ih]
      simp [Ne.symm ht]

/-- The events of a scheduled view are those of the view. -/
lemma Linearises.getMax_viewOf_eq (h : Linearises g v l) (t : ℕ) :
    (viewOf l).getMax t = v.getMax t := by
  refine le_antisymm ?_ ?_
  · rcases (getMax_viewOf l t _).mp le_rfl with hzero | ⟨e, he, rfl, hle⟩
    · rw [hzero]
      exact Nat.zero_le _
    · exact hle.trans (of_decide_eq_true ((h.mem e).mp he).2)
  · rw [getMax_viewOf]
    rcases Nat.eq_zero_or_pos (v.getMax t) with hzero | hpos
    · exact .inl hzero
    · exact .inr ⟨last v t, (h.mem _).mpr ⟨hpos, decide_eq_true le_rfl⟩, rfl, le_rfl⟩

/-! ## The steps of a schedule -/

/-- The schedules of an empty view. -/
lemma linearises_nil_iff : Linearises g v [] ↔ ∀ t, v.getMax t = 0 := by
  constructor
  · intro h t
    by_contra hne
    have hmem := (h.mem (last v t)).mpr ⟨Nat.pos_of_ne_zero hne, decide_eq_true le_rfl⟩
    exact List.not_mem_nil hmem
  · intro h
    refine ⟨List.nodup_nil, fun e => ⟨fun he => absurd he List.not_mem_nil, fun he => ?_⟩,
      List.Pairwise.nil⟩
    have hle : e.index ≤ v.getMax e.thread := of_decide_eq_true he.2
    rw [h] at hle
    omega

/-- The latest event of a schedule is a maximal event of the view, the last one of its thread. -/
lemma linearises_cons_iff (hg : g.SCConsistent) (hv : Within g v) (hclosed : Closed g v)
    {e : Event} : Linearises g v (e :: l) ↔ 0 < e.index ∧ e = last v e.thread ∧
      isSCMaximal g v e.thread = some true ∧ Linearises g (shrinkViewByOne v e.thread) l := by
  constructor
  · intro h
    obtain ⟨hi, hmem⟩ := (h.mem e).mp List.mem_cons_self
    obtain ⟨hnot, hnodup⟩ := List.nodup_cons.mp h.nodup
    obtain ⟨horder, hrest⟩ := List.pairwise_cons.mp h.order
    have hle : e.index ≤ v.getMax e.thread := of_decide_eq_true hmem
    have hpos : 0 < v.getMax e.thread := hi.trans_le hle
    have hlastmem : v.contains (last v e.thread) := decide_eq_true le_rfl
    have hlast : e = last v e.thread := by
      rcases List.mem_cons.mp ((h.mem (last v e.thread)).mpr ⟨hpos, hlastmem⟩) with heq | hin
      · exact heq.symm
      · -- a later event of the thread would come after it
        refine absurd
          (.inl ⟨rfl, lt_of_le_of_ne hle fun heq => ?_, hv.containsPos hg hpos hlastmem⟩)
          (horder _ hin)
        have heq' : last v e.thread = e := Event.ext rfl heq.symm
        exact hnot (heq' ▸ hin)
    refine ⟨hi, hlast, (isSCMaximal_iff hg hv hclosed hpos).mpr fun s hs hsmem => ?_, hnodup,
      fun s => ?_, hrest⟩
    · rw [← hlast]
      rcases List.mem_cons.mp ((h.mem s).mpr ⟨hs, hsmem⟩) with rfl | hin
      · exact hg.acyclic.irrefl s
      · exact horder s hin
    · rw [contains_shrinkViewByOne hpos, ← hlast, ← and_assoc, ← h.mem s]
      constructor
      · intro hs
        exact ⟨List.mem_cons_of_mem e hs, fun heq => hnot (heq ▸ hs)⟩
      · rintro ⟨hs, hne⟩
        exact (List.mem_cons.mp hs).resolve_left hne
  · rintro ⟨hi, hlast, hmax, h⟩
    have hpos : 0 < v.getMax e.thread := by
      have hindex := congrArg Event.index hlast
      change e.index = v.getMax e.thread at hindex
      omega
    have hnot : e ∉ l := by
      intro hin
      have hmem := ((h.mem e).mp hin).2
      exact ((contains_shrinkViewByOne hpos).mp hmem).2 hlast
    refine ⟨List.nodup_cons.mpr ⟨hnot, h.nodup⟩, fun s => ?_, List.pairwise_cons.mpr
      ⟨fun s hs => ?_, h.order⟩⟩
    · rw [List.mem_cons, h.mem, contains_shrinkViewByOne hpos, ← hlast]
      constructor
      · rintro (rfl | ⟨hs, hmem, -⟩)
        · exact ⟨hi, by rw [hlast]; exact decide_eq_true le_rfl⟩
        · exact ⟨hs, hmem⟩
      · rintro ⟨hs, hmem⟩
        by_cases heq : s = e
        · exact .inl heq
        · exact .inr ⟨hs, hmem, heq⟩
    · obtain ⟨hs, hmem⟩ := (h.mem s).mp hs
      rw [hlast]
      exact (isSCMaximal_iff hg hv hclosed hpos).mp hmax s hs
        ((contains_shrinkViewByOne hpos).mp hmem).1

/-- A schedule of a view with events has a latest event. -/
lemma exists_cons (h : Linearises g v l) (hne : ∃ t, 0 < v.getMax t) : ∃ e l', l = e :: l' := by
  cases l with
  | nil =>
    obtain ⟨t, ht⟩ := hne
    exact absurd (linearises_nil_iff.mp h t) (by omega)
  | cons e l => exact ⟨e, l, rfl⟩

/-- The switch at the end of a schedule of the view. -/
lemma preemptionsBefore_cons {e : Event} (h : Linearises g v (e :: l)) (t : ℕ) :
    preemptionsBefore g getVal t (e :: l) = preemptionsBefore g getVal e.thread l +
      if preempts g getVal v t e.thread = some true then 1 else 0 := by
  rw [preemptionsBefore, preempts_congr h.getMax_viewOf_eq]

/-- A thread that goes on is not preempted. -/
lemma preempts_self (g : ExecutionGraph) (getVal : Event → SVal) (v : View) (t : ℕ) :
    preempts g getVal v t t = some false := by
  unfold preempts
  rw [if_pos rfl]

/-! ## The least number of preemptions -/

/-- The numbers of preemptions of the unfolded schedules of a view after which a thread runs. -/
def unfoldedCosts (g : ExecutionGraph) (getVal : Event → SVal) (v : View) (t : ℕ) : Set ℕ :=
  {k | ∃ l, Linearises g v l ∧ UnfoldedBefore g t l ∧ preemptionsBefore g getVal t l = k}

/-- The unfolded schedules continue with the events that `unfoldPrefix` takes. -/
lemma unfoldedCosts_drop (hg : g.SCConsistent) (hv : Within g v) (hclosed : Closed g v)
    (h : Droppable g v t) :
    unfoldedCosts g getVal v t = unfoldedCosts g getVal (shrinkViewByOne v t) t := by
  ext k
  constructor
  · rintro ⟨l, hl, hu, rfl⟩
    obtain ⟨e, l', rfl⟩ := exists_cons hl ⟨t, h.1⟩
    obtain rfl := hu.1 ((droppable_congr hl.getMax_viewOf_eq t).mpr h)
    refine ⟨l', ((linearises_cons_iff hg hv hclosed).mp hl).2.2.2, hu.2, ?_⟩
    rw [preemptionsBefore_cons hl, preempts_self]
    simp
  · rintro ⟨l, hl, hu, rfl⟩
    have hcons : Linearises g v (last v t :: l) :=
      (linearises_cons_iff hg hv hclosed).mpr ⟨h.1, rfl, h.2.1, hl⟩
    refine ⟨last v t :: l, hcons, ⟨fun _ => rfl, hu⟩, ?_⟩
    rw [preemptionsBefore_cons hcons, show (last v t).thread = t from rfl, preempts_self]
    simp

/-- Unfolding does not change the numbers of preemptions. -/
lemma unfoldedCosts_unfolds (hg : g.SCConsistent) (hv : Within g v) (hclosed : Closed g v)
    (h : Unfolds g t v v') : unfoldedCosts g getVal v t = unfoldedCosts g getVal v' t := by
  induction h with
  | stop => rfl
  | drop hdrop _ ih =>
    rw [unfoldedCosts_drop hg hv hclosed hdrop]
    exact ih (hv.shrink t) (hclosed.shrink hg hv hdrop.1 hdrop.2.1)

/-- In a view that cannot be unfolded, an unfolded schedule goes on with any thread whose last event
is maximal. -/
lemma mem_unfoldedCosts_iff (hg : g.SCConsistent) (hv : Within g v) (hclosed : Closed g v)
    (hstop : ¬Droppable g v t) (hne : ∃ t, 0 < v.getMax t) {k : ℕ} :
    k ∈ unfoldedCosts g getVal v t ↔ ∃ tp, candidate g v tp = some true ∧
      ∃ n ∈ unfoldedCosts g getVal (shrinkViewByOne v tp) tp,
        k = n + if preempts g getVal v t tp = some true then 1 else 0 := by
  constructor
  · rintro ⟨l, hl, hu, rfl⟩
    obtain ⟨e, l', rfl⟩ := exists_cons hl hne
    obtain ⟨hi, hlast, hmax, hl'⟩ := (linearises_cons_iff hg hv hclosed).mp hl
    have hindex : e.index = v.getMax e.thread := congrArg Event.index hlast
    refine ⟨e.thread, ?_, _, ⟨l', hl', hu.2, rfl⟩, preemptionsBefore_cons hl t⟩
    unfold candidate
    rw [if_neg (by omega), hmax]
  · rintro ⟨tp, hcand, n, ⟨l, hl, hu, rfl⟩, rfl⟩
    obtain ⟨hpos, hmax⟩ := getMax_pos_of_candidate hcand
    have hcons : Linearises g v (last v tp :: l) :=
      (linearises_cons_iff hg hv hclosed).mpr ⟨hpos, rfl, hmax, hl⟩
    refine ⟨last v tp :: l, hcons, ⟨fun hdrop => ?_, hu⟩, preemptionsBefore_cons hcons t⟩
    exact absurd ((droppable_congr hcons.getMax_viewOf_eq t).mp hdrop) hstop

/-- What the calculation adds up for a thread to go on with. -/
lemma branchCost_eq (hg : g.SCConsistent) (getVal : Event → SVal) {fuel tp : ℕ} (hv : Within g v)
    (hfuel : size g v ≤ fuel) (htp : candidate g v tp = some true) (t : ℕ) :
    ∃ n, calculatePrefix g getVal fuel (shrinkViewByOne v tp) tp = some n ∧ (do
      let bound ← calculatePrefix g getVal fuel (shrinkViewByOne v tp) tp
      return bound + if ← preempts g getVal v t tp then 1 else 0) =
        some (n + if preempts g getVal v t tp = some true then 1 else 0) := by
  obtain ⟨hpos, -⟩ := getMax_pos_of_candidate htp
  have hlt : size g (shrinkViewByOne v tp) < size g v :=
    size_lt (t := tp) hv (getMax_shrinkViewByOne_le v tp) (by
      rw [getMax_shrinkViewByOne, if_pos rfl]
      omega)
  obtain ⟨n, hn, -⟩ := prefix_agrees hg getVal fuel _ tp (hv.shrink tp) (hlt.trans_le hfuel)
  obtain ⟨b, hb⟩ : ∃ b, preempts g getVal v t tp = some b := preempts_isSome hg hv hpos
  refine ⟨n, hn, ?_⟩
  simp only [hn, hb, Option.bind_eq_bind, Option.bind_some, Option.some_inj]
  rfl

/-- For a view, the calculation computes the least number of preemptions. -/
lemma calculatePrefix_isLeast (hg : g.SCConsistent) (getVal : Event → SVal) (fuel : ℕ) (v : View)
    (t : ℕ) (hv : Within g v) (hclosed : Closed g v) (hfuel : size g v < fuel) {n : ℕ}
    (hn : calculatePrefix g getVal fuel v t = some n) :
    IsLeast (unfoldedCosts g getVal v t) n := by
  induction fuel generalizing v t n with
  | zero => omega
  | succ fuel ih =>
    obtain ⟨v', hunfold, hunfolds⟩ := unfoldPrefix_spec hg hv t
    have hv' := hv.mono hunfolds.le
    have hclosed' := hunfolds.closed hg hv hclosed
    have hsize : size g v' ≤ fuel := (size_le hunfolds.le).trans (Nat.lt_succ_iff.mp hfuel)
    rw [unfoldedCosts_unfolds hg hv hclosed hunfolds]
    by_cases hzero : v'.maxs.all (· == 0)
    · -- nothing is left
      have hnil : Linearises g v' [] := linearises_nil_iff.mpr ((all_zero_iff v').mp hzero)
      simp only [calculatePrefix, hunfold, hzero, Option.bind_eq_bind, Option.bind_some,
        if_true] at hn
      obtain rfl : 0 = n := Option.some.inj hn
      exact ⟨⟨[], hnil, trivial, rfl⟩, fun k _ => Nat.zero_le k⟩
    · have hne : ∃ t, 0 < v'.getMax t := by
        by_contra hnot
        refine hzero ((all_zero_iff v').mpr fun t => ?_)
        exact Nat.eq_zero_of_not_pos fun ht => hnot ⟨t, ht⟩
      simp only [calculatePrefix, hunfold, hzero, Option.bind_eq_bind, Option.bind_some,
        Bool.false_eq_true, if_false] at hn
      have hcosts := costs_of_candidate hg hv' (fun tp htp => by
        obtain ⟨m, -, hm⟩ := branchCost_eq hg getVal hv' hsize htp t
        exact ⟨_, hm⟩) (List.range g.getNumThreads)
      obtain ⟨tp, htp, hcand⟩ := exists_candidate hg hv' hne
      obtain ⟨n', hn', hmem, hle⟩ :=
        leastBranch_isLeast hcosts ⟨tp, List.mem_range.mpr htp, hcand⟩
      obtain rfl := Option.some.inj (hn'.symm.trans hn)
      -- the least numbers for the smaller views
      have hleast : ∀ {tp}, candidate g v' tp = some true → ∀ {m},
          calculatePrefix g getVal fuel (shrinkViewByOne v' tp) tp = some m →
          IsLeast (unfoldedCosts g getVal (shrinkViewByOne v' tp) tp) m := by
        intro tp htp m hm
        obtain ⟨hpos, hmax⟩ := getMax_pos_of_candidate htp
        refine ih _ tp (hv'.shrink tp) (hclosed'.shrink hg hv' hpos hmax) ?_ hm
        refine lt_of_lt_of_le (size_lt (t := tp) hv' (getMax_shrinkViewByOne_le v' tp) ?_) hsize
        rw [getMax_shrinkViewByOne, if_pos rfl]
        omega
      have hiff : ∀ k, k ∈ unfoldedCosts g getVal v' t ↔ _ := fun k =>
        mem_unfoldedCosts_iff hg hv' hclosed' hunfolds.not_droppable hne
      constructor
      · obtain ⟨tp, -, hcand, hcost⟩ := hmem
        obtain ⟨m, hm, hm'⟩ := branchCost_eq hg getVal hv' hsize hcand t
        exact (hiff _).mpr ⟨tp, hcand, m, (hleast hcand hm).1,
          Option.some.inj (hcost.symm.trans hm')⟩
      · intro k hk
        obtain ⟨tp, hcand, m', hm', rfl⟩ := (hiff k).mp hk
        obtain ⟨m, hm, hcost⟩ := branchCost_eq hg getVal hv' hsize hcand t
        have htp : tp < g.getNumThreads :=
          thread_lt_of_getMax_full ((getMax_pos_of_candidate hcand).1.trans_le (hv' tp))
        have hnm := hle ⟨tp, List.mem_range.mpr htp, hcand, hcost⟩
        have hmm := (hleast hcand hm).2 hm'
        omega

/-- **The context bound** is the least number of preemptions of an unfolded schedule of the
graph. -/
theorem calculate_isLeast (hg : g.SCConsistent) (getVal : Event → SVal)
    (hne : ∃ e, g.containsPos e ∧ 0 < e.index) : ∃ n, calculate g getVal = some n ∧
      IsLeast {k | ∃ l, Linearises g g.full l ∧ Unfolded g l ∧ preemptions g getVal l = k} n := by
  obtain ⟨e, he, hi⟩ := hne
  have hfull : ∃ t, 0 < g.full.getMax t :=
    ⟨e.thread, hi.trans_le ((hg.containsPos_iff_full hi).mp he)⟩
  have hv := within_full g
  have hclosed := closed_full hg
  have hcosts := costs_full hg getVal
  obtain ⟨tp, htp, hcand⟩ := exists_candidate hg hv hfull
  obtain ⟨n, hn, hmem, hle⟩ := leastBranch_isLeast hcosts ⟨tp, List.mem_range.mpr htp, hcand⟩
  have hleast : ∀ {i}, candidate g g.full i = some true → ∀ {m},
      calculatePrefix g getVal (fuelFor g g.full) (shrinkViewByOne g.full i) i = some m →
      IsLeast (unfoldedCosts g getVal (shrinkViewByOne g.full i) i) m := by
    intro i hi m hm
    obtain ⟨hpos, hmax⟩ := getMax_pos_of_candidate hi
    exact calculatePrefix_isLeast hg getVal _ _ i (hv.shrink i) (hclosed.shrink hg hv hpos hmax)
      (Nat.lt_succ_of_le (size_le (getMax_shrinkViewByOne_le _ i))) hm
  refine ⟨n, hn, ?_, ?_⟩
  · obtain ⟨i, -, hcand, hcost⟩ := hmem
    obtain ⟨hpos, hmax⟩ := getMax_pos_of_candidate hcand
    obtain ⟨l, hl, hu, hk⟩ := (hleast hcand hcost).1
    refine ⟨last g.full i :: l, ?_, hu, hk⟩
    exact (linearises_cons_iff hg hv hclosed).mpr ⟨hpos, rfl, hmax, hl⟩
  · rintro k ⟨l, hl, hu, rfl⟩
    obtain ⟨e, l', rfl⟩ := exists_cons hl hfull
    obtain ⟨hi, hlast, hmax, hl'⟩ := (linearises_cons_iff hg hv hclosed).mp hl
    have hindex : e.index = g.full.getMax e.thread := congrArg Event.index hlast
    have hcand : candidate g g.full e.thread = some true := by
      unfold candidate
      rw [if_neg (by omega), hmax]
    have hthread : e.thread < g.getNumThreads := thread_lt_of_getMax_full (hindex ▸ hi)
    obtain ⟨b, hb, hcost⟩ := hcosts e.thread (List.mem_range.mpr hthread)
    obtain rfl : b = true := Option.some.inj (hb.symm.trans hcand)
    obtain ⟨m, hm⟩ := hcost rfl
    exact (hle ⟨e.thread, List.mem_range.mpr hthread, hcand, hm⟩).trans
      ((hleast hcand hm).2 ⟨l', hl', hu, rfl⟩)

/-- **The decision, the calculation and the schedules.**  The decision is true iff the result of the
calculation is larger than the bound; the calculation returns the least number of preemptions of an
unfolded schedule; and an execution that exceeds a bound exceeds the smaller ones. -/
theorem contextBound_spec (hg : g.SCConsistent) (getVal : Event → SVal) :
    (∀ bound, doesExecutionExceedBound g getVal bound = some true ↔
      ∃ n, calculate g getVal = some n ∧ bound < n) ∧
    ((∃ e, g.containsPos e ∧ 0 < e.index) → ∃ n, calculate g getVal = some n ∧
      (∀ bound, doesExecutionExceedBound g getVal bound = some (decide (bound < n))) ∧
      IsLeast {k | ∃ l, Linearises g g.full l ∧ Unfolded g l ∧ preemptions g getVal l = k} n) ∧
    ∀ bound bound', bound ≤ bound' → doesExecutionExceedBound g getVal bound' = some true →
      doesExecutionExceedBound g getVal bound = some true := by
  have hiff : ∀ bound, doesExecutionExceedBound g getVal bound = some true ↔
      ∃ n, calculate g getVal = some n ∧ bound < n := by
    intro bound
    rw [doesExecutionExceedBound_eq hg, Option.map_eq_some_iff]
    simp only [decide_eq_true_eq]
  refine ⟨hiff, fun hne => ?_, fun bound bound' hle h => ?_⟩
  · obtain ⟨n, hn, hleast⟩ := calculate_isLeast hg getVal hne
    refine ⟨n, hn, fun bound => ?_, hleast⟩
    rw [doesExecutionExceedBound_eq hg, hn, Option.map_some]
  · obtain ⟨n, hn, hlt⟩ := (hiff bound').mp h
    exact (hiff bound).mpr ⟨n, hn, lt_of_le_of_lt hle hlt⟩

/-- The decision, the calculation and the schedules of the sample graph. -/
theorem sampleGraph_contextBound_spec :
    (∀ bound, doesExecutionExceedBound sampleGraph (fun _ => 0) bound = some true ↔
      ∃ n, calculate sampleGraph (fun _ => 0) = some n ∧ bound < n) ∧
    ((∃ e, sampleGraph.containsPos e ∧ 0 < e.index) →
      ∃ n, calculate sampleGraph (fun _ => 0) = some n ∧
      (∀ bound, doesExecutionExceedBound sampleGraph (fun _ => 0) bound =
        some (decide (bound < n))) ∧
      IsLeast {k | ∃ l, Linearises sampleGraph sampleGraph.full l ∧ Unfolded sampleGraph l ∧
        preemptions sampleGraph (fun _ => 0) l = k} n) ∧
    ∀ bound bound', bound ≤ bound' →
      doesExecutionExceedBound sampleGraph (fun _ => 0) bound' = some true →
      doesExecutionExceedBound sampleGraph (fun _ => 0) bound = some true :=
  contextBound_spec scConsistent_sampleGraph _

end ContextBoundDecider

end GenMC
