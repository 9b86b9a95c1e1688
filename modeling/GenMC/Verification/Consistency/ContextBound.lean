import GenMC.Verification.Consistency.ContextViews

/-!
# The context bound of a graph

The decision of the context bound agrees with the calculation (`doesExecutionExceedBound_eq`), and
the calculation computes the least number of preemptions of a schedule among the schedules in which
every thread, going backwards, takes its events as long as `unfoldPrefix` does
(`calculate_isLeast`).

Schedules are lists of events with the latest event first, the order in which the search finds them.
-/

namespace GenMC

open ExecutionGraph

namespace ContextBoundDecider

variable {g : ExecutionGraph} {getVal : Event → SVal} {v v' w : View} {t : ℕ} {l : List Event}

/-! ## Unfolding -/

/-- The loop of `unfoldPrefix` takes the last event of the thread off the view. -/
def Droppable (g : ExecutionGraph) (v : View) (t : ℕ) : Prop :=
  0 < v.getMax t ∧ isSCMaximal g v t = some true ∧ canBlock g v t = some false

/-- The loop of `unfoldPrefix`, as a relation. -/
inductive Unfolds (g : ExecutionGraph) (t : ℕ) : View → View → Prop
  /-- The loop stops. -/
  | stop {v : View} : ¬Droppable g v t → Unfolds g t v v
  /-- The loop takes an event off the view. -/
  | drop {v v' : View} : Droppable g v t → Unfolds g t (shrinkViewByOne v t) v' → Unfolds g t v v'

/-- Unfolding does not fail. -/
lemma unfoldPrefix_spec (hg : g.SCConsistent) (hv : Within g v) (t : ℕ) :
    ∃ v', unfoldPrefix g v t = some v' ∧ Unfolds g t v v' := by
  unfold unfoldPrefix
  generalize hn : v.getMax t = n
  induction n generalizing v with
  | zero => exact ⟨v, rfl, .stop fun h => absurd h.1 (by omega)⟩
  | succ n ih =>
    have ht : 0 < v.getMax t := by omega
    obtain ⟨b, hb, -⟩ := isSCMaximal_spec hg hv ht
    obtain ⟨b', hb'⟩ := canBlock_isSome hg hv ht
    unfold unfoldFrom
    rw [if_neg (by omega), hb, Option.bind_eq_bind, Option.bind_some]
    cases b with
    | false => exact ⟨v, rfl, .stop fun h => by cases hb.symm.trans h.2.1⟩
    | true =>
      rw [if_pos rfl, hb', Option.bind_some]
      cases b' with
      | true => exact ⟨v, rfl, .stop fun h => by cases hb'.symm.trans h.2.2⟩
      | false =>
        obtain ⟨v', hrun, hv'⟩ := ih (hv.shrink t) (by
          rw [getMax_shrinkViewByOne, if_pos rfl]
          omega)
        exact ⟨v', hrun, .drop ⟨ht, hb, hb'⟩ hv'⟩

/-- Unfolding takes events off the view. -/
lemma Unfolds.le (h : Unfolds g t v v') : ∀ t', v'.getMax t' ≤ v.getMax t' := by
  induction h with
  | stop => exact fun _ => le_rfl
  | @drop v _ _ _ ih => exact fun t' => (ih t').trans (getMax_shrinkViewByOne_le v t t')

/-- Unfolding keeps a view closed. -/
lemma Unfolds.closed (h : Unfolds g t v v') (hg : g.SCConsistent) (hv : Within g v)
    (hclosed : Closed g v) : Closed g v' := by
  induction h with
  | stop => exact hclosed
  | drop hdrop _ ih => exact ih (hv.shrink t) (hclosed.shrink hg hv hdrop.1 hdrop.2.1)

/-- Unfolding stops where it cannot take anything off the view. -/
lemma Unfolds.not_droppable (h : Unfolds g t v v') : ¬Droppable g v' t := by
  induction h with
  | stop hstop => exact hstop
  | drop _ _ ih => exact ih

/-- Views within a view in the graph are in the graph. -/
lemma Within.mono (h : Within g v) (hle : ∀ t', w.getMax t' ≤ v.getMax t') : Within g w := fun t' =>
  (hle t').trans (h t')

/-- The test for an empty view. -/
lemma all_zero_iff (v : View) : v.maxs.all (· == 0) = true ↔ ∀ t, v.getMax t = 0 := by
  rw [List.all_eq_true]
  constructor
  · intro h t
    unfold View.getMax
    rw [List.getD_eq_getElem?_getD]
    cases hget : v.maxs[t]? with
    | none => rfl
    | some m => exact beq_iff_eq.mp (h m (List.mem_of_getElem? hget))
  · intro h m hm
    obtain ⟨t, ht, rfl⟩ := List.getElem_of_mem hm
    have hzero := h t
    unfold View.getMax at hzero
    rw [List.getD_eq_getElem _ _ ht] at hzero
    exact beq_iff_eq.mpr hzero

/-! ## The decision and the calculation -/

/-- A thread to go on with has events. -/
lemma getMax_pos_of_candidate {tp : ℕ} (h : candidate g v tp = some true) :
    0 < v.getMax tp ∧ isSCMaximal g v tp = some true := by
  unfold candidate at h
  split at h
  · cases h
  · exact ⟨by omega, h⟩

/-- It is known of every thread whether to go on with it, and the threads to go on with have
costs. -/
lemma costs_of_candidate (hg : g.SCConsistent) (hv : Within g v) {cost : ℕ → Option ℕ}
    (hcost : ∀ tp, candidate g v tp = some true → ∃ c, cost tp = some c) (is : List ℕ) :
    Costs (candidate g v) cost is := by
  intro tp _
  by_cases hzero : v.getMax tp = 0
  · exact ⟨false, by unfold candidate; rw [if_pos hzero], fun h => absurd h Bool.false_ne_true⟩
  · obtain ⟨b, hb, -⟩ := isSCMaximal_spec hg hv (Nat.pos_of_ne_zero hzero)
    have hcand : candidate g v tp = some b := by
      unfold candidate
      rw [if_neg hzero, hb]
    exact ⟨b, hcand, fun h => hcost tp (h ▸ hcand)⟩

/-- For a view, the decision compares the result of the calculation with the bound. -/
lemma prefix_agrees (hg : g.SCConsistent) (getVal : Event → SVal) (fuel : ℕ) (v : View) (t : ℕ)
    (hv : Within g v) (hfuel : size g v < fuel) : ∃ n, calculatePrefix g getVal fuel v t = some n ∧
      ∀ bound, doesPrefixExceedBound g getVal fuel v t bound = some (decide (n ≤ bound)) := by
  induction fuel generalizing v t with
  | zero => omega
  | succ fuel ih =>
    obtain ⟨v', hunfold, hunfolds⟩ := unfoldPrefix_spec hg hv t
    have hv' := hv.mono hunfolds.le
    have hsize := size_le (g := g) hunfolds.le
    by_cases hzero : v'.maxs.all (· == 0)
    · refine ⟨0, ?_, fun bound => ?_⟩
      · simp only [calculatePrefix, hunfold, hzero, Option.bind_eq_bind, Option.bind_some, if_true]
        rfl
      · simp only [doesPrefixExceedBound, hunfold, hzero, Option.bind_eq_bind, Option.bind_some,
          if_true, Nat.zero_le, decide_true]
        rfl
    · -- the two searches go on with the same threads
      have hnext : ∀ tp, candidate g v' tp = some true → ∃ n b,
          preempts g getVal v' t tp = some b ∧
          calculatePrefix g getVal fuel (shrinkViewByOne v' tp) tp = some n ∧ ∀ bound,
            doesPrefixExceedBound g getVal fuel (shrinkViewByOne v' tp) tp bound =
              some (decide (n ≤ bound)) := by
        intro tp htp
        obtain ⟨hpos, -⟩ := getMax_pos_of_candidate htp
        obtain ⟨b, hb⟩ := preempts_isSome (t := t) hg hv' hpos
        have hlt : size g (shrinkViewByOne v' tp) < size g v' :=
          size_lt (t := tp) hv' (getMax_shrinkViewByOne_le v' tp) (by
            rw [getMax_shrinkViewByOne, if_pos rfl]
            omega)
        obtain ⟨n, hn⟩ := ih (shrinkViewByOne v' tp) tp (hv'.shrink tp) (by omega)
        exact ⟨n, b, hb, hn⟩
      have hcost : ∀ tp, candidate g v' tp = some true → ∃ c, (do
          let bound ← calculatePrefix g getVal fuel (shrinkViewByOne v' tp) tp
          return bound + if ← preempts g getVal v' t tp then 1 else 0) = some c := by
        intro tp htp
        obtain ⟨n, b, hb, hn, -⟩ := hnext tp htp
        simp only [hn, hb, Option.bind_eq_bind, Option.bind_some]
        exact ⟨_, rfl⟩
      have hcosts := costs_of_candidate hg hv' hcost (List.range g.getNumThreads)
      have hne : ∃ t, 0 < v'.getMax t := by
        by_contra hnot
        refine hzero ((all_zero_iff v').mpr fun t => ?_)
        exact Nat.eq_zero_of_not_pos fun ht => hnot ⟨t, ht⟩
      obtain ⟨tp, htp, hcand⟩ := exists_candidate hg hv' hne
      obtain ⟨n, hn, -⟩ := leastBranch_isLeast hcosts ⟨tp, List.mem_range.mpr htp, hcand⟩
      refine ⟨n, ?_, fun bound => ?_⟩
      · simp only [calculatePrefix, hunfold, hzero, Option.bind_eq_bind, Option.bind_some,
          Bool.false_eq_true, if_false]
        exact hn
      · simp only [doesPrefixExceedBound, hunfold, hzero, Option.bind_eq_bind, Option.bind_some,
          Bool.false_eq_true, if_false]
        refine (anyBranch_eq hcosts (fun tp _ htp => ?_) none fun r hr => by cases hr).trans
          (by rw [hn, Option.map_some])
        obtain ⟨n, b, hb, hn, hdecide⟩ := hnext tp htp
        simp only [hb, hn, Option.bind_eq_bind, Option.bind_some]
        cases b with
        | true =>
          cases bound with
          | zero => rfl
          | succ bound =>
            simp only [if_true, hdecide]
            simp
        | false =>
          simp only [Bool.false_eq_true, if_false, hdecide]
          simp

/-- The costs of the threads that the calculation can start with. -/
lemma costs_full (hg : g.SCConsistent) (getVal : Event → SVal) : Costs (candidate g g.full)
    (fun i => calculatePrefix g getVal (fuelFor g g.full) (shrinkViewByOne g.full i) i)
    (List.range g.getNumThreads) :=
  costs_of_candidate hg (within_full g) (fun i _ =>
    have ⟨n, hn, _⟩ := prefix_agrees hg getVal (fuelFor g g.full) _ i ((within_full g).shrink i)
      (Nat.lt_succ_of_le (size_le (getMax_shrinkViewByOne_le g.full i)))
    ⟨n, hn⟩) _

/-- **The decision agrees with the calculation.** -/
theorem doesExecutionExceedBound_eq (hg : g.SCConsistent) (getVal : Event → SVal) (bound : ℕ) :
    doesExecutionExceedBound g getVal bound =
      (calculate g getVal).map fun n => decide (bound < n) := by
  have hbranch : ∀ i ∈ List.range g.getNumThreads, candidate g g.full i = some true →
      doesPrefixExceedBound g getVal (fuelFor g g.full) (shrinkViewByOne g.full i) i bound =
        (calculatePrefix g getVal (fuelFor g g.full) (shrinkViewByOne g.full i) i).map
          fun n => decide (n ≤ bound) := by
    intro i _ _
    obtain ⟨n, hn, hdecide⟩ := prefix_agrees hg getVal (fuelFor g g.full) _ i
      ((within_full g).shrink i) (Nat.lt_succ_of_le (size_le (getMax_shrinkViewByOne_le _ i)))
    rw [hdecide, hn, Option.map_some]
  have hagrees := anyBranch_eq (costs_full hg getVal) hbranch none fun r hr => by cases hr
  -- the search succeeds if the bound is not exceeded
  refine (congrArg (Option.map not) hagrees).trans ?_
  rw [Option.map_map]
  refine congrArg (fun f => Option.map f _) (funext fun n => ?_)
  change (!decide (n ≤ bound)) = decide (bound < n)
  rw [← decide_not]
  simp only [not_le]

end ContextBoundDecider

end GenMC
