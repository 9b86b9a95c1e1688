import GenMC.Lib.RunningMoments
import GenMC.Verification.ChoiceMap
import GenMC.Verification.Result

/-!
# Estimating the state space

In estimation mode every execution that is not moot yields a sample: the product of the numbers of
options of its labels.  The driver keeps the mean and the variance of the samples and updates both
with Welford's algorithm, where the number of samples is one more than the counters of the result,
which are incremented only afterwards.

The arithmetic is exact here, but for the counters, which are 32-bit words.  As long as they count
as many executions as there are samples, the two statistics are the mean and the variance
(`estimation_exact`); they do so in every run of less than `2 ^ 32` executions in which no optional
block is expanded, since that takes back an execution that has been sampled
(`counted_eq_length`).
-/

namespace GenMC

/-- The options of the configuration that concern the estimation. -/
structure EstimationConf where
  /-- Number of minimum allotted rounds. -/
  estimationMin : UInt32 := 10
  /-- Deviation threshold under which the estimation is deemed good enough. -/
  sdThreshold : UInt32 := 10

/-- A driver in estimation mode. -/
structure Estimator where
  /-- `EstimationMode::budget`. -/
  budget : UInt32
  result : Result := {}
  /-- The mean of estimations. -/
  estimationMean : ℚ := 0
  /-- The (biased) variance of the estimations. -/
  estimationVariance : ℚ := 0
  /-- The number of `RerunForwardRevisit`s that have been put into the worklist. -/
  reruns : ℕ := 0

/-- An execution that has ended. -/
structure ExecutionEnd where
  choices : ChoiceMap
  isMoot : Bool := false
  isExecutionBlocked : Bool := false
  fullExecutionExceedsBound : Bool := false

namespace Estimator

/-- `updateStSpaceEstimation`. -/
def updateStSpaceEstimation (choices : ChoiceMap) (s : Estimator) : Estimator :=
  let sample := choices.entries.foldl (fun sum kv => sum * (kv.2.card : ℚ)) 1
  let totalExplored : ℚ := s.result.explored.toNat + s.result.exploredBlocked.toNat + 1
  let prevM := s.estimationMean
  let prevV := s.estimationVariance
  let estimationMean := prevM + (sample - prevM) / totalExplored
  { s with
    estimationMean := estimationMean
    estimationVariance := prevV +
      ((sample - prevM) / totalExplored * (sample - estimationMean) - prevV / totalExplored) }

/-- `sd <= mean / sdThreshold`, where `sd` is the square root of the variance; a division by zero
yields an infinity or no number. -/
def deviationOk (conf : EstimationConf) (s : Estimator) : Bool :=
  if conf.sdThreshold = 0 then 0 < s.estimationMean
  else
    let bound := s.estimationMean / conf.sdThreshold.toNat
    0 ≤ bound ∧ s.estimationVariance ≤ bound ^ 2

/-- `shouldStopEstimating`, and the budget that remains. -/
def shouldStopEstimating (conf : EstimationConf) (s : Estimator) : Bool × Estimator :=
  let remainingBudget := s.budget - 1
  let totalExplored := s.result.explored + s.result.exploredBlocked
  (remainingBudget == 0 || (conf.estimationMin ≤ totalExplored &&
      (deviationOk conf s || s.estimationMean < totalExplored.toNat)),
    { s with budget := remainingBudget })

/-- `handleExecutionEnd` in estimation mode. -/
def handleExecutionEnd (conf : EstimationConf) (e : ExecutionEnd) (s : Estimator) : Estimator :=
  if e.isMoot then { s with result.exploredMoot := s.result.exploredMoot + 1 }
  else
    let s := s.updateStSpaceEstimation e.choices
    let (stop, s) := s.shouldStopEstimating conf
    let s := if stop then s else { s with reruns := s.reruns + 1 }
    if e.isExecutionBlocked then
      { s with result.exploredBlocked := s.result.exploredBlocked + 1 }
    else
      let s := { s with result.explored := s.result.explored + 1 }
      if e.fullExecutionExceedsBound then
        { s with result.boundExceeding := s.result.boundExceeding + 1 }
      else s

/-- What `revisitOptional` does to the counters. -/
def revisitOptional (s : Estimator) : Estimator :=
  { s with result.exploredBlocked := s.result.exploredBlocked - 1 }

/-- What happens to the statistics. -/
inductive Action where
  | executionEnd (e : ExecutionEnd)
  | revisitOptional

/-- One action. -/
def step (conf : EstimationConf) (s : Estimator) : Action → Estimator
  | .executionEnd e => s.handleExecutionEnd conf e
  | .revisitOptional => s.revisitOptional

/-- A run of a driver that has been constructed with a budget. -/
def exec (conf : EstimationConf) (budget : UInt32) (actions : List Action) : Estimator :=
  actions.foldl (step conf) { budget }

/-- The number of executions that are counted. -/
def counted (s : Estimator) : ℕ := s.result.explored.toNat + s.result.exploredBlocked.toNat

/-- The sample of an execution: the product of the sizes of its choice sets. -/
def sampleOf (choices : ChoiceMap) : ℚ := (choices.entries.map fun kv => (kv.2.card : ℚ)).prod

/-- The sample that an action adds. -/
def Action.sample? : Action → Option ℚ
  | .executionEnd e => if e.isMoot then none else some (sampleOf e.choices)
  | .revisitOptional => none

/-- The samples of a run. -/
def samples (actions : List Action) : List ℚ := actions.filterMap Action.sample?

/-- The statistics are those of a list of samples. -/
structure Exact (s : Estimator) (xs : List ℚ) : Prop where
  mean : s.estimationMean = Moments.mean xs
  variance : s.estimationVariance = Moments.variance xs

/-! ## One step -/

lemma foldl_mul_eq_prod (xs : List (ℕ × Finset (Event × ℤ))) (q : ℚ) :
    xs.foldl (fun sum kv => sum * (kv.2.card : ℚ)) q =
      q * (xs.map fun kv => (kv.2.card : ℚ)).prod := by
  induction xs generalizing q with
  | nil => simp
  | cons kv xs ih => rw [List.foldl_cons, ih, List.map_cons, List.prod_cons, mul_assoc]

/-- The update adds a sample. -/
lemma Exact.updateStSpaceEstimation {s : Estimator} {xs : List ℚ} (h : s.Exact xs)
    (hcounted : s.counted = xs.length) (choices : ChoiceMap) :
    (s.updateStSpaceEstimation choices).Exact (xs ++ [sampleOf choices]) := by
  have htotal : (s.result.explored.toNat + s.result.exploredBlocked.toNat + 1 : ℚ) =
      xs.length + 1 := by
    rw [← hcounted, counted]
    push_cast
    rfl
  have hsample : choices.entries.foldl (fun sum kv => sum * (kv.2.card : ℚ)) 1 =
      sampleOf choices := by rw [foldl_mul_eq_prod, one_mul, sampleOf]
  have hmean : (s.updateStSpaceEstimation choices).estimationMean =
      Moments.mean (xs ++ [sampleOf choices]) := by
    simp only [Estimator.updateStSpaceEstimation]
    rw [htotal, hsample, h.mean, Moments.mean_append_singleton]
  refine ⟨hmean, ?_⟩
  rw [Moments.variance_append_singleton, ← hmean]
  simp only [Estimator.updateStSpaceEstimation]
  rw [htotal, hsample, h.mean, h.variance]

/-- What the end of an execution does to the statistics. -/
lemma handleExecutionEnd_statistics (conf : EstimationConf) (e : ExecutionEnd) (s : Estimator) :
    (s.handleExecutionEnd conf e).estimationMean = (if e.isMoot then s
        else s.updateStSpaceEstimation e.choices).estimationMean ∧
      (s.handleExecutionEnd conf e).estimationVariance = (if e.isMoot then s
        else s.updateStSpaceEstimation e.choices).estimationVariance := by
  unfold handleExecutionEnd shouldStopEstimating
  split
  · exact ⟨rfl, rfl⟩
  · dsimp only
    split_ifs <;> exact ⟨rfl, rfl⟩

/-- What the end of an execution does to the counters. -/
lemma handleExecutionEnd_counters (conf : EstimationConf) (e : ExecutionEnd) (s : Estimator) :
    (s.handleExecutionEnd conf e).result.explored = s.result.explored +
        (if e.isMoot ∨ e.isExecutionBlocked then 0 else 1) ∧
      (s.handleExecutionEnd conf e).result.exploredBlocked = s.result.exploredBlocked +
        (if ¬e.isMoot ∧ e.isExecutionBlocked then 1 else 0) := by
  unfold handleExecutionEnd shouldStopEstimating updateStSpaceEstimation
  split
  next hmoot => simp [hmoot]
  next hmoot =>
    dsimp only
    split_ifs <;> simp_all

/-- **One action.** -/
lemma Exact.step {conf : EstimationConf} {s : Estimator} {xs : List ℚ} (h : s.Exact xs)
    (hcounted : s.counted = xs.length) (a : Action) :
    (s.step conf a).Exact (xs ++ a.sample?.toList) := by
  cases a with
  | executionEnd e =>
    obtain ⟨hmean, hvariance⟩ := handleExecutionEnd_statistics conf e s
    simp only [Estimator.step, Action.sample?]
    cases hmoot : e.isMoot with
    | true =>
      rw [hmoot, if_pos rfl] at hmean hvariance
      simpa using (⟨hmean.trans h.mean, hvariance.trans h.variance⟩ : Exact _ xs)
    | false =>
      have hupdate := h.updateStSpaceEstimation hcounted e.choices
      rw [hmoot, if_neg Bool.false_ne_true] at hmean hvariance
      exact ⟨hmean.trans hupdate.mean, hvariance.trans hupdate.variance⟩
  | revisitOptional =>
    have hsame : s.revisitOptional.Exact xs := ⟨h.mean, h.variance⟩
    simpa [Estimator.step, Action.sample?] using hsame

/-! ## Runs -/

variable {conf : EstimationConf} {budget : UInt32}

lemma exec_append_singleton (actions : List Action) (a : Action) :
    exec conf budget (actions ++ [a]) = (exec conf budget actions).step conf a :=
  List.foldl_append

lemma samples_append_singleton (actions : List Action) (a : Action) :
    samples (actions ++ [a]) = samples actions ++ a.sample?.toList := by
  rw [samples, samples, List.filterMap_append]
  cases h : a.sample? <;> simp [h]

/-- In a run of less than `2 ^ 32` executions there is one sample for every counted execution. -/
lemma counted_eq_length (ends : List ExecutionEnd) (hlength : ends.length < 2 ^ 32) :
    (exec conf budget (ends.map .executionEnd)).counted =
      (samples (ends.map .executionEnd)).length := by
  induction ends using List.reverseRecOn with
  | nil => rfl
  | append_singleton ends e ih =>
    rw [List.length_append, List.length_singleton] at hlength
    have ih := ih (by omega)
    have hsamples : (samples (ends.map .executionEnd)).length ≤ ends.length :=
      (List.length_filterMap_le _ _).trans_eq (List.length_map _)
    obtain ⟨hexplored, hblocked⟩ :=
      handleExecutionEnd_counters conf e (exec conf budget (ends.map .executionEnd))
    rw [List.map_append, List.map_singleton, exec_append_singleton, samples_append_singleton,
      List.length_append, ← ih]
    -- neither counter overflows, as their sum does not
    rw [← ih, counted] at hsamples
    simp only [counted, Estimator.step, hexplored, hblocked, Action.sample?]
    cases hmoot : e.isMoot with
    | true => simp
    | false =>
      cases e.isExecutionBlocked with
      | true =>
        simp [UInt32.toNat_add]
        omega
      | false =>
        simp [UInt32.toNat_add]
        omega

/-- **The statistics are exact.**  After every action of a run, as long as `updateStSpaceEstimation`
has run once for every execution that was counted before the action, the mean and the variance are
those of all samples so far, and the variance is not negative. -/
theorem estimation_exact (conf : EstimationConf) (budget : UInt32) (actions : List Action)
    (hcounted : ∀ done a rest, actions = done ++ a :: rest →
      (exec conf budget done).counted = (samples done).length) :
    (exec conf budget actions).estimationMean = Moments.mean (samples actions) ∧
      (exec conf budget actions).estimationVariance = Moments.variance (samples actions) ∧
        0 ≤ (exec conf budget actions).estimationVariance := by
  have hexact : (exec conf budget actions).Exact (samples actions) := by
    -- the last action of the run
    induction actions using List.reverseRecOn with
    | nil => exact ⟨Moments.mean_nil.symm, Moments.variance_nil.symm⟩
    | append_singleton done a ih =>
      have hdone : (exec conf budget done).Exact (samples done) := by
        refine ih fun done' a' rest hsplit => hcounted done' a' (rest ++ [a]) ?_
        rw [hsplit, List.append_assoc, List.cons_append]
      rw [exec_append_singleton, samples_append_singleton]
      exact hdone.step (hcounted done a [] rfl) a
  exact ⟨hexact.mean, hexact.variance, hexact.variance ▸ Moments.variance_nonneg _⟩

/-- The choices of an execution with one label. -/
def oneLabel (options : Finset (Event × ℤ)) : ChoiceMap := ⟨[(1, options)], by simp⟩

/-- A complete execution with one option and a blocked one with three. -/
def oneAndThree : List ExecutionEnd :=
  [⟨oneLabel {(⟨0, 0⟩, 1)}, false, false, false⟩,
    ⟨oneLabel {(⟨0, 0⟩, 1), (⟨0, 1⟩, 1), (⟨1, 1⟩, 1)}, false, true, false⟩]

/-- The mean of 1 and 3 is 2, their variance is 1. -/
theorem estimation_exact_oneAndThree :
    (exec {} 1000 (oneAndThree.map .executionEnd)).estimationMean = 2 ∧
      (exec {} 1000 (oneAndThree.map .executionEnd)).estimationVariance = 1 := by
  obtain ⟨hmean, hvariance, -⟩ := estimation_exact {} 1000 (oneAndThree.map .executionEnd) (by
    intro done a rest hsplit
    obtain ⟨ends, rest', hends, rfl, -⟩ := List.map_eq_append_iff.mp hsplit
    have hbeginning : ends <+: oneAndThree := ⟨rest', hends.symm⟩
    exact counted_eq_length ends (hbeginning.length_le.trans_lt (by decide)))
  have hsamples : samples (oneAndThree.map .executionEnd) = [1, 3] := by decide +kernel
  rw [hsamples] at hmean hvariance
  rw [hmean, hvariance]
  norm_num [Moments.mean, Moments.variance]

end Estimator

end GenMC
