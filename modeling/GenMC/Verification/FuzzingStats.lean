import GenMC.Lib.PartialRun
import GenMC.Verification.Result
import Mathlib.Algebra.BigOperators.Group.Finset.Basic

/-!
# Frequencies of the fuzzed graphs

The fuzzer counts how often it has seen every graph, in one map for the complete and one for the
blocked graphs, and keeps the sum of the squares of these counters as a `double`.  The sum is
updated by `2 * x - 1` for the new counter `x` of a graph, which `getGraphFreq` looks up in the map
of the complete graphs first, whichever of the two counters has been changed.

`freqSum_eq_squares` says when the sum is right after every step: as long as no graph is counted as
blocked while its counter as a complete graph differs from the new one, no counter overflows and
the sum is a number that a `double` holds exactly.
-/

namespace GenMC

/-- The conversion to a `double` of a natural number: 53 significant bits, ties to even. -/
def roundDouble (n : ℕ) : ℕ :=
  if n < 2 ^ 53 then n
  else
    let ulp := 2 ^ (n.log2 - 52)
    if 2 * (n % ulp) < ulp ∨ (2 * (n % ulp) = ulp ∧ n / ulp % 2 = 0) then n / ulp * ulp
    else (n / ulp + 1) * ulp

/-- Numbers of at most 53 bits and the next one are represented exactly. -/
lemma roundDouble_eq_self {n : ℕ} (h : n ≤ 2 ^ 53) : roundDouble n = n := by
  obtain hlt | rfl := h.lt_or_eq
  · exact if_pos hlt
  · decide

/-- `FuzzIsInteresting`: how the fuzzer chooses the graphs that it mutates. -/
inductive FuzzIsInteresting
  | always | newGraphs | graphFreq | graphFreqSquared | random | valueSeq
deriving DecidableEq

/-- The part of the driver that the statistics read and write: its results, the configuration,
`FuzzStats::coverage` and `FuzzStats::freqSum`. -/
structure Fuzzer where
  /-- The results, with the counters of the graphs. -/
  result : Result := {}
  /-- The number of distinct graphs after every execution. -/
  coverage : List ℕ := []
  /-- The sum of the frequencies. -/
  freqSum : ℕ := 0

namespace Result

/-- `Result::getGraphFreq`: the counter of a graph; it is a bug if there is none. -/
def getGraphFreq (r : Result) (ghash : GraphHash) : Option UInt32 :=
  match r.graphFreqComplete.find? ghash with
  | some freq => some freq
  | none => r.graphFreqBlock.find? ghash

/-- The counters of the blocked or of the complete graphs. -/
def graphFreq (r : Result) (blocked : Bool) : GraphFreq :=
  if blocked then r.graphFreqBlock else r.graphFreqComplete

/-- The counter of a graph as a blocked or as a complete one. -/
def freqOf (r : Result) (x : GraphHash × Bool) : ℕ :=
  (((r.graphFreq x.2).find? x.1).map UInt32.toNat).getD 0

end Result

namespace Fuzzer

/-- `2 * freq - 1` as a 64-bit number. -/
def squareStep (freq : UInt32) : ℕ := (2 * freq.toNat + (2 ^ 64 - 1)) % 2 ^ 64

/-- `updateFuzzingStats`.  The score of the value sequences is given by what its addition makes of
the sum. -/
def updateFuzzingStats (mode : FuzzIsInteresting) (plot : Bool) (addValSeqScore : ℕ → ℕ)
    (ghash : GraphHash) (s : Fuzzer) : Option Fuzzer :=
  let s := if plot then { s with coverage := s.coverage ++ [s.result.totalExploredDistinct] } else s
  match mode with
  | .graphFreq => some { s with freqSum := roundDouble (s.freqSum + 1) }
  | .graphFreqSquared => (s.result.getGraphFreq ghash).map fun freq =>
      { s with freqSum := roundDouble (s.freqSum + roundDouble (squareStep freq)) }
  | .valueSeq => some { s with freqSum := addValSeqScore s.freqSum }
  | _ => some s

/-- The part of `handleExecutionEnd` that keeps the frequencies when the fuzzer explores a graph
with squared frequencies. -/
def handleExecutionEnd (plot : Bool) (addValSeqScore : ℕ → ℕ) (s : Fuzzer)
    (x : GraphHash × Bool) : Option Fuzzer :=
  updateFuzzingStats .graphFreqSquared plot addValSeqScore x.1
    { s with result := s.result.updateGraphFrequencies x.1 x.2 }

/-! ## The counters -/

/-- The sum of the squares of the numbers of times that every graph occurs, as a blocked or as a
complete one. -/
def squares (xs : List (GraphHash × Bool)) : ℕ := ∑ x ∈ xs.toFinset, xs.count x ^ 2

/-- The sum of the squares grows by twice the old counter and one. -/
lemma squares_append (xs : List (GraphHash × Bool)) (x : GraphHash × Bool) :
    squares (xs ++ [x]) = squares xs + (2 * xs.count x + 1) := by
  have hcount (y : GraphHash × Bool) :
      (xs ++ [x]).count y = xs.count y + if y = x then 1 else 0 := by
    rw [List.count_append, List.count_singleton]
    simp only [beq_iff_eq, eq_comm (a := x)]
  have hset : (xs ++ [x]).toFinset = insert x (xs.toFinset.erase x) := by
    ext y
    simp only [List.mem_toFinset, List.mem_append, List.mem_singleton, Finset.mem_insert,
      Finset.mem_erase]
    by_cases hy : y = x <;> simp [hy]
  have hold : squares xs = xs.count x ^ 2 + ∑ y ∈ xs.toFinset.erase x, xs.count y ^ 2 := by
    unfold squares
    by_cases hx : x ∈ xs.toFinset
    · exact (Finset.add_sum_erase _ (fun y => xs.count y ^ 2) hx).symm
    · have hzero : xs.count x = 0 := List.count_eq_zero.mpr fun h => hx (List.mem_toFinset.mpr h)
      rw [Finset.erase_eq_of_notMem hx, hzero, zero_pow two_ne_zero, zero_add]
  have hrest : ∑ y ∈ xs.toFinset.erase x, (xs ++ [x]).count y ^ 2 =
      ∑ y ∈ xs.toFinset.erase x, xs.count y ^ 2 := by
    refine Finset.sum_congr rfl fun y hy => ?_
    rw [hcount, if_neg (Finset.ne_of_mem_erase hy), Nat.add_zero]
  rw [hold, squares, hset, Finset.sum_insert (Finset.notMem_erase x _), hrest, hcount, if_pos rfl]
  ring

/-- Exactly the counter of the explored graph changes. -/
lemma find?_updateGraphFrequencies (r : Result) (x y : GraphHash × Bool) :
    ((r.updateGraphFrequencies x.1 x.2).graphFreq y.2).find? y.1 =
      if y = x then some (((r.graphFreq x.2).find? x.1).getD 0 + 1)
      else (r.graphFreq y.2).find? y.1 := by
  obtain ⟨h, b⟩ := x
  obtain ⟨h', b'⟩ := y
  have hmap (m : GraphFreq) : ((m.track h 0).modify h (· + 1)).find? h' =
      if h' = h then some ((m.find? h).getD 0 + 1) else m.find? h' := by
    rw [KeyedList.find?_modify, KeyedList.find?_track]
    split
    · subst h'
      rfl
    · rfl
  unfold Result.updateGraphFrequencies Result.graphFreq
  cases b <;> cases b' <;> simp [hmap]

/-- The statistics of a fuzzer that has explored the given graphs. -/
structure Records (xs : List (GraphHash × Bool)) (s : Fuzzer) : Prop where
  /-- Every graph has the number of its occurrences as its counter. -/
  counters : ∀ x, ((s.result.graphFreq x.2).find? x.1).map UInt32.toNat =
    if xs.count x = 0 then none else some (xs.count x)
  /-- The sum is the sum of the squares. -/
  freqSum : s.freqSum = squares xs

/-- A fuzzer that has explored nothing. -/
lemma Records.nil : Records [] {} := by
  refine ⟨fun x => ?_, rfl⟩
  unfold Result.graphFreq
  split <;> rfl

/-- The counter of a graph. -/
lemma Records.freqOf_eq {xs : List (GraphHash × Bool)} {s : Fuzzer} (h : Records xs s)
    (x : GraphHash × Bool) : s.result.freqOf x = xs.count x := by
  unfold Result.freqOf
  rw [h.counters]
  split
  · exact Eq.symm ‹_›
  · rfl

/-- The graph is counted right: its counter does not overflow, the sum stays in the range in which
a `double` is exact, and a blocked graph has no counter as a complete one, or just the new value of
its counter as a blocked one. -/
def CountsRight (s : Fuzzer) (x : GraphHash × Bool) : Prop :=
  s.result.freqOf x + 1 < 2 ^ 32 ∧ s.freqSum + (2 * s.result.freqOf x + 1) ≤ 2 ^ 53 ∧
    (x.2 = true → (s.result.graphFreqComplete.find? x.1).all fun freq =>
      decide (freq.toNat = s.result.freqOf x + 1))

instance : DecidableRel CountsRight := fun _ _ => inferInstanceAs (Decidable (_ ∧ _ ∧ _))

/-- The new counter of an explored graph. -/
lemma Records.find?_updated {xs : List (GraphHash × Bool)} {s : Fuzzer} (hs : Records xs s)
    {x : GraphHash × Bool} (hx : xs.count x + 1 < 2 ^ 32) :
    ∃ freq : UInt32,
      ((s.result.updateGraphFrequencies x.1 x.2).graphFreq x.2).find? x.1 = some freq ∧
        freq.toNat = xs.count x + 1 := by
  refine ⟨_, (find?_updateGraphFrequencies s.result x x).trans (if_pos rfl), ?_⟩
  have hold := hs.counters x
  cases hfind : (s.result.graphFreq x.2).find? x.1 with
  | none =>
    rw [hfind] at hold
    have hzero : xs.count x = 0 := by
      by_contra hne
      rw [if_neg hne] at hold
      exact Option.some_ne_none _ hold.symm
    rw [hzero]
    rfl
  | some freq =>
    have hfreq : freq.toNat = xs.count x := by
      rw [hfind] at hold
      by_cases hzero : xs.count x = 0
      · rw [if_pos hzero] at hold
        exact absurd hold (Option.some_ne_none _)
      · rw [if_neg hzero] at hold
        exact Option.some.inj hold
    rw [Option.getD_some, UInt32.toNat_add, hfreq]
    exact Nat.mod_eq_of_lt hx

/-- The look-up finds the new counter of a graph that is counted right. -/
lemma Records.getGraphFreq_updated {xs : List (GraphHash × Bool)} {s : Fuzzer} (hs : Records xs s)
    {x : GraphHash × Bool} (hx : CountsRight s x) :
    ∃ freq : UInt32, (s.result.updateGraphFrequencies x.1 x.2).getGraphFreq x.1 = some freq ∧
      freq.toNat = xs.count x + 1 := by
  obtain ⟨hcounter, -, hblocked⟩ := hx
  rw [hs.freqOf_eq] at hcounter hblocked
  obtain ⟨freq, hfreq, hval⟩ := hs.find?_updated hcounter
  obtain ⟨ghash, blocked⟩ := x
  unfold Result.getGraphFreq
  cases blocked with
  | false =>
    have hcomplete : (s.result.updateGraphFrequencies ghash false).graphFreqComplete.find? ghash =
        some freq := hfreq
    rw [hcomplete]
    exact ⟨freq, rfl, hval⟩
  | true =>
    have hsame : (s.result.updateGraphFrequencies ghash true).graphFreqComplete =
        s.result.graphFreqComplete := rfl
    rw [hsame]
    cases hfind : s.result.graphFreqComplete.find? ghash with
    | none => exact ⟨freq, hfreq, hval⟩
    | some freq' =>
      have hfreq' := hblocked rfl
      rw [hfind, Option.all_some] at hfreq'
      exact ⟨freq', rfl, of_decide_eq_true hfreq'⟩

/-- **One execution.**  A graph that is counted right adds its share to the sum. -/
lemma Records.step {xs : List (GraphHash × Bool)} {s : Fuzzer} (hs : Records xs s) (plot : Bool)
    (addValSeqScore : ℕ → ℕ) {x : GraphHash × Bool} (hx : CountsRight s x) :
    ∃ s', handleExecutionEnd plot addValSeqScore s x = some s' ∧ Records (xs ++ [x]) s' := by
  obtain ⟨freq, hget, hval⟩ := hs.getGraphFreq_updated hx
  obtain ⟨hcounter, hsum, -⟩ := hx
  rw [hs.freqOf_eq] at hcounter hsum
  have hstep : squareStep freq = 2 * xs.count x + 1 := by
    unfold squareStep
    rw [hval]
    omega
  have hround : roundDouble (s.freqSum + roundDouble (squareStep freq)) =
      s.freqSum + (2 * xs.count x + 1) := by
    have hshare : roundDouble (2 * xs.count x + 1) = 2 * xs.count x + 1 :=
      roundDouble_eq_self ((Nat.le_add_left _ _).trans hsum)
    rw [hstep, hshare, roundDouble_eq_self hsum]
  have hcounters (s' : Fuzzer) (hs' : s'.result = s.result.updateGraphFrequencies x.1 x.2)
      (hsum' : s'.freqSum = s.freqSum + (2 * xs.count x + 1)) : Records (xs ++ [x]) s' := by
    refine ⟨fun y => ?_, ?_⟩
    · rw [hs', find?_updateGraphFrequencies, List.count_append, List.count_singleton]
      by_cases hy : y = x
      · subst hy
        obtain ⟨freq', hfreq', hval'⟩ := hs.find?_updated hcounter
        rw [find?_updateGraphFrequencies, if_pos rfl] at hfreq'
        rw [if_pos rfl, hfreq', Option.map_some, hval', beq_self_eq_true, if_pos rfl,
          if_neg (Nat.succ_ne_zero _)]
      · rw [if_neg hy, hs.counters, beq_false_of_ne (Ne.symm hy)]
        rfl
    · rw [hsum', hs.freqSum, squares_append]
  unfold handleExecutionEnd updateFuzzingStats
  cases plot <;>
    simp only [if_true, if_false, Bool.false_eq_true, hget, Option.map_some, Option.some.injEq,
      exists_eq_left', hround]
  · exact hcounters _ rfl rfl
  · exact hcounters _ rfl rfl

/-- **A run of the fuzzer.**  As long as the graphs are counted right, the statistics record all of
them. -/
lemma Records.exec {plot : Bool} {addValSeqScore : ℕ → ℕ} {done xs : List (GraphHash × Bool)}
    {s : Fuzzer} (hs : Records done s)
    (h : PartialRun.Meets (handleExecutionEnd plot addValSeqScore) CountsRight s xs) :
    ∃ s', PartialRun.exec (handleExecutionEnd plot addValSeqScore) s xs = some s' ∧
      Records (done ++ xs) s' := by
  induction xs generalizing done s with
  | nil => exact ⟨s, rfl, (List.append_nil done).symm ▸ hs⟩
  | cons x xs ih =>
    obtain ⟨s₁, h₁, hs₁⟩ := hs.step plot addValSeqScore h.1
    obtain ⟨s', h', hs'⟩ := ih hs₁ (h.2 s₁ h₁)
    refine ⟨s', ?_, ?_⟩
    · rw [PartialRun.exec, h₁, Option.bind_some, h']
    · rw [List.append_assoc] at hs'
      exact hs'

/-- **The sum of the squared frequencies.**  In a run whose graphs are counted right, the sum that
the fuzzer maintains is, after every step, the sum of the squares of the numbers of times that the
graphs have been seen. -/
theorem freqSum_eq_squares (plot : Bool) (addValSeqScore : ℕ → ℕ) (xs : List (GraphHash × Bool))
    (h : PartialRun.Meets (handleExecutionEnd plot addValSeqScore) CountsRight {} xs) :
    ∀ ys, ys <+: xs → ∃ s, PartialRun.exec (handleExecutionEnd plot addValSeqScore) {} ys = some s ∧
      s.freqSum = squares ys := by
  rintro ys ⟨zs, rfl⟩
  obtain ⟨s, hs, hrec⟩ := Records.nil.exec h.of_append
  exact ⟨s, hs, hrec.freqSum⟩

/-- A complete graph that is seen twice, and a blocked one. -/
theorem freqSum_eq_squares_three :
    ∃ s, PartialRun.exec (handleExecutionEnd false id) {} [(1, false), (1, false), (2, true)] =
      some s ∧ s.freqSum = squares [(1, false), (1, false), (2, true)] :=
  freqSum_eq_squares false id _ (by decide +kernel) _ List.prefix_rfl

/-- A graph is complete once and a blocked one with the same hash is seen twice: the second time
the fuzzer adds 1 instead of 3. -/
theorem freqSum_ne_squares :
    ∃ s, PartialRun.exec (handleExecutionEnd false id) {} [(1, false), (1, true), (1, true)] =
      some s ∧ s.freqSum = 3 ∧ squares [(1, false), (1, true), (1, true)] = 5 := by
  have hrun : (PartialRun.exec (handleExecutionEnd false id) {}
      [(1, false), (1, true), (1, true)]).any (fun s => decide (s.freqSum = 3)) = true := by
    decide +kernel
  obtain ⟨s, hs, hsum⟩ := Option.any_eq_true _ _ |>.mp hrun
  exact ⟨s, hs, of_decide_eq_true hsum, by decide +kernel⟩

end Fuzzer

end GenMC
