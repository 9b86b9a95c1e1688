import Mathlib.Algebra.BigOperators.Ring.List
import Mathlib.Algebra.Order.BigOperators.Group.List
import Mathlib.Tactic

/-!
# Running mean and variance

The mean and the variance of a list of samples, and what one more sample makes of them.  The
variance is that of the whole population: the mean of the squared deviations.
-/

namespace GenMC

namespace Moments

variable {K : Type*} [Field K]

/-- The arithmetic mean; the one of no samples is zero. -/
def mean (xs : List K) : K := xs.sum / xs.length

/-- The population variance. -/
def variance (xs : List K) : K := (xs.map fun x => (x - mean xs) ^ 2).sum / xs.length

@[simp] lemma mean_nil : mean ([] : List K) = 0 := by simp [mean]

@[simp] lemma variance_nil : variance ([] : List K) = 0 := by simp [variance]

/-- The squared deviations from any value. -/
lemma sum_sq_sub (xs : List K) (m : K) : (xs.map fun x => (x - m) ^ 2).sum =
    (xs.map (· ^ 2)).sum - 2 * m * xs.sum + xs.length * m ^ 2 := by
  induction xs with
  | nil => simp
  | cons x xs ih =>
    simp only [List.map_cons, List.sum_cons, List.length_cons, Nat.cast_add, Nat.cast_one, ih]
    ring

/-- The variance is not negative. -/
lemma variance_nonneg [LinearOrder K] [IsStrictOrderedRing K] (xs : List K) : 0 ≤ variance xs := by
  refine div_nonneg (List.sum_nonneg fun y hy => ?_) (Nat.cast_nonneg _)
  obtain ⟨x, -, rfl⟩ := List.mem_map.mp hy
  exact sq_nonneg _

variable [CharZero K]

lemma length_mul_mean (xs : List K) : xs.length * mean xs = xs.sum := by
  cases xs with
  | nil => simp
  | cons x xs =>
    have hlength : ((x :: xs).length : K) ≠ 0 := Nat.cast_ne_zero.mpr (Nat.succ_ne_zero _)
    exact mul_div_cancel₀ _ hlength

/-- The sum of the squares from the variance and the mean. -/
lemma length_mul_variance (xs : List K) :
    xs.length * variance xs = (xs.map (· ^ 2)).sum - xs.length * mean xs ^ 2 := by
  cases xs with
  | nil => simp
  | cons x xs =>
    have hlength : ((x :: xs).length : K) ≠ 0 := Nat.cast_ne_zero.mpr (Nat.succ_ne_zero _)
    rw [variance, mul_div_cancel₀ _ hlength, sum_sq_sub, ← length_mul_mean (x :: xs)]
    ring

/-- The mean with one more sample. -/
lemma mean_append_singleton (xs : List K) (x : K) :
    mean (xs ++ [x]) = mean xs + (x - mean xs) / (xs.length + 1) := by
  have hlength : (xs.length : K) + 1 ≠ 0 := Nat.cast_add_one_ne_zero _
  have hmean : mean (xs ++ [x]) = (xs.length * mean xs + x) / (xs.length + 1) := by
    rw [length_mul_mean]
    simp [mean]
  rw [hmean]
  field_simp
  ring

/-- The variance with one more sample: from the deviations of the sample from both means. -/
lemma variance_append_singleton (xs : List K) (x : K) : variance (xs ++ [x]) = variance xs +
    ((x - mean xs) / (xs.length + 1) * (x - mean (xs ++ [x])) - variance xs / (xs.length + 1)) := by
  have hlength : (xs.length : K) + 1 ≠ 0 := Nat.cast_add_one_ne_zero _
  have hsquares : (xs.map (· ^ 2)).sum = xs.length * variance xs + xs.length * mean xs ^ 2 := by
    rw [length_mul_variance, sub_add_cancel]
  have hvariance : (xs.length + 1) * variance (xs ++ [x]) =
      (xs.map (· ^ 2)).sum + x ^ 2 - (xs.length + 1) * mean (xs ++ [x]) ^ 2 := by
    have h := length_mul_variance (xs ++ [x])
    simpa using h
  refine mul_left_cancel₀ hlength ?_
  rw [hvariance, hsquares, mean_append_singleton]
  field_simp
  ring

end Moments

end GenMC
