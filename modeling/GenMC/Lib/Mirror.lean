import Mathlib.Data.List.Basic
import Mathlib.Logic.Function.Basic
import Mathlib.Tactic

/-!
# Mirrored pointers

A partial function `f` from sources to targets is mirrored by lists `l`, one for each target, if
the list of a target contains exactly the sources that point to it, each of them once.  The rules
of this file keep the two representations in step: pointing a source at a target, taking a pointer
back, and restricting both sides.
-/

namespace GenMC

variable {ρ ω : Type*} [DecidableEq ρ] [DecidableEq ω]

/-- The lists contain every source exactly as often as it points to their target. -/
def Mirrors (f : ρ → Option ω) (l : ω → List ρ) : Prop :=
  ∀ w r, (l w).count r = if f r = some w then 1 else 0

namespace Mirrors

variable {f : ρ → Option ω} {l : ω → List ρ}

/-- Membership in the list of a target. -/
lemma mem_iff (h : Mirrors f l) (w : ω) (r : ρ) : r ∈ l w ↔ f r = some w := by
  rw [← List.count_pos_iff, h w r]
  split <;> simp_all

/-- No source is listed twice. -/
lemma nodup (h : Mirrors f l) (w : ω) : (l w).Nodup := by
  rw [List.nodup_iff_count_le_one]
  intro r
  rw [h w r]
  split <;> omega

/-- Lists without duplicates and with the right members mirror the function. -/
lemma of_mem (hnodup : ∀ w, (l w).Nodup) (hmem : ∀ w r, r ∈ l w ↔ f r = some w) :
    Mirrors f l := by
  intro w r
  by_cases hr : f r = some w
  · rw [if_pos hr]
    exact List.count_eq_one_of_mem (hnodup w) ((hmem w r).mpr hr)
  · rw [if_neg hr, List.count_eq_zero]
    exact fun hin => hr ((hmem w r).mp hin)

/-- Pointing a source without a target at `w`. -/
lemma set (h : Mirrors f l) {r : ρ} (hr : f r = none) (w : ω) :
    Mirrors (Function.update f r (some w)) (Function.update l w (l w ++ [r])) := by
  intro w' r'
  have hold := h w' r'
  by_cases hw : w' = w <;> by_cases hr' : r' = r
  · subst hw hr'
    simp [hold, hr]
  · subst hw
    rw [Function.update_self, Function.update_of_ne hr', List.count_append, hold,
      List.count_singleton]
    simp [Ne.symm hr']
  · subst hr'
    simp [Function.update_of_ne hw, hold, hr, Ne.symm hw]
  · rw [Function.update_of_ne hw, Function.update_of_ne hr', hold]

/-- Taking the pointer of a source back. -/
lemma unset (h : Mirrors f l) {r : ρ} {w : ω} (hr : f r = some w) :
    Mirrors (Function.update f r none)
      (Function.update l w ((l w).filter fun r' => !decide (r' = r))) := by
  refine of_mem (fun w' => ?_) (fun w' r' => ?_)
  · by_cases hw : w' = w
    · subst hw
      rw [Function.update_self]
      exact (h.nodup w').filter _
    · rw [Function.update_of_ne hw]
      exact h.nodup w'
  · by_cases hw : w' = w <;> by_cases hr' : r' = r
    · subst hw hr'
      simp
    · subst hw
      rw [Function.update_self, Function.update_of_ne hr', List.mem_filter, h.mem_iff]
      simp [hr']
    · subst hr'
      rw [Function.update_of_ne hw, Function.update_self, h.mem_iff, hr]
      simp [Ne.symm hw]
    · rw [Function.update_of_ne hw, Function.update_of_ne hr', h.mem_iff]

/-- Restricting the sources to `p` and the targets to `q`. -/
lemma restrict (h : Mirrors f l) (p : ρ → Bool) (q : ω → Bool) :
    Mirrors (fun r => if p r then (f r).filter q else none)
      (fun w => if q w then (l w).filter p else []) := by
  refine of_mem (fun w => ?_) (fun w r => ?_)
  · by_cases hq : q w
    · rw [if_pos hq]
      exact (h.nodup w).filter _
    · simp [hq]
  · by_cases hq : q w <;> by_cases hp : p r
    · simp [hq, hp, h.mem_iff, Option.filter_eq_some_iff]
    · simp [hq, hp]
    · simp [hq, hp, Option.filter_eq_some_iff]
    · simp [hq, hp]

/-- Mirroring only depends on the values of the two representations. -/
lemma congr {f' : ρ → Option ω} {l' : ω → List ρ} (h : Mirrors f l) (hf : ∀ r, f' r = f r)
    (hl : ∀ w, l' w = l w) : Mirrors f' l' := by
  intro w r
  rw [hf, hl]
  exact h w r

end Mirrors

end GenMC
