import Mathlib.Order.Basic
import Mathlib.Data.List.Basic
import Mathlib.Tactic

/-!
# Binary search

`lowerBound` is the binary search for the first element of a list that a predicate does not put
before the place looked for.  It finds that element if the list is partitioned by the predicate, and
only then.  A `VSet` is a sorted vector that is searched in this way: `sortedInsert` keeps it
sorted.
-/

namespace GenMC

section Search

variable {α : Type*}

/-- The loop of `std::lower_bound` over the `len` elements from position `first`. -/
def lowerBoundFrom (before : α → Bool) (l : List α) : ℕ → ℕ → ℕ → ℕ
  | 0, first, _ => first
  | fuel + 1, first, len =>
    if len = 0 then first
    else
      let half := len / 2
      if l[first + half]?.any before then
        lowerBoundFrom before l fuel (first + half + 1) (len - half - 1)
      else lowerBoundFrom before l fuel first half

/-- `std::lower_bound`: a position in the list. -/
def lowerBound (before : α → Bool) (l : List α) : ℕ :=
  lowerBoundFrom before l l.length 0 l.length

/-- The list is partitioned: elements that are before the place stand before the others. -/
def Partitioned (before : α → Bool) (l : List α) : Prop :=
  l.Pairwise fun x y => before y = true → before x = true

/-- The position separates the elements before the place from the others. -/
def Separates (before : α → Bool) (l : List α) (r : ℕ) : Prop :=
  r ≤ l.length ∧ ∀ i x, l[i]? = some x → (before x = true ↔ i < r)

variable {before : α → Bool} {l : List α}

/-- Elements of a partitioned list, in their order. -/
lemma Partitioned.before_of_le (h : Partitioned before l) {i j : ℕ} {x y : α}
    (hx : l[i]? = some x) (hy : l[j]? = some y) (hij : i ≤ j) (hbefore : before y = true) :
    before x = true := by
  obtain ⟨hi, rfl⟩ := List.getElem?_eq_some_iff.mp hx
  obtain ⟨hj, rfl⟩ := List.getElem?_eq_some_iff.mp hy
  obtain rfl | hlt := Nat.eq_or_lt_of_le hij
  · exact hbefore
  · exact List.pairwise_iff_getElem.mp h i j hi hj hlt hbefore

/-- The loop keeps that everything below `first` is before the place and nothing from
`first + len` on is. -/
lemma lowerBoundFrom_spec (h : Partitioned before l) {fuel first len : ℕ} (hfuel : len ≤ fuel)
    (hlen : first + len ≤ l.length) (hlow : ∀ i x, l[i]? = some x → i < first → before x = true)
    (hhigh : ∀ i x, l[i]? = some x → first + len ≤ i → before x = false) :
    Separates before l (lowerBoundFrom before l fuel first len) := by
  induction fuel generalizing first len with
  | zero =>
    obtain rfl := Nat.le_zero.mp hfuel
    refine ⟨hlen, fun i x hx => ⟨fun hb => ?_, hlow i x hx⟩⟩
    by_contra hge
    have := hhigh i x hx (not_lt.mp hge)
    rw [hb] at this
    cases this
  | succ fuel ih =>
    rw [lowerBoundFrom]
    split
    next hzero =>
      subst hzero
      refine ⟨hlen, fun i x hx => ⟨fun hb => ?_, hlow i x hx⟩⟩
      by_contra hge
      have := hhigh i x hx (not_lt.mp hge)
      rw [hb] at this
      cases this
    next hne =>
      have hmid : first + len / 2 < l.length := by omega
      have hget : l[first + len / 2]? = some l[first + len / 2] := List.getElem?_eq_getElem hmid
      simp only [hget, Option.any_some]
      split
      next hb =>
        refine ih (by omega) (by omega) (fun i x hx hi => ?_) fun i x hx hi =>
          hhigh i x hx (by omega)
        exact h.before_of_le hx hget (by omega) hb
      next hb =>
        refine ih (by omega) (by omega) hlow fun i x hx hi => ?_
        by_contra hx'
        exact hb (h.before_of_le hget hx hi (Bool.not_eq_false _ ▸ hx'))

/-- **Binary search** in a partitioned list. -/
theorem separates_lowerBound (h : Partitioned before l) :
    Separates before l (lowerBound before l) :=
  lowerBoundFrom_spec h le_rfl (by omega) (fun _ _ _ hi => absurd hi (Nat.not_lt_zero _))
    fun i x hx hi => by
      have := (List.getElem?_eq_some_iff.mp hx).1
      omega

end Search

section Sorted

variable {α : Type*} [LinearOrder α] {before : α → Bool} {l : List α}

/-- Positions in a sorted list are ordered like the elements. -/
lemma lt_of_sorted (h : l.Pairwise (· < ·)) {i j : ℕ} {x y : α} (hx : l[i]? = some x)
    (hy : l[j]? = some y) (hxy : x < y) : i < j := by
  obtain ⟨hi, rfl⟩ := List.getElem?_eq_some_iff.mp hx
  obtain ⟨hj, rfl⟩ := List.getElem?_eq_some_iff.mp hy
  by_contra hge
  obtain heq | hlt := Nat.eq_or_lt_of_le (not_lt.mp hge)
  · subst heq
    exact lt_irrefl _ hxy
  · exact lt_asymm hxy (List.pairwise_iff_getElem.mp h j i hj hi hlt)

/-- A sorted list is partitioned if the predicate is. -/
lemma partitioned_of_sorted (h : l.Pairwise (· < ·))
    (hbefore : ∀ x ∈ l, ∀ y ∈ l, x < y → before y = true → before x = true) :
    Partitioned before l :=
  h.imp_of_mem fun hx hy hxy => hbefore _ hx _ hy hxy

/-- In a sorted list the search finds the least element that is not before the place. -/
lemma getElem?_lowerBound_eq_some (h : l.Pairwise (· < ·)) (hpart : Partitioned before l) (x : α) :
    l[lowerBound before l]? = some x ↔
      x ∈ l ∧ before x = false ∧ ∀ y ∈ l, y < x → before y = true := by
  obtain ⟨hle, hsep⟩ := separates_lowerBound hpart
  constructor
  · intro hx
    refine ⟨List.mem_of_getElem? hx, ?_, fun y hy hyx => ?_⟩
    · refine Bool.eq_false_iff.mpr fun hb => ?_
      exact absurd ((hsep _ x hx).mp hb) (lt_irrefl _)
    · obtain ⟨i, hi⟩ := List.mem_iff_getElem?.mp hy
      exact (hsep i y hi).mpr (lt_of_sorted h hi hx hyx)
  · rintro ⟨hmem, hb, hleast⟩
    obtain ⟨i, hi⟩ := List.mem_iff_getElem?.mp hmem
    have hge : lowerBound before l ≤ i := by
      by_contra hlt
      have := (hsep i x hi).mpr (not_le.mp hlt)
      rw [hb] at this
      cases this
    obtain heq | hlt := Nat.eq_or_lt_of_le hge
    · rw [heq, hi]
    · -- the element at the position found would be smaller than `x`
      exfalso
      have hlen : lowerBound before l < l.length :=
        hlt.trans (List.getElem?_eq_some_iff.mp hi).1
      have hget : l[lowerBound before l]? = some l[lowerBound before l] :=
        List.getElem?_eq_getElem hlen
      have hlt' : l[lowerBound before l] < x := by
        obtain ⟨hi', rfl⟩ := List.getElem?_eq_some_iff.mp hi
        exact List.pairwise_iff_getElem.mp h _ i hlen hi' hlt
      have := (hsep _ _ hget).mp (hleast _ (List.mem_of_getElem? hget) hlt')
      exact lt_irrefl _ this

/-- `VSet::insert`. -/
def sortedInsert (l : List α) (a : α) : List α :=
  let i := lowerBound (fun x => decide (x < a)) l
  if l[i]? = some a then l else l.take i ++ a :: l.drop i

/-- The insertion adds the element. -/
lemma mem_sortedInsert (l : List α) (a x : α) : x ∈ sortedInsert l a ↔ x = a ∨ x ∈ l := by
  unfold sortedInsert
  dsimp only
  split
  next h =>
    have := List.mem_of_getElem? h
    constructor
    · exact .inr
    · rintro (rfl | hx) <;> assumption
  next =>
    conv_rhs => rw [← List.take_append_drop (lowerBound (fun x => decide (x < a)) l) l]
    rw [List.mem_append, List.mem_cons, List.mem_append]
    tauto

/-- **The insertion keeps the list sorted.** -/
theorem pairwise_sortedInsert (h : l.Pairwise (· < ·)) (a : α) :
    (sortedInsert l a).Pairwise (· < ·) := by
  have hpart : Partitioned (fun x => decide (x < a)) l :=
    partitioned_of_sorted h fun x _ y _ hxy hy =>
      decide_eq_true (hxy.trans (of_decide_eq_true hy))
  obtain ⟨hle, hsep⟩ := separates_lowerBound hpart
  unfold sortedInsert
  dsimp only
  generalize lowerBound (fun x => decide (x < a)) l = i at hle hsep
  split
  next => exact h
  next hne =>
    have htake : ∀ x ∈ l.take i, x < a := by
      intro x hx
      obtain ⟨j, hj⟩ := List.mem_iff_getElem?.mp hx
      rw [List.getElem?_take] at hj
      split at hj
      next hji => exact of_decide_eq_true ((hsep j x hj).mpr hji)
      next => cases hj
    have hdrop : ∀ x ∈ l.drop i, a < x := by
      intro x hx
      obtain ⟨j, hj⟩ := List.mem_iff_getElem?.mp hx
      rw [List.getElem?_drop] at hj
      have hge : ¬x < a := fun hlt => by
        have := (hsep _ x hj).mp (decide_eq_true hlt)
        omega
      refine lt_of_le_of_ne (not_lt.mp hge) fun heq => ?_
      -- `a` itself could only be at the position found
      subst heq
      cases j with
      | zero => exact hne hj
      | succ j =>
        obtain ⟨hlen, hx'⟩ := List.getElem?_eq_some_iff.mp hj
        have hlt : l[i] < a := by
          rw [← hx']
          exact List.pairwise_iff_getElem.mp h i (i + (j + 1)) (by omega) hlen (by omega)
        have := (hsep i _ (List.getElem?_eq_getElem (by omega))).mp (decide_eq_true hlt)
        exact lt_irrefl _ this
    rw [List.pairwise_append]
    refine ⟨h.sublist (List.take_sublist _ _), ?_, fun x hx y hy => ?_⟩
    · exact List.pairwise_cons.mpr ⟨hdrop, h.sublist (List.drop_sublist _ _)⟩
    · obtain rfl | hy := List.mem_cons.mp hy
      · exact htake x hx
      · exact (htake x hx).trans (hdrop y hy)

end Sorted

end GenMC
