import Mathlib.Data.List.Basic
import Mathlib.Order.Interval.Finset.Nat
import Mathlib.Tactic

/-!
# Renumbering a sorted list

The members of a list that is sorted by a numbering get consecutive new numbers, in the order of
the list.  If the list consists of everything above a bound, the new numbering orders all elements
as the old one does, and no number grows.
-/

namespace GenMC

variable {α : Type*} [DecidableEq α] {f : α → ℕ} {l : List α} {a b : α} {bound : ℕ}

/-- The numbering in which the members of `l` have consecutive numbers from `first` on. -/
def renumber (l : List α) (first : ℕ) (f : α → ℕ) (a : α) : ℕ :=
  if a ∈ l then first + l.idxOf a else f a

/-- Other elements keep their numbers. -/
lemma renumber_of_not_mem (first : ℕ) (h : a ∉ l) : renumber l first f a = f a := if_neg h

/-- A member gets the number of its place. -/
lemma renumber_of_mem (first : ℕ) (h : a ∈ l) : renumber l first f a = first + l.idxOf a := if_pos h

/-- The number of the next member. -/
lemma renumber_append_singleton (first : ℕ) (h : a ∉ l) :
    renumber (l ++ [a]) first f = Function.update (renumber l first f) a (first + l.length) := by
  funext b
  rw [Function.update_apply]
  by_cases hb : b = a
  · subst hb
    rw [if_pos rfl, renumber_of_mem _ (List.mem_append_right l (List.mem_singleton.mpr rfl)),
      List.idxOf_append_of_notMem h, List.idxOf_cons_self, Nat.add_zero]
  · rw [if_neg hb]
    by_cases hmem : b ∈ l
    · rw [renumber_of_mem _ (List.mem_append_left [a] hmem), renumber_of_mem _ hmem,
        List.idxOf_append_of_mem hmem]
    · rw [renumber_of_not_mem _ hmem, renumber_of_not_mem]
      rw [List.mem_append, List.mem_singleton]
      exact not_or.mpr ⟨hmem, hb⟩

/-- The members are numbered in the order of the list. -/
lemma renumber_getElem (hl : l.Pairwise fun a b => f a < f b) (first : ℕ) {k : ℕ}
    (hk : l[k]? = some a) : renumber l first f a = first + k := by
  obtain ⟨hlt, rfl⟩ := List.getElem?_eq_some_iff.mp hk
  have hnodup : l.Nodup := hl.imp fun h heq => by rw [heq] at h; exact lt_irrefl _ h
  rw [renumber_of_mem _ (List.getElem_mem hlt), hnodup.idxOf_getElem]

/-- The places in a sorted list. -/
lemma idxOf_lt_idxOf (hl : l.Pairwise fun a b => f a < f b) (ha : a ∈ l) (hb : b ∈ l)
    (h : f a < f b) : l.idxOf a < l.idxOf b := by
  have ha' := List.idxOf_lt_length_of_mem ha
  have hb' := List.idxOf_lt_length_of_mem hb
  rcases lt_trichotomy (l.idxOf a) (l.idxOf b) with hlt | heq | hgt
  · exact hlt
  · rw [(List.idxOf_inj ha).mp heq] at h
    exact absurd h (lt_irrefl _)
  · have hsorted := List.pairwise_iff_getElem.mp hl _ _ hb' ha' hgt
    rw [List.getElem_idxOf, List.getElem_idxOf] at hsorted
    omega

/-- **The order is kept** if the list has everything above the bound. -/
theorem renumber_lt_renumber (hl : l.Pairwise fun a b => f a < f b) (ha : a ∈ l ↔ bound < f a)
    (hb : b ∈ l ↔ bound < f b) (h : f a < f b) :
    renumber l (bound + 1) f a < renumber l (bound + 1) f b := by
  by_cases hmemb : b ∈ l
  · rw [renumber_of_mem _ hmemb]
    by_cases hmema : a ∈ l
    · rw [renumber_of_mem _ hmema]
      have := idxOf_lt_idxOf hl hmema hmemb h
      omega
    · rw [renumber_of_not_mem _ hmema]
      rw [ha] at hmema
      omega
  · have hmema : a ∉ l := by
      rw [ha]
      rw [hb] at hmemb
      omega
    rw [renumber_of_not_mem _ hmema, renumber_of_not_mem _ hmemb]
    exact h

/-- **Distinct numbers stay distinct** if all others are below the first new one. -/
theorem renumber_inj {first : ℕ} (ha : a ∉ l → f a < first) (hb : b ∉ l → f b < first)
    (hinj : f a = f b → a = b) (h : renumber l first f a = renumber l first f b) : a = b := by
  by_cases hmema : a ∈ l
  · rw [renumber_of_mem _ hmema] at h
    by_cases hmemb : b ∈ l
    · rw [renumber_of_mem _ hmemb] at h
      exact (List.idxOf_inj hmema).mp (Nat.add_left_cancel h)
    · rw [renumber_of_not_mem _ hmemb] at h
      have := hb hmemb
      omega
  · rw [renumber_of_not_mem _ hmema] at h
    by_cases hmemb : b ∈ l
    · rw [renumber_of_mem _ hmemb] at h
      have := ha hmema
      omega
    · rw [renumber_of_not_mem _ hmemb] at h
      exact hinj h

omit [DecidableEq α] in
/-- A list with distinct numbers between two bounds is short. -/
lemma length_le_of_nodup_map (hl : (l.map f).Nodup) {limit : ℕ} (hlow : ∀ a ∈ l, bound < f a)
    (hhigh : ∀ a ∈ l, f a < limit) : l.length ≤ limit - (bound + 1) := by
  have hsub : (l.map f).toFinset ⊆ Finset.Ico (bound + 1) limit := by
    intro n hn
    obtain ⟨a, ha, rfl⟩ := List.mem_map.mp (List.mem_toFinset.mp hn)
    exact Finset.mem_Ico.mpr ⟨hlow a ha, hhigh a ha⟩
  have hcard := Finset.card_le_card hsub
  rwa [List.toFinset_card_of_nodup hl, List.length_map, Nat.card_Ico] at hcard

omit [DecidableEq α] in
/-- A sorted list between two bounds is short. -/
lemma length_le_of_pairwise_lt (hl : l.Pairwise fun a b => f a < f b) {limit : ℕ}
    (hlow : ∀ a ∈ l, bound < f a) (hhigh : ∀ a ∈ l, f a < limit) :
    l.length ≤ limit - (bound + 1) := by
  refine length_le_of_nodup_map ?_ hlow hhigh
  rw [List.Nodup, List.pairwise_map]
  exact hl.imp fun h => ne_of_lt h

end GenMC
