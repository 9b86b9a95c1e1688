import Mathlib.Data.List.Basic
import Mathlib.Tactic

/-!
# Searching for a matching bracket

A walk along a list that starts behind a bracket and looks for the one that matches it: brackets of
the same kind on the way have to be matched first.  The same walk serves both directions, with the
two kinds of brackets exchanged.  It stops at the first closing bracket with a balanced list before
it (`findMatching_eq_some_iff`), and a list is balanced in one direction if and only if it is in the
other (`Balanced.reverse_iff`), so that the two walks find each other (`findMatching_comm`).
-/

namespace Matching

variable {α : Type*} {opens closes : α → Bool}

/-- The walk, with the brackets of the own kind that it has met and not matched yet. -/
def findMatching (opens closes : α → Bool) : List α → List α → Option α
  | _, [] => none
  | pending, x :: l =>
    let pending := if opens x then x :: pending else pending
    if closes x then
      match pending with
      | [] => some x
      | _ :: pending => findMatching opens closes pending l
    else findMatching opens closes pending l

/-- No prefix closes more brackets than `n` and those that it opens, and the whole list closes that
many. -/
structure Closes (opens closes : α → Bool) (n : ℕ) (l : List α) : Prop where
  /-- No prefix closes more. -/
  le : ∀ s, s <+: l → s.countP closes ≤ n + s.countP opens
  /-- The list closes that many. -/
  eq : l.countP closes = n + l.countP opens

/-- All brackets of the list are matched inside it. -/
abbrev Balanced (opens closes : α → Bool) : List α → Prop := Closes opens closes 0

/-- A bracket before the rest of a list. -/
lemma closes_cons {n : ℕ} {x : α} {l : List α} :
    Closes opens closes n (x :: l) ↔
      (if closes x then 1 else 0) ≤ n + (if opens x then 1 else 0) ∧
        Closes opens closes (n + (if opens x then 1 else 0) - (if closes x then 1 else 0)) l := by
  constructor
  · rintro ⟨hle, heq⟩
    have hx := hle [x] (List.prefix_cons_iff.mpr (.inr ⟨[], rfl, List.nil_prefix⟩))
    rw [List.countP_singleton, List.countP_singleton] at hx
    refine ⟨hx, fun s hs => ?_, ?_⟩
    · have := hle (x :: s) (List.prefix_cons_iff.mpr (.inr ⟨s, rfl, hs⟩))
      rw [List.countP_cons, List.countP_cons] at this
      omega
    · rw [List.countP_cons, List.countP_cons] at heq
      omega
  · rintro ⟨hx, hle, heq⟩
    refine ⟨fun s hs => ?_, ?_⟩
    · rcases List.prefix_cons_iff.mp hs with rfl | ⟨s, rfl, hs'⟩
      · simp
      · have := hle s hs'
        rw [List.countP_cons, List.countP_cons]
        omega
    · rw [List.countP_cons, List.countP_cons]
      omega

/-- The empty list closes nothing. -/
lemma closes_nil {n : ℕ} : Closes opens closes n ([] : List α) ↔ n = 0 := by
  refine ⟨fun h => h.eq.symm, ?_⟩
  rintro rfl
  refine ⟨fun s hs => ?_, rfl⟩
  rw [List.prefix_nil.mp hs]
  exact le_rfl

/-- The walk stops at the first closing bracket before which everything is matched. -/
lemma findMatching_eq_some_iff (hdisj : ∀ x, opens x → closes x = false) {pending l : List α}
    {u : α} :
    findMatching opens closes pending l = some u ↔
      ∃ s t, l = s ++ u :: t ∧ closes u ∧ Closes opens closes pending.length s := by
  induction l generalizing pending with
  | nil => simp [findMatching]
  | cons x l ih =>
    -- The two ways to split the list: at its head, or behind it.
    have hsplit : (∃ s t, x :: l = s ++ u :: t ∧ closes u ∧
          Closes opens closes pending.length s) ↔
        (x = u ∧ closes u ∧ pending.length = 0) ∨
          ∃ s t, l = s ++ u :: t ∧ closes u ∧ Closes opens closes pending.length (x :: s) := by
      constructor
      · rintro ⟨s, t, heq, hu, hs⟩
        cases s with
        | nil => exact .inl ⟨(List.cons.inj heq).1, hu, closes_nil.mp hs⟩
        | cons y s =>
          obtain ⟨rfl, rfl⟩ := List.cons.inj heq
          exact .inr ⟨s, t, rfl, hu, hs⟩
      · rintro (⟨rfl, hu, hlen⟩ | ⟨s, t, rfl, hu, hs⟩)
        · exact ⟨[], l, rfl, hu, closes_nil.mpr hlen⟩
        · exact ⟨x :: s, t, rfl, hu, hs⟩
    rw [hsplit, findMatching]
    simp only [closes_cons]
    by_cases hclose : closes x
    · have hopen : opens x = false := by
        by_contra hopen
        rw [hdisj x (Bool.eq_true_of_not_eq_false hopen)] at hclose
        exact absurd hclose Bool.false_ne_true
      simp only [hclose, hopen, Bool.false_eq_true, if_true, if_false]
      cases pending with
      | nil =>
        simp only [List.length_nil, Option.some_inj]
        constructor
        · rintro rfl
          exact .inl ⟨rfl, hclose, trivial⟩
        · rintro (⟨rfl, -⟩ | ⟨s, t, -, -, hone, -⟩)
          · rfl
          · exact absurd hone (by omega)
      | cons y pending =>
        rw [ih]
        simp
    · have hne : x = u → ¬closes u := by
        rintro rfl
        exact hclose
      simp only [hclose, Bool.false_eq_true, if_false]
      rw [ih]
      have hlen : (if opens x then x :: pending else pending).length =
          pending.length + if opens x then 1 else 0 := by
        split <;> rfl
      rw [hlen]
      constructor
      · rintro ⟨s, t, heq, hu, hs⟩
        exact .inr ⟨s, t, heq, hu, Nat.zero_le _, hs⟩
      · rintro (⟨hx, hu, -⟩ | ⟨s, t, heq, hu, -, hs⟩)
        · exact absurd hu (hne hx)
        · exact ⟨s, t, heq, hu, hs⟩

/-- A list is balanced if and only if its reverse is, with the brackets exchanged. -/
lemma Balanced.reverse {l : List α} (h : Balanced opens closes l) :
    Balanced closes opens l.reverse := by
  have heq := h.eq
  refine ⟨fun s hs => ?_, ?_⟩
  · -- The rest of the list is a prefix.
    obtain ⟨t, ht⟩ := hs
    have hl : l = t.reverse ++ s.reverse := by
      rw [← List.reverse_append, ht, List.reverse_reverse]
    have hle := h.le t.reverse (hl ▸ List.prefix_append _ _)
    rw [hl, List.countP_append, List.countP_append, List.countP_reverse (l := s),
      List.countP_reverse (l := s)] at heq
    omega
  · rw [List.countP_reverse, List.countP_reverse]
    omega

/-- A list is balanced if and only if its reverse is, with the brackets exchanged. -/
lemma Balanced.reverse_iff {l : List α} :
    Balanced closes opens l.reverse ↔ Balanced opens closes l :=
  ⟨fun h => l.reverse_reverse ▸ h.reverse, Balanced.reverse⟩

/-- Where the bracket stands in the list only once, the walk finds it if and only if the list before
it is balanced. -/
lemma findMatching_append (hdisj : ∀ x, opens x → closes x = false) {s t : List α} {u : α}
    (hs : u ∉ s) (ht : u ∉ t) (hu : closes u) :
    findMatching opens closes [] (s ++ u :: t) = some u ↔ Balanced opens closes s := by
  rw [findMatching_eq_some_iff hdisj]
  constructor
  · rintro ⟨s', t', heq, -, hbal⟩
    obtain ⟨rfl, -⟩ := (List.append_cons_inj_of_notMem hs ht).mp heq
    exact hbal
  · exact fun hbal => ⟨s, t, rfl, hu, hbal⟩

/-- **The two walks find each other.** -/
theorem findMatching_comm (hdisj : ∀ x, opens x → closes x = false) {pre mid post : List α}
    {l u : α} (hnodup : (pre ++ l :: (mid ++ u :: post)).Nodup) (hl : opens l) (hu : closes u) :
    findMatching opens closes [] (mid ++ u :: post) = some u ↔
      findMatching closes opens [] (mid.reverse ++ l :: pre.reverse) = some l := by
  have hdisj' : ∀ x, closes x → opens x = false := by
    intro x hx
    by_contra hopen
    rw [hdisj x (Bool.eq_true_of_not_eq_false hopen)] at hx
    exact absurd hx Bool.false_ne_true
  simp only [List.nodup_append, List.nodup_cons, List.mem_append, List.mem_cons] at hnodup
  obtain ⟨-, ⟨hlmid, -, ⟨hupost, -⟩, hmid⟩, hpre⟩ := hnodup
  have humid : u ∉ mid := fun h => hmid u h u (.inl rfl) rfl
  have hlpre : l ∉ pre := fun h => hpre l h l (.inl rfl) rfl
  rw [findMatching_append hdisj humid hupost hu,
    findMatching_append hdisj' (fun h => hlmid (.inl (List.mem_reverse.mp h)))
      (fun h => hlpre (List.mem_reverse.mp h)) hl]
  exact Balanced.reverse_iff.symm

end Matching
