import GenMC.Lib.PartialRun
import Mathlib.Data.List.Count
import Mathlib.Data.List.Nodup
import Mathlib.Data.List.Sort
import Mathlib.Data.Finset.Dedup
import Mathlib.Tactic

/-!
# Weighted draws without replacement

Indices of a list of weights are drawn one by one, and the weight of a drawn index becomes 0.  The
loop stops after a number of rounds or when all weights are 0.  `drawIndices_spec` says what it
returns whatever is drawn: different indices with non-zero weights, and all of them if there are
enough rounds.

The items that are drawn often come from a set; `sortedBy` lists a set in the order of a key.
-/

namespace GenMC

section Sorted

variable {α κ : Type*} [LinearOrder κ] (key : α → κ)

/-- The comparison of two elements by their keys. -/
def KeyLE (a b : α) : Prop := key a ≤ key b

instance : DecidableRel (KeyLE key) := fun a b => inferInstanceAs (Decidable (key a ≤ key b))

instance : Std.Total (KeyLE key) := ⟨fun a b => le_total (key a) (key b)⟩

instance : IsTrans α (KeyLE key) := ⟨fun _ _ _ => le_trans⟩

variable {key}

/-- The elements of a set in the order of their keys. -/
def sortedBy (hkey : Function.Injective key) (s : Finset α) : List α :=
  have : Std.Antisymm (KeyLE key) := ⟨fun _ _ h h' => hkey (le_antisymm h h')⟩
  Quot.liftOn s.val (List.insertionSort (KeyLE key)) fun l l' h =>
    have hperm : (l.insertionSort (KeyLE key)).Perm (l'.insertionSort (KeyLE key)) :=
      (List.perm_insertionSort _ l).trans (h.trans (List.perm_insertionSort _ l').symm)
    hperm.eq_of_pairwise' (List.pairwise_insertionSort _ l) (List.pairwise_insertionSort _ l')

variable (hkey : Function.Injective key) (s : Finset α)

/-- The sorted elements as a multiset. -/
lemma coe_sortedBy : (sortedBy hkey s : Multiset α) = s.val := by
  obtain ⟨⟨l⟩, hl⟩ := s
  exact Multiset.coe_eq_coe.mpr (List.perm_insertionSort _ l)

/-- The elements of the set. -/
@[simp] lemma mem_sortedBy {a : α} : a ∈ sortedBy hkey s ↔ a ∈ s := by
  rw [← Multiset.mem_coe, coe_sortedBy, Finset.mem_val]

/-- Every element is listed once. -/
lemma nodup_sortedBy : (sortedBy hkey s).Nodup := by
  rw [← Multiset.coe_nodup, coe_sortedBy]
  exact s.nodup

end Sorted

section Draws

/-- Draws at most `n` indices of a list of weights; `draw` answers with an index when `n` rounds are
left. -/
def drawIndices (draw : ℕ → List ℤ → ℕ) : ℕ → List ℤ → List ℕ
  | 0, _ => []
  | n + 1, weights =>
    if ∀ w ∈ weights, w = 0 then []
    else draw n weights :: drawIndices draw n (weights.set (draw n weights) 0)

/-- Among non-negative weights that are not all 0, a non-zero one is drawn. -/
def DrawsNonzero (draw : ℕ → List ℤ → ℕ) : Prop :=
  ∀ n weights, (∀ w ∈ weights, 0 ≤ w) → (∃ w ∈ weights, w ≠ 0) →
    ∃ w, weights[draw n weights]? = some w ∧ w ≠ 0

variable {draw : ℕ → List ℤ → ℕ} {n : ℕ} {weights : List ℤ}

/-- The weights that are left after an index has been drawn. -/
lemma getElem?_set_zero_iff {i j : ℕ} {w : ℤ} (hw : w ≠ 0) :
    (weights.set i 0)[j]? = some w ↔ j ≠ i ∧ weights[j]? = some w := by
  rw [List.getElem?_set]
  split
  next heq =>
    refine iff_of_false ?_ fun h => h.1 heq.symm
    split
    · exact fun h => hw (Option.some.inj h).symm
    · exact nofun
  next hne => rw [and_iff_right (Ne.symm hne)]

/-- A drawn weight becomes 0, so that one weight less is non-zero. -/
lemma countP_set_zero {i : ℕ} {w : ℤ} (h : weights[i]? = some w) (hw : w ≠ 0) :
    (weights.set i 0).countP (· ≠ 0) + 1 = weights.countP (· ≠ 0) := by
  induction weights generalizing i with
  | nil => cases h
  | cons v weights ih =>
    cases i with
    | zero =>
      obtain rfl := Option.some.inj h
      rw [List.set_cons_zero, List.countP_cons_of_neg (by simp), List.countP_cons_of_pos (by simpa)]
    | succ i =>
      rw [List.set_cons_succ, List.countP_cons, List.countP_cons, ← ih h]
      omega

/-- Zero weights are not negative. -/
lemma nonneg_set_zero {i : ℕ} (h : ∀ w ∈ weights, 0 ≤ w) : ∀ w ∈ weights.set i 0, 0 ≤ w := by
  intro w hw
  obtain hw | rfl := List.mem_or_eq_of_mem_set hw
  · exact h w hw
  · exact le_refl 0

/-- No more indices are drawn than there are rounds. -/
lemma length_drawIndices_le : (drawIndices draw n weights).length ≤ n := by
  induction n generalizing weights with
  | zero => exact le_refl 0
  | succ n ih =>
    unfold drawIndices
    split
    · exact Nat.zero_le _
    · exact Nat.succ_le_succ ih

/-- A drawn index has a non-zero weight. -/
lemma nonzero_of_mem_drawIndices (hdraw : DrawsNonzero draw) (hw : ∀ w ∈ weights, 0 ≤ w) {i : ℕ}
    (hi : i ∈ drawIndices draw n weights) : ∃ w, weights[i]? = some w ∧ w ≠ 0 := by
  induction n generalizing weights with
  | zero => exact absurd hi List.not_mem_nil
  | succ n ih =>
    unfold drawIndices at hi
    split at hi
    next => exact absurd hi List.not_mem_nil
    next hall =>
      push Not at hall
      obtain rfl | hi := List.mem_cons.mp hi
      · exact hdraw n weights hw hall
      · obtain ⟨w, hget, hne⟩ := ih (nonneg_set_zero hw) hi
        exact ⟨w, ((getElem?_set_zero_iff hne).mp hget).2, hne⟩

/-- No index is drawn twice. -/
lemma nodup_drawIndices (hdraw : DrawsNonzero draw) (hw : ∀ w ∈ weights, 0 ≤ w) :
    (drawIndices draw n weights).Nodup := by
  induction n generalizing weights with
  | zero => exact List.nodup_nil
  | succ n ih =>
    unfold drawIndices
    split
    · exact List.nodup_nil
    · refine List.nodup_cons.mpr ⟨fun hmem => ?_, ih (nonneg_set_zero hw)⟩
      obtain ⟨w, hget, hne⟩ := nonzero_of_mem_drawIndices hdraw (nonneg_set_zero hw) hmem
      exact ((getElem?_set_zero_iff hne).mp hget).1 rfl

/-- With a round for every non-zero weight, all of their indices are drawn. -/
lemma mem_drawIndices (hdraw : DrawsNonzero draw) (hw : ∀ w ∈ weights, 0 ≤ w)
    (hn : weights.countP (· ≠ 0) ≤ n) {i : ℕ} {w : ℤ} (hi : weights[i]? = some w) (hne : w ≠ 0) :
    i ∈ drawIndices draw n weights := by
  have hmem : w ∈ weights := List.mem_of_getElem? hi
  induction n generalizing weights with
  | zero =>
    have hpos : 0 < weights.countP (· ≠ 0) := List.countP_pos_iff.mpr ⟨w, hmem, by simpa⟩
    omega
  | succ n ih =>
    unfold drawIndices
    split
    next hall => exact absurd (hall w hmem) hne
    next hall =>
      push Not at hall
      obtain ⟨v, hv, hvne⟩ := hdraw n weights hw hall
      obtain rfl | hother := eq_or_ne i (draw n weights)
      · exact List.mem_cons_self
      · have hget := (getElem?_set_zero_iff hne).mpr ⟨hother, hi⟩
        have hcount := countP_set_zero hv hvne
        exact List.mem_cons_of_mem _
          (ih (nonneg_set_zero hw) (by omega) hget (List.mem_of_getElem? hget))

/-- **Draws without replacement.**  Whatever is drawn from non-negative weights, at most `n`
indices are returned, all different and with non-zero weights, and no such index is missing if there
are at most `n` of them. -/
theorem drawIndices_spec (hdraw : DrawsNonzero draw) (hw : ∀ w ∈ weights, 0 ≤ w) (n : ℕ) :
    (drawIndices draw n weights).length ≤ n ∧ (drawIndices draw n weights).Nodup ∧
      (∀ i ∈ drawIndices draw n weights, ∃ w, weights[i]? = some w ∧ w ≠ 0) ∧
      (weights.countP (· ≠ 0) ≤ n →
        ∀ i w, weights[i]? = some w → w ≠ 0 → i ∈ drawIndices draw n weights) :=
  ⟨length_drawIndices_le, nodup_drawIndices hdraw hw,
    fun _ hi => nonzero_of_mem_drawIndices hdraw hw hi,
    fun hn _ _ hi hne => mem_drawIndices hdraw hw hn hi hne⟩

/-- **Items that are drawn by their weights.**  Looking up the drawn indices in a list of items
gives different items, at most `n` of them, with non-zero weights, and none is missing if there are
at most `n`. -/
theorem mapM_drawIndices {α τ : Type*} (f : α → τ) {items : List (α × ℤ)}
    (hitems : (items.map Prod.fst).Nodup) (hdraw : DrawsNonzero draw)
    (hw : ∀ item ∈ items, 0 ≤ item.2) (n : ℕ) :
    ∃ drawn : List α, ((drawIndices draw n (items.map Prod.snd)).mapM fun idx =>
        items[idx]?.map fun item => f item.1) = some (drawn.map f) ∧
      drawn.length ≤ n ∧ drawn.Nodup ∧ (∀ a ∈ drawn, ∃ w, (a, w) ∈ items ∧ w ≠ 0) ∧
      ((items.map Prod.snd).countP (· ≠ 0) ≤ n → ∀ a w, (a, w) ∈ items → w ≠ 0 → a ∈ drawn) := by
  have hweights : ∀ w ∈ items.map Prod.snd, 0 ≤ w := by
    intro w hmem
    obtain ⟨item, hitem, rfl⟩ := List.mem_map.mp hmem
    exact hw item hitem
  obtain ⟨hlength, hnodup, hnonzero, hall⟩ := drawIndices_spec hdraw hweights n
  have hlookup : ∀ idx ∈ drawIndices draw n (items.map Prod.snd),
      ∃ item, items[idx]? = some item ∧ item.2 ≠ 0 := by
    intro idx hidx
    obtain ⟨w, hget, hne⟩ := hnonzero idx hidx
    rw [List.getElem?_map] at hget
    obtain ⟨item, hitem, rfl⟩ := Option.map_eq_some_iff.mp hget
    exact ⟨item, hitem, hne⟩
  have hdifferent {i j : ℕ} {a : α} (hi : a ∈ items[i]?.map Prod.fst)
      (hj : a ∈ items[j]?.map Prod.fst) : i = j := by
    rw [← List.getElem?_map, Option.mem_def] at hi hj
    exact (List.getElem?_inj (List.getElem?_eq_some_iff.mp hi).1 hitems).mp (hi.trans hj.symm)
  refine ⟨(drawIndices draw n (items.map Prod.snd)).filterMap fun idx => items[idx]?.map Prod.fst,
    ?_, (List.length_filterMap_le _ _).trans hlength, hnodup.filterMap fun _ _ _ => hdifferent,
    fun a ha => ?_, fun hn a w hmem hne => ?_⟩
  · rw [PartialRun.mapM_eq_some_filterMap fun idx hidx => ?_, List.map_filterMap]
    · simp only [Option.map_map]
      rfl
    · obtain ⟨item, hitem, -⟩ := hlookup idx hidx
      rw [hitem]
      rfl
  · obtain ⟨idx, hidx, hfst⟩ := List.mem_filterMap.mp ha
    obtain ⟨item, hitem, hne⟩ := hlookup idx hidx
    rw [hitem] at hfst
    obtain rfl := Option.some.inj hfst
    exact ⟨item.2, List.mem_of_getElem? hitem, hne⟩
  · obtain ⟨idx, hidx⟩ := List.mem_iff_getElem?.mp hmem
    have hdrawn := hall hn idx w (by rw [List.getElem?_map, hidx]; rfl) hne
    exact List.mem_filterMap.mpr ⟨idx, hdrawn, by rw [hidx]; rfl⟩

end Draws

end GenMC
