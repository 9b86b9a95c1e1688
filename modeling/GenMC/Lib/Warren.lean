import Mathlib.Logic.Relation
import Mathlib.Data.List.Range
import Mathlib.Tactic

/-!
# Transitive closure row by row

Warren's algorithm computes the transitive closure of a relation on the numbers below `n` in place.
A row is replaced by its union with the row of an entry of it.  The first pass visits the entries
before the diagonal, from the first row on; the second pass those behind it.

`Via R K` is reachability along numbers below `K` (the ends may be larger).  After the first pass
a row has everything that is reachable along numbers below its own.  In the second pass the bound
grows with the visited entry, up to `n`.
-/

namespace GenMC

section

variable {R : ℕ → ℕ → Prop} {i k K a b : ℕ}

/-- A path of which all inner nodes are below `K`. -/
inductive Via (R : ℕ → ℕ → Prop) (K : ℕ) : ℕ → ℕ → Prop
  | edge {a b : ℕ} : R a b → Via R K a b
  | cons {a c b : ℕ} : R a c → c < K → Via R K c b → Via R K a b

/-- No inner nodes are left. -/
lemma Via.of_zero (h : Via R 0 a b) : R a b := by
  cases h with
  | edge h => exact h
  | cons _ hlt _ => exact absurd hlt (Nat.not_lt_zero _)

/-- **The cut.**  A path along numbers up to `K` avoids `K`, or it goes to `K` and from `K` on
along smaller numbers. -/
lemma Via.cut (h : Via R (K + 1) a b) : Via R K a b ∨ (Via R K a K ∧ Via R K K b) := by
  induction h with
  | edge h => exact .inl (.edge h)
  | cons hac hlt _ ih =>
    obtain hlt | rfl := Nat.lt_succ_iff_lt_or_eq.mp hlt
    · obtain hcb | ⟨hcK, hKb⟩ := ih
      · exact .inl (.cons hac hlt hcb)
      · exact .inr ⟨.cons hac hlt hcK, hKb⟩
    · obtain hcb | ⟨-, hKb⟩ := ih
      · exact .inr ⟨.edge hac, hcb⟩
      · exact .inr ⟨.edge hac, hKb⟩

/-- Every path goes along numbers below `n` if the relation does. -/
lemma via_of_transGen {n : ℕ} (hR : ∀ a b, R a b → a < n) (h : Relation.TransGen R a b) :
    Via R n a b := by
  induction h using Relation.TransGen.head_induction_on with
  | single h => exact .edge h
  | head hac hcb ih =>
    obtain ⟨d, hcd, -⟩ := Relation.TransGen.head'_iff.mp hcb
    exact .cons hac (hR _ _ hcd) ih

/-! ### The algorithm -/

/-- If there is an entry at `i` and `k`, the row of `k` is added to that of `i`. -/
def addRow (r : ℕ → ℕ → Prop) (i k : ℕ) : ℕ → ℕ → Prop :=
  fun a b => r a b ∨ (a = i ∧ r i k ∧ r k b)

/-- The entries of a row are visited. -/
def addRows (i : ℕ) (ks : List ℕ) (r : ℕ → ℕ → Prop) : ℕ → ℕ → Prop :=
  ks.foldl (fun r k => addRow r i k) r

/-- The first pass: entries before the diagonal. -/
def passBelow (n : ℕ) (r : ℕ → ℕ → Prop) : ℕ → ℕ → Prop :=
  (List.range' 1 (n - 1)).foldl (fun r i => addRows i (List.range i) r) r

/-- The second pass: entries behind the diagonal. -/
def passAbove (n : ℕ) (r : ℕ → ℕ → Prop) : ℕ → ℕ → Prop :=
  (List.range (n - 1)).foldl (fun r i => addRows i (List.range' (i + 1) (n - (i + 1))) r) r

/-- Warren's algorithm. -/
def warren (n : ℕ) (r : ℕ → ℕ → Prop) : ℕ → ℕ → Prop := passAbove n (passBelow n r)

/-- A relation between the given one and its closure. -/
def Between (R r : ℕ → ℕ → Prop) : Prop :=
  (∀ a b, R a b → r a b) ∧ ∀ a b, r a b → Relation.TransGen R a b

variable {r : ℕ → ℕ → Prop}

lemma le_addRow (i k : ℕ) : r ≤ addRow r i k := fun _ _ => .inl

lemma Between.addRow (h : Between R r) (i k : ℕ) : Between R (addRow r i k) := by
  refine ⟨fun a b hab => .inl (h.1 a b hab), fun a b hab => ?_⟩
  obtain hab | ⟨rfl, hik, hkb⟩ := hab
  · exact h.2 a b hab
  · exact (h.2 _ _ hik).trans (h.2 _ _ hkb)

lemma le_addRows (i : ℕ) (ks : List ℕ) (r : ℕ → ℕ → Prop) : r ≤ addRows i ks r := by
  induction ks generalizing r with
  | nil => exact le_rfl
  | cons k ks ih => exact (le_addRow i k).trans (ih _)

lemma Between.addRows (h : Between R r) (i : ℕ) (ks : List ℕ) : Between R (addRows i ks r) := by
  induction ks generalizing r with
  | nil => exact h
  | cons k ks ih => exact ih (h.addRow i k)

/-- What a pass does to the rows that it visits, one after the other: nothing gets lost. -/
lemma Between.pass (h : Between R r) (ks : ℕ → List ℕ) (rows : List ℕ) :
    Between R (rows.foldl (fun r i => GenMC.addRows i (ks i) r) r) ∧
      r ≤ rows.foldl (fun r i => GenMC.addRows i (ks i) r) r := by
  induction rows generalizing r with
  | nil => exact ⟨h, le_rfl⟩
  | cons i rows ih =>
    obtain ⟨hbetween, hle⟩ := ih (h.addRows i (ks i))
    exact ⟨hbetween, (le_addRows i (ks i) r).trans hle⟩

/-- A row reaches what is reachable along numbers below `K`. -/
def Reaches (R r : ℕ → ℕ → Prop) (K i : ℕ) : Prop := ∀ b, Via R K i b → r i b

lemma Reaches.mono {r' : ℕ → ℕ → Prop} (h : Reaches R r K i) (hle : r ≤ r') : Reaches R r' K i :=
  fun b hb => hle i b (h b hb)

/-- **One step**: with the row of `K`, a row reaches what is reachable along numbers up to `K`. -/
lemma Reaches.addRow (hi : Reaches R r K i) (hK : Reaches R r K K) :
    Reaches R (addRow r i K) (K + 1) i := by
  intro b hb
  obtain hb | ⟨hiK, hKb⟩ := hb.cut
  · exact .inl (hi b hb)
  · exact .inr ⟨rfl, hi K hiK, hK b hKb⟩

/-- **A row.**  Visiting the entries from `K` on raises the bound by their number, if every visited
row has its own part. -/
lemma Reaches.addRows (hi : Reaches R r K i) (len : ℕ)
    (hrows : ∀ k, K ≤ k → k < K + len → Reaches R r k k) :
    Reaches R (addRows i (List.range' K len) r) (K + len) i := by
  induction len generalizing K r with
  | zero => exact hi
  | succ len ih =>
    have hstep := hi.addRow (hrows K le_rfl (by omega))
    rw [List.range'_succ, GenMC.addRows, List.foldl_cons, show K + (len + 1) = K + 1 + len by omega]
    exact ih hstep fun k hk hlt => (hrows k (by omega) (by omega)).mono (le_addRow i K)

/-- Every row reaches itself without inner nodes. -/
lemma Between.reaches_zero (h : Between R r) (i : ℕ) : Reaches R r 0 i :=
  fun b hb => h.1 i b hb.of_zero

/-- **After the first pass** a row reaches what is reachable along smaller numbers. -/
lemma reaches_passBelow (n : ℕ) (h : Between R r) {i : ℕ} (hi : i < n) :
    Reaches R (passBelow n r) i i := by
  have hpass : ∀ len, ∀ i < 1 + len, Reaches R ((List.range' 1 len).foldl
      (fun r i => GenMC.addRows i (List.range i) r) r) i i := by
    intro len
    induction len with
    | zero =>
      intro i hi
      obtain rfl : i = 0 := by omega
      exact h.reaches_zero 0
    | succ len ih =>
      intro i hi
      rw [List.range'_concat, List.foldl_append, List.foldl_cons, List.foldl_nil, Nat.one_mul]
      obtain ⟨hbetween, -⟩ := h.pass List.range (List.range' 1 len)
      obtain hlt | rfl := Nat.lt_succ_iff_lt_or_eq.mp (show i < (1 + len) + 1 by omega)
      · exact (ih i hlt).mono (le_addRows _ _ _)
      · -- the row itself: all smaller rows are done
        rw [List.range_eq_range']
        have hrow := Reaches.addRows (hbetween.reaches_zero (1 + len)) (1 + len)
          fun k _ hk => ih k (by omega)
        rwa [Nat.zero_add] at hrow
  exact hpass (n - 1) i (by omega)

/-- **After the second pass** a row reaches what is reachable. -/
lemma reaches_passAbove (n : ℕ) (h : Between R r) (hrows : ∀ i < n, Reaches R r i i) {i : ℕ}
    (hi : i < n) : Reaches R (passAbove n r) n i := by
  -- the part of a row, with the numbers up to its own
  have hself : ∀ r', r ≤ r' → ∀ i < n, Reaches R r' (i + 1) i := by
    intro r' hle i hi b hb
    obtain hb | ⟨-, hb⟩ := hb.cut
    all_goals exact hle i b (hrows i hi b hb)
  have hpass : ∀ len, len ≤ n → ∀ i < len, Reaches R ((List.range len).foldl
      (fun r i => GenMC.addRows i (List.range' (i + 1) (n - (i + 1))) r) r) n i := by
    intro len
    induction len with
    | zero => exact fun _ i hi => absurd hi (Nat.not_lt_zero i)
    | succ len ih =>
      intro hlen i hi
      rw [List.range_succ, List.foldl_append, List.foldl_cons, List.foldl_nil]
      obtain ⟨-, hle⟩ := h.pass (fun i => List.range' (i + 1) (n - (i + 1))) (List.range len)
      obtain hlt | rfl := Nat.lt_succ_iff_lt_or_eq.mp hi
      · exact (ih (by omega) i hlt).mono (le_addRows _ _ _)
      · have hrow := Reaches.addRows (hself _ hle i hlen) (n - (i + 1))
          fun k _ hk => (hrows k (by omega)).mono hle
        rwa [show i + 1 + (n - (i + 1)) = n by omega] at hrow
  obtain hlt | hlast := Nat.lt_or_ge i (n - 1)
  · exact hpass (n - 1) (by omega) i hlt
  · -- the last row has no entries behind the diagonal, and the pass leaves it out
    obtain ⟨-, hle⟩ := h.pass (fun i => List.range' (i + 1) (n - (i + 1)))
      (List.range (n - 1))
    have hrow := hself _ hle i hi
    rwa [show i + 1 = n by omega] at hrow

/-- **The algorithm computes the transitive closure** of a relation on the numbers below `n`. -/
theorem warren_iff_transGen {n : ℕ} (hR : ∀ a b, R a b → a < n) (a b : ℕ) :
    warren n R a b ↔ Relation.TransGen R a b := by
  have hbetween : Between R R := ⟨fun _ _ => id, fun _ _ => .single⟩
  obtain ⟨hbelow, -⟩ := hbetween.pass List.range (List.range' 1 (n - 1))
  obtain ⟨habove, -⟩ := hbelow.pass (fun i => List.range' (i + 1) (n - (i + 1)))
    (List.range (n - 1))
  refine ⟨habove.2 a b, fun h => ?_⟩
  obtain ⟨c, hac, -⟩ := Relation.TransGen.head'_iff.mp h
  exact reaches_passAbove n hbelow (fun i hi => reaches_passBelow n hbetween hi) (hR a c hac) b
    (via_of_transGen hR h)

end

end GenMC
