import Mathlib.Order.Bounds.Basic
import Mathlib.Tactic

/-!
# Deciding a bound and computing a minimum

Two loops over the alternatives of a search, of which only the candidates count: `anyBranch` looks
for a candidate on which a test succeeds, `leastBranch` computes the least cost of a candidate.  If
the test is whether the cost lies within a bound, the two loops agree (`anyBranch_eq`).  Neither has
a result if there are no candidates.
-/

namespace GenMC

variable {ι : Type*} {candidate branch : ι → Option Bool} {cost : ι → Option ℕ}

/-- Whether the test succeeds on a candidate; it is a bug if there are none.  The flag says whether
there has been one. -/
def anyBranch (candidate branch : ι → Option Bool) : List ι → Bool → Option Bool
  | [], found => if found then some false else none
  | i :: is, found => do
    if ← candidate i then
      if ← branch i then return true else anyBranch candidate branch is true
    else anyBranch candidate branch is found

/-- The least cost of a candidate, given the one of the candidates before. -/
def leastBranch (candidate : ι → Option Bool) (cost : ι → Option ℕ) :
    List ι → Option ℕ → Option ℕ
  | [], res => res
  | i :: is, res => do
    if ← candidate i then
      let b ← cost i
      leastBranch candidate cost is (some ((res.map fun r => min r b).getD b))
    else leastBranch candidate cost is res

/-- What is assumed of the alternatives: it is known of each whether it is a candidate, and the
candidates have costs. -/
def Costs (candidate : ι → Option Bool) (cost : ι → Option ℕ) (is : List ι) : Prop :=
  ∀ i ∈ is, ∃ b, candidate i = some b ∧ (b = true → ∃ c, cost i = some c)

/-- The least cost after a loop that starts with a result. -/
lemma leastBranch_some {is : List ι} (h : Costs candidate cost is) (r : ℕ) :
    ∃ n, leastBranch candidate cost is (some r) = some n ∧
      IsLeast {c | c = r ∨ ∃ i ∈ is, candidate i = some true ∧ cost i = some c} n := by
  induction is generalizing r with
  | nil =>
    refine ⟨r, rfl, .inl rfl, fun c hc => ?_⟩
    rcases hc with rfl | ⟨i, hi, -⟩
    · exact le_rfl
    · exact absurd hi List.not_mem_nil
  | cons i is ih =>
    obtain ⟨b, hb, hcost⟩ := h i List.mem_cons_self
    have hrest : Costs candidate cost is := fun j hj => h j (List.mem_cons_of_mem i hj)
    cases b with
    | true =>
      obtain ⟨c, hc⟩ := hcost rfl
      obtain ⟨n, hn, hmem, hle⟩ := ih hrest (min r c)
      refine ⟨n, ?_, ?_, ?_⟩
      · simp only [leastBranch, hb, hc, Option.bind_eq_bind, Option.bind_some, if_true,
          Option.map_some, Option.getD_some, hn]
      · rcases hmem with rfl | ⟨j, hj, hcand, hj'⟩
        · rcases min_choice r c with heq | heq
          · exact .inl heq
          · exact .inr ⟨i, List.mem_cons_self, hb, by rw [heq, hc]⟩
        · exact .inr ⟨j, List.mem_cons_of_mem i hj, hcand, hj'⟩
      · have hmin : n ≤ min r c := hle (.inl rfl)
        rintro c' (rfl | ⟨j, hj, hcand, hj'⟩)
        · exact hmin.trans (min_le_left _ _)
        · rcases List.mem_cons.mp hj with rfl | hj
          · obtain rfl := Option.some.inj (hc.symm.trans hj')
            exact hmin.trans (min_le_right _ _)
          · exact hle (.inr ⟨j, hj, hcand, hj'⟩)
    | false =>
      obtain ⟨n, hn, hmem, hle⟩ := ih hrest r
      refine ⟨n, ?_, ?_, ?_⟩
      · simp only [leastBranch, hb, Option.bind_eq_bind, Option.bind_some, Bool.false_eq_true,
          if_false, hn]
      · rcases hmem with rfl | ⟨j, hj, hcand, hj'⟩
        · exact .inl rfl
        · exact .inr ⟨j, List.mem_cons_of_mem i hj, hcand, hj'⟩
      · rintro c' (rfl | ⟨j, hj, hcand, hj'⟩)
        · exact hle (.inl rfl)
        · rcases List.mem_cons.mp hj with rfl | hj
          · rw [hb] at hcand
            cases hcand
          · exact hle (.inr ⟨j, hj, hcand, hj'⟩)

/-- **The least cost** of the candidates, if there are any. -/
theorem leastBranch_isLeast {is : List ι} (h : Costs candidate cost is)
    (hne : ∃ i ∈ is, candidate i = some true) : ∃ n, leastBranch candidate cost is none = some n ∧
      IsLeast {c | ∃ i ∈ is, candidate i = some true ∧ cost i = some c} n := by
  induction is with
  | nil =>
    obtain ⟨i, hi, -⟩ := hne
    exact absurd hi List.not_mem_nil
  | cons i is ih =>
    obtain ⟨b, hb, hcost⟩ := h i List.mem_cons_self
    have hrest : Costs candidate cost is := fun j hj => h j (List.mem_cons_of_mem i hj)
    cases b with
    | true =>
      obtain ⟨c, hc⟩ := hcost rfl
      obtain ⟨n, hn, hleast⟩ := leastBranch_some hrest c
      have hset : {c' | ∃ j ∈ i :: is, candidate j = some true ∧ cost j = some c'} =
          {c' | c' = c ∨ ∃ j ∈ is, candidate j = some true ∧ cost j = some c'} := by
        ext c'
        simp [hb, hc, eq_comm]
      refine ⟨n, ?_, hset ▸ hleast⟩
      simp only [leastBranch, hb, hc, Option.bind_eq_bind, Option.bind_some, if_true,
        Option.map_none, Option.getD_none, hn]
    | false =>
      have hset : {c' | ∃ j ∈ i :: is, candidate j = some true ∧ cost j = some c'} =
          {c' | ∃ j ∈ is, candidate j = some true ∧ cost j = some c'} := by
        ext c'
        simp [hb]
      obtain ⟨n, hn, hleast⟩ := ih hrest (by
        obtain ⟨j, hj, hcand⟩ := hne
        rcases List.mem_cons.mp hj with rfl | hj
        · rw [hb] at hcand
          cases hcand
        · exact ⟨j, hj, hcand⟩)
      refine ⟨n, ?_, hset ▸ hleast⟩
      simp only [leastBranch, hb, Option.bind_eq_bind, Option.bind_some, Bool.false_eq_true,
        if_false, hn]

/-- A least cost is that of a candidate. -/
lemma exists_candidate_of_leastBranch {is : List ι} {n : ℕ}
    (h : leastBranch candidate cost is none = some n) : ∃ i ∈ is, candidate i = some true := by
  induction is with
  | nil => cases h
  | cons i is ih =>
    obtain ⟨b, hb, h⟩ := Option.bind_eq_some_iff.mp h
    cases b with
    | true => exact ⟨i, List.mem_cons_self, hb⟩
    | false =>
      obtain ⟨j, hj, hcand⟩ := ih h
      exact ⟨j, List.mem_cons_of_mem i hj, hcand⟩

/-- **The two loops agree**: the test whether the cost of a candidate lies within the bound succeeds
on one of them iff the least cost does. -/
theorem anyBranch_eq {bound : ℕ} {is : List ι} (h : Costs candidate cost is)
    (hbranch : ∀ i ∈ is, candidate i = some true →
      branch i = (cost i).map fun c => decide (c ≤ bound)) (res : Option ℕ)
    (hres : ∀ r ∈ res, bound < r) : anyBranch candidate branch is res.isSome =
      (leastBranch candidate cost is res).map fun c => decide (c ≤ bound) := by
  induction is generalizing res with
  | nil =>
    cases res with
    | none => rfl
    | some r =>
      have hlt := hres r rfl
      simp only [anyBranch, leastBranch, Option.isSome_some, if_true, Option.map_some]
      rw [decide_eq_false (not_le.mpr hlt)]
  | cons i is ih =>
    obtain ⟨b, hb, hcost⟩ := h i List.mem_cons_self
    have hrest : Costs candidate cost is := fun j hj => h j (List.mem_cons_of_mem i hj)
    have hrestBranch := fun j hj => hbranch j (List.mem_cons_of_mem i hj)
    cases b with
    | true =>
      obtain ⟨c, hc⟩ := hcost rfl
      have hbr := hbranch i List.mem_cons_self hb
      rw [hc, Option.map_some] at hbr
      simp only [anyBranch, leastBranch, hb, hbr, hc, Option.bind_eq_bind, Option.bind_some,
        if_true]
      have hle : (res.map fun r => min r c).getD c ≤ c := by
        cases res with
        | none => exact le_rfl
        | some r => exact min_le_right r c
      by_cases hcb : c ≤ bound
      · -- the first candidate within the bound ends the search
        obtain ⟨n, hn, hleast⟩ := leastBranch_some hrest ((res.map fun r => min r c).getD c)
        have hnb : n ≤ bound := (hleast.2 (.inl rfl)).trans (hle.trans hcb)
        rw [decide_eq_true hcb, if_pos rfl, hn, Option.map_some, decide_eq_true hnb]
        rfl
      · rw [decide_eq_false hcb, if_neg Bool.false_ne_true]
        refine ih hrest hrestBranch (some ((res.map fun r => min r c).getD c)) fun r hr => ?_
        obtain rfl := Option.some.inj hr
        cases hr' : res with
        | none => exact not_le.mp hcb
        | some r' => exact lt_min (hres r' hr') (not_le.mp hcb)
    | false =>
      simp only [anyBranch, leastBranch, hb, Option.bind_eq_bind, Option.bind_some,
        Bool.false_eq_true, if_false]
      exact ih hrest hrestBranch res hres

end GenMC
