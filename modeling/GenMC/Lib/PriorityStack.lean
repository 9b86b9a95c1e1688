import Mathlib.Data.List.Basic
import Mathlib.Data.List.Perm.Basic
import Mathlib.Order.Basic
import Mathlib.Tactic

/-!
# Priority stacks

What a worklist with priorities is for: the pending items are kept in the order in which they were
added, and the next item is the last one added among those of the highest priority.  An
implementation keeps one bucket per priority; `IsNext.of_bucket` says that taking the last item of
the highest bucket that has one takes the next item.
-/

namespace GenMC

namespace PriorityStack

variable {κ α : Type*} [LinearOrder κ]

/-- `x` is the next item of `pending`, and `rest` is what stays: no pending item has a higher
priority, and none of the same priority was added later. -/
def IsNext (pending : List (κ × α)) (x : κ × α) (rest : List (κ × α)) : Prop :=
  ∃ older younger, pending = older ++ x :: younger ∧ rest = older ++ younger ∧
    (∀ y ∈ pending, y.1 ≤ x.1) ∧ ∀ y ∈ younger, y.1 ≠ x.1

/-- The pending items of one priority, in the order in which they were added. -/
def bucket (pending : List (κ × α)) (k : κ) : List α :=
  (pending.filter fun y => decide (y.1 = k)).map Prod.snd

/-- The next item leaves the pending items, and nothing else does. -/
lemma IsNext.perm {pending rest : List (κ × α)} {x : κ × α} (h : IsNext pending x rest) :
    pending.Perm (x :: rest) := by
  obtain ⟨older, younger, rfl, rfl, -⟩ := h
  exact List.perm_middle

/-- Adding an item puts it at the end of its bucket. -/
lemma bucket_concat (pending : List (κ × α)) (x : κ × α) (k : κ) :
    bucket (pending ++ [x]) k =
      if k = x.1 then bucket pending k ++ [x.2] else bucket pending k := by
  unfold bucket
  by_cases hk : k = x.1
  · simp [hk]
  · simp [hk, Ne.symm hk]

/-- A pending item is in the bucket of its priority. -/
lemma mem_bucket {pending : List (κ × α)} {k : κ} {a : α} :
    a ∈ bucket pending k ↔ (k, a) ∈ pending := by
  unfold bucket
  constructor
  · intro h
    obtain ⟨⟨k', a'⟩, hy, rfl⟩ := List.mem_map.mp h
    obtain ⟨hmem, hk⟩ := List.mem_filter.mp hy
    rw [decide_eq_true_eq] at hk
    exact hk ▸ hmem
  · intro h
    exact List.mem_map.mpr ⟨(k, a), List.mem_filter.mpr ⟨h, decide_eq_true rfl⟩, rfl⟩

/-- Without items there is nothing pending. -/
lemma eq_nil_of_bucket {pending : List (κ × α)} (h : ∀ k, bucket pending k = []) :
    pending = [] := by
  refine List.eq_nil_iff_forall_not_mem.mpr fun y hy => ?_
  have hmem := mem_bucket.mpr hy
  rw [h y.1] at hmem
  exact List.not_mem_nil hmem

/-- The last item of a bucket stands behind all pending items of its priority. -/
lemma exists_last_of_bucket {pending : List (κ × α)} {k : κ} {as : List α} {a : α}
    (h : bucket pending k = as ++ [a]) :
    ∃ older younger, pending = older ++ (k, a) :: younger ∧ (∀ y ∈ younger, y.1 ≠ k) ∧
      bucket older k = as := by
  induction pending using List.reverseRecOn with
  | nil =>
    have hnil : as ++ [a] = [] := h.symm
    exact absurd hnil (List.append_ne_nil_of_right_ne_nil _ (List.cons_ne_nil a []))
  | append_singleton pending x ih =>
    rw [bucket_concat] at h
    by_cases hk : k = x.1
    · rw [if_pos hk] at h
      obtain ⟨has, ha⟩ := List.append_inj' h rfl
      have hx : x = (k, a) := Prod.ext hk.symm (List.singleton_injective ha)
      exact ⟨pending, [], by rw [hx], by simp, has⟩
    · rw [if_neg hk] at h
      obtain ⟨older, younger, heq, hne, has⟩ := ih h
      refine ⟨older, younger ++ [x], ?_, fun y hy => ?_, has⟩
      · rw [heq, List.append_assoc, List.cons_append]
      · rcases List.mem_append.mp hy with hy | hy
        · exact hne y hy
        · rw [List.mem_singleton.mp hy]
          exact Ne.symm hk

/-- **Buckets implement a priority stack.**  The last item of the highest bucket is the next one;
what stays has that bucket without its last item, and the other buckets as they were. -/
theorem IsNext.of_bucket {pending : List (κ × α)} {k : κ} {as : List α} {a : α}
    (h : bucket pending k = as ++ [a]) (hmax : ∀ k', bucket pending k' ≠ [] → k' ≤ k) :
    ∃ rest, IsNext pending (k, a) rest ∧
      ∀ k', bucket rest k' = if k' = k then as else bucket pending k' := by
  obtain ⟨older, younger, heq, hne, has⟩ := exists_last_of_bucket h
  have hle : ∀ y ∈ pending, y.1 ≤ k := fun y hy =>
    hmax y.1 (List.ne_nil_of_mem (mem_bucket.mpr hy))
  refine ⟨older ++ younger, ⟨older, younger, heq, rfl, hle, hne⟩, fun k' => ?_⟩
  have hyounger : (younger.filter fun y => decide (y.1 = k)) = [] :=
    List.filter_eq_nil_iff.mpr fun y hy => by simpa using hne y hy
  subst heq
  unfold bucket at has ⊢
  split
  · next hk =>
    subst hk
    rw [List.filter_append, hyounger, List.append_nil, has]
  · next hk =>
    simp [Ne.symm hk]

end PriorityStack

end GenMC
