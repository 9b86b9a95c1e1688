import Mathlib.Logic.Relation
import Mathlib.Order.WellFoundedSet
import Mathlib.Tactic

/-!
# Acyclic relations and rounds of a round-robin schedule

A finite set has a first and a last element with respect to an acyclic relation
(`Acyclic.exists_first`, `Acyclic.exists_last`).

The second part is about threads that take turns in a fixed order, where an item of a thread has to
wait for its predecessors.  An item cannot run before the round that is counted by `Waits`: the
number of times that a chain of predecessors goes back to an earlier thread.  `Sooner` compares two
items by the round and the thread in which they run.
-/

namespace GenMC

variable {α ι : Type*}

/-- No element comes before itself. -/
def Acyclic (r : α → α → Prop) : Prop := ∀ a, ¬Relation.TransGen r a a

namespace Acyclic

variable {r : α → α → Prop}

/-- A relation along which a number grows is acyclic. -/
lemma of_rank (f : α → ℕ) (h : ∀ a b, r a b → f a < f b) : Acyclic r := by
  have hlt : ∀ a b, Relation.TransGen r a b → f a < f b := by
    intro a b hab
    induction hab with
    | single hab => exact h _ _ hab
    | tail _ hbc ih => exact ih.trans (h _ _ hbc)
  exact fun a ha => lt_irrefl _ (hlt a a ha)

/-- The reverse of an acyclic relation is acyclic. -/
lemma swap (h : Acyclic r) : Acyclic (Function.swap r) := by
  intro a ha
  exact h a (Relation.transGen_swap.mp ha)

/-- An element is not related to itself. -/
lemma irrefl (h : Acyclic r) (a : α) : ¬r a a := fun ha => h a (.single ha)

/-- Two elements are not related both ways. -/
lemma asymm (h : Acyclic r) {a b : α} (hab : r a b) : ¬r b a := fun hba =>
  h a (.tail (.single hab) hba)

/-- A finite set has an element without predecessors in it. -/
theorem exists_first (h : Acyclic r) {s : Set α} (hfin : s.Finite) (hne : s.Nonempty) :
    ∃ a ∈ s, ∀ b ∈ s, ¬r b a := by
  have horder : IsStrictOrder α (Relation.TransGen r) :=
    { irrefl := h, trans := fun _ _ _ => .trans }
  obtain ⟨a, ha, hmin⟩ := hfin.wellFoundedOn (r := Relation.TransGen r) |>.has_min
    (s := {a : s | True}) ⟨⟨hne.some, hne.some_mem⟩, trivial⟩
  exact ⟨a, a.2, fun b hb hba => hmin ⟨b, hb⟩ trivial (.single hba)⟩

/-- A finite set has an element without successors in it. -/
theorem exists_last (h : Acyclic r) {s : Set α} (hfin : s.Finite) (hne : s.Nonempty) :
    ∃ a ∈ s, ∀ b ∈ s, ¬r a b :=
  h.swap.exists_first hfin hne

end Acyclic

/-! ## Rounds -/

section Rounds

variable [LinearOrder ι] {pred : α → α → Prop} {thread : α → ι} {a b c : α} {k l : ℕ}

/-- A chain of predecessors of the item goes back to an earlier thread at least `k` times. -/
inductive Waits (pred : α → α → Prop) (thread : α → ι) : ℕ → α → Prop
  /-- Every item waits for the first round. -/
  | start (a : α) : Waits pred thread 0 a
  /-- An item waits as long as its predecessors do, and a round longer if they run later in it. -/
  | next {a b : α} {k : ℕ} : pred a b → Waits pred thread k a →
      Waits pred thread (if thread b < thread a then k + 1 else k) b

namespace Waits

/-- Waiting for a round means waiting for the one before. -/
lemma of_succ (h : Waits pred thread (k + 1) a) : Waits pred thread k a := by
  generalize hl : k + 1 = l at h
  induction h generalizing k with
  | start => omega
  | @next a b m hab ha ih =>
    split at hl
    next hlt =>
      obtain rfl := Nat.succ_injective hl
      cases k with
      | zero => exact .start b
      | succ k =>
        have hb := Waits.next hab (ih rfl)
        rwa [if_pos hlt] at hb
    next hge =>
      have hb := Waits.next hab (ih hl)
      rwa [if_neg hge] at hb

/-- Waiting for a round means waiting for all rounds before. -/
lemma of_le (h : Waits pred thread l a) (hkl : k ≤ l) : Waits pred thread k a := by
  induction hkl with
  | refl => exact h
  | step _ ih => exact ih h.of_succ

/-- What an item waits for beyond the first round. -/
lemma succ_iff : Waits pred thread (k + 1) b ↔
    ∃ a, pred a b ∧ Waits pred thread (if thread b < thread a then k else k + 1) a := by
  constructor
  · intro h
    obtain ⟨l, hl⟩ : ∃ l, l = k + 1 := ⟨_, rfl⟩
    rw [← hl] at h
    cases h with
    | start => omega
    | @next a _ m hab ha =>
      refine ⟨a, hab, ?_⟩
      split at hl
      next hlt =>
        rw [if_pos hlt]
        exact Nat.succ_injective hl ▸ ha
      next hge =>
        rw [if_neg hge]
        exact hl ▸ ha
  · rintro ⟨a, hab, ha⟩
    have hb := Waits.next hab ha
    split at hb <;> exact hb

/-- An item waits as long as the items at the other end of its chains do. -/
lemma transGen (hab : Relation.TransGen pred a b) (ha : Waits pred thread k a) :
    Waits pred thread (if thread b < thread a then k + 1 else k) b := by
  induction hab with
  | single hab => exact .next hab ha
  | @tail b c _ hbc ih =>
    refine of_le (.next hbc ih) ?_
    by_cases hca : thread c < thread a
    · rw [if_pos hca]
      by_cases hba : thread b < thread a
      · rw [if_pos hba]
        split <;> omega
      · rw [if_neg hba, if_pos (lt_of_lt_of_le hca (not_lt.mp hba))]
    · rw [if_neg hca]
      split <;> split <;> omega

end Waits

/-- The first item does not run later than the second: in an earlier round, or in the same round
and an earlier thread. -/
def Sooner (pred : α → α → Prop) (thread : α → ι) (a b : α) : Prop :=
  ∀ k, Waits pred thread k a → Waits pred thread (if thread b < thread a then k + 1 else k) b

/-- The ends of a chain run in this order. -/
lemma sooner_of_transGen (h : Relation.TransGen pred a b) : Sooner pred thread a b :=
  fun _ => Waits.transGen h

/-- Two items of different threads do not both run sooner than the other, if the first one runs at
all. -/
lemma Sooner.asymm (hab : Sooner pred thread a b) (hne : thread a ≠ thread b)
    (hk : ¬Waits pred thread k a) : ¬Sooner pred thread b a := by
  intro hba
  -- every round that `a` waits for leads to the next one
  have hstep : ∀ m, Waits pred thread m a → Waits pred thread (m + 1) a := by
    intro m hm
    rcases lt_or_gt_of_ne hne with hlt | hlt
    · have hb := hab m hm
      rw [if_neg hlt.not_gt] at hb
      have ha := hba m hb
      rwa [if_pos hlt] at ha
    · have hb := hab m hm
      rw [if_pos hlt] at hb
      have ha := hba (m + 1) hb
      rwa [if_neg hlt.not_gt] at ha
  refine hk ?_
  induction k with
  | zero => exact .start a
  | succ k ih => exact hstep k (by_contra fun h => hk (hstep k (ih h)))

end Rounds

end GenMC
