import Mathlib.Data.List.Basic
import Mathlib.Logic.Relation

/-!
# Simple paths

A search that does not enter a node twice on one path follows the simple paths of a graph.  What it
looks for is reached by a simple path if it is reached at all: the part of a path after the last
visit of its first node avoids this node (`simplyReaches_nil`).
-/

namespace GenMC

namespace SimplePaths

variable {α : Type*} (r : α → α → Prop) (P : α → Prop)

/-- A simple path outside of a list of nodes that ends at a node with a property. -/
inductive SimplyReaches : List α → α → Prop
  | here {chain a} : a ∉ chain → P a → SimplyReaches chain a
  | step {chain a b} : a ∉ chain → r a b → SimplyReaches (a :: chain) b → SimplyReaches chain a

/-- A path outside of a list of nodes, of a given length. -/
inductive Leads (chain : List α) : ℕ → α → Prop
  | here {a} : a ∉ chain → P a → Leads chain 0 a
  | step {n a b} : a ∉ chain → r a b → Leads chain n b → Leads chain (n + 1) a

variable {r P}

lemma Leads.notMem {chain : List α} {n : ℕ} {a : α} (h : Leads r P chain n a) : a ∉ chain := by
  cases h with
  | here ha _ => exact ha
  | step ha _ _ => exact ha

/-- A path either avoids a node or has a last visit of it. -/
lemma Leads.avoid {chain : List α} {n : ℕ} {x : α} (h : Leads r P chain n x) (a : α) :
    Leads r P (a :: chain) n x ∨ P a ∨ ∃ b, ∃ m < n, r a b ∧ Leads r P (a :: chain) m b := by
  induction h with
  | @here x hx hP =>
    by_cases hxa : x = a
    · exact Or.inr (Or.inl (hxa ▸ hP))
    · exact Or.inl (.here (List.not_mem_cons_of_ne_of_not_mem hxa hx) hP)
  | @step n x b hx hr hb ih =>
    rcases ih with ih | hP | ⟨c, m, hm, hc, hlead⟩
    · by_cases hxa : x = a
      · exact Or.inr (Or.inr ⟨b, n, Nat.lt_succ_self n, hxa ▸ hr, ih⟩)
      · exact Or.inl (.step (List.not_mem_cons_of_ne_of_not_mem hxa hx) hr ih)
    · exact Or.inr (Or.inl hP)
    · exact Or.inr (Or.inr ⟨c, m, by omega, hc, hlead⟩)

/-- By induction on the length: the rest of the path after the last visit of its first node is
shorter. -/
lemma Leads.simplyReaches {chain : List α} {n : ℕ} {a : α} (h : Leads r P chain n a) :
    SimplyReaches r P chain a := by
  induction n using Nat.strongRecOn generalizing chain a with
  | ind n ih =>
    rcases h.avoid a with havoid | hP | ⟨b, m, hm, hr, hlead⟩
    · exact absurd List.mem_cons_self havoid.notMem
    · exact .here h.notMem hP
    · exact .step h.notMem hr (ih m hm hlead)

/-- What a simple path reaches is reached. -/
lemma SimplyReaches.exists_reflTransGen {chain : List α} {a : α} (h : SimplyReaches r P chain a) :
    ∃ b, Relation.ReflTransGen r a b ∧ P b := by
  induction h with
  | here _ hP => exact ⟨_, .refl, hP⟩
  | step _ hr _ ih =>
    obtain ⟨b, hreach, hP⟩ := ih
    exact ⟨b, .head hr hreach, hP⟩

/-- **What can be reached is reached by a simple path.** -/
lemma simplyReaches_nil {a : α} :
    SimplyReaches r P [] a ↔ ∃ b, Relation.ReflTransGen r a b ∧ P b := by
  refine ⟨SimplyReaches.exists_reflTransGen, ?_⟩
  rintro ⟨b, hreach, hP⟩
  have hlead : ∃ n, Leads r P [] n a := by
    induction hreach using Relation.ReflTransGen.head_induction_on with
    | refl => exact ⟨0, .here List.not_mem_nil hP⟩
    | head hr _ ih =>
      obtain ⟨n, hn⟩ := ih
      exact ⟨n + 1, .step List.not_mem_nil hr hn⟩
  obtain ⟨n, hn⟩ := hlead
  exact hn.simplyReaches

/-- The first step of a simple path. -/
lemma SimplyReaches.cases_head {chain : List α} {a : α} (h : SimplyReaches r P chain a) :
    a ∉ chain ∧ (P a ∨ ∃ b, r a b ∧ SimplyReaches r P (a :: chain) b) := by
  cases h with
  | here ha hP => exact ⟨ha, Or.inl hP⟩
  | step ha hr hb => exact ⟨ha, Or.inr ⟨_, hr, hb⟩⟩

end SimplePaths

end GenMC
