import Mathlib.Logic.Relation

/-!
# Dominance

In a graph with a root, a node strictly dominates another one if every walk from the root to the
second one passes the first one before its end.  Of a node that cannot be reached this says nothing,
so that it is strictly dominated by all nodes.

A fact that is established when a walk passes a node, and that only the nodes which this node
depends on can destroy, holds wherever the node strictly dominates: none of the nodes that dominate
it can be passed again without it.  This is the use of `StrictlyDominates.of_edge` and
`StrictlyDominates.asymm`.
-/

namespace GenMC

namespace Dominance

variable {N : Type*} (edge : N → N → Prop) (root : N)

/-- A walk from the root that does not pass a node before its end. -/
inductive Avoids (b : N) : N → Prop
  | root : Avoids b root
  | step {p q} : Avoids b p → p ≠ b → edge p q → Avoids b q

/-- Every walk from the root passes a node before its end. -/
def StrictlyDominates (b q : N) : Prop := ¬Avoids edge root b q

/-- A node can be reached from the root. -/
def Reachable (q : N) : Prop := Relation.ReflTransGen edge root q

variable {edge root}

section

variable {a b c p q : N}

/-- One edge: a node that strictly dominates the end is the beginning or strictly dominates it. -/
lemma StrictlyDominates.of_edge (h : StrictlyDominates edge root b q) (hedge : edge p q)
    (hne : p ≠ b) : StrictlyDominates edge root b p :=
  fun havoids => h (.step havoids hne hedge)

/-- No two nodes strictly dominate each other, where one of them is before a reachable node. -/
lemma StrictlyDominates.asymm (hbc : StrictlyDominates edge root b c)
    (hcb : StrictlyDominates edge root c b) (hq : Reachable edge root q) :
    ¬StrictlyDominates edge root b q := by
  have hboth : Avoids edge root b q ∧ Avoids edge root c q := by
    induction hq with
    | refl => exact ⟨.root, .root⟩
    | @tail p q _ hedge ih =>
      have hpb : p ≠ b := fun h => hcb (h ▸ ih.2)
      have hpc : p ≠ c := fun h => hbc (h ▸ ih.1)
      exact ⟨.step ih.1 hpb hedge, .step ih.2 hpc hedge⟩
  exact fun h => h hboth.1

/-- A reachable node does not strictly dominate itself. -/
lemma not_strictlyDominates_self (hq : Reachable edge root q) : ¬StrictlyDominates edge root q q :=
  fun h => h.asymm h hq h

/-- Two walks that avoid a node, one after the other. -/
lemma Avoids.append (h : Avoids edge root b p) (h' : Avoids edge p b q) :
    Avoids edge root b q := by
  induction h' with
  | root => exact h
  | step _ hne hedge ih => exact .step ih hne hedge

/-- A walk that avoids a node is a walk. -/
lemma Avoids.reachable (h : Avoids edge root b q) : Reachable edge root q := by
  induction h with
  | root => exact .refl
  | step _ _ hedge ih => exact ih.tail hedge

/-- Every walk has a last visit of a dominator. -/
lemma Avoids.after (h : Avoids edge root a q) (hbq : StrictlyDominates edge root b q) :
    Avoids edge b a q := by
  have hlast : ∀ x, Avoids edge root a x → Avoids edge root b x ∨ Avoids edge b a x := by
    intro x hx
    induction hx with
    | root => exact .inl .root
    | @step p x _ hpa hedge ih =>
      by_cases hpb : p = b
      · subst hpb
        exact .inr (.step .root hpa hedge)
      · exact ih.imp (fun h => .step h hpb hedge) fun h => .step h hpa hedge
  exact (hlast q h).resolve_left hbq

/-- The last one of two nodes on a walk. -/
lemma Avoids.last (hne : b ≠ c) (h : Relation.ReflTransGen edge b q) :
    Avoids edge b c q ∨ Avoids edge c b q := by
  induction h with
  | refl => exact .inl .root
  | @tail p q _ hedge ih =>
    by_cases hpb : p = b
    · exact .inl (.step (hpb ▸ .root) (hpb ▸ hne) (hpb ▸ hedge))
    · by_cases hpc : p = c
      · exact .inr (.step (hpc ▸ .root) (hpc ▸ hne.symm) (hpc ▸ hedge))
      · exact ih.imp (fun h => .step h hpc hedge) fun h => .step h hpb hedge

/-- **Postdominators are ordered.**  Of two nodes that are dominated by a third one, and that all
walks from it to exits pass, one dominates the other. -/
theorem StrictlyDominates.total {exits : N → Prop} (hab : StrictlyDominates edge root a b)
    (hac : StrictlyDominates edge root a c) (hb : ∀ q, exits q → StrictlyDominates edge a b q)
    (hc : ∀ q, exits q → StrictlyDominates edge a c q) (hne : b ≠ c)
    (hexit : ∃ q, exits q ∧ Relation.ReflTransGen edge b q) :
    StrictlyDominates edge root b c ∨ StrictlyDominates edge root c b := by
  refine Classical.byContradiction fun hcon => ?_
  obtain ⟨hbc, hcb⟩ := not_or.mp hcon
  -- the walks to one node that avoid the other one
  have hc_of : Avoids edge a b c := (Classical.not_not.mp hbc).after hac
  have hb_of : Avoids edge a c b := (Classical.not_not.mp hcb).after hab
  obtain ⟨q, hq, hwalk⟩ := hexit
  obtain h | h := Avoids.last hne hwalk
  · exact hc q hq (hb_of.append h)
  · exact hb q hq (hc_of.append h)

lemma StrictlyDominates.trans (hab : StrictlyDominates edge root a b)
    (hbc : StrictlyDominates edge root b c) : StrictlyDominates edge root a c := by
  intro hac
  refine hbc ?_
  have hboth : ∀ x, Avoids edge root a x → Avoids edge root b x := by
    intro x hx
    induction hx with
    | root => exact .root
    | @step p q havoids hne hedge ih =>
      have hpb : p ≠ b := fun h => hab (h ▸ havoids)
      exact .step ih hpb hedge
  exact hboth c hac

end

end Dominance

end GenMC
