import Mathlib.Data.List.Nodup
import Mathlib.Logic.Relation
import Mathlib.Tactic

/-!
# Inlining definitions

A definition gives a name a body, which is a list of names.  Definitions are inlined into a list one
after the other, so that the names of a body are only replaced by the definitions that come later.

What is left of the body of a definition is empty exactly if all definitions that it depends on have
only names of later definitions in their bodies (`resolved_iff`).
-/

namespace GenMC

namespace Inlining

variable {α : Type*}

/-- The body of a definition has the name of a later one. -/
def DependsOn (ds : List (α × List α)) (n m : ℕ) : Prop :=
  n < m ∧ ∃ d e, ds[n]? = some d ∧ ds[m]? = some e ∧ e.1 ∈ d.2

/-- The body of a definition has a name that no later one has. -/
def Undefined (ds : List (α × List α)) (n : ℕ) : Prop :=
  ∃ d, ds[n]? = some d ∧ ∃ x ∈ d.2, ∀ m e, n < m → ds[m]? = some e → x ≠ e.1

variable [DecidableEq α]

/-- Replaces the name of a definition by its body. -/
def inlineOne (d : α × List α) (l : List α) : List α :=
  l.flatMap fun x => if x = d.1 then d.2 else [x]

/-- Inlines definitions one after the other. -/
def inlineAll (ds : List (α × List α)) (l : List α) : List α :=
  ds.foldl (fun l d => inlineOne d l) l

/-- Nothing is left of the body of a definition when the later ones have been inlined. -/
def Resolved (ds : List (α × List α)) (n : ℕ) : Prop :=
  ∀ d ∈ ds[n]?, inlineAll (ds.drop (n + 1)) d.2 = []

lemma inlineOne_cons (d : α × List α) (x : α) (l : List α) :
    inlineOne d (x :: l) = (if x = d.1 then d.2 else [x]) ++ inlineOne d l := List.flatMap_cons

lemma inlineOne_singleton (d : α × List α) (x : α) :
    inlineOne d [x] = if x = d.1 then d.2 else [x] := List.flatMap_singleton ..

/-- Every name is replaced on its own. -/
lemma inlineAll_eq_flatMap (ds : List (α × List α)) (l : List α) :
    inlineAll ds l = l.flatMap fun x => inlineAll ds [x] := by
  induction ds generalizing l with
  | nil =>
    change l = l.flatMap fun x => [x]
    rw [List.flatMap_singleton']
  | cons d ds ih =>
    have hcons : ∀ l, inlineAll (d :: ds) l = (inlineOne d l).flatMap fun x => inlineAll ds [x] :=
      fun l => ih (inlineOne d l)
    simp only [hcons, inlineOne, List.flatMap_assoc, List.flatMap_cons, List.flatMap_nil,
      List.append_nil]

/-- A name without a definition stays. -/
lemma inlineAll_singleton {ds : List (α × List α)} {x : α} (h : ∀ d ∈ ds, x ≠ d.1) :
    inlineAll ds [x] = [x] := by
  induction ds with
  | nil => rfl
  | cons d ds ih =>
    obtain ⟨hd, hds⟩ := List.forall_mem_cons.mp h
    change inlineAll ds (inlineOne d [x]) = [x]
    rw [inlineOne_singleton, if_neg hd, ih hds]

/-- A name is replaced by its body, and the body by what comes later. -/
lemma inlineAll_name {ds : List (α × List α)} (hnodup : (ds.map Prod.fst).Nodup) {m : ℕ}
    {e : α × List α} (he : ds[m]? = some e) :
    inlineAll ds [e.1] = inlineAll (ds.drop (m + 1)) e.2 := by
  induction ds generalizing m with
  | nil => cases he
  | cons d ds ih =>
    rw [List.map_cons, List.nodup_cons] at hnodup
    change inlineAll ds (inlineOne d [e.1]) = _
    rw [inlineOne_singleton]
    cases m with
    | zero =>
      obtain rfl := Option.some.inj he
      rw [if_pos rfl]
      rfl
    | succ m =>
      have hne : e.1 ≠ d.1 := fun heq =>
        hnodup.1 (heq ▸ List.mem_map_of_mem (List.mem_of_getElem? he))
      rw [if_neg hne]
      exact ih hnodup.2 he

variable {ds : List (α × List α)}

/-- One step from a definition to those that it depends on. -/
lemma resolved_iff_step (hnodup : (ds.map Prod.fst).Nodup) (n : ℕ) :
    Resolved ds n ↔ ¬Undefined ds n ∧ ∀ m, DependsOn ds n m → Resolved ds m := by
  have hget : ∀ {m : ℕ}, n < m → (ds.drop (n + 1))[m - (n + 1)]? = ds[m]? := fun hm => by
    rw [List.getElem?_drop, Nat.add_sub_cancel' hm]
  -- what a name of a later definition is replaced by
  have hname : ∀ {m e}, n < m → ds[m]? = some e →
      inlineAll (ds.drop (n + 1)) [e.1] = inlineAll (ds.drop (m + 1)) e.2 := by
    intro m e hm he
    have hdrop : ((ds.drop (n + 1)).map Prod.fst).Nodup := by
      rw [List.map_drop]
      exact hnodup.sublist (List.drop_sublist _ _)
    rw [inlineAll_name hdrop ((hget hm).trans he), List.drop_drop]
    congr 2
    omega
  constructor
  · refine fun h => ⟨?_, ?_⟩
    · rintro ⟨d, hd, x, hx, hnone⟩
      have hnil := h d hd
      rw [inlineAll_eq_flatMap, List.flatMap_eq_nil_iff] at hnil
      have hstays : inlineAll (ds.drop (n + 1)) [x] = [x] := inlineAll_singleton fun e he => by
        obtain ⟨k, hk⟩ := List.mem_iff_getElem?.mp he
        rw [List.getElem?_drop] at hk
        exact hnone _ e (by omega) hk
      cases hstays.symm.trans (hnil x hx)
    · rintro m ⟨hm, d, e, hd, he, hmem⟩ e' he'
      obtain rfl := Option.some.inj (he.symm.trans he')
      have hnil := h d hd
      rw [inlineAll_eq_flatMap, List.flatMap_eq_nil_iff] at hnil
      rw [← hname hm he]
      exact hnil e.1 hmem
  · rintro ⟨hdefined, hdepends⟩ d hd
    rw [inlineAll_eq_flatMap, List.flatMap_eq_nil_iff]
    intro x hx
    -- the name is that of a later definition
    by_contra hne
    refine hdefined ⟨d, hd, x, hx, fun m e hm he heq => hne ?_⟩
    rw [heq, hname hm he]
    exact hdepends m ⟨hm, d, e, hd, he, heq ▸ hx⟩ e he

/-- **Inlining** leaves nothing of a body if and only if all names that it depends on are defined
later on. -/
theorem resolved_iff (hnodup : (ds.map Prod.fst).Nodup) (n : ℕ) :
    Resolved ds n ↔ ∀ m, Relation.ReflTransGen (DependsOn ds) n m → ¬Undefined ds m := by
  constructor
  · intro h m hm
    have hresolved : Resolved ds m := by
      induction hm with
      | refl => exact h
      | tail _ hdepends ih => exact ((resolved_iff_step hnodup _).mp ih).2 _ hdepends
    exact ((resolved_iff_step hnodup m).mp hresolved).1
  · -- by induction on the number of later definitions
    intro h
    induction hk : ds.length - n using Nat.strong_induction_on generalizing n with
    | _ k ih =>
      refine (resolved_iff_step hnodup n).mpr ⟨h n .refl, fun m hm => ?_⟩
      have hlt : m < ds.length := by
        obtain ⟨-, -, e, -, he, -⟩ := hm
        exact (List.getElem?_eq_some_iff.mp he).1
      have hnm := hm.1
      exact ih (ds.length - m) (by omega) m (fun l hl => h l (.head hm hl)) rfl

end Inlining

end GenMC
