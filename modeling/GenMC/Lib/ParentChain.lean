import Mathlib.Data.List.Range
import Mathlib.Logic.Relation
import Mathlib.Tactic

/-!
# Chains of parents and of first children

A number may have a parent, which is smaller.  The ancestors of a number are found by following
parents.  The other way round, a search for the next number with a given parent finds the first
child only, so that it enumerates a chain of first children.  Such a chain leads from an ancestor to
a number only if all numbers on the way are first children (`transGen_isFirstChild_iff`).
-/

namespace GenMC

namespace ParentChain

/-- What follows on a number, for as long as something follows. -/
def chain (next : ℕ → Option ℕ) : ℕ → ℕ → List ℕ
  | 0, _ => []
  | fuel + 1, t =>
    match next t with
    | some s => s :: chain next fuel s
    | none => []

/-- One number follows on another one. -/
def Next (next : ℕ → Option ℕ) (t s : ℕ) : Prop := next t = some s

/-- The chain has what can be reached, if something decreases along it. -/
lemma mem_chain_iff {next : ℕ → Option ℕ} (μ : ℕ → ℕ)
    (hμ : ∀ t s, next t = some s → μ s < μ t) {fuel t s : ℕ} (hfuel : μ t ≤ fuel) :
    s ∈ chain next fuel t ↔ Relation.TransGen (Next next) t s := by
  induction fuel generalizing t with
  | zero =>
    refine iff_of_false List.not_mem_nil fun h => ?_
    obtain ⟨u, hu, -⟩ := Relation.TransGen.head'_iff.mp h
    have := hμ t u hu
    omega
  | succ fuel ih =>
    rw [chain, Relation.TransGen.head'_iff]
    cases hnext : next t with
    | none =>
      refine iff_of_false List.not_mem_nil ?_
      rintro ⟨u, hu, -⟩
      cases hnext.symm.trans hu
    | some u =>
      have hu : μ u ≤ fuel := Nat.le_of_lt_succ ((hμ t u hnext).trans_le hfuel)
      rw [List.mem_cons, ih hu, ← Relation.reflTransGen_iff_eq_or_transGen]
      constructor
      · exact fun h => ⟨u, hnext, h⟩
      · rintro ⟨u', hu', h⟩
        obtain rfl := Option.some.inj (hnext.symm.trans hu')
        exact h

variable (parent : ℕ → Option ℕ)

/-- The next number below a bound that has a given parent. -/
def firstChild (n t : ℕ) : Option ℕ :=
  (List.range' (t + 1) (n - (t + 1))).find? fun i => parent i = some t

/-- No smaller number has the same parent. -/
def IsFirst (t : ℕ) : Prop := ∀ u < t, parent u ≠ parent t

variable {parent}

section

variable {n t s u : ℕ}

lemma lt_of_transGen (hlt : ∀ t s, parent t = some s → s < t)
    (h : Relation.TransGen (Next parent) t s) : s < t := by
  induction h with
  | single h => exact hlt _ _ h
  | tail _ h ih => exact (hlt _ _ h).trans ih

lemma firstChild_eq_some_iff (hlt : ∀ t s, parent t = some s → s < t) :
    firstChild parent n t = some u ↔ u < n ∧ parent u = some t ∧ IsFirst parent u := by
  rw [firstChild, List.find?_range'_eq_some]
  simp only [decide_eq_true_eq, List.mem_range'_1, Bool.not_eq_true', decide_eq_false_iff_not]
  constructor
  · rintro ⟨hut, ⟨htu, hun⟩, hfirst⟩
    refine ⟨by omega, hut, fun v hvu hvt => ?_⟩
    have htv : t < v := hlt v t (hvt.trans hut)
    exact hfirst v htv hvu (hvt.trans hut)
  · rintro ⟨hun, hut, hfirst⟩
    have htu := hlt u t hut
    exact ⟨hut, ⟨htu, by omega⟩, fun v _ hvu hvt => hfirst v hvu (hvt.trans hut.symm)⟩

/-- A chain of first children leads from an ancestor to a number if and only if all numbers on the
way are first children. -/
theorem transGen_firstChild_iff (hlt : ∀ t s, parent t = some s → s < t) (hn : t < n)
    (h : Relation.TransGen (Next parent) t s) :
    Relation.TransGen (Next (firstChild parent n)) s t ↔
      ∀ u, Relation.ReflTransGen (Next parent) t u → Relation.TransGen (Next parent) u s →
        IsFirst parent u := by
  constructor
  · intro hdown u htu hus
    have hfirst {p t : ℕ} (hpt : firstChild parent n p = some t) {u : ℕ}
        (htu : Relation.ReflTransGen (Next parent) t u) :
        IsFirst parent u ∨ Relation.ReflTransGen (Next parent) p u := by
      obtain ⟨-, hparent, hfirst⟩ := (firstChild_eq_some_iff hlt).mp hpt
      rcases Relation.ReflTransGen.cases_head htu with rfl | ⟨p', hp', hpu⟩
      · exact .inl hfirst
      · obtain rfl := Option.some.inj (hparent.symm.trans hp')
        exact .inr hpu
    clear hn h
    induction hdown with
    | single hst =>
      refine (hfirst hst htu).resolve_right fun hsu => ?_
      exact lt_irrefl s (lt_of_transGen hlt (Relation.TransGen.trans_right hsu hus))
    | tail _ hpt ih => exact (hfirst hpt htu).elim id ih
  · intro hfirst
    induction h using Relation.TransGen.head_induction_on with
    | @single t hts =>
      exact .single ((firstChild_eq_some_iff hlt).mpr ⟨hn, hts, hfirst t .refl (.single hts)⟩)
    | @head t p htp hps ih =>
      have hp : p < n := (hlt t p htp).trans hn
      have hdown := ih hp fun u hpu hus => hfirst u (.head htp hpu) hus
      exact hdown.tail ((firstChild_eq_some_iff hlt).mpr ⟨hn, htp, hfirst t .refl (.head htp hps)⟩)

end

end ParentChain

end GenMC
