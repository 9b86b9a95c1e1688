import GenMC.Lib.PartialRun
import Mathlib.Data.Finset.Card
import Mathlib.Logic.Function.Basic
import Mathlib.Tactic

/-!
# Depth-first evaluation

The nodes of a graph get results in a depth-first search: the result of a node is computed from the
results of its successors when the search leaves the node.  A successor that the search has entered
and not left yet, so that an edge leads back to it, gets a default result for the time being.

`evaluate_invariant` is the rule for what all results have in common, and `evaluate_total` says that
the search ends with a result if every node whose successors have results can be finished.
-/

namespace GenMC

namespace DepthFirst

/-- Where the search is with a node. -/
inductive Status where
  | unseen | entered | left
deriving DecidableEq

/-- The statuses and the results of the nodes. -/
structure Search (ν α : Type*) where
  /-- The status of every node. -/
  status : ν → Status
  /-- The results so far. -/
  result : ν → Option α

namespace Search

variable {ν α : Type*} [DecidableEq ν]

/-- The search before it has seen a node. -/
def start : Search ν α := ⟨fun _ => .unseen, fun _ => none⟩

/-- Changes the status of a node. -/
def setStatus (s : Search ν α) (n : ν) (st : Status) : Search ν α :=
  { s with status := fun m => if m = n then st else s.status m }

/-- Changes the result of a node. -/
def setResult (s : Search ν α) (n : ν) (a : α) : Search ν α :=
  { s with result := fun m => if m = n then some a else s.result m }

section Fields

variable (s : Search ν α) (n : ν) (st : Status) (a : α) (m : ν)

@[simp] lemma setStatus_status : (s.setStatus n st).status m = if m = n then st else s.status m :=
  rfl

@[simp] lemma setStatus_result : (s.setStatus n st).result m = s.result m := rfl

@[simp] lemma setResult_status : (s.setResult n a).status m = s.status m := rfl

@[simp] lemma setResult_result :
    (s.setResult n a).result m = if m = n then some a else s.result m :=
  rfl

/-- A node with a result keeps one. -/
lemma isSome_setResult {m : ν} (h : m ≠ n → (s.result m).isSome) :
    ((s.setResult n a).result m).isSome := by
  rw [setResult_result]
  split
  next => rfl
  next hne => exact h hne

end Fields

end Search

variable {ν α : Type*} [DecidableEq ν]

section Definition

variable (succs : ν → List ν) (default : α) (finish : (ν → Option α) → ν → Option α)

/-- Looks at a successor, which is visited unless the search has seen it. -/
def look (visit : ν → Search ν α → Option (Search ν α)) (s : Search ν α) (m : ν) :
    Option (Search ν α) :=
  match s.status m with
  | .unseen => visit m s
  | .entered => some (s.setResult m default)
  | .left => some s

/-- The search from a node: it enters the node, looks at its successors, leaves the node, and
computes its result with `finish` from the results so far. -/
def evaluate : ℕ → ν → Search ν α → Option (Search ν α)
  | 0, _, _ => none
  | fuel + 1, n, s =>
    ((succs n).foldlM (look default (evaluate fuel)) (s.setStatus n .entered)).bind fun s =>
      (finish s.result n).map fun a => (s.setStatus n .left).setResult n a

end Definition

variable {succs : ν → List ν} {default : α} {finish : (ν → Option α) → ν → Option α}

/-- All results so far are good. -/
def AllGood (Good : ν → α → Prop) (s : Search ν α) : Prop :=
  ∀ m a, s.result m = some a → Good m a

/-- A good result is added. -/
lemma AllGood.setResult {Good : ν → α → Prop} {s : Search ν α} (h : AllGood Good s) {n : ν} {a : α}
    (ha : Good n a) : AllGood Good (s.setResult n a) := by
  intro m b hb
  rw [Search.setResult_result] at hb
  split at hb
  next heq => exact heq ▸ Option.some.inj hb ▸ ha
  next => exact h m b hb

/-- **The invariant rule.**  If the default is good for every node and a result that is computed
from good results is good, then the search gets good results only. -/
theorem evaluate_invariant {Good : ν → α → Prop} (hdefault : ∀ n, Good n default)
    (hfinish : ∀ (result : ν → Option α) n a, (∀ m b, result m = some b → Good m b) →
      finish result n = some a → Good n a)
    {fuel : ℕ} {n : ν} {s s' : Search ν α} (hs : AllGood Good s)
    (h : evaluate succs default finish fuel n s = some s') : AllGood Good s' := by
  induction fuel generalizing n s s' with
  | zero => cases h
  | succ fuel ih =>
    obtain ⟨s₁, hloop, hend⟩ := Option.bind_eq_some_iff.mp h
    obtain ⟨a, ha, rfl⟩ := Option.map_eq_some_iff.mp hend
    have hs₁ : AllGood Good s₁ := by
      have hentered : AllGood Good (s.setStatus n .entered) := hs
      refine PartialRun.foldlM_invariant (fun s m _ s' hs hstep => ?_) hentered hloop
      unfold look at hstep
      split at hstep
      · exact ih hs hstep
      · exact Option.some.inj hstep ▸ hs.setResult (hdefault m)
      · exact Option.some.inj hstep ▸ hs
    exact AllGood.setResult (s := s₁.setStatus n .left) hs₁ (hfinish _ n a hs₁ ha)

/-- The nodes that the search has not seen. -/
def unseen (nodes : Finset ν) (s : Search ν α) : Finset ν :=
  nodes.filter fun n => s.status n = .unseen

/-- What a search keeps: it forgets neither nodes nor results, and every node that it has left has
a result. -/
structure Extends (nodes : Finset ν) (s s' : Search ν α) : Prop where
  /-- No node becomes unseen. -/
  seen : ∀ m, s'.status m = .unseen → s.status m = .unseen
  /-- No result is lost. -/
  results : ∀ m, (s.result m).isSome → (s'.result m).isSome
  /-- Nodes that have been left have results. -/
  left : ∀ m ∈ nodes, s'.status m = .left → (s'.result m).isSome

namespace Extends

variable {nodes : Finset ν} {s s' s'' : Search ν α}

omit [DecidableEq ν] in
/-- Two searches, one after the other. -/
lemma trans (h : Extends nodes s s') (h' : Extends nodes s' s'') : Extends nodes s s'' :=
  ⟨fun m hm => h.seen m (h'.seen m hm), fun m hm => h'.results m (h.results m hm), h'.left⟩

omit [DecidableEq ν] in
/-- There are not more unseen nodes. -/
lemma card_unseen_le (h : Extends nodes s s') : (unseen nodes s').card ≤ (unseen nodes s).card :=
  Finset.card_le_card (Finset.monotone_filter_right nodes fun m _ hm => h.seen m hm)

/-- A result is added. -/
lemma setResult (h : Extends nodes s s') (n : ν) (a : α) : Extends nodes s (s'.setResult n a) :=
  ⟨h.seen, fun m hm => s'.isSome_setResult n a fun _ => h.results m hm,
    fun m hm hleft => s'.isSome_setResult n a fun _ => h.left m hm hleft⟩

/-- A node is left when it gets its result. -/
lemma leave (h : Extends nodes s s') (n : ν) (a : α) :
    Extends nodes s ((s'.setStatus n .left).setResult n a) := by
  refine ⟨fun m hm => h.seen m ?_,
    fun m hm => Search.isSome_setResult _ n a fun _ => h.results m hm,
    fun m hm hleft => Search.isSome_setResult _ n a fun hne => h.left m hm ?_⟩
  · rw [Search.setResult_status, Search.setStatus_status] at hm
    split at hm
    · cases hm
    · exact hm
  · rw [Search.setResult_status, Search.setStatus_status, if_neg hne] at hleft
    exact hleft

end Extends

/-- Entering a node keeps the rest. -/
lemma extends_enter {nodes : Finset ν} {s : Search ν α} (n : ν)
    (hleft : ∀ m ∈ nodes, s.status m = .left → (s.result m).isSome) :
    Extends nodes s (s.setStatus n .entered) := by
  refine ⟨fun m hm => ?_, fun m hm => hm, fun m hm hst => hleft m hm ?_⟩
  · rw [Search.setStatus_status] at hm
    split at hm
    · cases hm
    · exact hm
  · rw [Search.setStatus_status] at hst
    split at hst
    · cases hst
    · exact hst

/-- Entering an unseen node. -/
lemma card_unseen_setStatus {nodes : Finset ν} {s : Search ν α} {n : ν} (hn : n ∈ nodes)
    (hunseen : s.status n = .unseen) :
    (unseen nodes (s.setStatus n .entered)).card < (unseen nodes s).card := by
  have heq : unseen nodes (s.setStatus n .entered) = (unseen nodes s).erase n := by
    ext m
    rw [unseen, Finset.mem_filter, Search.setStatus_status, Finset.mem_erase, unseen,
      Finset.mem_filter]
    by_cases hm : m = n
    · simp [hm]
    · simp [hm]
  rw [heq]
  exact Finset.card_erase_lt_of_mem (Finset.mem_filter.mpr ⟨hn, hunseen⟩)

/-- **The search ends with a result.**  On a finite set of nodes that is closed under successors,
with fuel for every unseen node, the search from an unseen node gets a result for it, if nodes whose
successors have results can be finished. -/
theorem evaluate_total {nodes : Finset ν} (hclosed : ∀ n ∈ nodes, ∀ m ∈ succs n, m ∈ nodes)
    (hfinish : ∀ n ∈ nodes, ∀ result : ν → Option α, (∀ m ∈ succs n, (result m).isSome) →
      (finish result n).isSome)
    {fuel : ℕ} {n : ν} {s : Search ν α} (hn : n ∈ nodes) (hunseen : s.status n = .unseen)
    (hfuel : (unseen nodes s).card ≤ fuel)
    (hleft : ∀ m ∈ nodes, s.status m = .left → (s.result m).isSome) :
    ∃ s', evaluate succs default finish fuel n s = some s' ∧ Extends nodes s s' ∧
      (s'.result n).isSome := by
  induction fuel generalizing n s with
  | zero =>
    have hpos : 0 < (unseen nodes s).card :=
      Finset.card_pos.mpr ⟨n, Finset.mem_filter.mpr ⟨hn, hunseen⟩⟩
    omega
  | succ fuel ih =>
    have hcard := card_unseen_setStatus hn hunseen
    have henter := extends_enter n hleft
    have hlook : ∀ t m, m ∈ nodes → Extends nodes (s.setStatus n .entered) t →
        ∃ t', look default (evaluate succs default finish fuel) t m = some t' ∧
          Extends nodes t t' ∧ (t'.result m).isSome := by
      intro t m hm hext
      have hself : Extends nodes t t := ⟨fun _ h => h, fun _ h => h, hext.left⟩
      unfold look
      split
      next hst =>
        have hle := hext.card_unseen_le
        exact ih hm hst (by omega) hext.left
      next => exact ⟨_, rfl, hself.setResult m default, t.isSome_setResult m default nofun⟩
      next hst => exact ⟨t, rfl, hself, hext.left m hm hst⟩
    -- after the successors `done`, all of them have results
    obtain ⟨s₁, hloop, hext, hresults⟩ := PartialRun.foldlM_total (succs n)
      (fun done t => Extends nodes (s.setStatus n .entered) t ∧ ∀ m ∈ done, (t.result m).isSome)
      (fun done m rest hvisit t ht => by
        have hm : m ∈ nodes := hclosed n hn m (hvisit ▸ List.mem_append_right _ List.mem_cons_self)
        obtain ⟨t', ht', hext', hres⟩ := hlook t m hm ht.1
        refine ⟨t', ht', ht.1.trans hext', fun k hk => ?_⟩
        obtain hk | hk := List.mem_append.mp hk
        · exact hext'.results k (ht.2 k hk)
        · exact List.mem_singleton.mp hk ▸ hres)
      ⟨⟨fun _ h => h, fun _ h => h, henter.left⟩, fun m hm => absurd hm List.not_mem_nil⟩
    obtain ⟨a, ha⟩ := Option.isSome_iff_exists.mp (hfinish n hn s₁.result hresults)
    refine ⟨_, ?_, (henter.trans hext).leave n a, Search.isSome_setResult _ n a nofun⟩
    rw [evaluate, hloop, Option.bind_some, ha, Option.map_some]

end DepthFirst

end GenMC
