import Mathlib.Algebra.BigOperators.Group.Finset.Basic
import Mathlib.Logic.Relation
import Mathlib.Tactic

/-!
# Exploration with a worklist

A loop takes nodes from a stack.  A node that has not been visited is visited, and its successors
are put on the stack.  When the stack is empty, the visited nodes are those that can be reached from
the first one (`mem_explore`).  Every node puts its successors on the stack once, so that the loop
ends (`explore_total`).
-/

namespace GenMC

namespace Exploration

variable {N : Type*} [DecidableEq N]

/-- The loop, with the stack and the visited nodes. -/
def explore (succs : N → List N) : ℕ → List N → List N → Option (List N)
  | 0, _, _ => none
  | _ + 1, [], visited => some visited
  | fuel + 1, current :: worklist, visited =>
    if current ∈ visited then explore succs fuel worklist visited
    else explore succs fuel ((succs current).reverse ++ worklist) (current :: visited)

/-- There is an edge to a successor. -/
def Succ (succs : N → List N) (p q : N) : Prop := q ∈ succs p

variable {succs : N → List N} {start : N}

/-- What the loop keeps: the nodes that it has seen can be reached, and it has seen the successors
of the visited nodes. -/
structure Explored (succs : N → List N) (start : N) (worklist visited : List N) : Prop where
  /-- The start has been seen. -/
  startSeen : start ∈ visited ∨ start ∈ worklist
  /-- The nodes on the stack can be reached. -/
  worklistReached : ∀ n ∈ worklist, Relation.ReflTransGen (Succ succs) start n
  /-- The visited nodes can be reached. -/
  visitedReached : ∀ n ∈ visited, Relation.ReflTransGen (Succ succs) start n
  /-- The successors of the visited nodes have been seen. -/
  succsSeen : ∀ n ∈ visited, ∀ m ∈ succs n, m ∈ visited ∨ m ∈ worklist

omit [DecidableEq N] in
lemma Explored.skip {current : N} {worklist visited : List N}
    (h : Explored succs start (current :: worklist) visited) (hmem : current ∈ visited) :
    Explored succs start worklist visited := by
  have hseen {n : N} (hn : n ∈ visited ∨ n ∈ current :: worklist) :
      n ∈ visited ∨ n ∈ worklist := by
    rcases hn with hn | hn
    · exact .inl hn
    · rcases List.mem_cons.mp hn with rfl | hn
      · exact .inl hmem
      · exact .inr hn
  exact ⟨hseen h.startSeen, fun n hn => h.worklistReached n (List.mem_cons_of_mem current hn),
    h.visitedReached, fun n hn m hm => hseen (h.succsSeen n hn m hm)⟩

omit [DecidableEq N] in
lemma Explored.visit {current : N} {worklist visited : List N}
    (h : Explored succs start (current :: worklist) visited) :
    Explored succs start ((succs current).reverse ++ worklist) (current :: visited) := by
  have hcurrent := h.worklistReached current List.mem_cons_self
  have hseen {n : N} (hn : n ∈ visited ∨ n ∈ current :: worklist) :
      n ∈ current :: visited ∨ n ∈ (succs current).reverse ++ worklist := by
    rcases hn with hn | hn
    · exact .inl (List.mem_cons_of_mem current hn)
    · rcases List.mem_cons.mp hn with rfl | hn
      · exact .inl List.mem_cons_self
      · exact .inr (List.mem_append_right _ hn)
  refine ⟨hseen h.startSeen, ?_, ?_, ?_⟩
  · intro n hn
    rcases List.mem_append.mp hn with hn | hn
    · exact hcurrent.tail (List.mem_reverse.mp hn)
    · exact h.worklistReached n (List.mem_cons_of_mem current hn)
  · intro n hn
    rcases List.mem_cons.mp hn with rfl | hn
    · exact hcurrent
    · exact h.visitedReached n hn
  · intro n hn m hm
    rcases List.mem_cons.mp hn with rfl | hn
    · exact .inr (List.mem_append_left _ (List.mem_reverse.mpr hm))
    · exact hseen (h.succsSeen n hn m hm)

lemma explored_of_explore {fuel : ℕ} {worklist visited result : List N}
    (h : explore succs fuel worklist visited = some result)
    (hinv : Explored succs start worklist visited) : Explored succs start [] result := by
  induction fuel generalizing worklist visited with
  | zero => cases h
  | succ fuel ih =>
    cases worklist with
    | nil =>
      obtain rfl := Option.some.inj h
      exact hinv
    | cons current worklist =>
      rw [explore] at h
      split at h
      next hmem => exact ih h (hinv.skip hmem)
      next => exact ih h hinv.visit

/-- The loop visits the nodes that can be reached from the first one. -/
theorem mem_explore {fuel : ℕ} {result : List N} (h : explore succs fuel [start] [] = some result)
    {n : N} : n ∈ result ↔ Relation.ReflTransGen (Succ succs) start n := by
  have hinv : Explored succs start [start] [] := by
    refine ⟨.inr (List.mem_singleton_self start), ?_, nofun, nofun⟩
    intro n hn
    rw [List.mem_singleton.mp hn]
  have hend := explored_of_explore h hinv
  refine ⟨hend.visitedReached n, fun hreach => ?_⟩
  induction hreach with
  | refl => exact hend.startSeen.resolve_right List.not_mem_nil
  | tail _ hsucc ih => exact (hend.succsSeen _ ih _ hsucc).resolve_right List.not_mem_nil

/-- The rounds of the loop that are still to come. -/
def pending (nodes : Finset N) (succs : N → List N) (worklist visited : List N) : ℕ :=
  worklist.length + ∑ n ∈ nodes.filter (· ∉ visited), (succs n).length

/-- With a round for the start and for every successor of a node, and one to see that the stack is
empty, the loop ends. -/
theorem explore_total {nodes : Finset N} (hclosed : ∀ n ∈ nodes, ∀ m ∈ succs n, m ∈ nodes)
    {fuel : ℕ} {worklist visited : List N} (hworklist : ∀ n ∈ worklist, n ∈ nodes)
    (hfuel : pending nodes succs worklist visited < fuel) :
    ∃ result, explore succs fuel worklist visited = some result := by
  induction fuel generalizing worklist visited with
  | zero => exact absurd hfuel (Nat.not_lt_zero _)
  | succ fuel ih =>
    cases worklist with
    | nil => exact ⟨visited, rfl⟩
    | cons current worklist =>
      have hrest : ∀ n ∈ worklist, n ∈ nodes := fun n hn =>
        hworklist n (List.mem_cons_of_mem current hn)
      rw [explore]
      unfold pending at hfuel
      rw [List.length_cons] at hfuel
      split
      next =>
        refine ih hrest ?_
        unfold pending
        omega
      next hnew =>
        have hcurrent := hworklist current List.mem_cons_self
        refine ih (fun n hn => ?_) ?_
        · rcases List.mem_append.mp hn with hn | hn
          · exact hclosed current hcurrent n (List.mem_reverse.mp hn)
          · exact hrest n hn
        · -- the successors of the node move from the sum to the stack
          have hsplit : nodes.filter (· ∉ visited) =
              insert current (nodes.filter (· ∉ current :: visited)) := by
            ext n
            by_cases hn : n = current
            · subst hn
              simp [hcurrent, hnew]
            · simp [hn]
          have hnotin : current ∉ nodes.filter (· ∉ current :: visited) := by simp
          rw [hsplit, Finset.sum_insert hnotin] at hfuel
          unfold pending
          rw [List.length_append, List.length_reverse]
          omega

end Exploration

end GenMC
