import GenMC.Static.LLVMUtils
import Mathlib.Data.Fintype.Card
import Mathlib.Data.List.Chain

/-!
# Back paths

`foreachInBackPathTo` goes backwards from a block, from each block to its predecessors, until it
comes to another block, and does not enter a block twice on one path.  The paths from a latch to
the header of its loop are the iterations of the loop, read backwards, that enter no block twice
(`mem_backPaths`).
-/

namespace GenMC

/-- The blocks of a function. -/
structure BlockGraph (Fn B : Type*) where
  /-- `predecessors`. -/
  predecessors : B → List B
  instructions : B → List (ModuleInst Fn)

namespace BlockGraph

variable {Fn B : Type*} (G : BlockGraph Fn B)

/-- The blocks that are passed from the header of a loop to a latch. -/
structure IsIteration (header latch : B) (walk : List B) : Prop where
  head : walk.head? = some header
  last : walk.getLast? = some latch
  edges : walk.IsChain fun a b => a ∈ G.predecessors b
  once : header ∉ walk.tail

section

variable [DecidableEq B]

/-- `details::foreachInBackPathTo`: the paths to a block that the search finds, where the blocks of
a path have been entered.  The fuel bounds the length of the paths. -/
def foreachInBackPathTo : ℕ → B → B → List B → List (List B)
  | 0, _, _, _ => []
  | fuel + 1, curr, dest, path =>
    let path := path ++ [curr]
    if curr = dest then [path]
    else (G.predecessors curr).flatMap fun pred =>
      if pred ∈ path then [] else foreachInBackPathTo fuel pred dest path

variable [Fintype B]

/-- The back paths from one block to another one. -/
def backPaths (source dest : B) : List (List B) :=
  G.foreachInBackPathTo (Fintype.card B) source dest []

/-- The instructions that the function is applied to, with their places: in each block from the
last one to the first one. -/
def backInstructions (source dest : B) : List ((B × ℕ) × ModuleInst Fn) :=
  (G.backPaths source dest).flatMap fun path => path.flatMap fun b =>
    ((G.instructions b).zipIdx.map fun p => ((b, p.2), p.1)).reverse

variable {G}

omit [Fintype B] in
/-- With enough fuel the search finds the continuations of a path that enter no block twice. -/
lemma mem_foreachInBackPathTo {nodes : Finset B}
    (hnodes : ∀ b ∈ nodes, ∀ a ∈ G.predecessors b, a ∈ nodes) {fuel : ℕ} {curr dest : B}
    {path : List B} (hpath : path.Nodup) (hcurr : curr ∉ path)
    (hmem : ∀ b ∈ curr :: path, b ∈ nodes)
    (hfuel : nodes.card ≤ path.length + fuel) {p : List B} :
    p ∈ G.foreachInBackPathTo fuel curr dest path ↔ ∃ rest, p = path ++ rest ∧
      rest.head? = some curr ∧ rest.getLast? = some dest ∧
      rest.IsChain (fun a b => b ∈ G.predecessors a) ∧ (path ++ rest).Nodup := by
  induction fuel generalizing curr path with
  | zero =>
    -- a path without duplicates that is this long has all blocks
    have hlt := Finset.card_le_card fun b hb => hmem b (List.mem_toFinset.mp hb)
    rw [List.toFinset_card_of_nodup (List.nodup_cons.mpr ⟨hcurr, hpath⟩), List.length_cons] at hlt
    omega
  | succ fuel ih =>
    have hnodup : (path ++ [curr]).Nodup :=
      List.nodup_append.mpr ⟨hpath, List.nodup_singleton curr,
        fun a ha b hb => by
          rw [List.mem_singleton] at hb
          exact fun heq => hcurr (hb ▸ heq ▸ ha)⟩
    have hmem' : ∀ pred ∈ G.predecessors curr, ∀ b ∈ pred :: (path ++ [curr]), b ∈ nodes := by
      intro pred hpred b hb
      simp only [List.mem_cons, List.mem_append, List.not_mem_nil, or_false] at hb
      obtain rfl | hb | rfl := hb
      · exact hnodes curr (hmem curr List.mem_cons_self) b hpred
      · exact hmem b (List.mem_cons_of_mem curr hb)
      · exact hmem b List.mem_cons_self
    rw [foreachInBackPathTo]
    by_cases heq : curr = dest
    · subst heq
      rw [if_pos rfl, List.mem_singleton]
      constructor
      · rintro rfl
        exact ⟨[curr], rfl, rfl, rfl, List.isChain_singleton _, hnodup⟩
      · rintro ⟨rest, rfl, hhead, hlast, -, hrest⟩
        obtain ⟨rest, rfl⟩ := List.head?_eq_some_iff.mp hhead
        cases rest with
        | nil => rfl
        | cons b rest =>
          rw [List.getLast?_cons_cons] at hlast
          have hmem := List.mem_of_mem_getLast? hlast
          have hdup := (List.nodup_append.mp hrest).2.1
          exact absurd hmem (List.nodup_cons.mp hdup).1
    · rw [if_neg heq]
      simp only [List.mem_flatMap]
      constructor
      · rintro ⟨pred, hpred, hp⟩
        split at hp
        · exact absurd hp List.not_mem_nil
        · rename_i hnot
          obtain ⟨rest, rfl, hhead, hlast, hchain, hrest⟩ :=
            (ih hnodup hnot (hmem' pred hpred)
              (by rw [List.length_append, List.length_singleton]; omega)).mp hp
          obtain ⟨rest, rfl⟩ := List.head?_eq_some_iff.mp hhead
          refine ⟨curr :: pred :: rest, by rw [List.append_assoc]; rfl, rfl, ?_,
            List.isChain_cons_cons.mpr ⟨hpred, hchain⟩, ?_⟩
          · rwa [List.getLast?_cons_cons]
          · rwa [List.append_assoc] at hrest
      · rintro ⟨rest, rfl, hhead, hlast, hchain, hrest⟩
        obtain ⟨rest, rfl⟩ := List.head?_eq_some_iff.mp hhead
        cases rest with
        | nil => exact absurd (Option.some.inj hlast) heq
        | cons pred rest =>
          rw [List.isChain_cons_cons] at hchain
          rw [List.getLast?_cons_cons] at hlast
          have hrest' : ((path ++ [curr]) ++ pred :: rest).Nodup := by rwa [List.append_assoc]
          have hnot : pred ∉ path ++ [curr] := fun hmem =>
            (List.nodup_append.mp hrest').2.2 pred hmem pred List.mem_cons_self rfl
          refine ⟨pred, hchain.1, ?_⟩
          rw [if_neg hnot]
          refine (ih hnodup hnot (hmem' pred hchain.1)
            (by rw [List.length_append, List.length_singleton]; omega)).mpr
              ⟨pred :: rest, by rw [List.append_assoc]; rfl, rfl, hlast, hchain.2, hrest'⟩

omit [Fintype B] in
/-- With enough fuel the search finds the iterations that enter no block twice. -/
lemma mem_foreachInBackPathTo_nil {nodes : Finset B}
    (hnodes : ∀ b ∈ nodes, ∀ a ∈ G.predecessors b, a ∈ nodes) {fuel : ℕ} {header latch : B}
    (hlatch : latch ∈ nodes) (hfuel : nodes.card ≤ fuel) {p : List B} :
    p ∈ G.foreachInBackPathTo fuel latch header [] ↔
      G.IsIteration header latch p.reverse ∧ p.Nodup := by
  rw [mem_foreachInBackPathTo hnodes List.nodup_nil List.not_mem_nil
    (fun b hb => List.mem_singleton.mp hb ▸ hlatch) (by simpa using hfuel)]
  simp only [List.nil_append]
  constructor
  · rintro ⟨p, rfl, hhead, hlast, hchain, hnodup⟩
    refine ⟨⟨?_, ?_, ?_, ?_⟩, hnodup⟩
    · rw [List.head?_reverse, hlast]
    · rw [List.getLast?_reverse, hhead]
    · exact List.isChain_reverse.mpr hchain
    · have hnodup' := List.nodup_reverse.mpr hnodup
      have hne : p.reverse.head? = some header := by rw [List.head?_reverse, hlast]
      obtain ⟨rest, hrev⟩ := List.head?_eq_some_iff.mp hne
      rw [hrev] at hnodup' ⊢
      exact (List.nodup_cons.mp hnodup').1
  · rintro ⟨hiter, hnodup⟩
    refine ⟨p, rfl, ?_, ?_, ?_, hnodup⟩
    · rw [← List.getLast?_reverse, hiter.last]
    · rw [← List.head?_reverse, hiter.head]
    · exact List.isChain_reverse.mp hiter.edges

/-- The back paths from a latch to the header are the iterations that enter no block twice. -/
lemma mem_backPaths {header latch : B} {p : List B} :
    p ∈ G.backPaths latch header ↔ G.IsIteration header latch p.reverse ∧ p.Nodup :=
  mem_foreachInBackPathTo_nil (fun _ _ a _ => Finset.mem_univ a) (Finset.mem_univ latch) le_rfl

end

end BlockGraph

end GenMC
