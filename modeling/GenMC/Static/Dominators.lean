import GenMC.Static.SSAFunction

/-!
# Dominators and postdominators

What the passes ask the dominator tree and the postdominator tree.  The postdominator tree is about
blocks: its roots are the blocks from which a function is left, and some block of every infinite
loop.  Between walks over blocks and walks over instructions the lemmas here translate.
-/

namespace GenMC

/-- `DominatorTree`.  The value of a terminator is not there on all its edges, and a phi node uses
its values before its block, so that the tree need not agree there. -/
structure DominatorTree {Op : Type*} (F : SSAFunction Op) where
  /-- `dominates`. -/
  dominates : InstPos → InstPos → Bool
  sound : ∀ p q, dominates p q = true → F.SDom p q
  complete : ∀ p q, (∀ i ∈ F.inst? p, i.isTerminator = false) → (∀ i ∈ F.inst? q, i.isPhi = false) →
    F.SDom p q → dominates p q = true

namespace SSAFunction

variable {Op : Type*} (F : SSAFunction Op)

/-- A terminator leads from one block to another one. -/
def BlockEdge (a b : ℕ) : Prop :=
  ∃ j i, F.inst? ⟨a, j⟩ = some i ∧ i.isTerminator = true ∧ b ∈ i.targets

/-- Every block ends with its only terminator, and terminators go to blocks. -/
structure Terminated : Prop where
  terminator : ∀ b < F.blocks.length, ∃ j i, F.inst? ⟨b, j⟩ = some i ∧ i.isTerminator = true
  last : ∀ b j i, F.inst? ⟨b, j⟩ = some i → i.isTerminator = true → ∀ k, j < k →
    F.inst? ⟨b, k⟩ = none
  targets : ∀ p i, F.inst? p = some i → ∀ t ∈ i.targets, t < F.blocks.length

/-- The terminator of one of the blocks. -/
def IsExit (roots : Set ℕ) (p : InstPos) : Prop :=
  p.block ∈ roots ∧ ∃ i, F.inst? p = some i ∧ i.isTerminator = true

end SSAFunction

/-- `PostDominatorTree`. -/
structure PostDominatorTree {Op : Type*} (F : SSAFunction Op) where
  /-- The blocks that are left for the end of the function, and some of each infinite loop. -/
  roots : Set ℕ
  /-- `dominates`. -/
  dominates : ℕ → ℕ → Bool
  exits : ∀ p i, F.inst? p = some i → i.isTerminator = true → i.targets = [] → p.block ∈ roots
  reaches : ∀ b < F.blocks.length, ∃ r ∈ roots, r < F.blocks.length ∧
    Relation.ReflTransGen F.BlockEdge b r
  dominates_iff : ∀ a b, dominates a b = true ↔
    ∀ r ∈ roots, r = a ∨ Dominance.StrictlyDominates F.BlockEdge b a r

namespace SSAFunction

open Dominance

variable {Op : Type*} {F : SSAFunction Op}

/-- A block that has an instruction. -/
lemma lt_length_of_inst {p : InstPos} {i : SSAInst Op} (h : F.inst? p = some i) :
    p.block < F.blocks.length := by
  obtain ⟨is, his, -⟩ := Option.bind_eq_some_iff.mp h
  exact (List.getElem?_eq_some_iff.mp his).1

/-- There are no gaps in a block. -/
lemma exists_inst_of_le {b j k : ℕ} {i : SSAInst Op} (h : F.inst? ⟨b, k⟩ = some i) (hle : j ≤ k) :
    ∃ i', F.inst? ⟨b, j⟩ = some i' := by
  obtain ⟨is, his, hk⟩ := Option.bind_eq_some_iff.mp h
  obtain ⟨hlt, -⟩ := List.getElem?_eq_some_iff.mp hk
  exact ⟨_, Option.bind_eq_some_iff.mpr ⟨is, his, List.getElem?_eq_getElem (hle.trans_lt hlt)⟩⟩

namespace Terminated

/-- Only the last instruction of a block is a terminator. -/
lemma isTerminator_eq_false (hF : F.Terminated) {b j k : ℕ} {i i' : SSAInst Op}
    (hj : F.inst? ⟨b, j⟩ = some i) (hk : F.inst? ⟨b, k⟩ = some i') (hlt : j < k) :
    i.isTerminator = false := by
  cases hterm : i.isTerminator with
  | false => rfl
  | true =>
    rw [hF.last b j i hj hterm k hlt] at hk
    cases hk

/-- The terminator of a block comes after other instructions. -/
lemma index_lt (hF : F.Terminated) {p q : InstPos} {i i' : SSAInst Op} (hp : F.inst? p = some i)
    (hterm : i.isTerminator = false) (hq : F.inst? q = some i') (hterm' : i'.isTerminator = true)
    (hblock : q.block = p.block) : p.index < q.index := by
  obtain ⟨b, j⟩ := p
  obtain ⟨b', k⟩ := q
  obtain rfl : b' = b := hblock
  obtain hlt | heq | hlt := Nat.lt_trichotomy j k
  · exact hlt
  · obtain rfl : j = k := heq
    obtain rfl := Option.some.inj (hp.symm.trans hq)
    rw [hterm] at hterm'
    cases hterm'
  · rw [hF.last b' k i' hq hterm' j hlt] at hp
    cases hp

/-- The walk inside of a block. -/
lemma avoids_of_le (hF : F.Terminated) {e : InstPos} {b j k : ℕ} {i : SSAInst Op}
    (hk : F.inst? ⟨b, k⟩ = some i) (hle : j ≤ k)
    (he : ∀ l, j ≤ l → l < k → (⟨b, l⟩ : InstPos) ≠ e) :
    Avoids F.Edge ⟨b, j⟩ e ⟨b, k⟩ := by
  induction k, hle using Nat.le_induction generalizing i with
  | base => exact .root
  | succ k hle ih =>
    obtain ⟨i', hi'⟩ := exists_inst_of_le hk (Nat.le_succ k)
    have hterm := hF.isTerminator_eq_false hi' hk (Nat.lt_succ_self k)
    refine .step (ih hi' fun l hl hlt => he l hl (hlt.trans (Nat.lt_succ_self k)))
      (he k hle (Nat.lt_succ_self k)) ⟨i', hi', ?_⟩
    rw [hterm]
    exact rfl

/-- The walk to the end of a block, and to a next one. -/
lemma avoids_of_blockEdge (hF : F.Terminated) {e : InstPos} {a b j : ℕ} {i : SSAInst Op}
    (hj : F.inst? ⟨a, j⟩ = some i) (hae : a ≠ e.block) (hedge : F.BlockEdge a b) :
    Avoids F.Edge ⟨a, j⟩ e ⟨b, 0⟩ := by
  obtain ⟨k, i', hi', hterm, hb⟩ := hedge
  have hle : j ≤ k := by
    by_contra hlt
    rw [hF.last a k i' hi' hterm j (not_le.mp hlt)] at hj
    cases hj
  have hne : ∀ l, (⟨a, l⟩ : InstPos) ≠ e := fun l heq => hae (congrArg InstPos.block heq)
  refine .step (hF.avoids_of_le hi' hle fun l _ _ => hne l) (hne k) ⟨i', hi', ?_⟩
  rw [hterm]
  exact ⟨b, hb, rfl⟩

/-- A walk over blocks is one over their instructions. -/
lemma avoids_of_blocks (hF : F.Terminated) {e p : InstPos} {i : SSAInst Op}
    (hp : F.inst? p = some i) {b : ℕ} (h : Avoids F.BlockEdge p.block e.block b) :
    b = p.block ∨ Avoids F.Edge p e ⟨b, 0⟩ := by
  induction h with
  | root => exact .inl rfl
  | @step a b _ hne hedge ih =>
    refine .inr ?_
    obtain rfl | ih := ih
    · exact hF.avoids_of_blockEdge hp hne hedge
    · have hedge' := hedge
      obtain ⟨j, i', hi', -⟩ := hedge'
      obtain ⟨i₀, hi₀⟩ := exists_inst_of_le hi' (Nat.zero_le j)
      exact ih.append (hF.avoids_of_blockEdge hi₀ hne hedge)

/-- From every instruction of a block walks lead to its terminator. -/
lemma exists_terminator (hF : F.Terminated) {b j : ℕ} {i : SSAInst Op}
    (hj : F.inst? ⟨b, j⟩ = some i) :
    ∃ k i', F.inst? ⟨b, k⟩ = some i' ∧ i'.isTerminator = true ∧
      ∀ e : InstPos, b ≠ e.block → Avoids F.Edge ⟨b, j⟩ e ⟨b, k⟩ := by
  obtain ⟨k, i', hi', hterm⟩ := hF.terminator b (lt_length_of_inst hj)
  have hle : j ≤ k := by
    by_contra hlt
    rw [hF.last b k i' hi' hterm j (not_le.mp hlt)] at hj
    cases hj
  exact ⟨k, i', hi', hterm, fun e he => hF.avoids_of_le hi' hle fun l _ _ heq =>
    he (congrArg InstPos.block heq)⟩

/-- The first instruction of a block that a terminator goes to. -/
lemma exists_first (hF : F.Terminated) {a b : ℕ} (h : F.BlockEdge a b) :
    ∃ i, F.inst? ⟨b, 0⟩ = some i := by
  obtain ⟨j, i, hi, -, hb⟩ := h
  obtain ⟨k, i', hi', -⟩ := hF.terminator b (hF.targets _ i hi b hb)
  exact exists_inst_of_le hi' (Nat.zero_le k)

/-- From every instruction walks lead to exits. -/
lemma exists_exit (hF : F.Terminated) (T : PostDominatorTree F) {b j : ℕ} {i : SSAInst Op}
    (hj : F.inst? ⟨b, j⟩ = some i) :
    ∃ q, F.IsExit T.roots q ∧ Relation.ReflTransGen F.Edge ⟨b, j⟩ q := by
  obtain ⟨r, hr, -, hwalk⟩ := T.reaches b (lt_length_of_inst hj)
  induction hwalk using Relation.ReflTransGen.head_induction_on generalizing j i with
  | refl =>
    obtain ⟨k, i', hi', hterm, havoids⟩ := hF.exists_terminator hj
    exact ⟨⟨r, k⟩, ⟨hr, i', hi', hterm⟩, (havoids ⟨r + 1, 0⟩ (Nat.succ_ne_self r).symm).reachable⟩
  | @head a c hedge _ ih =>
    obtain ⟨i₀, hi₀⟩ := hF.exists_first hedge
    obtain ⟨q, hq, hcq⟩ := ih hi₀
    have hne : a ≠ (⟨a + 1, 0⟩ : InstPos).block := (Nat.succ_ne_self a).symm
    exact ⟨q, hq, (hF.avoids_of_blockEdge hj hne hedge).reachable.trans hcq⟩

/-- **Postdominance of blocks** follows from the one of instructions. -/
lemma postDominates_of_inst (hF : F.Terminated) (T : PostDominatorTree F) {b e : InstPos}
    {i : SSAInst Op} (hb : F.inst? b = some i)
    (h : ∀ q, F.IsExit T.roots q → StrictlyDominates F.Edge b e q) :
    T.dominates e.block b.block = true := by
  rw [T.dominates_iff]
  intro r hr
  by_cases hre : r = e.block
  · exact .inl hre
  refine .inr fun hwalk => ?_
  -- a walk over blocks without the one of `e` is one over instructions without `e`
  obtain ⟨j, i', hi', havoids⟩ : ∃ j i', F.inst? ⟨r, j⟩ = some i' ∧ Avoids F.Edge b e ⟨r, j⟩ := by
    obtain rfl | havoids := hF.avoids_of_blocks hb hwalk
    · exact ⟨b.index, i, hb, .root⟩
    · cases hwalk with
      | root => exact ⟨b.index, i, hb, .root⟩
      | step _ _ hedge =>
        obtain ⟨i₀, hi₀⟩ := hF.exists_first hedge
        exact ⟨0, i₀, hi₀, havoids⟩
  obtain ⟨k, i'', hi'', hterm, hend⟩ := hF.exists_terminator hi'
  exact h ⟨r, k⟩ ⟨hr, i'', hi'', hterm⟩ (havoids.append (hend e hre))

/-- **Postdominance of instructions** follows from the one of blocks, after a dominator. -/
lemma strictlyDominates_of_postDominates (hF : F.Terminated) (T : PostDominatorTree F)
    {b e : InstPos} {i : SSAInst Op} (hdom : F.SDom b e) (hreached : F.Reached e)
    (he : F.inst? e = some i) (hterm : i.isTerminator = false)
    (h : T.dominates e.block b.block = true) {q : InstPos} (hq : F.IsExit T.roots q) :
    StrictlyDominates F.Edge b e q := by
  intro hwalk
  -- the walk stays before `e` in its block
  have hbefore : ∀ p, Avoids F.Edge b e p → Avoids F.BlockEdge b.block e.block p.block ∧
      (p.block = e.block → p.index ≤ e.index) := by
    intro p hp
    induction hp with
    | root =>
      refine ⟨.root, fun hblock => ?_⟩
      by_contra hlt
      obtain ⟨block, index⟩ := b
      obtain rfl : block = e.block := hblock
      exact hdom.asymm (sDom_of_lt (not_le.mp hlt)) hreached hdom
    | @step p p' _ hne hedge ih =>
      obtain ⟨i', hi', hnext⟩ := hedge
      cases hterm' : i'.isTerminator with
      | false =>
        rw [hterm', if_neg Bool.false_ne_true] at hnext
        subst hnext
        refine ⟨ih.1, fun hblock => ?_⟩
        have hle := ih.2 hblock
        have hindex : p.index ≠ e.index := fun hindex => hne (by
          obtain ⟨block, index⟩ := p
          obtain rfl : block = e.block := hblock
          obtain rfl : index = e.index := hindex
          rfl)
        exact lt_of_le_of_ne hle hindex
      | true =>
        rw [hterm', if_pos rfl] at hnext
        obtain ⟨t, ht, rfl⟩ := hnext
        refine ⟨.step ih.1 (fun hblock => ?_) ⟨p.index, i', hi', hterm', ht⟩,
          fun _ => Nat.zero_le _⟩
        exact absurd (ih.2 hblock) (not_le.mpr (hF.index_lt he hterm hi' hterm' hblock))
  obtain ⟨hroot, i', hi', hterm'⟩ := hq
  obtain ⟨hblocks, hindex⟩ := hbefore q hwalk
  obtain hblock | hblock := (T.dominates_iff _ _).mp h q.block hroot
  · exact absurd (hindex hblock) (not_le.mpr (hF.index_lt he hterm hi' hterm' hblock))
  · exact hblock hblocks

end Terminated

end SSAFunction

end GenMC
