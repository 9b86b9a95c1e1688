import GenMC.Static.BackPaths

/-!
# The effect test for spin loops

An iteration of a spin loop may be cut off if it has no effects.  The test looks at the
instructions on the back paths from a latch to the header: compare-exchanges are left to a test of
their own, stores may be local, and all other instructions must be free of side effects.

The back paths enter no block twice.  A block that is executed only in iterations that enter some
block more than once, as the body of an inner loop is, lies on none of them; the answer is right if
and only if such blocks have no effects either (`isPathToHeaderEffectFree_sound_iff`).
-/

namespace GenMC

namespace BlockGraph

variable {Fn B : Type*} [DecidableEq Fn] [DecidableEq B]

/-- What the test asks about a module: the names of its functions, the functions without side
effects, the stores that are local, and whether a set of compare-exchanges leads to the header if
they fail. -/
structure SpinAssumeContext (Fn B : Type*) where
  name : Fn → String
  cleanSet : Finset Fn
  isStoreLocal : B × ℕ → Bool
  failedCASesLeadToHeader : Finset (B × ℕ) → Bool

variable (ctx : SpinAssumeContext Fn B) (G : BlockGraph Fn B)

/-- Whether an instruction is a compare-exchange. -/
def isCAS (place : (B × ℕ) × ModuleInst Fn) : Bool := place.2 = .atomicCmpXchg

/-- Whether an instruction contributes to `effects`: compare-exchanges and local stores do not. -/
def hasEffects (place : (B × ℕ) × ModuleInst Fn) : Bool :=
  match place with
  | (_, .atomicCmpXchg) => false
  | (pos, .store) =>
    !ctx.isStoreLocal pos && ModuleInst.hasSideEffects ctx.name .store (some ctx.cleanSet)
  | (_, i) => i.hasSideEffects ctx.name (some ctx.cleanSet)

variable [Fintype B]

/-- `isPathToHeaderEffectFree`, with the new value of `checkDynamically`. -/
def isPathToHeaderEffectFree (latch header : B) (checkDynamically : Bool) : Bool × Bool :=
  let insts := G.backInstructions latch header
  let effects := insts.any (hasEffects ctx)
  let cass := ((insts.filter isCAS).map Prod.fst).toFinset
  if effects then (false, true)
  else
    let casOK := if cass = ∅ then true else ctx.failedCASesLeadToHeader cass
    (casOK, checkDynamically || !casOK)

variable {G} {header latch : B}

omit [DecidableEq Fn] [DecidableEq B] [Fintype B] in
/-- The places of a block and their instructions. -/
lemma mem_zipIdx_instructions {b : B} {pos : B × ℕ} {i : ModuleInst Fn} :
    (pos, i) ∈ ((G.instructions b).zipIdx.map fun p => ((b, p.2), p.1)).reverse ↔
      pos.1 = b ∧ (G.instructions b)[pos.2]? = some i := by
  obtain ⟨b', n⟩ := pos
  simp only [List.mem_reverse, List.mem_map, Prod.exists, List.mem_zipIdx_iff_getElem?,
    Prod.mk.injEq]
  constructor
  · rintro ⟨i', n', hget, ⟨rfl, rfl⟩, rfl⟩
    exact ⟨rfl, hget⟩
  · rintro ⟨rfl, hget⟩
    exact ⟨i, n, hget, ⟨rfl, rfl⟩, rfl⟩

variable (G header latch)

/-- A block is entered in an iteration. -/
def Entered (b : B) : Prop := ∃ walk, G.IsIteration header latch walk ∧ b ∈ walk

/-- A block is entered in an iteration that enters no block twice. -/
def SimplyEntered (b : B) : Prop := ∃ walk, G.IsIteration header latch walk ∧ walk.Nodup ∧ b ∈ walk

variable {G header latch}

omit [DecidableEq Fn] in
/-- The test looks at the blocks of the iterations that enter no block twice. -/
lemma mem_backInstructions {pos : B × ℕ} {i : ModuleInst Fn} :
    (pos, i) ∈ G.backInstructions latch header ↔
      G.SimplyEntered header latch pos.1 ∧ (G.instructions pos.1)[pos.2]? = some i := by
  rw [backInstructions]
  simp only [List.mem_flatMap, mem_zipIdx_instructions, mem_backPaths]
  constructor
  · rintro ⟨path, ⟨hiter, hnodup⟩, b, hb, rfl, hget⟩
    exact ⟨⟨path.reverse, hiter, List.nodup_reverse.mpr hnodup, List.mem_reverse.mpr hb⟩, hget⟩
  · rintro ⟨⟨walk, hiter, hnodup, hmem⟩, hget⟩
    refine ⟨walk.reverse, ⟨?_, List.nodup_reverse.mpr hnodup⟩, pos.1, List.mem_reverse.mpr hmem,
      rfl, hget⟩
    rwa [List.reverse_reverse]

omit [DecidableEq B] [Fintype B] in
/-- An instruction without effects is a compare-exchange, a local store, or free of side
effects. -/
lemma hasEffects_eq_false_iff {pos : B × ℕ} {i : ModuleInst Fn} :
    hasEffects ctx (pos, i) = false ↔ (i ≠ .atomicCmpXchg →
      i.hasSideEffects ctx.name (some ctx.cleanSet) = false ∨
        (i = .store ∧ ctx.isStoreLocal pos = true)) := by
  cases i with
  | atomicCmpXchg => simp [hasEffects]
  | store =>
    cases hlocal : ctx.isStoreLocal pos <;>
      simp [hasEffects, hlocal]
  | _ => simp [hasEffects]

variable (G header latch)

/-- Every instruction that an iteration executes, other than a compare-exchange, is free of side
effects or a local store. -/
def IterationsEffectFree : Prop :=
  ∀ walk, G.IsIteration header latch walk → ∀ b ∈ walk, ∀ (n : ℕ) (i : ModuleInst Fn),
    (G.instructions b)[n]? = some i → i ≠ .atomicCmpXchg →
      i.hasSideEffects ctx.name (some ctx.cleanSet) = false ∨
        (i = .store ∧ ctx.isStoreLocal (b, n) = true)

/-- Some iteration that enters no block twice has an effect. -/
def SimpleIterationHasEffects : Prop :=
  ∃ b, G.SimplyEntered header latch b ∧ ∃ (n : ℕ) (i : ModuleInst Fn),
    (G.instructions b)[n]? = some i ∧ hasEffects ctx ((b, n), i) = true

/-- The compare-exchanges of the iterations that enter no block twice need not lead to the
header. -/
def SimpleCASesRefused : Prop :=
  ∃ cass : Finset (B × ℕ), cass.Nonempty ∧ (∀ pos, pos ∈ cass ↔
    G.SimplyEntered header latch pos.1 ∧ (G.instructions pos.1)[pos.2]? = some .atomicCmpXchg) ∧
      ctx.failedCASesLeadToHeader cass = false

/-- The blocks that are entered only in iterations that enter some block twice have no effects. -/
def RepeatedBlocksEffectFree : Prop :=
  ∀ b, G.Entered header latch b → ¬G.SimplyEntered header latch b →
    ∀ (n : ℕ) (i : ModuleInst Fn), (G.instructions b)[n]? = some i →
      hasEffects ctx ((b, n), i) = false

variable {ctx G header latch}

lemma any_hasEffects_iff :
    (G.backInstructions latch header).any (hasEffects ctx) = true ↔
      G.SimpleIterationHasEffects ctx header latch := by
  rw [List.any_eq_true]
  constructor
  · rintro ⟨⟨pos, i⟩, hmem, heffects⟩
    obtain ⟨hentered, hget⟩ := mem_backInstructions.mp hmem
    exact ⟨pos.1, hentered, pos.2, i, hget, heffects⟩
  · rintro ⟨b, hentered, n, i, hget, heffects⟩
    exact ⟨((b, n), i), mem_backInstructions.mpr ⟨hentered, hget⟩, heffects⟩

lemma mem_casPositions {pos : B × ℕ} :
    pos ∈ (((G.backInstructions latch header).filter isCAS).map Prod.fst).toFinset ↔
      G.SimplyEntered header latch pos.1 ∧
        (G.instructions pos.1)[pos.2]? = some .atomicCmpXchg := by
  simp only [List.mem_toFinset, List.mem_map, List.mem_filter, Prod.exists, exists_and_right,
    exists_eq_right]
  constructor
  · rintro ⟨i, hmem, hcas⟩
    obtain ⟨hentered, hget⟩ := mem_backInstructions.mp hmem
    obtain rfl : i = .atomicCmpXchg := of_decide_eq_true hcas
    exact ⟨hentered, hget⟩
  · rintro ⟨hentered, hget⟩
    exact ⟨.atomicCmpXchg, mem_backInstructions.mpr ⟨hentered, hget⟩, rfl⟩

/-- The answer of the test, by the iterations that enter no block twice. -/
lemma isPathToHeaderEffectFree_fst (checkDynamically : Bool) :
    (isPathToHeaderEffectFree ctx G latch header checkDynamically).1 = true ↔
      ¬G.SimpleIterationHasEffects ctx header latch ∧ ¬G.SimpleCASesRefused ctx header latch := by
  rw [isPathToHeaderEffectFree]
  by_cases heffects : (G.backInstructions latch header).any (hasEffects ctx) = true
  · simp [heffects, any_hasEffects_iff.mp heffects]
  have hnone : ¬G.SimpleIterationHasEffects ctx header latch :=
    fun h => heffects (any_hasEffects_iff.mpr h)
  rw [and_iff_right hnone]
  simp only [if_neg heffects]
  generalize hcass : (((G.backInstructions latch header).filter isCAS).map Prod.fst).toFinset = cass
  have hmem : ∀ pos, pos ∈ cass ↔ G.SimplyEntered header latch pos.1 ∧
      (G.instructions pos.1)[pos.2]? = some .atomicCmpXchg := fun pos => by
    rw [← hcass]
    exact mem_casPositions
  have huniq : ∀ cass' : Finset (B × ℕ), (∀ pos, pos ∈ cass' ↔
      G.SimplyEntered header latch pos.1 ∧
        (G.instructions pos.1)[pos.2]? = some .atomicCmpXchg) → cass' = cass :=
    fun cass' h => Finset.ext fun pos => (h pos).trans (hmem pos).symm
  split
  · rename_i hempty
    refine iff_of_true rfl ?_
    rintro ⟨cass', hne, h, -⟩
    rw [huniq cass' h, hempty] at hne
    exact Finset.not_nonempty_empty hne
  · rename_i hempty
    constructor
    · rintro hok ⟨cass', -, h, hfail⟩
      rw [huniq cass' h, hok] at hfail
      cases hfail
    · intro h
      by_contra hfail
      exact h ⟨cass, Finset.nonempty_iff_ne_empty.mpr hempty, hmem,
        Bool.eq_false_of_not_eq_true hfail⟩

omit [DecidableEq B] [Fintype B] in
lemma iterationsEffectFree_iff :
    G.IterationsEffectFree ctx header latch ↔ ∀ b, G.Entered header latch b →
      ∀ (n : ℕ) (i : ModuleInst Fn), (G.instructions b)[n]? = some i →
        hasEffects ctx ((b, n), i) = false := by
  constructor
  · rintro h b ⟨walk, hiter, hb⟩ n i hget
    exact (hasEffects_eq_false_iff ctx).mpr (h walk hiter b hb n i hget)
  · intro h walk hiter b hb n i hget
    exact (hasEffects_eq_false_iff ctx).mp (h b ⟨walk, hiter, hb⟩ n i hget)

/-- A positive answer is right if and only if an effect or a refused compare-exchange of an
iteration that enters no block twice makes the answer negative, or the blocks that only the other
iterations enter have no effects. -/
theorem isPathToHeaderEffectFree_sound_iff (ctx : SpinAssumeContext Fn B) (G : BlockGraph Fn B)
    (header latch : B) (checkDynamically : Bool) :
    ((isPathToHeaderEffectFree ctx G latch header checkDynamically).1 = true →
        G.IterationsEffectFree ctx header latch) ↔
      G.SimpleIterationHasEffects ctx header latch ∨ G.SimpleCASesRefused ctx header latch ∨
        G.RepeatedBlocksEffectFree ctx header latch := by
  rw [isPathToHeaderEffectFree_fst, iterationsEffectFree_iff]
  constructor
  · intro h
    by_cases heffects : G.SimpleIterationHasEffects ctx header latch
    · exact .inl heffects
    by_cases hrefused : G.SimpleCASesRefused ctx header latch
    · exact .inr (.inl hrefused)
    · exact .inr (.inr fun b hb _ => h ⟨heffects, hrefused⟩ b hb)
  · rintro (h | h | h) ⟨heffects, hrefused⟩ b hb n i hget
    · exact absurd h heffects
    · exact absurd h hrefused
    · by_cases hsimple : G.SimplyEntered header latch b
      · -- the test has seen the block
        by_contra heff
        exact heffects ⟨b, hsimple, n, i, hget, Bool.eq_true_of_not_eq_false heff⟩
      · exact h b hb hsimple n i hget

/-- A loop with the header 0 and the latch 1, where block 1 has an inner loop through block 2 that
stores; block 3 enters the loop. -/
def innerStoreLoop : BlockGraph Empty (Fin 4) where
  predecessors
    | 0 => [3, 1]
    | 1 => [0, 2]
    | 2 => [1]
    | 3 => []
  instructions
    | 1 => [.load false, .other false]
    | 2 => [.store, .other false]
    | _ => [.other false]

/-- No function is called, and no store is local. -/
def sharedStores : SpinAssumeContext Empty (Fin 4) where
  name _ := ""
  cleanSet := ∅
  isStoreLocal _ := false
  failedCASesLeadToHeader _ := true

/-- The test accepts the loop, though an iteration can go round the inner loop and store. -/
theorem isPathToHeaderEffectFree_innerStoreLoop :
    (isPathToHeaderEffectFree sharedStores innerStoreLoop 1 0 false).1 = true ∧
      ¬innerStoreLoop.IterationsEffectFree sharedStores 0 1 := by
  refine ⟨by decide, fun h => ?_⟩
  have hiter : innerStoreLoop.IsIteration 0 1 [0, 1, 2, 1] :=
    ⟨rfl, rfl, by decide, by decide⟩
  have hstore := h _ hiter 2 (by decide) 0 .store rfl (by decide)
  exact absurd hstore (by decide)

end BlockGraph

end GenMC
