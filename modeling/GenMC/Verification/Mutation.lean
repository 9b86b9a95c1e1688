import GenMC.Lib.WeightedDraws
import GenMC.Verification.ChoiceMap

/-!
# The options for mutations

After an execution the fuzzer mutates its graph.  `calcMutationOptions` collects the pairs of a read
and a store from the choice map, draws some of them by their weights, and makes a new graph of every
pair that it draws.  `calcMutationOptions_spec` says which pairs these can be.  It needs that no
store is listed twice for a read and that no weight is negative, and
`updateStSpaceChoicesWeights`, which runs at the end of every execution, ensures both.
-/

namespace GenMC

/-- `MutationPolicy`. -/
inductive MutationPolicy where
  | noMutation
  | revisitCut
deriving DecidableEq

/-- The order of the pairs in a set of choices: threads, indices and weights are compared. -/
def choiceKey (p : Event × ℤ) : ℕ ×ₗ ℕ ×ₗ ℤ := toLex (p.1.thread, toLex (p.1.index, p.2))

/-- Different choices are not equivalent in the order. -/
lemma choiceKey_injective : Function.Injective choiceKey := by
  rintro ⟨⟨t, i⟩, w⟩ ⟨⟨t', i'⟩, w'⟩ h
  obtain ⟨rfl, h⟩ := Prod.ext_iff.mp (toLex.injective h)
  obtain ⟨rfl, rfl⟩ := Prod.ext_iff.mp (toLex.injective h)
  rfl

namespace ExecutionGraph

variable (g : ExecutionGraph) (choices : ChoiceMap)

/-- The options of one label: if it is a read, its choices except for its source, which is looked up
for every choice. -/
def revsOf (e : Event) : Option (List ((Event × Event) × ℤ)) :=
  if g.isa LabelBody.isRead e then
    match sortedBy choiceKey_injective (choices.choicesAt (g.stampOf e)) with
    | [] => some []
    | cs => (g.rfOf e).map fun rf =>
        (cs.filter fun p => p.1 ≠ rf).map fun p => ((e, p.1), p.2)
  else some []

/-- `revs`: all options that lead to a different graph, with their weights. -/
def mutationRevs : Option (List ((Event × Event) × ℤ)) :=
  (g.insertionOrder.mapM (g.revsOf choices)).map List.flatten

/-- `calcMutationOptions`, where `draw` stands for the random numbers and `populateTodos` for what
is made of a pair. -/
def calcMutationOptions {τ : Type*} (mutation : MutationPolicy) (bound : Option ℕ)
    (draw : ℕ → List ℤ → ℕ) (populateTodos : Event → Event → τ) : Option (List τ) :=
  if mutation = .noMutation then some []
  else (g.mutationRevs choices).bind fun revs =>
    let n := match bound with
      | some bound => min bound revs.length
      | none => revs.length
    (drawIndices draw n (revs.map Prod.snd)).mapM fun idx =>
      revs[idx]?.map fun rev => populateTodos rev.1.1 rev.1.2

/-- A pair of a read and one of its choices, with a non-zero weight, that is not its source. -/
def Eligible (r s : Event) : Prop :=
  g.isa LabelBody.isRead r ∧ g.rfOf r ≠ some s ∧
    ∃ w, (s, w) ∈ choices.choicesAt (g.stampOf r) ∧ w ≠ 0

/-- The eligible pairs of a graph. -/
def eligiblePairs : Finset (Event × Event) :=
  (g.insertionOrder.toFinset.filter fun r => g.isa LabelBody.isRead r).biUnion fun r =>
    ((choices.choicesAt (g.stampOf r)).filter fun p => g.rfOf r ≠ some p.1 ∧ p.2 ≠ 0).image
      fun p => (r, p.1)

/-- The choices of the reads, as the driver has them at the end of an execution. -/
structure Weighted : Prop where
  /-- Reads with choices read from something. -/
  source : ∀ r ∈ g.insertionOrder, g.isa LabelBody.isRead r →
    (choices.choicesAt (g.stampOf r)).Nonempty → (g.rfOf r).isSome
  /-- No store is listed twice for a read. -/
  once : ∀ r ∈ g.insertionOrder, g.isa LabelBody.isRead r →
    ∀ p ∈ choices.choicesAt (g.stampOf r), ∀ q ∈ choices.choicesAt (g.stampOf r), p.1 = q.1 → p = q
  /-- No weight of a read is negative. -/
  nonneg : ∀ r ∈ g.insertionOrder, g.isa LabelBody.isRead r →
    ∀ p ∈ choices.choicesAt (g.stampOf r), 0 ≤ p.2

variable {g choices}

/-- The eligible pairs. -/
lemma mem_eligiblePairs_iff {p : Event × Event} :
    p ∈ g.eligiblePairs choices ↔ p.1 ∈ g.insertionOrder ∧ g.Eligible choices p.1 p.2 := by
  obtain ⟨r, s⟩ := p
  unfold eligiblePairs Eligible
  simp only [Finset.mem_biUnion, Finset.mem_filter, List.mem_toFinset, Finset.mem_image,
    Prod.exists, Prod.mk.injEq]
  constructor
  · rintro ⟨r', ⟨hr, hread⟩, s', w, ⟨hmem, hrf, hw⟩, rfl, rfl⟩
    exact ⟨hr, hread, hrf, w, hmem, hw⟩
  · rintro ⟨hr, hread, hrf, w, hmem, hw⟩
    exact ⟨r, ⟨hr, hread⟩, s, w, ⟨hmem, hrf, hw⟩, rfl, rfl⟩

/-- The options of a label are the choices of a read except for its source. -/
lemma Weighted.revsOf_spec (h : g.Weighted choices) {e : Event} (he : e ∈ g.insertionOrder) :
    ∃ revs, g.revsOf choices e = some revs ∧ (revs.map Prod.fst).Nodup ∧
      ∀ rev, rev ∈ revs ↔ rev.1.1 = e ∧ g.isa LabelBody.isRead e ∧ g.rfOf e ≠ some rev.1.2 ∧
        (rev.1.2, rev.2) ∈ choices.choicesAt (g.stampOf e) := by
  unfold revsOf
  split
  next hread =>
    have hmem {p : Event × ℤ} : p ∈ sortedBy choiceKey_injective (choices.choicesAt (g.stampOf e)) ↔
        p ∈ choices.choicesAt (g.stampOf e) := mem_sortedBy _ _
    have hnodup := nodup_sortedBy choiceKey_injective (choices.choicesAt (g.stampOf e))
    revert hmem hnodup
    cases sortedBy choiceKey_injective (choices.choicesAt (g.stampOf e)) with
    | nil =>
      intro hmem _
      refine ⟨[], rfl, List.nodup_nil, fun rev => iff_of_false List.not_mem_nil fun hrev => ?_⟩
      exact List.not_mem_nil (hmem.mpr hrev.2.2.2)
    | cons c cs =>
      intro hmem hnodup
      obtain ⟨rf, hrf⟩ := Option.isSome_iff_exists.mp
        (h.source e he hread ⟨c, hmem.mp List.mem_cons_self⟩)
      rw [hrf]
      refine ⟨_, rfl, ?_, fun rev => ?_⟩
      · rw [List.map_map]
        refine List.Nodup.map_on (fun p hp q hq hpq => ?_) (hnodup.filter _)
        exact h.once e he hread p (hmem.mp (List.mem_of_mem_filter hp)) q
          (hmem.mp (List.mem_of_mem_filter hq)) (Prod.ext_iff.mp hpq).2
      · obtain ⟨⟨r, s⟩, w⟩ := rev
        rw [List.mem_map]
        constructor
        · rintro ⟨p, hp, heq⟩
          obtain ⟨hp, hne⟩ := List.mem_filter.mp hp
          cases heq
          exact ⟨rfl, hread, fun hs => of_decide_eq_true hne (Option.some.inj hs).symm, hmem.mp hp⟩
        · rintro ⟨rfl, -, hne, hchoice⟩
          refine ⟨(s, w), List.mem_filter.mpr ⟨hmem.mpr hchoice, decide_eq_true fun hs => ?_⟩, rfl⟩
          exact hne (congrArg some hs.symm)
  next hread =>
    refine ⟨[], rfl, List.nodup_nil, fun rev => iff_of_false List.not_mem_nil fun hrev => ?_⟩
    exact hread hrev.2.1

/-- **The collected options** are the choices of the reads except for their sources, each listed
once. -/
lemma Weighted.mutationRevs_spec (h : g.Weighted choices) (horder : g.insertionOrder.Nodup) :
    ∃ revs, g.mutationRevs choices = some revs ∧ (revs.map Prod.fst).Nodup ∧
      ∀ rev, rev ∈ revs ↔ rev.1.1 ∈ g.insertionOrder ∧ g.isa LabelBody.isRead rev.1.1 ∧
        g.rfOf rev.1.1 ≠ some rev.1.2 ∧
        (rev.1.2, rev.2) ∈ choices.choicesAt (g.stampOf rev.1.1) := by
  have hlabel : ∀ e ∈ g.insertionOrder, g.revsOf choices e =
      some ((g.revsOf choices e).getD []) := by
    intro e he
    obtain ⟨revs, hrevs, -, -⟩ := h.revsOf_spec he
    rw [hrevs]
    rfl
  have hspec : ∀ e ∈ g.insertionOrder, (((g.revsOf choices e).getD []).map Prod.fst).Nodup ∧
      ∀ rev, rev ∈ (g.revsOf choices e).getD [] ↔ rev.1.1 = e ∧ g.isa LabelBody.isRead e ∧
        g.rfOf e ≠ some rev.1.2 ∧ (rev.1.2, rev.2) ∈ choices.choicesAt (g.stampOf e) := by
    intro e he
    obtain ⟨revs, hrevs, hnodup, hmem⟩ := h.revsOf_spec he
    rw [hrevs]
    exact ⟨hnodup, hmem⟩
  refine ⟨g.insertionOrder.flatMap fun e => (g.revsOf choices e).getD [], ?_, ?_, fun rev => ?_⟩
  · unfold mutationRevs
    rw [PartialRun.mapM_eq_some_map hlabel]
    rfl
  · rw [List.map_flatMap]
    refine List.nodup_flatMap.mpr ⟨fun e he => (hspec e he).1, ?_⟩
    refine horder.imp_of_mem fun {e e'} he he' hne => List.disjoint_left.mpr fun p hp hp' => hne ?_
    obtain ⟨rev, hrev, rfl⟩ := List.mem_map.mp hp
    obtain ⟨rev', hrev', heq⟩ := List.mem_map.mp hp'
    rw [← (((hspec e he).2 rev).mp hrev).1, ← (((hspec e' he').2 rev').mp hrev').1, heq]
  · rw [List.mem_flatMap]
    constructor
    · rintro ⟨e, he, hrev⟩
      obtain ⟨rfl, hread, hne, hchoice⟩ := ((hspec e he).2 rev).mp hrev
      exact ⟨he, hread, hne, hchoice⟩
    · rintro ⟨he, hread, hne, hchoice⟩
      exact ⟨_, he, ((hspec _ he).2 rev).mpr ⟨rfl, hread, hne, hchoice⟩⟩

/-- The options with a non-zero weight are the eligible pairs. -/
lemma countP_eq_card {revs : List ((Event × Event) × ℤ)} (hnodup : (revs.map Prod.fst).Nodup)
    (hmem : ∀ rev, rev ∈ revs ↔ rev.1.1 ∈ g.insertionOrder ∧ g.isa LabelBody.isRead rev.1.1 ∧
      g.rfOf rev.1.1 ≠ some rev.1.2 ∧ (rev.1.2, rev.2) ∈ choices.choicesAt (g.stampOf rev.1.1)) :
    (revs.map Prod.snd).countP (· ≠ 0) = (g.eligiblePairs choices).card := by
  have hset : ((revs.filter fun rev => rev.2 ≠ 0).map Prod.fst).toFinset =
      g.eligiblePairs choices := by
    ext ⟨r, s⟩
    rw [List.mem_toFinset, List.mem_map, mem_eligiblePairs_iff]
    constructor
    · rintro ⟨⟨-, w⟩, hrev, rfl⟩
      obtain ⟨hrev, hw⟩ := List.mem_filter.mp hrev
      obtain ⟨hr, hread, hrf, hchoice⟩ := (hmem _).mp hrev
      exact ⟨hr, hread, hrf, w, hchoice, of_decide_eq_true hw⟩
    · rintro ⟨hr, hread, hrf, w, hchoice, hw⟩
      exact ⟨((r, s), w), List.mem_filter.mpr
        ⟨(hmem _).mpr ⟨hr, hread, hrf, hchoice⟩, decide_eq_true hw⟩, rfl⟩
  rw [← hset, List.toFinset_card_of_nodup (hnodup.sublist (List.filter_sublist.map _)),
    List.length_map, List.countP_map, List.countP_eq_length_filter]
  rfl

/-- **The options for mutations.**  Whatever random numbers are drawn, the graphs are made of
different eligible pairs, no more than the bound, and of all of them if the bound allows it; with
mutations switched off there are none. -/
theorem calcMutationOptions_spec {τ : Type*} (g : ExecutionGraph) (choices : ChoiceMap)
    (mutation : MutationPolicy) (bound : Option ℕ) (draw : ℕ → List ℤ → ℕ)
    (populateTodos : Event → Event → τ) (horder : g.insertionOrder.Nodup)
    (h : g.Weighted choices) (hdraw : DrawsNonzero draw) :
    ∃ pairs : List (Event × Event),
      g.calcMutationOptions choices mutation bound draw populateTodos =
        some (pairs.map fun p => populateTodos p.1 p.2) ∧
      (∀ n, bound = some n → pairs.length ≤ n) ∧ pairs.Nodup ∧
      (∀ p ∈ pairs, p.1 ∈ g.insertionOrder ∧ g.Eligible choices p.1 p.2) ∧
      (mutation = .noMutation → pairs = []) ∧
      (mutation = .revisitCut → (∀ n, bound = some n → (g.eligiblePairs choices).card ≤ n) →
        ∀ p ∈ g.eligiblePairs choices, p ∈ pairs) := by
  unfold calcMutationOptions
  cases mutation with
  | noMutation =>
    exact ⟨[], if_pos rfl, fun _ _ => Nat.zero_le _, List.nodup_nil, fun _ hp => absurd hp
      List.not_mem_nil, fun _ => rfl, nofun⟩
  | revisitCut =>
    obtain ⟨revs, hrevs, hnodup, hmem⟩ := h.mutationRevs_spec horder
    rw [if_neg nofun, hrevs, Option.bind_some]
    generalize hn : (match bound with
      | some bound => min bound revs.length
      | none => revs.length) = n
    have hcount := countP_eq_card hnodup hmem
    have hnonneg : ∀ rev ∈ revs, 0 ≤ rev.2 := by
      intro rev hrev
      obtain ⟨hr, hread, -, hchoice⟩ := (hmem rev).mp hrev
      exact h.nonneg _ hr hread _ hchoice
    obtain ⟨pairs, hrun, hlength, hdistinct, hnonzero, hall⟩ :=
      mapM_drawIndices (fun p : Event × Event => populateTodos p.1 p.2) hnodup hdraw hnonneg n
    refine ⟨pairs, hrun, fun b hb => ?_, hdistinct, fun p hp => ?_, nofun,
      fun _ hbound p hp => ?_⟩
    · subst hb
      exact hlength.trans (hn ▸ min_le_left _ _)
    · obtain ⟨w, hrev, hne⟩ := hnonzero p hp
      obtain ⟨hr, hread, hrf, hchoice⟩ := (hmem (p, w)).mp hrev
      exact ⟨hr, hread, hrf, w, hchoice, hne⟩
    · obtain ⟨hr, hread, hrf, w, hchoice, hne⟩ := mem_eligiblePairs_iff.mp hp
      have hlist : (revs.map Prod.snd).countP (· ≠ 0) ≤ revs.length :=
        List.countP_le_length.trans (List.length_map _).le
      refine hall ?_ p w ((hmem (p, w)).mpr ⟨hr, hread, hrf, hchoice⟩) hne
      rw [← hn]
      cases bound with
      | none => exact hlist
      | some b => exact le_min (hcount.le.trans (hbound b rfl)) hlist

/-! ## The weights at the end of an execution -/

/-- The heuristics and the filters make no weight negative. -/
lemma weight_nonneg (info : RfInfo) (conf : WeightConf) : 0 ≤ info.weight conf := by
  have hbool (b : Bool) : 0 ≤ b.toInt := by
    cases b <;> decide
  have hraise (c b : Bool) : 0 ≤ if c then b.toInt else 0 := by
    cases c
    · exact le_refl 0
    · exact hbool b
  have hfilter (c b : Bool) : 0 ≤ if c then b.toInt else 1 := by
    cases c
    · exact Int.one_nonneg
    · exact hbool b
  rw [info.weight_eq]
  refine mul_nonneg ?_ (mul_nonneg (hfilter _ _) (hfilter _ _))
  exact add_nonneg (add_nonneg (add_nonneg Int.one_nonneg (hraise _ _)) (hraise _ _)) (hraise _ _)

/-- **The choice map that the options are collected from.**  After the weights have been replaced,
no store is listed twice for a read, and no weight is negative. -/
theorem weighted_updateStSpaceChoicesWeights {T : Type*} (d : FuzzDriver T) (conf : WeightConf)
    (hst : FuzzDriver.ReadStampsDistinct g) (hdef : d.Defined g choices)
    (hsource : ∀ r ∈ g.insertionOrder, g.isa LabelBody.isRead r →
      (choices.choicesAt (g.stampOf r)).Nonempty → (g.rfOf r).isSome) :
    ∃ choices', d.updateStSpaceChoicesWeights conf g choices = some choices' ∧
      g.Weighted choices' := by
  obtain ⟨choices', hrun, hspec⟩ := d.updateStSpaceChoicesWeights_spec conf g hst hdef
  refine ⟨choices', hrun, fun r hr hread hne => hsource r hr hread ?_,
    fun r hr hread p hp q hq heq => Prod.ext heq ?_, fun r hr hread p hp => ?_⟩
  · have hstores : (choices'.storesAt (g.stampOf r)).Nonempty := hne.image _
    rw [hspec.stores] at hstores
    exact Finset.image_nonempty.mp hstores
  · have hweight := hspec.weights r hr hread p hp
    rw [heq, hspec.weights r hr hread q hq] at hweight
    exact (Option.some.inj hweight).symm
  · obtain ⟨info, -, hinfo⟩ := Option.map_eq_some_iff.mp (hspec.weights r hr hread p hp)
    exact hinfo ▸ weight_nonneg info conf

/-! ## Examples -/

/-- Draws the first index with a non-zero weight; if there is a negative weight, the last index. -/
def drawFirst (_ : ℕ) (weights : List ℤ) : ℕ :=
  if ∀ w ∈ weights, 0 ≤ w then weights.findIdx (· ≠ 0) else weights.length - 1

/-- Non-negative weights are drawn as they should be. -/
lemma drawsNonzero_drawFirst : DrawsNonzero drawFirst := by
  rintro n weights hnonneg ⟨w, hw, hne⟩
  unfold drawFirst
  rw [if_pos hnonneg]
  have hlt : weights.findIdx (· ≠ 0) < weights.length :=
    List.findIdx_lt_length_of_exists ⟨w, hw, decide_eq_true hne⟩
  refine ⟨_, List.getElem?_eq_getElem hlt, ?_⟩
  exact of_decide_eq_true (List.findIdx_getElem (w := hlt))

/-- The choice map of a graph whose only read with choices has the stamp 2. -/
def choicesOf (cs : Finset (Event × ℤ)) : ChoiceMap := SortedMap.empty.upsert 2 ∅ fun _ => cs

/-- The newer write is the only option. -/
theorem calcMutationOptions_newerStore : ∃ pairs : List (Event × Event),
    FuzzDriver.newerStore.calcMutationOptions (choicesOf {(.init, 1), (⟨0, 1⟩, 1)}) .revisitCut
      (some 5) drawFirst Prod.mk = some (pairs.map fun p => (p.1, p.2)) ∧
    (∀ n, some 5 = some n → pairs.length ≤ n) ∧ pairs.Nodup ∧
    (∀ p ∈ pairs, p.1 ∈ FuzzDriver.newerStore.insertionOrder ∧
      FuzzDriver.newerStore.Eligible (choicesOf {(.init, 1), (⟨0, 1⟩, 1)}) p.1 p.2) ∧
    (MutationPolicy.revisitCut = .noMutation → pairs = []) ∧
    (MutationPolicy.revisitCut = .revisitCut → (∀ n, some 5 = some n →
        (FuzzDriver.newerStore.eligiblePairs (choicesOf {(.init, 1), (⟨0, 1⟩, 1)})).card ≤ n) →
      ∀ p ∈ FuzzDriver.newerStore.eligiblePairs (choicesOf {(.init, 1), (⟨0, 1⟩, 1)}), p ∈ pairs) :=
  calcMutationOptions_spec _ _ _ _ _ _ (by decide +kernel)
    ⟨by decide +kernel, by decide +kernel, by decide +kernel⟩ drawsNonzero_drawFirst

/-- The read of `newerStore` without its source. -/
def sourcelessRead : ExecutionGraph :=
  (PartialRun.exec Mutation.apply .initial
    [.addNewThread,
      .addLabelToGraph { pos := ⟨1, 0⟩, body := .threadStart .init },
      .addLabelToGraph { pos := ⟨1, 1⟩, body := .read .read { addr := ⟨8⟩ } none false }]).getD
    .initial

/-- **Where the options are wrong.**  Without mutations the one eligible pair is not returned; a
store that is listed with two weights is returned twice; a negative weight lets a pair with weight 0
be drawn; and it is a bug if a read with choices has no source. -/
theorem calcMutationOptions_fails : DrawsNonzero drawFirst ∧
    ((FuzzDriver.newerStore.eligiblePairs (choicesOf {(⟨0, 1⟩, 1)})).card = 1 ∧
      FuzzDriver.newerStore.calcMutationOptions (choicesOf {(⟨0, 1⟩, 1)}) .noMutation
        (some 5) drawFirst Prod.mk = some []) ∧
    FuzzDriver.newerStore.calcMutationOptions (choicesOf {(⟨0, 1⟩, 1), (⟨0, 1⟩, 2)}) .revisitCut
      (some 5) drawFirst Prod.mk = some [(⟨1, 1⟩, ⟨0, 1⟩), (⟨1, 1⟩, ⟨0, 1⟩)] ∧
    FuzzDriver.newerStore.calcMutationOptions (choicesOf {(⟨0, 1⟩, -1), (⟨0, 2⟩, 0)}) .revisitCut
      (some 1) drawFirst Prod.mk = some [(⟨1, 1⟩, ⟨0, 2⟩)] ∧
    sourcelessRead.calcMutationOptions (choicesOf {(.init, 1)}) .revisitCut (some 5) drawFirst
      Prod.mk = none :=
  ⟨drawsNonzero_drawFirst, by decide +kernel, by decide +kernel, by decide +kernel,
    by decide +kernel⟩

end ExecutionGraph

end GenMC
