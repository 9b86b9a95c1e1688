import GenMC.Lib.SortedMap
import GenMC.Support.SExpr
import GenMC.ExecutionGraph.Stamps
import GenMC.ExecutionGraph.ReaderRuns

/-!
# The weights of the choices

The choice map has, under the stamp of a label, the stores that the label could have been connected
to, each with a weight for the mutations of the fuzzer.  `updateStSpaceChoicesWeights` replaces the
weights of all reads.  A heuristic raises a weight by one, a filter makes it 0.

One heuristic prefers backward revisits, that is, stores that are newer than the read.  The code
compares the stamp of the store with itself, so that no weight is ever raised for this reason, and
`weightedByScheme_iff` says on which graphs and choice maps it makes no difference.
-/

namespace GenMC

/-- `ChoiceMap`: the choices under every stamp, pairs of a store and a weight. -/
abbrev ChoiceMap := SortedMap ℕ (Finset (Event × ℤ))

namespace ChoiceMap

/-- The choices under a stamp; a missing entry is an empty one. -/
def choicesAt (choices : ChoiceMap) (st : ℕ) : Finset (Event × ℤ) := (choices.find? st).getD ∅

/-- The stores among the choices under a stamp. -/
def storesAt (choices : ChoiceMap) (st : ℕ) : Finset Event := (choices.choicesAt st).image Prod.fst

/-- The choices after an entry has been replaced. -/
lemma choicesAt_upsert (choices : ChoiceMap) (st st' : ℕ) (cs : Finset (Event × ℤ)) :
    choicesAt (choices.upsert st ∅ fun _ => cs) st' =
      if st' = st then cs else choices.choicesAt st' := by
  unfold choicesAt
  rw [SortedMap.find?_upsert]
  split
  · rfl
  · rfl

end ChoiceMap

/-- The options of the configuration that concern the weights. -/
structure WeightConf where
  /-- Prioritize new values. -/
  prioNewVal : Bool := false
  /-- Prioritize backward revisits. -/
  prioBackRev : Bool := false
  /-- Prioritize stale stores. -/
  prioStaleStore : Bool := false
  /-- Do not choose stores that lead to blocking. -/
  fuzzValueNoblock : Bool := true
  /-- Do not choose stores that lead to values that have been seen. -/
  fuzzFilterSeenVals : Bool := false

/-- The answer of `getRfInfo` for a read and a store. -/
structure RfInfo where
  /-- The pair leads to a new sequence of values. -/
  newVal : Bool
  /-- The pair does not lead to a blocked execution. -/
  noBlock : Bool
  /-- The pair is a backward revisit. -/
  backRev : Bool
  /-- The store is the last one of its location in the coherence order. -/
  coMax : Bool
  /-- The store is the last one that the read may read from. -/
  rfMax : Bool

/-- The weight of a pair. -/
def RfInfo.weight (info : RfInfo) (conf : WeightConf) : ℤ :=
  let weight := 1
  let weight := if conf.prioNewVal then weight + info.newVal.toInt else weight
  let weight := if conf.prioBackRev then weight + info.backRev.toInt else weight
  let weight :=
    if conf.prioStaleStore then weight + (!(info.coMax || info.rfMax)).toInt else weight
  let weight := if conf.fuzzValueNoblock then weight * info.noBlock.toInt else weight
  if conf.fuzzFilterSeenVals then weight * info.newVal.toInt else weight

namespace RfInfo

/-- The filters of a weight, as a factor. -/
def filter (info : RfInfo) (conf : WeightConf) : ℤ :=
  (if conf.fuzzValueNoblock then info.noBlock.toInt else 1) *
    if conf.fuzzFilterSeenVals then info.newVal.toInt else 1

/-- A weight is the sum of what the heuristics add, times the filters. -/
lemma weight_eq (info : RfInfo) (conf : WeightConf) :
    info.weight conf =
      (1 + (if conf.prioNewVal then info.newVal.toInt else 0) +
        (if conf.prioBackRev then info.backRev.toInt else 0) +
        (if conf.prioStaleStore then (!(info.coMax || info.rfMax)).toInt else 0)) *
      info.filter conf := by
  have hraise (c : Bool) (w x : ℤ) : (if c then w + x else w) = w + if c then x else 0 := by
    cases c <;> simp
  have hfilter (c : Bool) (w x : ℤ) : (if c then w * x else w) = w * if c then x else 1 := by
    cases c <;> simp
  unfold weight filter
  simp only [hraise, hfilter]
  rw [mul_assoc]

/-- A filter makes the weight 0. -/
lemma filter_eq_zero_iff (info : RfInfo) (conf : WeightConf) :
    info.filter conf = 0 ↔ (conf.fuzzValueNoblock ∧ info.noBlock = false) ∨
      (conf.fuzzFilterSeenVals ∧ info.newVal = false) := by
  have hzero (c b : Bool) : (if c then b.toInt else 1) = 0 ↔ c ∧ b = false := by
    cases c <;> cases b <;> simp
  unfold filter
  rw [mul_eq_zero, hzero, hzero]

/-- **The heuristic for backward revisits.**  It changes the weight of a backward revisit unless it
is switched off or a filter applies. -/
lemma weight_setBackRev_iff (info : RfInfo) (conf : WeightConf) (b : Bool) :
    { info with backRev := b }.weight conf = { info with backRev := false }.weight conf ↔
      (conf.prioBackRev → b → info.filter conf = 0) := by
  have hdiff : { info with backRev := b }.weight conf -
      { info with backRev := false }.weight conf =
        (if conf.prioBackRev then b.toInt else 0) * info.filter conf := by
    rw [weight_eq, weight_eq]
    simp only [filter, Bool.toInt_false, ite_self]
    ring
  have hzero : (if conf.prioBackRev then b.toInt else 0) = 0 ↔ ¬(conf.prioBackRev ∧ b) := by
    cases conf.prioBackRev <;> cases b <;> simp
  rw [← sub_eq_zero, hdiff, mul_eq_zero, hzero, ← and_imp, imp_iff_not_or]

end RfInfo

/-- What the weights need of the rest of the driver; the registers of annotations are in `T`. -/
structure FuzzDriver (T : Type*) where
  /-- The value of a store for the access of a read: `getWriteValue`. -/
  getWriteValue : Event → Event → SVal
  /-- The value of a read, a join, a begin or an optional label: `getReadValue` and so on. -/
  getValue : Event → SVal
  /-- `seenValues`: how often a thread has seen a sequence of values. -/
  seenValues : ℕ → List SVal → Option ℕ
  /-- `ReadLabel::getAnnot`: the assumption that follows a read. -/
  getAnnot : Event → Option (SExpr T)
  /-- `getRfsApproximation`: the stores that a read may read from, in coherence order. -/
  getRfsApproximation : Event → List Event

namespace FuzzDriver

variable {T : Type*} (d : FuzzDriver T) (conf : WeightConf) (g : ExecutionGraph)

/-- Whether a label has a value: `EventLabel::hasValue`. -/
def hasValue (b : LabelBody) : Bool :=
  b.isThreadStart || b.isRead || b.isThreadJoin || decide (b = .plain .optional)

/-- `extractValPrefix`: the values in a thread before an event. -/
def extractValPrefix (pos : Event) : List SVal :=
  ((List.range pos.index).map (⟨pos.thread, ·⟩)).filterMap fun e =>
    if g.isa hasValue e then some (d.getValue e) else none

/-- Whether the assumption that follows a read holds for a value; reads without one do not block. -/
def noBlock (r : Event) (val : SVal) : Option Bool :=
  match d.getAnnot r with
  | none => some true
  | some annot => (annot.evaluate val).map SVal.getBool

/-- How often the values before a read, followed by the value of the store, have been seen. -/
def timesSeen (r s : Event) : Option ℕ :=
  d.seenValues r.thread (d.extractValPrefix g r ++ [d.getWriteValue s r])

/-- Whether a store is the last one of its location; the initializer never is. -/
def isCoMax (s : Event) : Option Bool :=
  if s = .init then some false
  else if g.isa LabelBody.isWrite s then
    (g.addrOf s).bind fun a => (g.coMax a).map fun w => decide (s = w)
  else none

/-- `getRfInfo`; it is a bug if the values are unknown or there is nothing to read from.  The stamp
of the read is looked up but not used. -/
def getRfInfo (r s : Event) : Option RfInfo := do
  let _ ← g.getEventLabel r
  let sLab ← g.getEventLabel s
  let data ← d.timesSeen g r s
  let noBlock ← d.noBlock r (d.getWriteValue s r)
  let sStamp := sLab.getStamp
  let coMax ← isCoMax g s
  let last ← (d.getRfsApproximation r).getLast?
  return { newVal := decide (data = 0), noBlock, backRev := decide (sStamp > sStamp), coMax
           rfMax := decide (s = last) }

/-- The inner loop: every choice gets the weight of its store. -/
def reweigh (weight : Event → Option ℤ) (cs : Finset (Event × ℤ)) : Option (Finset (Event × ℤ)) :=
  if ∀ p ∈ cs, (weight p.1).isSome then some (cs.image fun p => (p.1, (weight p.1).getD 1))
  else none

/-- The weight that the code gives to a pair. -/
def weight (r s : Event) : Option ℤ := (d.getRfInfo g r s).map fun info => info.weight conf

/-- The body of the loop over the labels. -/
def updateWeightsOf (choices : ChoiceMap) (e : Event) : Option ChoiceMap :=
  if g.isa LabelBody.isRead e then
    (reweigh (d.weight conf g e) (choices.choicesAt (g.stampOf e))).map fun updated =>
      choices.upsert (g.stampOf e) ∅ fun _ => updated
  else some choices

/-- `updateStSpaceChoicesWeights`. -/
def updateStSpaceChoicesWeights (choices : ChoiceMap) : Option ChoiceMap :=
  g.insertionOrder.foldlM (d.updateWeightsOf conf g) choices

/-! ## The scheme -/

/-- The weight of a pair in the configured scheme, in which a pair is a backward revisit if the
store is newer than the read. -/
def schemeWeight (r s : Event) : Option ℤ :=
  (d.getRfInfo g r s).map fun info =>
    { info with backRev := decide (g.stampOf r < g.stampOf s) }.weight conf

/-- All reads have their candidates of before, with the weights of the scheme, and the other
entries have their stores. -/
structure WeightedByScheme (choices choices' : ChoiceMap) : Prop where
  /-- No candidate is added or removed. -/
  stores : ∀ st, choices'.storesAt st = choices.storesAt st
  /-- Every candidate of a read has the weight of the scheme. -/
  weights : ∀ r ∈ g.insertionOrder, g.isa LabelBody.isRead r →
    ∀ p ∈ choices'.choicesAt (g.stampOf r), d.schemeWeight conf g r p.1 = some p.2

/-- A pair that a filter excludes: the read would be blocked, or its values have been seen. -/
def Excluded (r s : Event) : Prop :=
  (conf.fuzzValueNoblock ∧ d.noBlock r (d.getWriteValue s r) = some false) ∨
    (conf.fuzzFilterSeenVals ∧ (d.timesSeen g r s).any fun n => decide (n ≠ 0))

instance (r s : Event) : Decidable (d.Excluded conf g r s) := inferInstanceAs (Decidable (_ ∨ _))

/-- What `getRfInfo` says about a pair. -/
lemma getRfInfo_eq_some {r s : Event} {info : RfInfo} (h : d.getRfInfo g r s = some info) :
    info.backRev = false ∧ d.noBlock r (d.getWriteValue s r) = some info.noBlock ∧
      ∃ n, d.timesSeen g r s = some n ∧ info.newVal = decide (n = 0) := by
  simp only [getRfInfo, Option.bind_eq_bind, Option.bind_eq_some_iff, Option.pure_def,
    Option.some.injEq] at h
  obtain ⟨-, -, sLab, -, data, hdata, noBlock, hblock, coMax, -, last, -, rfl⟩ := h
  exact ⟨decide_eq_false (lt_irrefl _), hblock, data, hdata, rfl⟩

/-- **One pair.**  The code gives a pair the weight of the scheme unless the pair is a backward
revisit that is prioritized and not excluded. -/
lemma schemeWeight_eq_weight_iff {r s : Event} (h : (d.getRfInfo g r s).isSome) :
    d.schemeWeight conf g r s = d.weight conf g r s ↔
      (conf.prioBackRev → g.stampOf r < g.stampOf s → d.Excluded conf g r s) := by
  obtain ⟨info, hinfo⟩ := Option.isSome_iff_exists.mp h
  obtain ⟨hback, hblock, n, hseen, hnew⟩ := d.getRfInfo_eq_some g hinfo
  have hcode : info = { info with backRev := false } := by
    rw [← hback]
  have hexcluded : info.filter conf = 0 ↔ d.Excluded conf g r s := by
    rw [info.filter_eq_zero_iff]
    unfold Excluded
    rw [hblock, hseen, hnew, Option.some.injEq, Option.any_some, decide_eq_false_iff_not,
      decide_eq_true_iff]
  unfold schemeWeight weight
  rw [hinfo, Option.map_some, Option.map_some, Option.some.injEq]
  conv_lhs => rw [hcode]
  rw [info.weight_setBackRev_iff, hexcluded, decide_eq_true_iff]

/-! ## The loops -/

/-- The inner loop keeps the stores and replaces the weights. -/
lemma reweigh_spec {weight : Event → Option ℤ} {cs : Finset (Event × ℤ)}
    (h : ∀ s ∈ cs.image Prod.fst, (weight s).isSome) :
    ∃ cs', reweigh weight cs = some cs' ∧ cs'.image Prod.fst = cs.image Prod.fst ∧
      ∀ p ∈ cs', weight p.1 = some p.2 := by
  have hall : ∀ p ∈ cs, (weight p.1).isSome := fun p hp => h p.1 (Finset.mem_image_of_mem _ hp)
  refine ⟨_, if_pos hall, ?_, fun p hp => ?_⟩
  · rw [Finset.image_image]
    rfl
  · obtain ⟨q, hq, rfl⟩ := Finset.mem_image.mp hp
    obtain ⟨w, hw⟩ := Option.isSome_iff_exists.mp (hall q hq)
    rw [hw]
    rfl

/-- The choice map after the labels `done` have been visited. -/
structure Reweighed (choices : ChoiceMap) (done : List Event) (choices' : ChoiceMap) : Prop where
  /-- No candidate is added or removed. -/
  stores : ∀ st, choices'.storesAt st = choices.storesAt st
  /-- The candidates of the visited reads have the weights of the code. -/
  weights : ∀ r ∈ done, g.isa LabelBody.isRead r →
    ∀ p ∈ choices'.choicesAt (g.stampOf r), d.weight conf g r p.1 = some p.2

/-- No two reads have the same stamp. -/
def ReadStampsDistinct : Prop :=
  ∀ r ∈ g.insertionOrder, g.isa LabelBody.isRead r → ∀ r' ∈ g.insertionOrder,
    g.isa LabelBody.isRead r' → g.stampOf r = g.stampOf r' → r = r'

/-- In the graphs of the runs no two reads have the same stamp. -/
lemma readStampsDistinct_of_stampInvariant (h : ExecutionGraph.StampInvariant g) :
    ReadStampsDistinct g := by
  intro r hr _ r' hr' _ heq
  exact h.injective ((h.members r).mp hr) ((h.members r').mp hr') heq

/-- All lookups for the candidates of reads succeed. -/
def Defined (choices : ChoiceMap) : Prop :=
  ∀ r ∈ g.insertionOrder, g.isa LabelBody.isRead r → ∀ s ∈ choices.storesAt (g.stampOf r),
    (d.getRfInfo g r s).isSome

/-- Visiting a label. -/
lemma Reweighed.step {choices choices' : ChoiceMap} {done : List Event} {e : Event}
    (h : Reweighed d conf g choices done choices') (hst : ReadStampsDistinct g)
    (hdef : d.Defined g choices) (he : e ∈ g.insertionOrder) (hdone : done ⊆ g.insertionOrder) :
    ∃ choices₁, d.updateWeightsOf conf g choices' e = some choices₁ ∧
      Reweighed d conf g choices (done ++ [e]) choices₁ := by
  have hmem {r : Event} : r ∈ done ++ [e] ↔ r ∈ done ∨ r = e := by
    rw [List.mem_append, List.mem_singleton]
  unfold updateWeightsOf
  by_cases hread : g.isa LabelBody.isRead e
  · have hsome : ∀ s ∈ choices'.storesAt (g.stampOf e), (d.weight conf g e s).isSome := by
      intro s hs
      rw [h.stores] at hs
      exact (Option.isSome_map).trans (hdef e he hread s hs)
    obtain ⟨cs, hcs, hstores, hweights⟩ := reweigh_spec hsome
    rw [if_pos hread, hcs]
    refine ⟨_, rfl, fun st => ?_, fun r hr hr' p hp => ?_⟩
    · rw [← h.stores st, ChoiceMap.storesAt, ChoiceMap.choicesAt_upsert]
      split
      next heq =>
        rw [heq]
        exact hstores
      next => rfl
    · rw [ChoiceMap.choicesAt_upsert] at hp
      obtain hr | rfl := hmem.mp hr
      · split at hp
        next heq =>
          obtain rfl := hst r (hdone hr) hr' e he hread heq
          exact hweights p hp
        next => exact h.weights r hr hr' p hp
      · rw [if_pos rfl] at hp
        exact hweights p hp
  · rw [if_neg hread]
    refine ⟨choices', rfl, h.stores, fun r hr hr' p hp => ?_⟩
    obtain hr | rfl := hmem.mp hr
    · exact h.weights r hr hr' p hp
    · exact absurd hr' hread

/-- **The loop over the labels** ends, with the weights of the code for the candidates of before. -/
lemma updateStSpaceChoicesWeights_spec {choices : ChoiceMap} (hst : ReadStampsDistinct g)
    (hdef : d.Defined g choices) :
    ∃ choices', d.updateStSpaceChoicesWeights conf g choices = some choices' ∧
      Reweighed d conf g choices g.insertionOrder choices' := by
  refine PartialRun.foldlM_total _ (Reweighed d conf g choices) (fun done e rest hvisit s hs => ?_)
    ⟨fun _ => rfl, fun r hr => absurd hr List.not_mem_nil⟩
  refine hs.step d conf g hst hdef ?_ fun r hr => ?_
  · rw [hvisit]
    exact List.mem_append_right _ List.mem_cons_self
  · rw [hvisit]
    exact List.mem_append_left _ hr

/-- **The weights of the choices.**  After `updateStSpaceChoicesWeights` all candidates of before
have the weights of the scheme if and only if every candidate that is newer than its read is
excluded by a filter, or backward revisits are not prioritized. -/
theorem weightedByScheme_iff (choices : ChoiceMap) (hst : ReadStampsDistinct g)
    (hdef : d.Defined g choices) :
    (∃ choices', d.updateStSpaceChoicesWeights conf g choices = some choices' ∧
      d.WeightedByScheme conf g choices choices') ↔
    ∀ r ∈ g.insertionOrder, g.isa LabelBody.isRead r → ∀ s ∈ choices.storesAt (g.stampOf r),
      conf.prioBackRev → g.stampOf r < g.stampOf s → d.Excluded conf g r s := by
  obtain ⟨choices', hrun, hcode⟩ := d.updateStSpaceChoicesWeights_spec conf g hst hdef
  have hpair {r s : Event} (hr : r ∈ g.insertionOrder) (hread : g.isa LabelBody.isRead r)
      (hs : s ∈ choices.storesAt (g.stampOf r)) :=
    d.schemeWeight_eq_weight_iff conf g (hdef r hr hread s hs)
  constructor
  · rintro ⟨choices₁, hrun₁, hscheme⟩ r hr hread s hs
    obtain rfl : choices₁ = choices' := Option.some.inj (hrun₁.symm.trans hrun)
    refine (hpair hr hread hs).mp ?_
    rw [← hcode.stores] at hs
    obtain ⟨p, hp, rfl⟩ := Finset.mem_image.mp hs
    rw [hscheme.weights r hr hread p hp, hcode.weights r hr hread p hp]
  · intro hcond
    refine ⟨choices', hrun, hcode.stores, fun r hr hread p hp => ?_⟩
    have hs : p.1 ∈ choices.storesAt (g.stampOf r) := by
      rw [← hcode.stores]
      exact Finset.mem_image_of_mem _ hp
    rw [(hpair hr hread hs).mpr (hcond r hr hread p.1 hs), hcode.weights r hr hread p hp]

/-- A read from the initializer, and a write of another thread that is added after it. -/
def newerStore : ExecutionGraph :=
  (PartialRun.exec ExecutionGraph.Mutation.apply .initial
    [.addNewThread,
      .addLabelToGraph { pos := ⟨1, 0⟩, body := .threadStart .init },
      .addLabelToGraph { pos := ⟨1, 1⟩, body := .read .read { addr := ⟨8⟩ } none false },
      .setRf ⟨1, 1⟩ (some .init),
      .addLabelToGraph { pos := ⟨0, 1⟩, body := .write .write { addr := ⟨8⟩ } [] },
      .addStoreToCOAfter ⟨0, 1⟩ .init]).getD .initial

/-- The read has both stores as its choices. -/
def twoChoices : ChoiceMap := SortedMap.empty.upsert 2 {(.init, -1), (⟨0, 1⟩, -1)} id

/-- A driver that has seen every sequence of values a given number of times. -/
def seenDriver (n : ℕ) : FuzzDriver ℕ where
  getWriteValue s _ := if s = .init then 0 else 1
  getValue _ := 0
  seenValues _ _ := some n
  getAnnot _ := none
  getRfsApproximation _ := [.init, ⟨0, 1⟩]

/-- All values have been seen and are filtered out, so that a backward revisit makes no
difference. -/
theorem weightedByScheme_newerStore :
    ∃ choices', (seenDriver 1).updateStSpaceChoicesWeights
        { prioBackRev := true, fuzzFilterSeenVals := true } newerStore twoChoices = some choices' ∧
      (seenDriver 1).WeightedByScheme { prioBackRev := true, fuzzFilterSeenVals := true }
        newerStore twoChoices choices' :=
  (weightedByScheme_iff (seenDriver 1) _ newerStore twoChoices
    (by unfold ReadStampsDistinct; decide +kernel) (by unfold Defined; decide +kernel)).mpr
    (by decide +kernel)

/-- With backward revisits prioritized, the write has the weight 1 like the initializer, although
its stamp is larger than that of the read. -/
theorem not_weightedByScheme_newerStore :
    newerStore.stampOf ⟨1, 1⟩ < newerStore.stampOf ⟨0, 1⟩ ∧
    ∃ choices', (seenDriver 0).updateStSpaceChoicesWeights { prioBackRev := true } newerStore
        twoChoices = some choices' ∧
      choices'.choicesAt (newerStore.stampOf ⟨1, 1⟩) = {(.init, 1), (⟨0, 1⟩, 1)} ∧
      ¬ (seenDriver 0).WeightedByScheme { prioBackRev := true } newerStore twoChoices choices' := by
  have hrun : ((seenDriver 0).updateStSpaceChoicesWeights { prioBackRev := true } newerStore
      twoChoices).any (fun choices' => decide (choices'.choicesAt (newerStore.stampOf ⟨1, 1⟩) =
        {(.init, 1), (⟨0, 1⟩, 1)})) = true := by decide +kernel
  obtain ⟨choices', hrun, hchoices⟩ := Option.any_eq_true _ _ |>.mp hrun
  replace hchoices := of_decide_eq_true hchoices
  refine ⟨by decide +kernel, choices', hrun, hchoices, fun hscheme => ?_⟩
  have hweight := hscheme.weights ⟨1, 1⟩ (by decide +kernel) (by decide +kernel) (⟨0, 1⟩, 1) (by
    rw [hchoices]
    decide)
  have htwo : (seenDriver 0).schemeWeight { prioBackRev := true } newerStore ⟨1, 1⟩ ⟨0, 1⟩ =
      some 2 := by decide +kernel
  rw [htwo] at hweight
  exact absurd hweight (by decide)

end FuzzDriver

end GenMC
