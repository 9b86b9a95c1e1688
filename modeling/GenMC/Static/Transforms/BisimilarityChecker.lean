import GenMC.Lib.Inlining
import GenMC.Static.BlockSuffix
import Mathlib.Data.List.TakeWhile

/-!
# Bisimilar suffixes

The analysis goes upwards from the terminators of the two predecessors of a block, as long as the
instructions have the same operation.  A pair that is not identical has constraints: the pairs of
its operands.  A constraint is solved by a pair above, whose own constraints take its place.  The
result are the pairs below the first one that keeps a constraint.

In terms of the blocks, a place keeps a constraint if an operand that it depends on is not defined
at one place of both blocks, or if the iterator steps over an operand (`Obstructed`).  Such a place
may lie between an instruction and the one that defines its operands, which then is not in the
result; and a common operand may be an instruction of the result itself.  Apart from phi nodes these
are the only ways in which the suffixes are not equivalent (`getBsPoints_equivalent_iff`).
-/

namespace GenMC

/-- `Constraint`. -/
abbrev BsConstraint := BlockOperand × BlockOperand

/-- `ConstrainedBsPoint`; instructions have names. -/
structure ConstrainedBsPoint where
  p : ℕ × ℕ
  constraints : List BsConstraint

/-- `getSatisfiableCandidates`. -/
def getSatisfiableCandidates (candidates : List ConstrainedBsPoint) : List (ℕ × ℕ) :=
  (candidates.takeWhile fun cnd => cnd.constraints.isEmpty).map ConstrainedBsPoint.p

/-- `solvesConstraint`. -/
def solvesConstraint (bsp : ℕ × ℕ) (c : BsConstraint) : Bool :=
  match c with
  | (.instruction c₁, .instruction c₂) => (c₁, c₂) = bsp
  | _ => false

/-- The loop of `filterCandidateConstraints` over the constraints of a candidate.  Where no new
constraints take the place of a solved one, the iterator is advanced once more. -/
def filterConstraints (bsp : ℕ × ℕ) (cs : List BsConstraint) : List BsConstraint → List BsConstraint
  | [] => []
  | [c] => if solvesConstraint bsp c then cs else [c]
  | c :: next :: rest =>
    if solvesConstraint bsp c then
      if cs.isEmpty then next :: filterConstraints bsp cs rest
      else cs ++ filterConstraints bsp cs (next :: rest)
    else c :: filterConstraints bsp cs (next :: rest)

/-- `filterCandidateConstraints`. -/
def filterCandidateConstraints (bsp : ℕ × ℕ) (cs : List BsConstraint)
    (candidates : List ConstrainedBsPoint) : List ConstrainedBsPoint :=
  (candidates.map fun cnd => ⟨cnd.p, filterConstraints bsp cs cnd.constraints⟩) ++ [⟨bsp, cs⟩]

/-- `calcOperatorConstraints`, from an operand on. -/
def calcOperatorConstraints : List BlockOperand → List BlockOperand → Option (List BsConstraint)
  | opA :: as, opB :: bs =>
    if opA.isFixed then
      if opA = opB then calcOperatorConstraints as bs else none
    else (calcOperatorConstraints as bs).map ((opA, opB) :: ·)
  | _, _ => some []

section

variable {Op : Type*} [DecidableEq Op]

/-- `calcBsPointCandidates`; the blocks are given from the terminators upwards. -/
def calcBsPointCandidates : List (ℕ × BlockInst Op) → List (ℕ × BlockInst Op) →
    List ConstrainedBsPoint → List ConstrainedBsPoint
  | (a, i) :: as, (b, j) :: bs, candidates =>
    if i.isIdenticalTo j then
      calcBsPointCandidates as bs (filterCandidateConstraints (a, b) [] candidates)
    else if i.isSameOperationAs j then
      match calcOperatorConstraints i.operands j.operands with
      | none => candidates
      | some cs => calcBsPointCandidates as bs (filterCandidateConstraints (a, b) cs candidates)
    else candidates
  | _, _, candidates => candidates

/-- `getBsPoints`. -/
def getBsPoints (as bs : List (ℕ × BlockInst Op)) : List (ℕ × ℕ) :=
  getSatisfiableCandidates (calcBsPointCandidates as bs [])

/-- The instructions have the same operation and the same constants and blocks as operands. -/
def BlockInst.SimilarTo (i j : BlockInst Op) : Prop :=
  i.isSameOperationAs j ∧ ∀ c ∈ i.operands.zip j.operands, c.1.isFixed → c.1 = c.2

instance (i j : BlockInst Op) : Decidable (i.SimilarTo j) :=
  inferInstanceAs (Decidable (_ ∧ ∀ _ ∈ _, _))

/-- The operands to compare of instructions that are not identical. -/
def operandPairs (i j : BlockInst Op) : List BsConstraint :=
  if i.isIdenticalTo j then []
  else (i.operands.zip j.operands).filter fun c => !c.1.isFixed

/-- The results of a pair of instructions, and the operands to compare. -/
def definitionOf (p : InstPair Op) : BsConstraint × List BsConstraint :=
  ((.instruction p.1.1, .instruction p.2.1), operandPairs p.1.2 p.2.2)

/-- The values of a phi node for two predecessors, in the order of the phi node. -/
structure JoinPhi where
  incoming0 : BlockOperand
  incoming1 : BlockOperand
  /-- The first incoming value belongs to the second predecessor. -/
  swapped : Bool

namespace JoinPhi

/-- The value for the first predecessor. -/
def fromFirst (phi : JoinPhi) : BlockOperand := if phi.swapped then phi.incoming1 else phi.incoming0

/-- The value for the second predecessor. -/
def fromSecond (phi : JoinPhi) : BlockOperand :=
  if phi.swapped then phi.incoming0 else phi.incoming1

/-- Whether a phi node is in the same state after the suffixes. -/
def sameState (phi : JoinPhi) (ps : List (ℕ × ℕ)) : Bool :=
  let bp1 := ps.find? fun p => phi.incoming0 = .instruction p.1
  let bp2 := ps.find? fun p => phi.incoming0 = .instruction p.2
  match bp1, bp2 with
  | none, none => false
  | none, some q => .instruction q.1 = phi.incoming1
  | some p, none => .instruction p.2 = phi.incoming1
  | some _, some _ => true

end JoinPhi

/-- A block with two distinct predecessors, which are given from their terminators upwards. -/
structure TwoPredecessors (Op : Type*) where
  b1 : List (ℕ × BlockInst Op)
  b2 : List (ℕ × BlockInst Op)
  /-- The phi nodes of the block. -/
  phis : List JoinPhi
  nodup : ((b1 ++ b2).map Prod.fst).Nodup
  /-- A phi node does not have a value of each predecessor for the other one, since the predecessors
  do not dominate each other. -/
  phis_wf : ∀ phi ∈ phis, ∀ p ∈ b2, ∀ q ∈ b1, phi.fromFirst = .instruction p.1 →
    phi.fromSecond ≠ .instruction q.1

namespace TwoPredecessors

variable (J : TwoPredecessors Op)

/-- The pairs that `getBsPoints` returns for the predecessors. -/
def points : List (ℕ × ℕ) := getBsPoints J.b1 J.b2

/-- Whether the pairs lead to the same state. -/
def sameState : Bool := J.phis.all fun phi => phi.sameState J.points

/-- The part of `BisimilarityAnalysis::run` for the block: the pairs that it adds. -/
def analysis : List (ℕ × ℕ) := if J.sameState then J.points else []

/-- Every operand of the instructions of a returned pair is the same value in both or a returned
pair. -/
def OperandsReturned : Prop :=
  ∀ q ∈ J.points, ∀ i j, (q.1, i) ∈ J.b1 → (q.2, j) ∈ J.b2 → i.operands.length = j.operands.length ∧
    ∀ (n : ℕ) (x y : BlockOperand), i.operands[n]? = some x → j.operands[n]? = some y →
      x = y ∨ ∃ r ∈ J.points, x = .instruction r.1 ∧ y = .instruction r.2

/-- The suffixes from the topmost returned pair on execute the same operations on the same values,
leave the same memory, and give the same values to the phi nodes of the block, if these are in the
same state. -/
def SuffixesEquivalent : Prop :=
  ∀ {V μ : Type} (S : OpSemantics Op V μ) (entry : BlockOperand → V) (pred : ℕ) (mem : μ),
    let st := runSuffix S entry pred mem (J.b1.take J.points.length)
    let st' := runSuffix S entry pred mem (J.b2.take J.points.length)
    st.trace = st'.trace ∧ st.mem = st'.mem ∧
      (J.sameState = true → ∀ phi ∈ J.phis, st.regs phi.fromFirst = st'.regs phi.fromSecond)

/-- The pairs of instructions from the terminators upwards, as long as they are similar. -/
def similar : List (InstPair Op) :=
  (J.b1.zip J.b2).takeWhile fun p => p.1.2.SimilarTo p.2.2

/-- A similar pair defines its results by its operands. -/
def definitions : List (BsConstraint × List BsConstraint) := J.similar.map definitionOf

/-- The instructions of a place have the ones of a place above as operands. -/
def Depends (n m : ℕ) : Prop := Inlining.DependsOn J.definitions n m

/-- An operand is not defined at one place above in both blocks. -/
def Undefined (n : ℕ) : Prop := Inlining.Undefined J.definitions n

/-- Two operands in a row, after those below have been traced back to what defines them, are
defined by the same pair, which has no operands of its own to compare. -/
def Repeats (n : ℕ) : Prop :=
  ∃ m d e, n < m ∧ J.definitions[n]? = some d ∧ J.definitions[m]? = some e ∧ e.2 = [] ∧
    [e.1, e.1] <:+: Inlining.inlineAll ((J.definitions.take m).drop (n + 1)) d.2

/-- An operand that a place depends on is not defined, or two operands in a row are the same. -/
def Obstructed (n : ℕ) : Prop :=
  (∃ m, Relation.ReflTransGen J.Depends n m ∧ J.Undefined m) ∨ J.Repeats n

/-- The pairs up to a place are similar and not obstructed. -/
def UnobstructedUpTo (n : ℕ) : Prop := n < J.definitions.length ∧ ∀ m ≤ n, ¬J.Obstructed m

/-- Instructions at the same place of the predecessors, where no place up to there is obstructed. -/
def UnobstructedAt (n : ℕ) (p q : ℕ × BlockInst Op) : Prop :=
  J.b1[n]? = some p ∧ J.b2[n]? = some q ∧ J.UnobstructedUpTo n

/-- No place between a pair of instructions and the pair that defines their operands is
obstructed. -/
def DefinitionsUnobstructed : Prop :=
  ∀ n m l, J.UnobstructedUpTo n → J.Depends n m → n < l → l ≤ m → ¬J.Obstructed l

/-- A common operand is no instruction of the suffixes above. -/
def CommonOperandsOutside : Prop :=
  ∀ (n m k : ℕ) (p q d e : ℕ × BlockInst Op), J.UnobstructedAt n p q →
    p.2.incomingBlocks = none → n < m → J.UnobstructedAt m d e → ∀ x, p.2.operands[k]? = some x →
      q.2.operands[k]? = some x → x ≠ .instruction d.1 ∧ x ≠ .instruction e.1

/-- Phi nodes have the same values for all predecessors. -/
def PhisEqual : Prop :=
  ∀ (n : ℕ) (p q : ℕ × BlockInst Op), J.UnobstructedAt n p q → p.2.incomingBlocks.isSome →
    ∀ pred, p.2.incomingValue pred = q.2.incomingValue pred

end TwoPredecessors

end

/-! ## The candidates -/

lemma solvesConstraint_iff {bsp : ℕ × ℕ} {c : BsConstraint} :
    solvesConstraint bsp c = true ↔ c = (.instruction bsp.1, .instruction bsp.2) := by
  obtain ⟨x, y⟩ := c
  cases x <;> cases y <;> simp [solvesConstraint, Prod.ext_iff]

/-- A constraint is kept or solved. -/
lemma mem_filterConstraints {bsp : ℕ × ℕ} {cs l : List BsConstraint} {c : BsConstraint}
    (h : c ∈ l) :
    c ∈ filterConstraints bsp cs l ∨ c = (.instruction bsp.1, .instruction bsp.2) := by
  rw [← solvesConstraint_iff]
  fun_induction filterConstraints bsp cs l with
  | case1 => exact absurd h List.not_mem_nil
  | case2 c' hsolves =>
    obtain rfl := List.mem_singleton.mp h
    exact .inr hsolves
  | case3 c' hsolves => exact .inl h
  | case4 c' next rest hsolves hempty ih =>
    obtain rfl | h := List.mem_cons.mp h
    · exact .inr hsolves
    obtain rfl | h := List.mem_cons.mp h
    · exact .inl List.mem_cons_self
    · exact (ih h).imp (List.mem_cons_of_mem _) id
  | case5 c' next rest hsolves hempty ih =>
    obtain rfl | h := List.mem_cons.mp h
    · exact .inr hsolves
    · exact (ih h).imp (List.mem_append_right _) id
  | case6 c' next rest hsolves ih =>
    obtain rfl | h := List.mem_cons.mp h
    · exact .inl List.mem_cons_self
    · exact (ih h).imp (List.mem_cons_of_mem _) id

/-- The same constraint twice in a row is kept once if nothing takes its place. -/
lemma mem_filterConstraints_of_repeated {bsp : ℕ × ℕ} {cs l : List BsConstraint} {c : BsConstraint}
    (hc : c = (.instruction bsp.1, .instruction bsp.2)) (hempty : cs = [])
    (h : [c, c] <:+: l) : c ∈ filterConstraints bsp cs l := by
  rw [← solvesConstraint_iff] at hc
  fun_induction filterConstraints bsp cs l with
  | case1 => exact absurd h (by simp)
  | case2 c' hsolves => exact absurd h.length_le (by simp)
  | case3 c' hsolves => exact absurd h.length_le (by simp)
  | case4 c' next rest hsolves _ ih =>
    by_cases hnext : next = c
    · exact hnext ▸ List.mem_cons_self
    · refine List.mem_cons_of_mem _ (ih ?_)
      have hrest := (List.infix_cons_iff.mp h).resolve_left fun hprefix => hnext
        (List.cons_prefix_cons.mp (List.cons_prefix_cons.mp hprefix).2).1.symm
      exact (List.infix_cons_iff.mp hrest).resolve_left fun hprefix =>
        hnext (List.cons_prefix_cons.mp hprefix).1.symm
  | case5 c' next rest hsolves hne ih => exact absurd (hempty ▸ rfl) hne
  | case6 c' next rest hsolves ih =>
    refine List.mem_cons_of_mem _ (ih ((List.infix_cons_iff.mp h).resolve_left ?_))
    intro hprefix
    obtain rfl := (List.cons_prefix_cons.mp hprefix).1
    exact hsolves hc

/-- Otherwise the constraints take the place of what they solve. -/
lemma filterConstraints_eq {bsp : ℕ × ℕ} {cs l : List BsConstraint}
    (h : cs = [] → ¬[(BlockOperand.instruction bsp.1, BlockOperand.instruction bsp.2),
      (.instruction bsp.1, .instruction bsp.2)] <:+: l) :
    filterConstraints bsp cs l =
      Inlining.inlineOne ((.instruction bsp.1, .instruction bsp.2), cs) l := by
  fun_induction filterConstraints bsp cs l with
  | case1 => rfl
  | case2 c hsolves =>
    rw [solvesConstraint_iff] at hsolves
    rw [Inlining.inlineOne_singleton, if_pos hsolves]
  | case3 c hsolves =>
    rw [solvesConstraint_iff] at hsolves
    rw [Inlining.inlineOne_singleton, if_neg hsolves]
  | case4 c next rest hsolves hempty ih =>
    rw [solvesConstraint_iff] at hsolves
    rw [List.isEmpty_iff] at hempty
    have hnext : next ≠ (.instruction bsp.1, .instruction bsp.2) := by
      rintro rfl
      exact h hempty (hsolves ▸ (List.prefix_append _ rest).isInfix)
    rw [ih fun hnil hinfix => h hnil (List.infix_cons (List.infix_cons hinfix)),
      Inlining.inlineOne_cons, Inlining.inlineOne_cons, if_pos hsolves, if_neg hnext, hempty]
    rfl
  | case5 c next rest hsolves hne ih =>
    rw [solvesConstraint_iff] at hsolves
    rw [ih fun hnil hinfix => h hnil (List.infix_cons hinfix),
      Inlining.inlineOne_cons _ c, if_pos hsolves]
  | case6 c next rest hsolves ih =>
    rw [solvesConstraint_iff] at hsolves
    rw [ih fun hnil hinfix => h hnil (List.infix_cons hinfix),
      Inlining.inlineOne_cons _ c, if_neg hsolves]
    rfl

/-- `calcOperatorConstraints` compares the operands in the same position. -/
lemma calcOperatorConstraints_eq (as bs : List BlockOperand) : calcOperatorConstraints as bs =
    if ∀ c ∈ as.zip bs, c.1.isFixed → c.1 = c.2 then
      some ((as.zip bs).filter fun c => !c.1.isFixed)
    else none := by
  induction as generalizing bs with
  | nil => rfl
  | cons opA as ih =>
    cases bs with
    | nil => rfl
    | cons opB bs =>
      have hiff : (∀ c ∈ (opA, opB) :: as.zip bs, c.1.isFixed → c.1 = c.2) ↔
          (opA.isFixed → opA = opB) ∧ ∀ c ∈ as.zip bs, c.1.isFixed → c.1 = c.2 :=
        List.forall_mem_cons
      rw [calcOperatorConstraints, ih, List.zip_cons_cons, if_congr hiff rfl rfl]
      cases hfixed : opA.isFixed with
      | true =>
        rw [if_pos rfl, List.filter_cons_of_neg (by simp [hfixed])]
        by_cases heq : opA = opB
        · rw [if_pos heq, if_congr (and_iff_right fun _ => heq) rfl rfl]
        · rw [if_neg heq, if_neg fun h => heq (h.1 rfl)]
      | false =>
        rw [if_neg Bool.false_ne_true, List.filter_cons_of_pos (by simp [hfixed]),
          if_congr (and_iff_right fun h => by cases h) rfl rfl]
        split <;> rfl

section

variable {Op : Type*} [DecidableEq Op]

/-- Identical instructions are similar. -/
lemma BlockInst.similarTo_self (i : BlockInst Op) : i.SimilarTo i := by
  refine ⟨by simp [isSameOperationAs], fun c hc _ => ?_⟩
  rw [List.zip, List.zipWith_self, List.mem_map] at hc
  obtain ⟨x, -, rfl⟩ := hc
  rfl

/-- One step of `calcBsPointCandidates`. -/
lemma calcBsPointCandidates_cons (a b : ℕ) (i j : BlockInst Op)
    (as bs : List (ℕ × BlockInst Op)) (candidates : List ConstrainedBsPoint) :
    calcBsPointCandidates ((a, i) :: as) ((b, j) :: bs) candidates =
      if i.SimilarTo j then
        calcBsPointCandidates as bs
          (filterCandidateConstraints (a, b) (operandPairs i j) candidates)
      else candidates := by
  rw [calcBsPointCandidates, operandPairs, calcOperatorConstraints_eq]
  by_cases hidentical : i.isIdenticalTo j = true
  · have hsimilar : i.SimilarTo j := by
      obtain rfl : i = j := of_decide_eq_true hidentical
      exact i.similarTo_self
    rw [if_pos hidentical, if_pos hidentical, if_pos hsimilar]
  · rw [if_neg hidentical, if_neg hidentical]
    by_cases hsame : i.isSameOperationAs j = true
    · rw [if_pos hsame]
      by_cases hfixed : ∀ c ∈ i.operands.zip j.operands, c.1.isFixed → c.1 = c.2
      · rw [if_pos hfixed, if_pos ⟨hsame, hfixed⟩]
      · rw [if_neg hfixed, if_neg fun h => hfixed h.2]
    · rw [if_neg hsame, if_neg fun h => hsame h.1]

/-- Operands are equal or have to be compared. -/
lemma BlockInst.SimilarTo.operand {i j : BlockInst Op} (h : i.SimilarTo j) {k : ℕ}
    {x y : BlockOperand} (hx : i.operands[k]? = some x) (hy : j.operands[k]? = some y) :
    x = y ∨ (x, y) ∈ operandPairs i j := by
  by_cases hidentical : i.isIdenticalTo j = true
  · obtain rfl : i = j := of_decide_eq_true hidentical
    exact .inl (Option.some.inj (hx.symm.trans hy))
  · have hmem : (x, y) ∈ i.operands.zip j.operands :=
      List.mem_of_getElem? (List.getElem?_zip_eq_some.mpr ⟨hx, hy⟩)
    rw [operandPairs, if_neg hidentical, List.mem_filter]
    cases hfixed : x.isFixed with
    | true => exact .inl (h.2 _ hmem hfixed)
    | false => exact .inr ⟨hmem, rfl⟩

/-- What has to be compared are operands in the same position. -/
lemma exists_operand_of_mem {i j : BlockInst Op} {c : BsConstraint} (h : c ∈ operandPairs i j) :
    ∃ k : ℕ, i.operands[k]? = some c.1 ∧ j.operands[k]? = some c.2 := by
  unfold operandPairs at h
  split at h
  · cases h
  · obtain ⟨k, hk⟩ := List.mem_iff_getElem?.mp (List.mem_of_mem_filter h)
    exact ⟨k, List.getElem?_zip_eq_some.mp hk⟩

/-- Similar instructions have the same operation. -/
lemma BlockInst.SimilarTo.same {i j : BlockInst Op} (h : i.SimilarTo j) : i.op = j.op ∧
    i.operands.length = j.operands.length ∧
      i.incomingBlocks.isSome = j.incomingBlocks.isSome := by
  have hsame := h.1
  simp only [isSameOperationAs, Bool.and_eq_true, decide_eq_true_eq, beq_iff_eq] at hsame
  exact ⟨hsame.1.1, hsame.1.2, hsame.2⟩

/-- What is left of constraints after the pairs above. -/
def filterAll (ps : List (InstPair Op)) (cs : List BsConstraint) : List BsConstraint :=
  ps.foldl (fun cs p => filterConstraints (pointOf p) (operandPairs p.1.2 p.2.2) cs) cs

/-- The candidates of the pairs of instructions, from the terminators upwards. -/
def candidatesOf : List (InstPair Op) → List ConstrainedBsPoint
  | [] => []
  | p :: ps => ⟨pointOf p, filterAll ps (operandPairs p.1.2 p.2.2)⟩ :: candidatesOf ps

/-- The candidates are those of the similar pairs. -/
lemma calcBsPointCandidates_eq (as bs : List (ℕ × BlockInst Op))
    (candidates : List ConstrainedBsPoint) :
    let ps := (as.zip bs).takeWhile fun p => p.1.2.SimilarTo p.2.2
    calcBsPointCandidates as bs candidates =
      (candidates.map fun cnd => ⟨cnd.p, filterAll ps cnd.constraints⟩) ++ candidatesOf ps := by
  induction as generalizing bs candidates with
  | nil => simp [calcBsPointCandidates, candidatesOf, filterAll]
  | cons a as ih =>
    cases bs with
    | nil => simp [calcBsPointCandidates, candidatesOf, filterAll]
    | cons b bs =>
      rw [calcBsPointCandidates_cons, List.zip_cons_cons, List.takeWhile_cons]
      by_cases hsimilar : a.2.SimilarTo b.2
      · rw [if_pos hsimilar, if_pos (decide_eq_true hsimilar), ih, filterCandidateConstraints,
          List.map_append, List.map_map, List.append_assoc]
        rfl
      · rw [if_neg hsimilar, if_neg (by simpa using hsimilar)]
        simp [candidatesOf, filterAll]

/-- The candidate of a place. -/
lemma getElem?_candidatesOf (ps : List (InstPair Op)) (n : ℕ) : (candidatesOf ps)[n]? =
    ps[n]?.map fun p => ⟨pointOf p, filterAll (ps.drop (n + 1)) (operandPairs p.1.2 p.2.2)⟩ := by
  induction ps generalizing n with
  | nil => rfl
  | cons p ps ih =>
    cases n with
    | zero => rfl
    | succ n => exact ih n

/-- A constraint that nothing solves is kept. -/
lemma mem_filterAll {ps : List (InstPair Op)} {cs : List BsConstraint} {c : BsConstraint}
    (hc : c ∈ cs) (h : ∀ p ∈ ps, c ≠ (definitionOf p).1) : c ∈ filterAll ps cs := by
  induction ps generalizing cs with
  | nil => exact hc
  | cons p ps ih =>
    obtain ⟨hp, hps⟩ := List.forall_mem_cons.mp h
    exact ih ((mem_filterConstraints hc).resolve_right hp) hps

/-- No constraint is left if inlining leaves nothing and the iterator never steps over one. -/
lemma filterAll_eq_nil_iff {ps : List (InstPair Op)}
    (hnodup : (ps.map fun p => (definitionOf p).1).Nodup) (cs : List BsConstraint) :
    filterAll ps cs = [] ↔ Inlining.inlineAll (ps.map definitionOf) cs = [] ∧
      ∀ k p, ps[k]? = some p → (definitionOf p).2 = [] →
        ¬[(definitionOf p).1, (definitionOf p).1] <:+:
          Inlining.inlineAll ((ps.take k).map definitionOf) cs := by
  induction ps generalizing cs with
  | nil => exact ⟨fun h => ⟨h, fun k p hp => by cases hp⟩, And.left⟩
  | cons p ps ih =>
    rw [List.map_cons, List.nodup_cons, List.mem_map] at hnodup
    obtain ⟨hfresh, hnodup⟩ := hnodup
    by_cases hrepeats : (definitionOf p).2 = [] ∧
        [(definitionOf p).1, (definitionOf p).1] <:+: cs
    · -- one of the two constraints is kept
      obtain ⟨hnil, hinfix⟩ := hrepeats
      have hkept : (definitionOf p).1 ∈ filterConstraints (pointOf p) (definitionOf p).2 cs :=
        mem_filterConstraints_of_repeated rfl hnil hinfix
      have hmem : (definitionOf p).1 ∈
          filterAll ps (filterConstraints (pointOf p) (definitionOf p).2 cs) :=
        mem_filterAll hkept fun q hq heq => hfresh ⟨q, hq, heq.symm⟩
      have hmem : (definitionOf p).1 ∈ filterAll (p :: ps) cs := hmem
      refine iff_of_false (fun h => ?_) fun h => h.2 0 p rfl hnil hinfix
      rw [h] at hmem
      exact absurd hmem List.not_mem_nil
    · have hstep : filterAll (p :: ps) cs =
          filterAll ps (Inlining.inlineOne (definitionOf p) cs) :=
        congrArg (filterAll ps) (filterConstraints_eq fun hnil hinfix => hrepeats ⟨hnil, hinfix⟩)
      rw [hstep, ih hnodup]
      refine and_congr_right' ⟨fun h k q hq => ?_, fun h k q hq => h (k + 1) q hq⟩
      cases k with
      | zero =>
        obtain rfl := Option.some.inj hq
        exact fun hnil hinfix => hrepeats ⟨hnil, hinfix⟩
      | succ k => exact h k q hq

lemma lt_length_takeWhile_iff {α : Type*} (P : α → Bool) (l : List α) (n : ℕ) :
    n < (l.takeWhile P).length ↔ ∀ m ≤ n, ∃ a ∈ l[m]?, P a = true := by
  induction l generalizing n with
  | nil =>
    exact ⟨fun h => absurd h (Nat.not_lt_zero n), fun h => by simpa using h 0 (Nat.zero_le n)⟩
  | cons a l ih =>
    rw [List.takeWhile_cons]
    by_cases ha : P a = true
    · rw [if_pos ha, List.length_cons]
      cases n with
      | zero =>
        refine ⟨fun _ m hm => ?_, fun _ => Nat.succ_pos _⟩
        obtain rfl := Nat.le_zero.mp hm
        exact ⟨a, rfl, ha⟩
      | succ n =>
        rw [Nat.succ_lt_succ_iff, ih n]
        constructor
        · intro h m hm
          cases m with
          | zero => exact ⟨a, rfl, ha⟩
          | succ m => exact h m (Nat.le_of_succ_le_succ hm)
        · exact fun h m hm => h (m + 1) (Nat.succ_le_succ hm)
    · rw [if_neg ha]
      refine ⟨fun h => absurd h (Nat.not_lt_zero n), fun h => ?_⟩
      obtain ⟨b, hb, hPb⟩ := h 0 (Nat.zero_le n)
      obtain rfl := Option.some.inj hb
      exact absurd hPb ha

namespace TwoPredecessors

variable {J : TwoPredecessors Op}

omit [DecidableEq Op] in
/-- Instructions of the two blocks have different names. -/
lemma name_ne {d e : ℕ × BlockInst Op} (hd : d ∈ J.b1) (he : e ∈ J.b2) : d.1 ≠ e.1 := by
  have hnodup := J.nodup
  rw [List.map_append, List.nodup_append] at hnodup
  exact hnodup.2.2 _ (List.mem_map_of_mem hd) _ (List.mem_map_of_mem he)

omit [DecidableEq Op] in
/-- Instructions of a block have different names. -/
lemma index_eq_of_name_eq {l : List (ℕ × BlockInst Op)} (hnodup : (l.map Prod.fst).Nodup) {m n : ℕ}
    {d e : ℕ × BlockInst Op} (hd : l[m]? = some d) (he : l[n]? = some e) (h : d.1 = e.1) :
    m = n := by
  have hm := (List.getElem?_eq_some_iff.mp hd).1
  refine (List.getElem?_inj (by rwa [List.length_map]) hnodup).mp ?_
  rw [List.getElem?_map, List.getElem?_map, hd, he, Option.map_some, Option.map_some, h]

variable (J)

omit [DecidableEq Op] in
lemma nodup_b1 : (J.b1.map Prod.fst).Nodup := by
  have hnodup := J.nodup
  rw [List.map_append] at hnodup
  exact hnodup.of_append_left

omit [DecidableEq Op] in
lemma nodup_b2 : (J.b2.map Prod.fst).Nodup := by
  have hnodup := J.nodup
  rw [List.map_append] at hnodup
  exact hnodup.of_append_right

lemma similar_prefix : J.similar <+: J.b1.zip J.b2 := List.takeWhile_prefix _

lemma getElem?_definitions (n : ℕ) : J.definitions[n]? = J.similar[n]?.map definitionOf :=
  List.getElem?_map ..

variable {J}

/-- The instructions at a place. -/
lemma getElem?_of_similar {n : ℕ} {p : InstPair Op} (h : J.similar[n]? = some p) :
    J.b1[n]? = some p.1 ∧ J.b2[n]? = some p.2 := by
  refine List.getElem?_zip_eq_some.mp ?_
  obtain ⟨rest, hrest⟩ := J.similar_prefix
  rw [← hrest, List.getElem?_append_left (List.getElem?_eq_some_iff.mp h).1, h]

/-- They are similar. -/
lemma similarTo_of_similar {n : ℕ} {p : InstPair Op} (h : J.similar[n]? = some p) :
    p.1.2.SimilarTo p.2.2 :=
  of_decide_eq_true (List.mem_takeWhile_imp
    (p := fun p : InstPair Op => decide (p.1.2.SimilarTo p.2.2)) (List.mem_of_getElem? h))

/-- No two pairs have the same results. -/
lemma nodup_definitions : (J.definitions.map Prod.fst).Nodup := by
  rw [definitions, List.map_map, List.nodup_iff_getElem?_ne_getElem?]
  intro m n hmn hn heq
  rw [List.length_map] at hn
  have hp := List.getElem?_eq_getElem (hmn.trans hn)
  have hq := List.getElem?_eq_getElem hn
  rw [List.getElem?_map, List.getElem?_map, hp, hq, Option.map_some, Option.map_some] at heq
  have hname := BlockOperand.instruction.inj (congrArg Prod.fst (Option.some.inj heq))
  exact hmn.ne (index_eq_of_name_eq J.nodup_b1 (getElem?_of_similar hp).1
    (getElem?_of_similar hq).1 hname)

/-- **Candidates.**  A candidate has no constraints if and only if its place is not obstructed. -/
lemma filterAll_similar_eq_nil_iff {n : ℕ} {p : InstPair Op} (h : J.similar[n]? = some p) :
    filterAll (J.similar.drop (n + 1)) (operandPairs p.1.2 p.2.2) = [] ↔ ¬J.Obstructed n := by
  have hdef : J.definitions[n]? = some (definitionOf p) := by
    rw [getElem?_definitions, h, Option.map_some]
  have hnodup : ((J.similar.drop (n + 1)).map fun q => (definitionOf q).1).Nodup := by
    have hall := nodup_definitions (J := J)
    rw [definitions, List.map_map] at hall
    rw [List.map_drop]
    exact hall.sublist (List.drop_sublist _ _)
  have hresolved : Inlining.inlineAll ((J.similar.drop (n + 1)).map definitionOf)
      (definitionOf p).2 = [] ↔ Inlining.Resolved J.definitions n := by
    rw [List.map_drop]
    refine ⟨fun hnil d hd => ?_, fun hres => hres _ hdef⟩
    obtain rfl := Option.some.inj (hdef.symm.trans hd)
    exact hnil
  refine (filterAll_eq_nil_iff hnodup _).trans ?_
  rw [Obstructed, not_or, not_exists]
  refine and_congr ?_ ⟨?_, ?_⟩
  · refine hresolved.trans ((Inlining.resolved_iff nodup_definitions n).trans ?_)
    exact forall_congr' fun m => not_and.symm
  · rintro hnone ⟨m, d, e, hm, hd, he, hnil, hinfix⟩
    obtain rfl := Option.some.inj (hdef.symm.trans hd)
    rw [getElem?_definitions] at he
    obtain ⟨q, hq, rfl⟩ := Option.map_eq_some_iff.mp he
    refine hnone (m - (n + 1)) q ?_ hnil ?_
    · rw [List.getElem?_drop, Nat.add_sub_cancel' hm, hq]
    · rwa [List.take_drop, Nat.add_sub_cancel' hm, List.map_drop, List.map_take]
  · intro hnone k q hq hnil hinfix
    rw [List.getElem?_drop] at hq
    refine hnone ⟨n + 1 + k, _, _, by omega, hdef, ?_, hnil, ?_⟩
    · rw [getElem?_definitions, hq, Option.map_some]
    · rwa [List.take_drop, List.map_drop, List.map_take] at hinfix

/-- The returned pairs are those of the places below the first one that is obstructed. -/
lemma lt_length_points_iff (n : ℕ) : n < J.points.length ↔ J.UnobstructedUpTo n := by
  rw [points, getBsPoints, getSatisfiableCandidates, List.length_map, lt_length_takeWhile_iff,
    calcBsPointCandidates_eq]
  change (∀ m ≤ n, ∃ cnd ∈ (candidatesOf J.similar)[m]?, _) ↔ _
  have hplace : ∀ m, (∃ cnd ∈ (candidatesOf J.similar)[m]?, cnd.constraints.isEmpty = true) ↔
      m < J.definitions.length ∧ ¬J.Obstructed m := by
    intro m
    rw [getElem?_candidatesOf, definitions, List.length_map]
    constructor
    · rintro ⟨cnd, hcnd, hempty⟩
      obtain ⟨p, hp, rfl⟩ := Option.map_eq_some_iff.mp hcnd
      exact ⟨(List.getElem?_eq_some_iff.mp hp).1,
        (filterAll_similar_eq_nil_iff hp).mp (List.isEmpty_iff.mp hempty)⟩
    · rintro ⟨hm, hobstructed⟩
      have hp := List.getElem?_eq_getElem hm
      refine ⟨_, by rw [hp]; rfl, List.isEmpty_iff.mpr ?_⟩
      exact (filterAll_similar_eq_nil_iff hp).mpr hobstructed
  simp only [hplace]
  exact ⟨fun h => ⟨(h n le_rfl).1, fun m hm => (h m hm).2⟩,
    fun h m hm => ⟨hm.trans_lt h.1, h.2 m hm⟩⟩

/-- The returned pairs are at the same places of the two blocks. -/
lemma points_eq : J.points = ((J.b1.zip J.b2).take J.points.length).map pointOf := by
  have hcandidates : (candidatesOf J.similar).map ConstrainedBsPoint.p = J.similar.map pointOf := by
    refine List.ext_getElem? fun n => ?_
    rw [List.getElem?_map, List.getElem?_map, getElem?_candidatesOf, Option.map_map]
    rfl
  have hprefix : J.points <+: (J.b1.zip J.b2).map pointOf := by
    rw [points, getBsPoints, getSatisfiableCandidates, calcBsPointCandidates_eq]
    refine ((List.takeWhile_prefix _).map _).trans ?_
    change (candidatesOf J.similar).map ConstrainedBsPoint.p <+: _
    rw [hcandidates]
    exact J.similar_prefix.map _
  rw [List.map_take]
  exact List.prefix_iff_eq_take.mp hprefix

/-- A place below the end of the similar pairs. -/
lemma UnobstructedUpTo.exists_similar {n : ℕ} (h : J.UnobstructedUpTo n) :
    ∃ p, J.similar[n]? = some p := by
  have hlt := h.1
  rw [definitions, List.length_map] at hlt
  exact ⟨_, List.getElem?_eq_getElem hlt⟩

lemma UnobstructedAt.similar {n : ℕ} {p q : ℕ × BlockInst Op} (h : J.UnobstructedAt n p q) :
    J.similar[n]? = some (p, q) := by
  obtain ⟨r, hr⟩ := h.2.2.exists_similar
  obtain ⟨h1, h2⟩ := getElem?_of_similar hr
  rw [hr, Option.some.inj (h.1.symm.trans h1), Option.some.inj (h.2.1.symm.trans h2)]

/-- A returned pair has a place. -/
lemma exists_unobstructedAt_of_mem {r : ℕ × ℕ} (hr : r ∈ J.points) :
    ∃ n p q, J.UnobstructedAt n p q ∧ r = (p.1, q.1) := by
  obtain ⟨n, hn, hget⟩ := List.getElem_of_mem hr
  have hup := (J.lt_length_points_iff n).mp hn
  obtain ⟨⟨p, q⟩, hpq⟩ := hup.exists_similar
  have hplace := getElem?_of_similar hpq
  refine ⟨n, p, q, ⟨hplace.1, hplace.2, hup⟩, ?_⟩
  have hget? := congrArg (·[n]?) J.points_eq
  have hzip : (J.b1.zip J.b2)[n]? = some (p, q) := List.getElem?_zip_eq_some.mpr hplace
  simp only [List.getElem?_map, List.getElem?_take_of_lt hn, hzip, Option.map_some,
    List.getElem?_eq_getElem hn, hget] at hget?
  exact Option.some.inj hget?

lemma UnobstructedAt.mem_points {n : ℕ} {p q : ℕ × BlockInst Op} (h : J.UnobstructedAt n p q) :
    (p.1, q.1) ∈ J.points := by
  have hlt := (J.lt_length_points_iff n).mpr h.2.2
  have hzip : (J.b1.zip J.b2)[n]? = some (p, q) := List.getElem?_zip_eq_some.mpr ⟨h.1, h.2.1⟩
  rw [J.points_eq]
  refine List.mem_map.mpr ⟨(p, q), List.mem_of_getElem? (i := n) ?_, rfl⟩
  rw [List.getElem?_take_of_lt hlt, hzip]

/-- The operands of a returned pair are equal, or the results of a pair above. -/
lemma UnobstructedAt.operand {n k : ℕ} {p q : ℕ × BlockInst Op} (h : J.UnobstructedAt n p q)
    {x y : BlockOperand} (hx : p.2.operands[k]? = some x) (hy : q.2.operands[k]? = some y) :
    x = y ∨ ∃ m d e, J.Depends n m ∧ J.similar[m]? = some (d, e) ∧ x = .instruction d.1 ∧
      y = .instruction e.1 := by
  refine (similarTo_of_similar h.similar).operand hx hy |>.imp_right fun hmem => ?_
  have hdef : J.definitions[n]? = some (definitionOf (p, q)) := by
    rw [getElem?_definitions, h.similar, Option.map_some]
  -- an operand that is not defined above would obstruct the place
  by_contra hnone
  refine h.2.2.2 n le_rfl (.inl ⟨n, .refl, _, hdef, (x, y), hmem, fun m c hm hc heq => hnone ?_⟩)
  have hdepends : J.Depends n m := ⟨hm, _, c, hdef, hc, heq ▸ hmem⟩
  rw [getElem?_definitions] at hc
  obtain ⟨⟨d, e⟩, hde, rfl⟩ := Option.map_eq_some_iff.mp hc
  exact ⟨m, d, e, hdepends, hde, congrArg Prod.fst heq, congrArg Prod.snd heq⟩

/-- Nothing between a place and the one that defines its operands is obstructed. -/
lemma UnobstructedUpTo.of_depends {n m : ℕ} (h : J.UnobstructedUpTo n)
    (hdefs : J.DefinitionsUnobstructed) (hdepends : J.Depends n m) : J.UnobstructedUpTo m := by
  refine ⟨?_, fun l hl => ?_⟩
  · obtain ⟨-, -, e, -, he, -⟩ := hdepends
    exact (List.getElem?_eq_some_iff.mp he).1
  · by_cases hln : l ≤ n
    · exact h.2 l hln
    · exact hdefs n m l h hdepends (by omega) hl

lemma UnobstructedAt.same {n : ℕ} {p q : ℕ × BlockInst Op} (h : J.UnobstructedAt n p q) :
    p.2.op = q.2.op ∧ p.2.operands.length = q.2.operands.length ∧
      p.2.incomingBlocks.isSome = q.2.incomingBlocks.isSome :=
  (similarTo_of_similar h.similar).same

variable (J)

/-! ## Equivalent suffixes -/

/-- The pairs of instructions that are returned. -/
def returned : List (InstPair Op) :=
  (J.b1.take J.points.length).zip (J.b2.take J.points.length)

lemma length_points_le : J.points.length ≤ J.b1.length ∧ J.points.length ≤ J.b2.length := by
  have hlength := congrArg List.length J.points_eq
  rw [List.length_map, List.length_take, List.length_zip] at hlength
  omega

lemma map_fst_returned : J.returned.map Prod.fst = J.b1.take J.points.length := by
  have hle := J.length_points_le
  refine List.map_fst_zip ?_
  rw [List.length_take, List.length_take]
  omega

lemma map_snd_returned : J.returned.map Prod.snd = J.b2.take J.points.length := by
  have hle := J.length_points_le
  refine List.map_snd_zip ?_
  rw [List.length_take, List.length_take]
  omega

variable {J}

lemma getElem?_returned {n : ℕ} {p q : ℕ × BlockInst Op} :
    J.returned[n]? = some (p, q) ↔ J.UnobstructedAt n p q := by
  rw [UnobstructedAt, ← lt_length_points_iff, returned, List.getElem?_zip_eq_some,
    List.getElem?_take, List.getElem?_take]
  split
  · rename_i hlt
    exact ⟨fun h => ⟨h.1, h.2, hlt⟩, fun h => ⟨h.1, h.2.1⟩⟩
  · rename_i hlt
    exact ⟨fun h => (by cases h.1), fun h => absurd h.2.2 hlt⟩

/-- The returned pairs above a place. -/
lemma mem_drop_returned {n : ℕ} {d : ℕ × ℕ} :
    d ∈ (J.returned.drop (n + 1)).map pointOf ↔
      ∃ m p q, n < m ∧ J.UnobstructedAt m p q ∧ d = (p.1, q.1) := by
  rw [List.mem_map]
  constructor
  · rintro ⟨⟨p, q⟩, hmem, rfl⟩
    obtain ⟨k, hk⟩ := List.mem_iff_getElem?.mp hmem
    rw [List.getElem?_drop] at hk
    exact ⟨n + 1 + k, p, q, by omega, getElem?_returned.mp hk, rfl⟩
  · rintro ⟨m, p, q, hm, hat, rfl⟩
    refine ⟨(p, q), List.mem_iff_getElem?.mpr ⟨m - (n + 1), ?_⟩, rfl⟩
    rw [List.getElem?_drop, show n + 1 + (m - (n + 1)) = m by omega]
    exact getElem?_returned.mpr hat

/-- Under the conditions the returned suffixes match. -/
lemma suffixesMatch_returned (hdefs : J.DefinitionsUnobstructed) (hcommon : J.CommonOperandsOutside)
    (hphis : J.PhisEqual) : SuffixesMatch J.returned := by
  refine suffixesMatch_of_forall fun n ⟨p, q⟩ hget => ?_
  have hat := getElem?_returned.mp hget
  obtain ⟨hop, hlength, hsome⟩ := hat.same
  refine ⟨hop, hsome, hphis n p q hat, fun hnone => ?_⟩
  refine List.forall₂_iff_get.mpr ⟨hlength, fun k hk hk' => ?_⟩
  have hx := List.getElem?_eq_getElem hk
  have hy := List.getElem?_eq_getElem hk'
  rw [List.get_eq_getElem, List.get_eq_getElem]
  rcases hat.operand hx hy with heq | ⟨m, d, e, hdepends, hde, hxd, hye⟩
  · -- a common operand
    refine .inr ⟨heq, fun r hr => ?_⟩
    obtain ⟨m, d, e, hm, hat', rfl⟩ := mem_drop_returned.mp hr
    rw [← heq] at hy
    exact hcommon n m k p q d e hat hnone hm hat' _ hx hy
  · -- the results of a pair above
    obtain ⟨hd, he⟩ := getElem?_of_similar hde
    have hup := hat.2.2.of_depends hdefs hdepends
    exact .inl ⟨(d.1, e.1), mem_drop_returned.mpr ⟨m, d, e, hdepends.1, ⟨hd, he, hup⟩, rfl⟩,
      hxd, hye⟩

/-- The phi nodes have the same values if their values are a returned pair. -/
lemma regs_eq_of_sameState {V μ : Type*} {entry : BlockOperand → V} {st st' : SuffixState Op V μ}
    (hagree : Agree entry (J.returned.map pointOf) st st') {phi : JoinPhi} (hphi : phi ∈ J.phis)
    (hstate : phi.sameState J.points = true) :
    st.regs phi.fromFirst = st'.regs phi.fromSecond := by
  have hreturned : ∀ r ∈ J.points, r ∈ J.returned.map pointOf ∧ (∃ p ∈ J.b1, p.1 = r.1) ∧
      ∃ q ∈ J.b2, q.1 = r.2 := by
    intro r hr
    obtain ⟨n, p, q, hat, rfl⟩ := exists_unobstructedAt_of_mem hr
    exact ⟨List.mem_map.mpr ⟨(p, q), List.mem_of_getElem? (getElem?_returned.mpr hat), rfl⟩,
      ⟨p, List.mem_of_getElem? hat.1, rfl⟩, ⟨q, List.mem_of_getElem? hat.2.1, rfl⟩⟩
  -- one value is the first of a pair and the other one the second
  have hpair : ∃ r ∈ J.points, (phi.incoming0 = .instruction r.1 ∧
      phi.incoming1 = .instruction r.2) ∨ (phi.incoming0 = .instruction r.2 ∧
        phi.incoming1 = .instruction r.1) := by
    unfold JoinPhi.sameState at hstate
    cases hbp1 : J.points.find? fun p => phi.incoming0 = .instruction p.1 with
    | none =>
      cases hbp2 : J.points.find? fun p => phi.incoming0 = .instruction p.2 with
      | none => simp [hbp1, hbp2] at hstate
      | some r =>
        simp only [hbp1, hbp2, decide_eq_true_eq] at hstate
        have hr0 := List.find?_some hbp2
        exact ⟨r, List.mem_of_find?_eq_some hbp2, .inr ⟨of_decide_eq_true hr0, hstate.symm⟩⟩
    | some r =>
      have hr := List.mem_of_find?_eq_some hbp1
      have hr0 := List.find?_some hbp1
      have hr0 : phi.incoming0 = .instruction r.1 := of_decide_eq_true hr0
      cases hbp2 : J.points.find? fun p => phi.incoming0 = .instruction p.2 with
      | none =>
        simp only [hbp1, hbp2, decide_eq_true_eq] at hstate
        exact ⟨r, hr, .inl ⟨hr0, hstate.symm⟩⟩
      | some r' =>
        -- no name belongs to both blocks
        have hr0' := List.find?_some hbp2
        have hr0' : phi.incoming0 = .instruction r'.2 := of_decide_eq_true hr0'
        obtain ⟨-, ⟨p, hp, hp1⟩, -⟩ := hreturned r hr
        obtain ⟨-, -, ⟨q, hq, hq2⟩⟩ := hreturned r' (List.mem_of_find?_eq_some hbp2)
        have heq := BlockOperand.instruction.inj (hr0.symm.trans hr0')
        exact absurd (hp1.trans (heq.trans hq2.symm)) (name_ne hp hq)
  obtain ⟨r, hr, hpair⟩ := hpair
  obtain ⟨hdone, ⟨p, hp, hp1⟩, ⟨q, hq, hq2⟩⟩ := hreturned r hr
  -- the values belong to the predecessors that they are instructions of
  have hcross : phi.fromFirst = .instruction r.2 → phi.fromSecond ≠ .instruction r.1 := by
    rw [← hp1, ← hq2]
    exact J.phis_wf phi hphi q hq p hp
  have hresult := hagree.results r hdone
  unfold JoinPhi.fromFirst JoinPhi.fromSecond at hcross ⊢
  cases hswapped : phi.swapped with
  | false =>
    rw [hswapped] at hcross
    rcases hpair with ⟨h0, h1⟩ | ⟨h0, h1⟩
    · simpa [h0, h1] using hresult
    · exact absurd h1 (hcross h0)
  | true =>
    rw [hswapped] at hcross
    rcases hpair with ⟨h0, h1⟩ | ⟨h0, h1⟩
    · exact absurd h0 (hcross h1)
    · simpa [h0, h1] using hresult

/-- Under the conditions the returned suffixes are equivalent. -/
lemma suffixesEquivalent (hdefs : J.DefinitionsUnobstructed) (hcommon : J.CommonOperandsOutside)
    (hphis : J.PhisEqual) : J.SuffixesEquivalent := by
  intro V μ S entry pred mem
  have hfst : (J.returned.map fun p => p.1.1).Nodup := by
    have htake := J.nodup_b1.sublist ((J.b1.take_sublist J.points.length).map Prod.fst)
    rwa [← map_fst_returned, List.map_map] at htake
  have hsnd : (J.returned.map fun p => p.2.1).Nodup := by
    have htake := J.nodup_b2.sublist ((J.b2.take_sublist J.points.length).map Prod.fst)
    rwa [← map_snd_returned, List.map_map] at htake
  have hagree := agree_runSuffix S entry pred mem
    (suffixesMatch_returned hdefs hcommon hphis) hfst hsnd
  rw [map_fst_returned, map_snd_returned] at hagree
  exact ⟨hagree.trace_eq, hagree.mem_eq, fun hstate phi hphi =>
    regs_eq_of_sameState hagree hphi (List.all_eq_true.mp hstate phi hphi)⟩

/-- Under the first condition the operands are returned. -/
lemma operandsReturned (hdefs : J.DefinitionsUnobstructed) : J.OperandsReturned := by
  intro r hr i j hi hj
  obtain ⟨n, p, q, hat, rfl⟩ := exists_unobstructedAt_of_mem hr
  obtain ⟨m, hm⟩ := List.mem_iff_getElem?.mp hi
  obtain ⟨m', hm'⟩ := List.mem_iff_getElem?.mp hj
  obtain rfl := index_eq_of_name_eq J.nodup_b1 hm hat.1 rfl
  obtain rfl := index_eq_of_name_eq J.nodup_b2 hm' hat.2.1 rfl
  obtain rfl : i = p.2 := congrArg Prod.snd (Option.some.inj (hm.symm.trans hat.1))
  obtain rfl : j = q.2 := congrArg Prod.snd (Option.some.inj (hm'.symm.trans hat.2.1))
  refine ⟨hat.same.2.1, fun k x y hx hy => ?_⟩
  rcases hat.operand hx hy with heq | ⟨m, d, e, hdepends, hde, rfl, rfl⟩
  · exact .inl heq
  · obtain ⟨hd, he⟩ := getElem?_of_similar hde
    have hup := hat.2.2.of_depends hdefs hdepends
    exact .inr ⟨(d.1, e.1), UnobstructedAt.mem_points ⟨hd, he, hup⟩, rfl, rfl⟩

/-- The first condition is necessary: the instructions that define the operands are returned. -/
lemma definitionsUnobstructed (h : J.OperandsReturned) : J.DefinitionsUnobstructed := by
  rintro n m l hup ⟨-, a, b, ha, hb, hmem⟩ - hl
  rw [getElem?_definitions] at ha hb
  obtain ⟨⟨p, q⟩, hpq, rfl⟩ := Option.map_eq_some_iff.mp ha
  obtain ⟨⟨d, e⟩, hde, rfl⟩ := Option.map_eq_some_iff.mp hb
  obtain ⟨hd, he⟩ := getElem?_of_similar hde
  obtain ⟨hp, hq⟩ := getElem?_of_similar hpq
  have hat : J.UnobstructedAt n p q := ⟨hp, hq, hup⟩
  obtain ⟨k, hx, hy⟩ := exists_operand_of_mem hmem
  rcases (h _ hat.mem_points p.2 q.2 (List.mem_of_getElem? hp) (List.mem_of_getElem? hq)).2 k _ _
    hx hy with heq | ⟨r, hr, hx', -⟩
  · exact absurd (BlockOperand.instruction.inj heq)
      (name_ne (List.mem_of_getElem? hd) (List.mem_of_getElem? he))
  · obtain ⟨m', d', e', hat', rfl⟩ := exists_unobstructedAt_of_mem hr
    obtain rfl := index_eq_of_name_eq J.nodup_b1 hd hat'.1 (BlockOperand.instruction.inj hx')
    exact hat'.2.2.2 l hl

/-- The part of the first block above a returned instruction. -/
lemma UnobstructedAt.drop_take {n : ℕ} {p q : ℕ × BlockInst Op} (h : J.UnobstructedAt n p q) :
    (J.b1.take J.points.length).drop n = p :: (J.b1.take J.points.length).drop (n + 1) ∧
      (J.b2.take J.points.length).drop n = q :: (J.b2.take J.points.length).drop (n + 1) := by
  have hlt := (J.lt_length_points_iff n).mpr h.2.2
  have hget : ∀ {l : List (ℕ × BlockInst Op)} {p : ℕ × BlockInst Op}, l[n]? = some p →
      (l.take J.points.length).drop n = p :: (l.take J.points.length).drop (n + 1) := by
    intro l p hp
    rw [← List.getElem?_take_of_lt hlt] at hp
    obtain ⟨hn, hp⟩ := List.getElem?_eq_some_iff.mp hp
    rw [List.drop_eq_getElem_cons hn, hp]
  exact ⟨hget h.1, hget h.2.1⟩

/-- Phi nodes of equivalent suffixes have the same values for all predecessors. -/
lemma phisEqual (h : J.SuffixesEquivalent) : J.PhisEqual := by
  intro n p q hat hp pred
  have htrace := (h (symbolic Op) some pred ()).1
  obtain ⟨hdrop, hdrop'⟩ := hat.drop_take
  exact incomingValue_eq_of_symbolic htrace hdrop hdrop' hp (hat.same.2.2 ▸ hp)

/-- Common operands in equivalent suffixes are no instructions of the suffixes: in a symbolic run
only one of them would be assigned. -/
lemma commonOperandsOutside (h : J.SuffixesEquivalent) : J.CommonOperandsOutside := by
  intro n m k p q d e hat hp hm hat' x hx hy
  obtain ⟨pred, hpred⟩ := exists_fresh_pred (J.b1 ++ J.b2)
  have htrace := (h (symbolic Op) some pred ()).1
  obtain ⟨hdrop, hdrop'⟩ := hat.drop_take
  have hq : q.2.incomingBlocks = none := by
    have hsome := hat.same.2.2
    rw [hp] at hsome
    exact Option.not_isSome_iff_eq_none.mp (by rw [← hsome]; exact Bool.false_ne_true)
  have hmap := map_regs_eq_of_symbolic htrace hdrop hdrop' hp hq
  have hregs := congrArg (·[k]?) hmap
  simp only [List.getElem?_map, hx, hy, Option.map_some, Option.some.injEq] at hregs
  -- the instructions above are in the suffixes
  have hlt := (J.lt_length_points_iff m).mpr hat'.2.2
  have hmem : ∀ {l : List (ℕ × BlockInst Op)} {d : ℕ × BlockInst Op}, l[m]? = some d →
      d ∈ (l.take J.points.length).drop (n + 1) := by
    intro l d hd
    refine List.mem_iff_getElem?.mpr ⟨m - (n + 1), ?_⟩
    rw [List.getElem?_drop, show n + 1 + (m - (n + 1)) = m by omega,
      List.getElem?_take_of_lt hlt, hd]
  have hsub : ∀ {l : List (ℕ × BlockInst Op)} {r : ℕ × BlockInst Op},
      r ∈ (l.take J.points.length).drop (n + 1) → r ∈ l :=
    fun hr => List.mem_of_mem_take (List.mem_of_mem_drop hr)
  have h1 := regs_symbolic ((J.b1.take J.points.length).drop (n + 1))
    (fun r hr => hpred r (List.mem_append_left _ (hsub hr))) x
  have h2 := regs_symbolic ((J.b2.take J.points.length).drop (n + 1))
    (fun r hr => hpred r (List.mem_append_right _ (hsub hr))) x
  constructor
  · rintro rfl
    rcases h1 with ⟨hfresh, -⟩ | ⟨-, hnone⟩
    · exact hfresh d (hmem hat'.1) rfl
    rcases h2 with ⟨-, hsome⟩ | ⟨⟨r, hr, heq⟩, -⟩
    · rw [hnone, hsome] at hregs
      cases hregs
    · exact name_ne (List.mem_of_getElem? hat'.1) (hsub hr) (BlockOperand.instruction.inj heq)
  · rintro rfl
    rcases h2 with ⟨hfresh, -⟩ | ⟨-, hnone⟩
    · exact hfresh e (hmem hat'.2.1) rfl
    rcases h1 with ⟨-, hsome⟩ | ⟨⟨r, hr, heq⟩, -⟩
    · rw [hnone, hsome] at hregs
      cases hregs
    · exact name_ne (hsub hr) (List.mem_of_getElem? hat'.2.1)
        (BlockOperand.instruction.inj heq).symm

/-- The operands of the returned pairs are returned and the suffixes are equivalent if and only if
no obstructed place is between a pair below the first such place and the pair that defines its
operands, a common operand is no instruction of the suffixes, and phi nodes have the same values. -/
theorem getBsPoints_equivalent_iff {Op : Type*} [DecidableEq Op] (J : TwoPredecessors Op) :
    J.OperandsReturned ∧ J.SuffixesEquivalent ↔
      J.DefinitionsUnobstructed ∧ J.CommonOperandsOutside ∧ J.PhisEqual :=
  ⟨fun h => ⟨definitionsUnobstructed h.1, commonOperandsOutside h.2, phisEqual h.2⟩,
    fun h => ⟨operandsReturned h.1, suffixesEquivalent h.1 h.2.1 h.2.2⟩⟩

/-- The stored values are loaded above calls with different arguments. -/
def storeBelowCalls : TwoPredecessors String where
  b1 := [(1, ⟨"br", 0, [.basicBlock 0], none⟩),
    (2, ⟨"store", 0, [.instruction 4, .constant 1], none⟩),
    (3, ⟨"call", 0, [.argument 0], none⟩), (4, ⟨"load", 0, [.constant 0], none⟩)]
  b2 := [(5, ⟨"br", 0, [.basicBlock 0], none⟩),
    (6, ⟨"store", 0, [.instruction 8, .constant 1], none⟩),
    (7, ⟨"call", 0, [.argument 1], none⟩), (8, ⟨"load", 0, [.constant 0], none⟩)]
  phis := []
  nodup := by decide
  phis_wf _ hphi := absurd hphi List.not_mem_nil

/-- Both blocks store the value that one of them has loaded. -/
def storeOfOneLoad : TwoPredecessors String where
  b1 := [(1, ⟨"br", 0, [.basicBlock 0], none⟩),
    (2, ⟨"store", 0, [.instruction 6, .constant 1], none⟩), (3, ⟨"load", 0, [.constant 0], none⟩)]
  b2 := [(4, ⟨"br", 0, [.basicBlock 0], none⟩),
    (5, ⟨"store", 0, [.instruction 6, .constant 1], none⟩), (6, ⟨"load", 0, [.constant 0], none⟩)]
  phis := []
  nodup := by decide
  phis_wf _ hphi := absurd hphi List.not_mem_nil

/-- The stores are returned without the loads; and the loads and the stores are returned where one
suffix stores the new value and the other one the old value. -/
theorem getBsPoints_not_equivalent :
    (storeBelowCalls.points = [(1, 5), (2, 6)] ∧ ¬storeBelowCalls.OperandsReturned) ∧
      storeOfOneLoad.points = [(1, 4), (2, 5), (3, 6)] ∧ ¬storeOfOneLoad.SuffixesEquivalent := by
  refine ⟨⟨by decide, fun h => ?_⟩, by decide, fun h => ?_⟩
  · have hstore := (h (2, 6) (by decide) ⟨"store", 0, [.instruction 4, .constant 1], none⟩
      ⟨"store", 0, [.instruction 8, .constant 1], none⟩ (by decide) (by decide)).2 0 _ _ rfl rfl
    revert hstore
    decide
  · have htrace := (h (symbolic String) some 0 ()).1
    revert htrace
    decide

end TwoPredecessors

end

end GenMC
