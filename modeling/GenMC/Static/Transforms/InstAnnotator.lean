import GenMC.Lib.DepthFirst
import GenMC.Static.IRFunction
import GenMC.Support.SExprRewriting

/-!
# Annotations of loads

`annotate` computes an expression over the registers of a function that is meant to be false only if
the thread cannot get past the next assume.  It is a depth-first search from the successor of a
load: the annotation of an instruction is the one of its successor with the expression of the
instruction for its register, the annotation of a branch selects one of two, and the search ends at
assumes, loads and side effects.  Back edges are annotated with true.

An instruction that is not supported gets the expression true, and phi nodes are replaced one by
one.

`annotateBBCond` goes backwards through a single block, from the condition of its branch.
-/

namespace GenMC

/-- `IRExpr`: an expression over the values of a function. -/
abbrev IRExpr := SExpr IRValue

/-- `ConcreteExpr::createTrue`. -/
def createTrue : IRExpr := .concrete boolWidth 1

/-- `ConcreteExpr::createFalse`. -/
def createFalse : IRExpr := .concrete boolWidth 0

/-- `mayReadOrWriteMemory`. -/
def Instruction.mayReadOrWriteMemory : Instruction → Bool
  | load | atomicCmpXchg | sideEffect | assume _ | error => true
  | _ => false

namespace IRFunction

variable (F : IRFunction)

/-- `generateOperandExpr`; other constants are an error. -/
def generateOperandExpr (op : IRValue) : Option IRExpr :=
  match op with
  | .constant (.undef width) => some (.concrete width 42)
  | .constant (.int width value) =>
    -- getLimitedValue
    some (.concrete width (BitVec.ofNat 64 (min value (2 ^ 64 - 1))))
  | .constant .nullPointer => some (.concrete (F.typeSize op) 0)
  | .constant .other => none
  | reg => some (.register (F.typeSize op) reg)

/-- `generateInstExpr`.  There is no case for signed remainders. -/
def generateInstExpr (curr : Instruction) : Option IRExpr :=
  match curr with
  | .binary .srem _ _ _ => some createTrue
  | .binary opcode width left right => do
    return .binary opcode width (← F.generateOperandExpr left) (← F.generateOperandExpr right)
  | .icmp predicate _ left right => do
    return .cmp predicate (← F.generateOperandExpr left) (← F.generateOperandExpr right)
  | .select cond ifTrue ifFalse => do
    let c ← F.generateOperandExpr cond
    let t ← F.generateOperandExpr ifTrue
    let f ← F.generateOperandExpr ifFalse
    return .select t.getWidth c t f
  | .cast opcode _ target op => do
    return .cast opcode target (← F.generateOperandExpr op)
  | .bitCast op => F.generateOperandExpr op
  | .pointerCast srcSize dstSize width op => do
    let e ← F.generateOperandExpr op
    return if dstSize < srcSize then .cast .trunc width e
      else if srcSize < dstSize then .cast .zext width e
      else e
  | .extractCAS index cas compareOperand =>
    if index = 0 then F.generateOperandExpr cas
    else do
      return .cmp .eq (← F.generateOperandExpr cas) (← F.generateOperandExpr compareOperand)
  | _ => some createTrue

/-- Whether an instruction is a point beyond which annotations do not go. -/
def endsAnnotation : Instruction → Bool
  | .load | .atomicCmpXchg | .sideEffect | .assume _ | .error => true
  | _ => false

/-- `getNextOrBranchSuccessors`. -/
def getNextOrBranchSuccessors (p : InstPos) : List InstPos :=
  match F.inst? p with
  | none => []
  | some i =>
    if endsAnnotation i then []
    else if (F.inst? p.next).isSome then [p.next]
    else
      match i with
      | .br dest => [⟨dest, 0⟩]
      | .condBr _ ifTrue ifFalse => [⟨ifTrue, 0⟩, ⟨ifFalse, 0⟩]
      | _ => []

/-- The body of the loop over the phi nodes of a block: the expression of the incoming value takes
the place of the register. -/
def substitutePhi (pred block : ℕ) (succExp : IRExpr) (phi : List (ℕ × IRValue) × ℕ) :
    Option IRExpr :=
  (phi.1.lookup pred).bind fun op =>
    (F.generateOperandExpr op).map fun phiOp =>
      SExpr.substitute succExp (.inst ⟨block, phi.2⟩) phiOp

/-- The loop over the phi nodes of a successor in another block. -/
def substitutePhis (curr succ : InstPos) (succExp : IRExpr) : Option IRExpr :=
  if curr.block ≠ succ.block then
    (F.phis succ.block).zipIdx.foldlM (F.substitutePhi curr.block succ.block) succExp
  else some succExp

/-- `propagateAnnotFromSucc`. -/
def propagateAnnotFromSucc (annot : InstPos → Option IRExpr) (curr succ : InstPos) :
    Option IRExpr := do
  let succAnnot ← annot succ
  let succExp ← F.substitutePhis curr succ succAnnot.clone
  let i ← F.inst? curr
  match i with
  | .br _ | .condBr _ _ _ | .phi _ => return succExp
  | i => (F.generateInstExpr i).map fun currOp => SExpr.substitute succExp (.inst curr) currOp

/-- The end of `annotateDFS`, after the loop over the successors. -/
def finishAnnot (annot : InstPos → Option IRExpr) (curr : InstPos) : Option IRExpr :=
  match F.getNextOrBranchSuccessors curr with
  | [] =>
    match F.inst? curr with
    | some (.assume cond) => F.generateOperandExpr cond
    | _ => some createTrue
  | [succ] => F.propagateAnnotFromSucc annot curr succ
  | succ₀ :: succ₁ :: _ =>
    match F.inst? curr with
    | some (.condBr cond _ _) => do
      let t ← F.propagateAnnotFromSucc annot curr succ₀
      let f ← F.propagateAnnotFromSucc annot curr succ₁
      return .select t.getWidth (.register boolWidth cond) t f
    | _ => none

/-- `annotateDFS`. -/
def annotateDFS : ℕ → InstPos → DepthFirst.Search InstPos IRExpr →
    Option (DepthFirst.Search InstPos IRExpr) :=
  DepthFirst.evaluate F.getNextOrBranchSuccessors createTrue F.finishAnnot

/-- `annotate`; it is a bug if there is no load. -/
def annotate (l : InstPos) : Option IRExpr :=
  match F.inst? l with
  | some .load | some .atomicCmpXchg =>
    (F.annotateDFS F.positions.card l.next .start).bind fun s => s.result l.next
  | _ => none

/-- The loop of `annotateBBCond` from an index of the block down to its beginning. -/
def annotateBackwards (bb : ℕ) : ℕ → (InstPos → Option IRExpr) → Option (InstPos → Option IRExpr)
  | 0, annotMap => some annotMap
  | k + 1, annotMap =>
    (F.inst? ⟨bb, k⟩).bind fun i =>
      (if i.mayReadOrWriteMemory then some createFalse
        else F.propagateAnnotFromSucc annotMap ⟨bb, k⟩ ⟨bb, k + 1⟩).bind fun e =>
          annotateBackwards bb k (Function.update annotMap ⟨bb, k⟩ (some e))

/-- The position of `getTerminator`. -/
def terminatorPos (bb : ℕ) : InstPos := ⟨bb, (F.blocks[bb]?.getD []).length - 1⟩

/-- `annotateBBCond`: the condition on which a block goes to its first successor. -/
def annotateBBCond (bb : ℕ) (pred : Option ℕ) : Option IRExpr :=
  let bi := F.terminatorPos bb
  match F.inst? bi with
  | some (.br _) => some createTrue
  | some (.condBr cond _ _) => do
    let e ← F.generateOperandExpr cond
    let annotMap ← F.annotateBackwards bb bi.index (Function.update (fun _ => none) bi (some e))
    match pred with
    | some pred => F.propagateAnnotFromSucc annotMap (F.terminatorPos pred) ⟨bb, 0⟩
    | none => annotMap ⟨bb, 0⟩
  | _ => some createFalse

/-! ## Termination -/

variable {F}

section Successors

variable {p : InstPos} {i : Instruction}

/-- Annotations end at some instructions. -/
lemma successors_of_ends (hi : F.inst? p = some i) (hend : endsAnnotation i = true) :
    F.getNextOrBranchSuccessors p = [] := by
  rw [getNextOrBranchSuccessors, hi]
  exact if_pos hend

/-- The other instructions that are no terminators are followed by the next one. -/
lemma successors_of_not_terminator (hF : F.WellFormed) (hi : F.inst? p = some i)
    (hend : endsAnnotation i = false) (hterm : i.isTerminator = false) :
    F.getNextOrBranchSuccessors p = [p.next] := by
  have hnext := hF.terminated p ((F.mem_positions).mpr (hi ▸ rfl)) i hi
  rw [hterm, Bool.not_false] at hnext
  rw [getNextOrBranchSuccessors, hi]
  simp only [hend, Bool.false_eq_true, if_false, hnext, if_true]

/-- Terminators are followed by the first instructions of other blocks. -/
lemma successors_of_terminator (hF : F.WellFormed) (hi : F.inst? p = some i)
    (hterm : i.isTerminator = true) :
    F.getNextOrBranchSuccessors p = i.targets.map (⟨·, 0⟩) := by
  have hnext := hF.terminated p ((F.mem_positions).mpr (hi ▸ rfl)) i hi
  rw [hterm, Bool.not_true] at hnext
  rw [getNextOrBranchSuccessors, hi]
  cases i with
  | br dest => simp [hnext, endsAnnotation, Instruction.targets]
  | condBr cond ifTrue ifFalse => simp [hnext, endsAnnotation, Instruction.targets]
  | exit => simp [hnext, endsAnnotation, Instruction.targets]
  | _ => cases hterm

end Successors

/-- Integers and pointers have expressions. -/
lemma isSome_generateOperandExpr {op : IRValue} (h : Supported op) :
    (F.generateOperandExpr op).isSome := by
  cases op with
  | constant c =>
    cases c with
    | other => exact absurd rfl h
    | _ => rfl
  | _ => rfl

/-- Instructions on integers and pointers have expressions. -/
lemma isSome_generateInstExpr {i : Instruction} (h : ∀ op ∈ i.operands, Supported op) :
    (F.generateInstExpr i).isSome := by
  have hop (op : IRValue) (hmem : op ∈ i.operands) : ∃ e, F.generateOperandExpr op = some e :=
    Option.isSome_iff_exists.mp (isSome_generateOperandExpr (h op hmem))
  cases i with
  | binary opcode width left right =>
    obtain ⟨l, hl⟩ := hop left (by simp [Instruction.operands])
    obtain ⟨r, hr⟩ := hop right (by simp [Instruction.operands])
    cases opcode <;> simp [generateInstExpr, hl, hr]
  | icmp predicate width left right =>
    obtain ⟨l, hl⟩ := hop left (by simp [Instruction.operands])
    obtain ⟨r, hr⟩ := hop right (by simp [Instruction.operands])
    simp [generateInstExpr, hl, hr]
  | select cond ifTrue ifFalse =>
    obtain ⟨c, hc⟩ := hop cond (by simp [Instruction.operands])
    obtain ⟨t, ht⟩ := hop ifTrue (by simp [Instruction.operands])
    obtain ⟨f, hf⟩ := hop ifFalse (by simp [Instruction.operands])
    simp [generateInstExpr, hc, ht, hf]
  | cast opcode source target op =>
    obtain ⟨e, he⟩ := hop op (by simp [Instruction.operands])
    simp [generateInstExpr, he]
  | bitCast op =>
    obtain ⟨e, he⟩ := hop op (by simp [Instruction.operands])
    simp [generateInstExpr, he]
  | pointerCast srcSize dstSize width op =>
    obtain ⟨e, he⟩ := hop op (by simp [Instruction.operands])
    simp [generateInstExpr, he]
  | extractCAS index cas compareOperand =>
    obtain ⟨l, hl⟩ := hop cas (by simp [Instruction.operands])
    obtain ⟨r, hr⟩ := hop compareOperand (by simp [Instruction.operands])
    rw [generateInstExpr]
    split
    · rw [hl]
      rfl
    · simp [hl, hr]
  | _ => rfl

/-- The phi nodes of a block have expressions for the branches to it. -/
lemma isSome_substitutePhis (hF : F.WellFormed) {p : InstPos} {i : Instruction}
    (hi : F.inst? p = some i) {dest : ℕ} (hdest : dest ∈ i.targets) (e : IRExpr) :
    (F.substitutePhis p ⟨dest, 0⟩ e).isSome := by
  have hphi : ∀ phi ∈ (F.phis dest).zipIdx, ∀ e,
      ∃ e', F.substitutePhi p.block dest e phi = some e' := by
    intro phi hphi e
    obtain ⟨op, hop, hsupported⟩ := hF.incoming p ((F.mem_positions).mpr (hi ▸ rfl)) i hi dest hdest
      phi.1 (List.fst_mem_of_mem_zipIdx hphi)
    obtain ⟨phiOp, hphiOp⟩ :=
      Option.isSome_iff_exists.mp (isSome_generateOperandExpr (F := F) hsupported)
    rw [substitutePhi, Option.mem_def.mp hop, Option.bind_some, hphiOp, Option.map_some]
    exact ⟨_, rfl⟩
  unfold substitutePhis
  split
  · obtain ⟨e', he', -⟩ := PartialRun.foldlM_total (F.phis dest).zipIdx (fun _ _ => True)
      (fun done phi rest hvisit e _ => by
        obtain ⟨e', he'⟩ := hphi phi (hvisit ▸ List.mem_append_right _ List.mem_cons_self) e
        exact ⟨e', he', trivial⟩) trivial (s := e)
    exact Option.isSome_iff_exists.mpr ⟨e', he'⟩
  · rfl

/-- An annotation can be propagated from a successor that has one. -/
lemma isSome_propagateAnnotFromSucc (hF : F.WellFormed) {p succ : InstPos} {i : Instruction}
    {annot : InstPos → Option IRExpr} (hi : F.inst? p = some i) (hsucc : (annot succ).isSome)
    (hphis : ∀ e, (F.substitutePhis p succ e).isSome) :
    (F.propagateAnnotFromSucc annot p succ).isSome := by
  obtain ⟨succAnnot, hsucc⟩ := Option.isSome_iff_exists.mp hsucc
  obtain ⟨succExp, hexp⟩ := Option.isSome_iff_exists.mp (hphis succAnnot.clone)
  obtain ⟨currOp, hop⟩ := Option.isSome_iff_exists.mp (isSome_generateInstExpr (F := F)
    (hF.operands p ((F.mem_positions).mpr (hi ▸ rfl)) i hi))
  rw [propagateAnnotFromSucc]
  simp only [hsucc, hexp, hi, Option.bind_eq_bind, Option.bind_some]
  cases i <;> first
    | rfl
    | exact Option.isSome_map.trans (hop ▸ rfl)

/-- An instruction whose successors have annotations gets one. -/
lemma isSome_finishAnnot (hF : F.WellFormed) {p : InstPos} (hp : p ∈ F.positions)
    {annot : InstPos → Option IRExpr}
    (hannot : ∀ q ∈ F.getNextOrBranchSuccessors p, (annot q).isSome) :
    (F.finishAnnot annot p).isSome := by
  obtain ⟨i, hi⟩ := Option.isSome_iff_exists.mp ((F.mem_positions).mp hp)
  cases hend : endsAnnotation i with
  | true =>
    rw [finishAnnot, successors_of_ends hi hend, hi]
    cases i with
    | assume cond =>
      exact isSome_generateOperandExpr (hF.operands p hp _ hi cond (by simp [Instruction.operands]))
    | _ => rfl
  | false =>
    cases hterm : i.isTerminator with
    | false =>
      have hsuccs := successors_of_not_terminator hF hi hend hterm
      rw [hsuccs] at hannot
      rw [finishAnnot, hsuccs]
      have hsame : ¬p.block ≠ p.next.block := not_not.mpr rfl
      refine isSome_propagateAnnotFromSucc hF hi (hannot _ List.mem_cons_self) fun e => ?_
      rw [substitutePhis, if_neg hsame]
      rfl
    | true =>
      have hsuccs := successors_of_terminator hF hi hterm
      rw [hsuccs] at hannot
      have hpropagate (dest : ℕ) (hdest : dest ∈ i.targets) :
          (F.propagateAnnotFromSucc annot p ⟨dest, 0⟩).isSome :=
        isSome_propagateAnnotFromSucc hF hi (hannot _ (List.mem_map_of_mem hdest))
          (isSome_substitutePhis hF hi hdest)
      rw [finishAnnot, hsuccs, hi]
      cases i with
      | br dest => exact hpropagate dest List.mem_cons_self
      | condBr cond ifTrue ifFalse =>
        obtain ⟨t, ht⟩ := Option.isSome_iff_exists.mp (hpropagate ifTrue
          List.mem_cons_self)
        obtain ⟨f, hf⟩ := Option.isSome_iff_exists.mp (hpropagate ifFalse
          (List.mem_cons_of_mem _ List.mem_cons_self))
        simp only [Instruction.targets, List.map_cons, List.map_nil, ht, hf, Option.bind_eq_bind,
          Option.bind_some]
        rfl
      | exit => rfl
      | _ => cases hterm

/-- The successors are instructions of the function. -/
lemma successors_subset (hF : F.WellFormed) {p q : InstPos} (hp : p ∈ F.positions)
    (hq : q ∈ F.getNextOrBranchSuccessors p) : q ∈ F.positions := by
  obtain ⟨i, hi⟩ := Option.isSome_iff_exists.mp ((F.mem_positions).mp hp)
  rw [mem_positions]
  cases hend : endsAnnotation i with
  | true => exact absurd (successors_of_ends hi hend ▸ hq) List.not_mem_nil
  | false =>
    cases hterm : i.isTerminator with
    | false =>
      rw [successors_of_not_terminator hF hi hend hterm, List.mem_singleton] at hq
      rw [hq, hF.terminated p hp i hi, hterm, Bool.not_false]
    | true =>
      rw [successors_of_terminator hF hi hterm] at hq
      obtain ⟨dest, hdest, rfl⟩ := List.mem_map.mp hq
      exact hF.targets p hp i hi dest hdest

/-- **The search ends.**  A load of a well-formed function gets an annotation. -/
lemma exists_annotate (hF : F.WellFormed) {l : InstPos}
    (hl : F.inst? l = some .load ∨ F.inst? l = some .atomicCmpXchg) :
    ∃ s e, F.annotateDFS F.positions.card l.next .start = some s ∧ s.result l.next = some e ∧
      F.annotate l = some e := by
  have hnext : l.next ∈ F.positions := by
    rw [mem_positions]
    obtain hl | hl := hl
    · exact hF.terminated l ((F.mem_positions).mpr (hl ▸ rfl)) _ hl
    · exact hF.terminated l ((F.mem_positions).mpr (hl ▸ rfl)) _ hl
  have hstart : ∀ m ∈ F.positions,
      (DepthFirst.Search.start : DepthFirst.Search InstPos IRExpr).status m = .left →
      ((DepthFirst.Search.start : DepthFirst.Search InstPos IRExpr).result m).isSome :=
    fun _ _ h => nomatch h
  have hfinish : ∀ p ∈ F.positions, ∀ annot : InstPos → Option IRExpr,
      (∀ q ∈ F.getNextOrBranchSuccessors p, (annot q).isSome) → (F.finishAnnot annot p).isSome :=
    fun p hp annot hannot => isSome_finishAnnot hF hp hannot
  have htotal : ∃ s, F.annotateDFS F.positions.card l.next .start = some s ∧
      DepthFirst.Extends F.positions .start s ∧ (s.result l.next).isSome :=
    DepthFirst.evaluate_total (fun p hp q hq => successors_subset hF hp hq) hfinish hnext rfl
      (Finset.card_filter_le _ _) hstart
  obtain ⟨s, hs, -, hresult⟩ := htotal
  obtain ⟨e, he⟩ := Option.isSome_iff_exists.mp hresult
  refine ⟨s, e, hs, he, ?_⟩
  obtain hl | hl := hl
  · rw [annotate, hl]
    exact Option.bind_eq_some_iff.mpr ⟨s, hs, he⟩
  · rw [annotate, hl]
    exact Option.bind_eq_some_iff.mpr ⟨s, hs, he⟩

end IRFunction

end GenMC
