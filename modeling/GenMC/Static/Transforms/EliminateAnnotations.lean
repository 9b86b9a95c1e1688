import GenMC.Lib.PartialRun
import GenMC.Runtime.InterpreterEnumAPI
import GenMC.Static.BackPaths
import GenMC.Static.Dominators

/-!
# Annotated regions

`EliminateAnnotationsPass` looks for the end of each annotation, marks the atomic instructions on
the back paths from the end to the beginning with the value of the annotation, and removes the calls
of both.

The back paths enter no block twice, and they are walked through backwards; what is marked is what
lies on such a path after the beginning and before the end (`annotateInstructions_spec`).
-/

namespace GenMC

/-- The operations that the pass knows, and others. -/
inductive AnnotationOp (Op : Type*) where
  -- a direct call of a function
  | call (name : String)
  -- whether loads and stores are atomic
  | load (atomic : Bool)
  | store (atomic : Bool)
  | atomicRMW
  | fence
  | rest (op : Op)
deriving DecidableEq

/-- `getOpcode`, of the instructions that may be atomic. -/
inductive AtomicOpcode where
  | load | store | fence | atomicCmpXchg | atomicRMW
deriving DecidableEq

namespace SSAInst

variable {Op : Type*}

/-- `getOpcode`, and nothing for instructions that are not atomic (`isAtomic`). -/
def atomicOpcode : SSAInst (AnnotationOp Op) → Option AtomicOpcode
  | .other (.load atomic) _ => if atomic then some .load else none
  | .other (.store atomic) _ => if atomic then some .store else none
  | .other .atomicRMW _ => some .atomicRMW
  | .other .fence _ => some .fence
  | .cmpXchg _ _ _ => some .atomicCmpXchg
  | _ => none

/-- The test whether a call is one of an internal function. -/
def callsInternal (f : InternalFunctions) : SSAInst (AnnotationOp Op) → Bool
  | .other (.call name) _ => internalFunNames.lookup name = some f
  | _ => false

/-- `isAnnotationBegin`. -/
def isAnnotationBegin (i : SSAInst (AnnotationOp Op)) : Bool := i.callsInternal .annotateBegin

/-- `isAnnotationEnd`. -/
def isAnnotationEnd (i : SSAInst (AnnotationOp Op)) : Bool := i.callsInternal .annotateEnd

/-- `getAnnotationValue`; it is a bug if the argument is no constant. -/
def getAnnotationValue : SSAInst (AnnotationOp Op) → Option ℕ
  | .other (.call _) (.constant (.int _ value) :: _) => some (min value (2 ^ 64 - 1))
  | _ => none

/-- A call of an internal function is neither a terminator nor a phi node nor atomic. -/
lemma callsInternal_cases {i : SSAInst (AnnotationOp Op)}
    {f : InternalFunctions} (h : i.callsInternal f = true) :
    i.isTerminator = false ∧ i.isPhi = false ∧ i.atomicOpcode = none := by
  unfold callsInternal at h
  split at h
  next => exact ⟨rfl, rfl, rfl⟩
  next => cases h

end SSAInst

/-! ## The pass -/

/-- `annotateInstruction`, on the metadata of an instruction. -/
def accumulateAttr (md : Option ℕ) (value : ℕ) : Option ℕ := some (value ||| md.getD 0)

/-- The variables of `annotateInstructions`, and the attributes of all instructions. -/
structure AnnotateState where
  beginFound : Bool
  endFound : Bool
  -- nothing for 0, which is no opcode
  opcode : Option AtomicOpcode
  attrs : InstPos → Option ℕ

namespace SSAFunction

variable {Op : Type*} (F : SSAFunction (AnnotationOp Op))

/-- The value of the annotation at a position. -/
def annotationValue (p : InstPos) : Option ℕ := (F.inst? p).bind SSAInst.getAnnotationValue

/-- The opcode of an atomic instruction that is no fence. -/
def markedOpcode (p : InstPos) : Option AtomicOpcode :=
  ((F.inst? p).bind SSAInst.atomicOpcode).filter (· ≠ .fence)

/-- The middle part of the function that `annotateInstructions` applies to instructions: an atomic
instruction gets the value; it is a bug if the opcodes are not the same. -/
def annotateAtomic (value : ℕ) (s : AnnotateState) (p : InstPos) : Option AnnotateState :=
  match F.markedOpcode p with
  | none => some s
  | some code =>
    if s.opcode.getD code = code then
      some { s with
        opcode := some code
        attrs := Function.update s.attrs p (accumulateAttr (s.attrs p) value) }
    else none

/-- The function that `annotateInstructions` applies to instructions. -/
def annotateVisit (begin_ end_ : InstPos) (value : ℕ) (s : AnnotateState) (p : InstPos) :
    Option AnnotateState :=
  if s.endFound = false then some { s with endFound := decide (p = end_) }
  else
    (if s.beginFound = false then F.annotateAtomic value s p else some s).map fun s =>
      if s.beginFound = false then
        if p = begin_ then { s with beginFound := false, endFound := false } else s
      else s

/-- The instructions of a block. -/
def blockPositions (b : ℕ) : List InstPos :=
  (List.range ((F.blocks[b]?.map List.length).getD 0)).map (⟨b, ·⟩)

variable (preds : ℕ → List ℕ)

/-- The back paths from one block to another one. -/
def annotationPaths (source dest : ℕ) : List (List ℕ) :=
  BlockGraph.foreachInBackPathTo (⟨preds, fun _ => []⟩ : BlockGraph Empty ℕ) F.blocks.length source
    dest []

/-- `annotateInstructions`, on the attributes of the instructions. -/
def annotateInstructions (begin_ end_ : InstPos) (attrs : InstPos → Option ℕ) :
    Option (InstPos → Option ℕ) :=
  (F.annotationValue begin_).bind fun value =>
    (((F.annotationPaths preds end_.block begin_.block).flatMap fun path =>
      path.flatMap fun b => (F.blockPositions b).reverse).foldlM
        (F.annotateVisit begin_ end_ value) ⟨false, false, none, attrs⟩).map (·.attrs)

variable {F} (DT : DominatorTree F) (PDT : PostDominatorTree F)

/-- The conditions on an end that do not ask for its value. -/
def isCandidate (begin_ ends : InstPos) : Bool :=
  DT.dominates begin_ ends && PDT.dominates ends.block begin_.block

/-- The test of `findMatchingEnd`. -/
def isMatchingEnd (begin_ : InstPos) (ends : List InstPos) (ei : InstPos) : Option Bool :=
  (F.annotationValue begin_).bind fun value => (F.annotationValue ei).map fun value' =>
    decide (value = value') && isCandidate DT PDT begin_ ei &&
      !ends.any fun ei2 => decide (ei ≠ ei2) && isCandidate DT PDT begin_ ei2 &&
        DT.dominates ei2 ei

/-- `std::find_if` with a test that may be a bug, and it is a bug if nothing is found. -/
def findIf {α : Type*} (test : α → Option Bool) : List α → Option α
  | [] => none
  | a :: l => (test a).bind fun found => if found then some a else findIf test l

/-- `findMatchingEnd`. -/
def findMatchingEnd (begin_ : InstPos) (ends : List InstPos) : Option InstPos :=
  findIf (isMatchingEnd DT PDT begin_ ends) ends

variable (F)

/-- The beginnings of annotations. -/
def begins : List InstPos := F.layout.filter fun p => (F.inst? p).any SSAInst.isAnnotationBegin

/-- The ends of annotations. -/
def ends : List InstPos := F.layout.filter fun p => (F.inst? p).any SSAInst.isAnnotationEnd

/-- What is left of the function after instructions have been erased, with the attributes; operands
still have their names from before. -/
def eraseInsts (toDelete : List InstPos) (attrs : InstPos → Option ℕ) :
    List (List (SSAInst (AnnotationOp Op) × Option ℕ)) :=
  F.blocks.zipIdx.map fun block =>
    (block.1.zipIdx.filter fun i => (⟨block.2, i.2⟩ : InstPos) ∉ toDelete).map fun i =>
      (i.1, attrs ⟨block.2, i.2⟩)

variable {F}

/-- One round of the loop over the beginnings: the attributes and `toDelete`. -/
def eliminateStep (s : (InstPos → Option ℕ) × List InstPos) (bi : InstPos) :
    Option ((InstPos → Option ℕ) × List InstPos) :=
  (findMatchingEnd DT PDT bi F.ends).bind fun ei =>
    (F.annotateInstructions preds bi ei s.1).map fun attrs => (attrs, s.2 ++ [bi, ei])

/-- `EliminateAnnotationsPass::run`: whether the function was changed, and what is left of it. -/
def eliminateAnnotations :
    Option (Bool × List (List (SSAInst (AnnotationOp Op) × Option ℕ))) :=
  (F.begins.foldlM (eliminateStep preds DT PDT) (fun _ => none, [])).map fun s =>
    (decide (F.begins ≠ []), F.eraseInsts s.2 s.1)

end SSAFunction

/-! ## One path -/

/-- The attributes of the instructions of a set get a value. -/
def MarkedWith (A : InstPos → Prop) (value : ℕ) (attrs attrs' : InstPos → Option ℕ) : Prop :=
  ∀ p, (A p → attrs' p = accumulateAttr (attrs p) value) ∧ (¬A p → attrs' p = attrs p)

/-- A value that has been added is not added again. -/
lemma accumulateAttr_self (md : Option ℕ) (value : ℕ) :
    accumulateAttr (accumulateAttr md value) value = accumulateAttr md value := by
  refine congrArg some (Nat.eq_of_testBit_eq fun k => ?_)
  change (value ||| (value ||| md.getD 0)).testBit k = (value ||| md.getD 0).testBit k
  rw [Nat.testBit_or, Nat.testBit_or, ← Bool.or_assoc, Bool.or_self]

namespace MarkedWith

variable {A A' : InstPos → Prop} {value : ℕ} {attrs attrs' attrs'' : InstPos → Option ℕ}

lemma refl (hA : ∀ p, ¬A p) (attrs : InstPos → Option ℕ) : MarkedWith A value attrs attrs :=
  fun p => ⟨fun h => absurd h (hA p), fun _ => rfl⟩

/-- Two sets get the same value one after the other. -/
lemma trans (h : MarkedWith A value attrs attrs') (h' : MarkedWith A' value attrs' attrs'') :
    MarkedWith (fun p => A p ∨ A' p) value attrs attrs'' := by
  intro p
  by_cases hA : A p
  · refine ⟨fun _ => ?_, fun hnot => absurd (.inl hA) hnot⟩
    by_cases hA' : A' p
    · rw [(h' p).1 hA', (h p).1 hA, accumulateAttr_self]
    · rw [(h' p).2 hA', (h p).1 hA]
  · refine ⟨fun hor => ?_, fun hnot => ?_⟩
    · rw [(h' p).1 (hor.resolve_left hA), (h p).2 hA]
    · rw [(h' p).2 fun hA' => hnot (.inr hA'), (h p).2 hA]

lemma congr (h : MarkedWith A value attrs attrs') (hA : ∀ p, A p ↔ A' p) :
    MarkedWith A' value attrs attrs' :=
  fun p => ⟨fun hp => (h p).1 ((hA p).mpr hp), fun hp => (h p).2 fun hp' => hp ((hA p).mp hp')⟩

end MarkedWith

namespace SSAFunction

variable {Op : Type*} {F : SSAFunction (AnnotationOp Op)}

/-- Between two paths: neither call has been found, and no other opcode than `code`. -/
structure Ready (code : AtomicOpcode) (s : AnnotateState) : Prop where
  beginFound : s.beginFound = false
  endFound : s.endFound = false
  opcode : s.opcode.getD code = code

section Fold

variable {begin_ end_ : InstPos} {value : ℕ} {code : AtomicOpcode} {s : AnnotateState}

/-- Before the end nothing happens. -/
lemma foldlM_visit_before (hs : s.endFound = false) {l : List InstPos} (hl : end_ ∉ l) :
    l.foldlM (F.annotateVisit begin_ end_ value) s = some s := by
  induction l with
  | nil => rfl
  | cons p l ih =>
    obtain ⟨hp, hl⟩ := List.ne_and_not_mem_of_not_mem_cons hl
    have hvisit : F.annotateVisit begin_ end_ value s p = some s := by
      rw [annotateVisit, if_pos hs, decide_eq_false (Ne.symm hp), ← hs]
    rw [List.foldlM_cons, hvisit]
    exact ih hl

/-- After the end, the atomic instructions are marked. -/
lemma foldlM_visit_between (hend : s.endFound = true) (hbegin : s.beginFound = false)
    (hcode : s.opcode.getD code = code) {l : List InstPos} (hl : begin_ ∉ l)
    (hcodes : ∀ p ∈ l, ∀ c, F.markedOpcode p = some c → c = code) :
    ∃ opcode attrs, l.foldlM (F.annotateVisit begin_ end_ value) s
        = some { s with opcode := opcode, attrs := attrs } ∧ opcode.getD code = code ∧
      MarkedWith (fun p => p ∈ l ∧ (F.markedOpcode p).isSome) value s.attrs attrs := by
  induction l generalizing s with
  | nil => exact ⟨s.opcode, s.attrs, rfl, hcode, .refl (fun p hp => List.not_mem_nil hp.1) _⟩
  | cons p l ih =>
    obtain ⟨hp, hl⟩ := List.ne_and_not_mem_of_not_mem_cons hl
    obtain ⟨opcode₁, attrs₁, hvisit, hcode₁, hmarked₁⟩ : ∃ opcode attrs,
        F.annotateVisit begin_ end_ value s p = some { s with opcode := opcode, attrs := attrs } ∧
        opcode.getD code = code ∧
        MarkedWith (fun q => q = p ∧ (F.markedOpcode q).isSome) value s.attrs attrs := by
      have hvisit : F.annotateVisit begin_ end_ value s p =
          (F.annotateAtomic value s p).map fun s =>
            if s.beginFound = false then
              if p = begin_ then { s with beginFound := false, endFound := false } else s
            else s := by
        rw [annotateVisit, if_neg (by rw [hend]; exact Bool.true_eq_false_eq_False), if_pos hbegin]
      rw [hvisit, annotateAtomic]
      cases hmarked : F.markedOpcode p with
      | none =>
        refine ⟨s.opcode, s.attrs, ?_, hcode, .refl (fun q hq => ?_) _⟩
        · rw [Option.map_some, if_pos hbegin, if_neg (Ne.symm hp)]
        · obtain ⟨rfl, hq⟩ := hq
          rw [hmarked] at hq
          cases hq
      | some c =>
        obtain rfl := hcodes p List.mem_cons_self c hmarked
        refine ⟨some c, Function.update s.attrs p (accumulateAttr (s.attrs p) value), ?_, rfl,
          fun q => ⟨?_, fun hq => ?_⟩⟩
        · dsimp only
          rw [if_pos hcode, Option.map_some, if_pos hbegin, if_neg (Ne.symm hp)]
        · rintro ⟨rfl, -⟩
          exact Function.update_self _ _ _
        · refine Function.update_of_ne ?_ _ _
          rintro rfl
          exact hq ⟨rfl, by rw [hmarked]; rfl⟩
    obtain ⟨opcode, attrs, hfold, hcode', hmarked⟩ :=
      ih (s := { s with opcode := opcode₁, attrs := attrs₁ }) hend hbegin hcode₁ hl
        fun q hq => hcodes q (List.mem_cons_of_mem p hq)
    refine ⟨opcode, attrs, ?_, hcode', (hmarked₁.trans hmarked).congr fun q => ?_⟩
    · rw [List.foldlM_cons, hvisit]
      exact hfold
    · rw [List.mem_cons, or_and_right]

/-- **One path**: what is between the beginning and the end is marked. -/
lemma foldlM_visit_path (value : ℕ) (hs : Ready code s) {before between after : List InstPos}
    (hbefore : end_ ∉ before) (hbetween : begin_ ∉ between) (hafter : end_ ∉ after)
    (hne : F.markedOpcode begin_ = none)
    (hcodes : ∀ p ∈ between, ∀ c, F.markedOpcode p = some c → c = code) :
    ∃ s', (before ++ end_ :: (between ++ begin_ :: after)).foldlM
        (F.annotateVisit begin_ end_ value) s = some s' ∧ Ready code s' ∧
      MarkedWith (fun p => p ∈ between ∧ (F.markedOpcode p).isSome) value s.attrs s'.attrs := by
  have hend : F.annotateVisit begin_ end_ value s end_ = some { s with endFound := true } := by
    rw [annotateVisit, if_pos hs.endFound, decide_eq_true rfl]
  obtain ⟨opcode, attrs, hfold, hcode, hmarked⟩ : ∃ opcode attrs,
      between.foldlM (F.annotateVisit begin_ end_ value) { s with endFound := true }
        = some { s with endFound := true, opcode := opcode, attrs := attrs } ∧
      opcode.getD code = code ∧
      MarkedWith (fun p => p ∈ between ∧ (F.markedOpcode p).isSome) value s.attrs attrs :=
    foldlM_visit_between (s := { s with endFound := true }) rfl hs.beginFound hs.opcode hbetween
      hcodes
  have hbegin : F.annotateVisit begin_ end_ value
      { s with endFound := true, opcode := opcode, attrs := attrs } begin_
        = some ⟨false, false, opcode, attrs⟩ := by
    rw [annotateVisit, if_neg (by exact Bool.true_eq_false_eq_False), if_pos hs.beginFound,
      annotateAtomic, hne]
    dsimp only
    rw [Option.map_some, if_pos hs.beginFound, if_pos rfl]
  refine ⟨⟨false, false, opcode, attrs⟩, ?_, ⟨rfl, rfl, hcode⟩, hmarked⟩
  have hlast : after.foldlM (F.annotateVisit begin_ end_ value) ⟨false, false, opcode, attrs⟩
      = some ⟨false, false, opcode, attrs⟩ := foldlM_visit_before rfl hafter
  simp only [List.foldlM_append, List.foldlM_cons, foldlM_visit_before hs.endFound hbefore, hend,
    hfold, hbegin, hlast, Option.bind_eq_bind, Option.bind_some]

end Fold

end SSAFunction

/-! ## The instructions between the calls -/

namespace SSAFunction

variable {Op : Type*} {F : SSAFunction (AnnotationOp Op)}

lemma mem_blockPositions {b : ℕ} {p : InstPos} :
    p ∈ F.blockPositions b ↔ p.block = b ∧ (F.inst? p).isSome := by
  obtain ⟨block, index⟩ := p
  rw [blockPositions, List.mem_map]
  simp only [List.mem_range, InstPos.mk.injEq, inst?]
  constructor
  · rintro ⟨k, hk, rfl, rfl⟩
    refine ⟨rfl, ?_⟩
    cases hb : F.blocks[b]? with
    | none =>
      rw [hb] at hk
      exact absurd hk (Nat.not_lt_zero k)
    | some is =>
      rw [hb] at hk
      rw [Option.bind_some, List.getElem?_eq_getElem hk]
      rfl
  · rintro ⟨rfl, hsome⟩
    refine ⟨index, ?_, rfl, rfl⟩
    obtain ⟨i, hi⟩ := Option.isSome_iff_exists.mp hsome
    obtain ⟨is, his, hi⟩ := Option.bind_eq_some_iff.mp hi
    rw [his]
    exact (List.getElem?_eq_some_iff.mp hi).1

/-- A block backwards. -/
lemma pairwise_blockPositions (b : ℕ) :
    (F.blockPositions b).reverse.Pairwise fun p q => q.index < p.index := by
  rw [List.pairwise_reverse, blockPositions, List.pairwise_map]
  exact List.pairwise_lt_range

/-- What comes before and after an instruction of a list that goes backwards. -/
lemma exists_split {l : List InstPos} (hl : l.Pairwise fun p q => q.index < p.index) {e : InstPos}
    (he : e ∈ l) : ∃ s t, l = s ++ e :: t ∧ (∀ p, p ∈ s ↔ p ∈ l ∧ e.index < p.index) ∧
      ∀ p, p ∈ t ↔ p ∈ l ∧ p.index < e.index := by
  obtain ⟨s, t, rfl⟩ := List.append_of_mem he
  obtain ⟨-, ht, hs⟩ := List.pairwise_append.mp hl
  have hafter : ∀ p ∈ t, p.index < e.index := (List.pairwise_cons.mp ht).1
  have hbefore : ∀ p ∈ s, e.index < p.index := fun p hp => hs p hp e List.mem_cons_self
  refine ⟨s, t, rfl, fun p => ⟨fun hp => ⟨by simp [hp], hbefore p hp⟩, ?_⟩,
    fun p => ⟨fun hp => ⟨by simp [hp], hafter p hp⟩, ?_⟩⟩
  · rintro ⟨hp, hlt⟩
    obtain hp | hp := List.mem_append.mp hp
    · exact hp
    · obtain rfl | hp := List.mem_cons.mp hp
      · exact absurd hlt (lt_irrefl _)
      · exact absurd hlt (hafter p hp).not_gt
  · rintro ⟨hp, hlt⟩
    obtain hp | hp := List.mem_append.mp hp
    · exact absurd hlt (hbefore p hp).not_gt
    · obtain rfl | hp := List.mem_cons.mp hp
      · exact absurd hlt (lt_irrefl _)
      · exact hp

variable (F)

/-- The instructions of a path backwards. -/
def backInsts (path : List ℕ) : List InstPos := path.flatMap fun b => (F.blockPositions b).reverse

/-- An instruction of the blocks of a path after a beginning and before an end. -/
def OnPath (path : List ℕ) (b e p : InstPos) : Prop :=
  p.block ∈ path ∧ (p.block = b.block → b.index < p.index) ∧
    (p.block = e.block → p.index < e.index)

variable {F}

lemma mem_backInsts {path : List ℕ} {p : InstPos} :
    p ∈ F.backInsts path ↔ p.block ∈ path ∧ (F.inst? p).isSome := by
  simp only [backInsts, List.mem_flatMap, List.mem_reverse, mem_blockPositions]
  constructor
  · rintro ⟨b, hb, rfl, hp⟩
    exact ⟨hb, hp⟩
  · rintro ⟨hb, hp⟩
    exact ⟨_, hb, rfl, hp⟩

/-- A path backwards from an end to a beginning passes the end, then what is between, then the
beginning. -/
lemma exists_split_path {b e : InstPos} (hb : (F.inst? b).isSome) (he : (F.inst? e).isSome)
    (hsame : b.block = e.block → b.index < e.index) {path : List ℕ} (hnodup : path.Nodup)
    (hhead : path.head? = some e.block) (hlast : path.getLast? = some b.block) :
    ∃ before between after, F.backInsts path = before ++ e :: (between ++ b :: after) ∧
      e ∉ before ∧ b ∉ between ∧ e ∉ after ∧
      ∀ p, p ∈ between ↔ OnPath path b e p ∧ (F.inst? p).isSome := by
  obtain ⟨rest, rfl⟩ := List.head?_eq_some_iff.mp hhead
  obtain ⟨before, t, hsplit, hbefore, ht⟩ := exists_split (F.pairwise_blockPositions e.block)
    (List.mem_reverse.mpr (mem_blockPositions.mpr ⟨rfl, he⟩))
  simp only [List.mem_reverse, mem_blockPositions] at hbefore ht
  obtain rfl | ⟨mid, b', rfl⟩ := List.eq_nil_or_concat' rest
  · -- the calls are in the same block
    have hblock : e.block = b.block := Option.some.inj hlast
    have hbt : b ∈ t := (ht b).mpr ⟨⟨hblock.symm, hb⟩, hsame hblock.symm⟩
    have hsorted : t.Pairwise fun p q => q.index < p.index := by
      have := F.pairwise_blockPositions e.block
      rw [hsplit] at this
      exact (List.pairwise_cons.mp (List.pairwise_append.mp this).2.1).2
    obtain ⟨between, after, rfl, hbetween, hafter⟩ := exists_split hsorted hbt
    refine ⟨before, between, after, ?_, fun h => lt_irrefl _ ((hbefore e).mp h).2,
      fun h => lt_irrefl _ ((hbetween b).mp h).2, fun h => ?_, fun p => ?_⟩
    · rw [backInsts, List.flatMap_singleton, hsplit]
    · exact lt_irrefl _ ((ht e).mp (by simp [h])).2
    · rw [hbetween, ht, OnPath, List.mem_singleton, ← hblock]
      constructor
      · rintro ⟨⟨⟨hp, hsome⟩, hlt⟩, hlt'⟩
        exact ⟨⟨hp, fun _ => hlt', fun _ => hlt⟩, hsome⟩
      · rintro ⟨⟨hp, hlt', hlt⟩, hsome⟩
        exact ⟨⟨⟨hp, hsome⟩, hlt hp⟩, hlt' hp⟩
  · obtain rfl : b' = b.block := by
      rw [← List.cons_append, List.getLast?_concat] at hlast
      exact Option.some.inj hlast
    obtain ⟨s, after, hsplit', hs, hafter⟩ := exists_split (F.pairwise_blockPositions b.block)
      (List.mem_reverse.mpr (mem_blockPositions.mpr ⟨rfl, hb⟩))
    simp only [List.mem_reverse, mem_blockPositions] at hs hafter
    obtain ⟨he_notMem, hmid⟩ := List.nodup_cons.mp hnodup
    have hne : e.block ≠ b.block := fun heq => he_notMem (by simp [heq])
    have he_mid : e.block ∉ mid := fun h => he_notMem (List.mem_append_left _ h)
    have hb_mid : b.block ∉ mid := by
      intro h
      exact (List.nodup_append.mp hmid).2.2 _ h _ (List.mem_singleton_self _) rfl
    refine ⟨before, t ++ F.backInsts mid ++ s, after, ?_, fun h => lt_irrefl _ ((hbefore e).mp h).2,
      fun h => ?_, fun h => hne ((hafter e).mp h).1.1, fun p => ?_⟩
    · simp only [backInsts, List.flatMap_cons, List.flatMap_append, List.flatMap_nil, hsplit,
        hsplit', List.append_nil, List.append_assoc, List.cons_append]
    · obtain h | h := List.mem_append.mp h
      · obtain h | h := List.mem_append.mp h
        · exact hne ((ht b).mp h).1.1.symm
        · exact hb_mid (mem_backInsts.mp h).1
      · exact lt_irrefl _ ((hs b).mp h).2
    · simp only [List.mem_append, ht, hs, mem_backInsts, OnPath, List.mem_cons, List.not_mem_nil,
        or_false]
      constructor
      · rintro ((⟨⟨hp, hsome⟩, hlt⟩ | ⟨hp, hsome⟩) | ⟨⟨hp, hsome⟩, hlt⟩)
        · exact ⟨⟨.inl hp, fun h => absurd (hp.symm.trans h) hne, fun _ => hlt⟩, hsome⟩
        · exact ⟨⟨.inr (.inl hp), fun h => absurd (h ▸ hp) hb_mid, fun h => absurd (h ▸ hp) he_mid⟩,
            hsome⟩
        · exact ⟨⟨.inr (.inr hp), fun _ => hlt, fun h => absurd (h.symm.trans hp) hne⟩, hsome⟩
      · rintro ⟨⟨hp | hp | hp, hlt, hlt'⟩, hsome⟩
        · exact .inl (.inl ⟨⟨hp, hsome⟩, hlt' hp⟩)
        · exact .inl (.inr ⟨hp, hsome⟩)
        · exact .inr ⟨⟨hp, hsome⟩, hlt hp⟩

variable (F)

/-- An instruction can be executed after a beginning and before its end: there is a path from the
beginning that does not pass the end. -/
def Between (b e p : InstPos) : Prop := Dominance.Avoids F.Edge b e p

/-- An instruction lies on a path from a beginning to its end that enters no block twice. -/
def SimplyBetween (b e p : InstPos) : Prop :=
  ∃ walk : List ℕ, walk.IsChain F.BlockEdge ∧ walk.head? = some b.block ∧
    walk.getLast? = some e.block ∧ walk.Nodup ∧ OnPath walk b e p

variable {F}

/-- The back paths that `annotateInstructions` visits. -/
lemma mem_annotationPaths {preds : ℕ → List ℕ}
    (hpreds : F.ListsPredecessors preds) {b e : InstPos} (he : (F.inst? e).isSome)
    {path : List ℕ} : path ∈ F.annotationPaths preds e.block b.block ↔
      path.reverse.IsChain F.BlockEdge ∧ path.getLast? = some b.block ∧
        path.head? = some e.block ∧ path.Nodup := by
  obtain ⟨i, hi⟩ := Option.isSome_iff_exists.mp he
  have hclosed : ∀ a ∈ Finset.range F.blocks.length, ∀ p ∈ preds a,
      p ∈ Finset.range F.blocks.length := by
    intro a _ p hp
    obtain ⟨j, i, hi, -⟩ := (hpreds a p).mp hp
    exact Finset.mem_range.mpr (lt_length_of_inst hi)
  rw [annotationPaths, BlockGraph.mem_foreachInBackPathTo_nil hclosed
    (Finset.mem_range.mpr (lt_length_of_inst hi)) (Finset.card_range _).le]
  constructor
  · rintro ⟨⟨hhead, hlast, hedges, -⟩, hnodup⟩
    rw [List.head?_reverse] at hhead
    rw [List.getLast?_reverse] at hlast
    exact ⟨hedges.imp fun a c h => (hpreds c a).mp h, hhead, hlast, hnodup⟩
  · rintro ⟨hedges, hlast, hhead, hnodup⟩
    refine ⟨⟨by rwa [List.head?_reverse], by rwa [List.getLast?_reverse],
      hedges.imp fun a c h => (hpreds c a).mpr h, ?_⟩, hnodup⟩
    have hnodup' := List.nodup_reverse.mpr hnodup
    obtain ⟨rest, hrev⟩ := List.head?_eq_some_iff.mp (by rwa [List.head?_reverse])
    rw [hrev] at hnodup' ⊢
    exact (List.nodup_cons.mp hnodup').1

/-- The path that a walk is, backwards. -/
lemma simplyBetween_iff {preds : ℕ → List ℕ}
    (hpreds : F.ListsPredecessors preds) {b e p : InstPos} (he : (F.inst? e).isSome) :
    F.SimplyBetween b e p ↔
      ∃ path ∈ F.annotationPaths preds e.block b.block, OnPath path b e p := by
  simp only [mem_annotationPaths hpreds he]
  constructor
  · rintro ⟨walk, hedges, hhead, hlast, hnodup, hp⟩
    refine ⟨walk.reverse, ⟨by rwa [List.reverse_reverse], by rwa [List.getLast?_reverse],
      by rwa [List.head?_reverse], List.nodup_reverse.mpr hnodup⟩, ?_⟩
    exact ⟨List.mem_reverse.mpr hp.1, hp.2⟩
  · rintro ⟨path, ⟨hedges, hlast, hhead, hnodup⟩, hp⟩
    exact ⟨path.reverse, hedges, by rwa [List.head?_reverse], by rwa [List.getLast?_reverse],
      List.nodup_reverse.mpr hnodup, List.mem_reverse.mpr hp.1, hp.2⟩

/-- A marked instruction is one. -/
lemma isSome_of_markedOpcode {p : InstPos} (h : (F.markedOpcode p).isSome) :
    (F.inst? p).isSome := by
  unfold markedOpcode at h
  cases hi : F.inst? p with
  | none =>
    rw [hi] at h
    cases h
  | some i => rfl

/-- **One annotation**: the atomic instructions on the paths that enter no block twice get its
value. -/
lemma annotateInstructions_spec {preds : ℕ → List ℕ}
    (hpreds : F.ListsPredecessors preds) {b e : InstPos} (hb : (F.inst? b).isSome)
    (he : (F.inst? e).isSome) (hsame : b.block = e.block → b.index < e.index)
    (hne : F.markedOpcode b = none) {value : ℕ} (hvalue : F.annotationValue b = some value)
    {code : AtomicOpcode}
    (hcodes : ∀ p, F.SimplyBetween b e p → ∀ c, F.markedOpcode p = some c → c = code)
    (attrs : InstPos → Option ℕ) :
    ∃ attrs', F.annotateInstructions preds b e attrs = some attrs' ∧
      MarkedWith (fun p => F.SimplyBetween b e p ∧ (F.markedOpcode p).isSome) value attrs
        attrs' := by
  obtain ⟨s, hfold, hready, hmarked⟩ := PartialRun.foldlM_total
    (f := fun s path => (F.backInsts path).foldlM (F.annotateVisit b e value) s)
    (F.annotationPaths preds e.block b.block)
    (fun done s => Ready code s ∧ MarkedWith
      (fun p => (∃ path ∈ done, OnPath path b e p) ∧ (F.markedOpcode p).isSome) value attrs s.attrs)
    (fun done path rest hpaths s hs => by
      have hpath : path ∈ F.annotationPaths preds e.block b.block := by simp [hpaths]
      obtain ⟨-, hlast, hhead, hnodup⟩ := (mem_annotationPaths hpreds he).mp hpath
      obtain ⟨before, between, after, hsplit, hbefore, hbetween, hafter, hmem⟩ :=
        exists_split_path hb he hsame hnodup hhead hlast
      obtain ⟨s', hs', hready, hmarked⟩ := foldlM_visit_path value hs.1 hbefore hbetween hafter
        hne fun p hp => hcodes p
          ((simplyBetween_iff hpreds he).mpr ⟨path, hpath, ((hmem p).mp hp).1⟩)
      refine ⟨s', by rw [hsplit]; exact hs', hready, (hs.2.trans hmarked).congr fun p => ?_⟩
      rw [hmem]
      constructor
      · rintro (⟨⟨path', hdone, hon⟩, hsome⟩ | ⟨⟨hon, -⟩, hsome⟩)
        · exact ⟨⟨path', List.mem_append_left _ hdone, hon⟩, hsome⟩
        · exact ⟨⟨path, List.mem_append_right _ (List.mem_singleton_self path), hon⟩, hsome⟩
      · rintro ⟨⟨path', hdone, hon⟩, hsome⟩
        obtain hdone | hdone := List.mem_append.mp hdone
        · exact .inl ⟨⟨path', hdone, hon⟩, hsome⟩
        · obtain rfl := List.mem_singleton.mp hdone
          exact .inr ⟨⟨hon, isSome_of_markedOpcode hsome⟩, hsome⟩)
    (s := ⟨false, false, none, attrs⟩)
    ⟨⟨rfl, rfl, rfl⟩, .refl (fun p hp => by obtain ⟨⟨path, hpath, -⟩, -⟩ := hp; cases hpath) attrs⟩
  refine ⟨s.attrs, ?_, hmarked.congr fun p => ?_⟩
  · rw [annotateInstructions, hvalue, Option.bind_some, PartialRun.foldlM_flatMap]
    exact congrArg (Option.map (·.attrs)) hfold
  · rw [simplyBetween_iff hpreds he]

/-- What lies on a path that enters no block twice can be executed there. -/
lemma SimplyBetween.between (hF : F.Terminated) {b e p : InstPos} {i j : SSAInst (AnnotationOp Op)}
    (hb : F.inst? b = some i) (hp : F.inst? p = some j) (h : F.SimplyBetween b e p) :
    F.Between b e p := by
  obtain ⟨walk, hedges, hhead, hlast, hnodup, hmem, hfirst, hend⟩ := h
  obtain ⟨w, w', rfl⟩ := List.append_of_mem hmem
  have hne : ∀ a ∈ w, a ≠ e.block := by
    rintro a ha rfl
    rw [List.getLast?_append_cons] at hlast
    exact (List.nodup_append.mp hnodup).2.2 _ ha _ (List.mem_of_mem_getLast? hlast) rfl
  have hedges' : (w ++ [p.block]).IsChain F.BlockEdge := by
    rw [← List.singleton_append, ← List.append_assoc] at hedges
    exact (List.isChain_append.mp hedges).1
  have hblocks : ∀ (w : List ℕ) (a : ℕ), (w ++ [p.block]).IsChain F.BlockEdge →
      (w ++ [p.block]).head? = some a → (∀ x ∈ w, x ≠ e.block) →
      Dominance.Avoids F.BlockEdge a e.block p.block := by
    intro w
    induction w with
    | nil =>
      rintro a - hhead -
      obtain rfl : p.block = a := Option.some.inj hhead
      exact .root
    | cons x w ih =>
      intro a hchain hhead hne
      obtain rfl : x = a := Option.some.inj hhead
      obtain ⟨y, hy⟩ : ∃ y, (w ++ [p.block]).head? = some y := by
        cases w with
        | nil => exact ⟨_, rfl⟩
        | cons y w => exact ⟨y, rfl⟩
      obtain ⟨rest, hrest⟩ := List.head?_eq_some_iff.mp hy
      rw [List.cons_append, hrest, List.isChain_cons_cons] at hchain
      have hstep : Dominance.Avoids F.BlockEdge x e.block y :=
        .step .root (hne x List.mem_cons_self) hchain.1
      exact hstep.append (ih y (hrest ▸ hchain.2) hy fun z hz => hne z (List.mem_cons_of_mem x hz))
  have hwalk := hblocks w b.block hedges' (by
    cases w with
    | nil => exact hhead
    | cons x w => exact hhead) hne
  obtain ⟨block, index⟩ := p
  -- inside of the last block the walk stops before the end
  have hstop : ∀ l, l < index → (⟨block, l⟩ : InstPos) ≠ e := by
    rintro l hlt rfl
    exact absurd (hend rfl) hlt.not_gt
  obtain heq | hwalk := hF.avoids_of_blocks hb hwalk
  · obtain ⟨block', index'⟩ := b
    obtain rfl : block = block' := heq
    exact hF.avoids_of_le hp (hfirst rfl).le fun l _ hlt => hstop l hlt
  · exact hwalk.append (hF.avoids_of_le hp (Nat.zero_le index) fun l _ hlt => hstop l hlt)

end SSAFunction

end GenMC
