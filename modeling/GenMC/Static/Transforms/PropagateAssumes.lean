import GenMC.Lib.PartialRun
import GenMC.Lib.Stuttering
import GenMC.Runtime.InterpreterEnumAPI
import GenMC.Static.SSAFunction

/-!
# Propagation of assumes

`PropagateAssumesPass` looks for blocks that start with `assume(false)` and puts an assume at the
end of a predecessor that branches to such a block on a condition: the other branch has to be taken.

The runs that are not blocked stay the same (`Guarded.sameRuns`).  But the fold over the
predecessors goes on only as long as no assume has been put, so that only the first predecessor with
a conditional branch gets one (`propagateAssumes_iff`).
-/

namespace GenMC

/-- `isAssumeFunction`. -/
def isAssumeFunction (name : String) : Bool := hasCodeIn 5 8 name

/-- A function that the interpreter treats as an assume. -/
abbrev AssumeFunction := { name : String // isAssumeFunction name = true }

/-- The operations that the pass knows, and others. -/
inductive AssumeOp (Op : Type*) where
  -- `BinaryOperator::CreateNot` of a condition
  | not
  -- a call of an assume function with its argument
  | assume (f : AssumeFunction)
  | rest (op : Op)
deriving DecidableEq

/-- The meaning of the operations: an assume that does not hold ends the run. -/
def AssumeOp.semantics {Op μ : Type*} (base : Semantics Op μ) : Semantics (AssumeOp Op) μ where
  exec
    | .not, vs, m => some (1 - vs.headD 0, m)
    | .assume _, [], m => some (0, m)
    | .assume _, v :: _, m => if v = 0 then none else some (0, m)
    | .rest op, vs, m => base.exec op vs m
  choose
    | .rest op, vs, m => base.choose op vs m
    | _, _, _ => none
  cmpXchg := base.cmpXchg
  eq_of_success := base.eq_of_success

/-! ## The pass -/

namespace SSAFunction

variable {Op : Type*}

/-- The function with instructions put before the terminator of a block. -/
def insertBefore (F : SSAFunction Op) (block : ℕ) (new : List (SSAInst Op)) : SSAFunction Op :=
  ⟨F.blocks.modify block fun is => is.dropLast ++ new ++ is.getLast?.toList⟩

end SSAFunction

/-- `isAssumeFalse`, with the function that is called. -/
def isAssumeFalse {Op : Type*} : SSAInst (AssumeOp Op) → Option AssumeFunction
  | .other (.assume f) (.constant (.int _ value) :: _) => if value = 0 then some f else none
  | _ => none

section Pass

variable {Op : Type*} (DL : DataLayout) (typ : IRValue → LLVMType)
  (argType : AssumeFunction → LLVMType) (preds : ℕ → List ℕ)

/-- `getOtherSuccCondition`: the condition for the successor other than `succ`, and the instruction
at position `pos` that computes it, if one is needed. -/
def getOtherSuccCondition (cond : IRValue) (ifFalse succ : ℕ) (pos : InstPos) :
    List (SSAInst (AssumeOp Op)) × IRValue :=
  if ifFalse = succ then ([], cond) else ([.other .not [cond]], .inst pos)

/-- The instructions that `propagateAssumeToPred` creates, from a position on; it is a bug if the
condition is larger than the argument of the function. -/
def newInsts (f : AssumeFunction) (cond : IRValue) (ifFalse succ : ℕ) (pos : InstPos) :
    Option (List (SSAInst (AssumeOp Op))) :=
  let negation : List (SSAInst (AssumeOp Op)) × IRValue :=
    getOtherSuccCondition cond ifFalse succ pos
  if DL.getTypeAllocSize (typ cond) = DL.getTypeAllocSize (argType f) then
    some (negation.1 ++ [.other (.assume f) [negation.2]])
  else if DL.getTypeAllocSize (argType f) < DL.getTypeAllocSize (typ cond) then none
  else
    -- `CreateZExtOrBitCast` to an integer with the bits of the argument in memory
    let op : CastOps :=
      if DL.getTypeSizeInBits (typ cond) = 8 * DL.getTypeAllocSize (argType f) then .bitCast
      else .zext
    some (negation.1 ++ [.cast op negation.2,
      .other (.assume f) [.inst ⟨pos.block, pos.index + negation.1.length⟩]])

/-- Whether a block ends with a conditional branch. -/
def endsWithCondBr (F : SSAFunction (AssumeOp Op)) (pred : ℕ) : Bool :=
  match F.blocks[pred]?.bind List.getLast? with
  | some (.condBr _ _ _) => true
  | _ => false

/-- The first predecessor, in the order of `predecessors`, that ends with a conditional branch. -/
def firstCondPred (F : SSAFunction (AssumeOp Op)) (bb : ℕ) : Option ℕ :=
  (preds bb).find? (endsWithCondBr F)

/-- `propagateAssumeToPred`, with the function after it. -/
def propagateAssumeToPred (f : AssumeFunction) (bb : ℕ) (F : SSAFunction (AssumeOp Op))
    (pred : ℕ) : Option (Bool × SSAFunction (AssumeOp Op)) :=
  match F.blocks[pred]?.bind List.getLast? with
  | some (.condBr cond _ ifFalse) =>
    (newInsts DL typ argType f cond ifFalse bb
        ⟨pred, ((F.blocks[pred]?.map List.length).getD 0) - 1⟩).map fun new =>
      (true, F.insertBefore pred new)
  | _ => some (false, F)

/-- `propagateAssume`: the fold goes on as long as its result is false. -/
def propagateAssume (f : AssumeFunction) (bb : ℕ) (F : SSAFunction (AssumeOp Op)) :
    Option (Bool × SSAFunction (AssumeOp Op)) :=
  (preds bb).foldlM
    (fun r p => if r.1 then some r else propagateAssumeToPred DL typ argType f bb r.2 p) (false, F)

/-- The first instruction of a block is `assume(false)`. -/
def startsWithAssumeFalse (F : SSAFunction (AssumeOp Op)) (bb : ℕ) : Option AssumeFunction :=
  (F.inst? ⟨bb, 0⟩).bind isAssumeFalse

/-- One round of the loop of `PropagateAssumesPass::run`. -/
def propagateFrom (r : Bool × SSAFunction (AssumeOp Op)) (bb : ℕ) :
    Option (Bool × SSAFunction (AssumeOp Op)) :=
  match startsWithAssumeFalse r.2 bb with
  | none => some r
  | some f => (propagateAssume DL typ argType preds f bb r.2).map fun r' => (r.1 || r'.1, r'.2)

/-- `PropagateAssumesPass::run`: whether the function was modified, and the function after it. -/
def propagateAssumes (F : SSAFunction (AssumeOp Op)) : Option (Bool × SSAFunction (AssumeOp Op)) :=
  (List.range F.blocks.length).foldlM (propagateFrom DL typ argType preds) (false, F)

end Pass

/-! ## Instructions before a terminator -/

section Inserted

variable {Op : Type*}

/-- A register of an instruction, an argument or a constant; a conditional branch has no result. -/
def SSAFunction.IsValue (F : SSAFunction Op) (v : IRValue) : Prop :=
  ∀ p, v = .inst p → ∃ i, F.inst? p = some i ∧ ∀ cond t f, i ≠ .condBr cond t f

/-- In the block `P`, which ends with a conditional branch at index `T`, new instructions are put
before the branch. -/
structure Inserted (F F' : SSAFunction Op) (P T : ℕ) (new : List (SSAInst Op)) (cond : IRValue)
    (ifTrue ifFalse : ℕ) : Prop where
  branch : F.inst? ⟨P, T⟩ = some (.condBr cond ifTrue ifFalse)
  last : ∀ j, T < j → F.inst? ⟨P, j⟩ = none
  other : ∀ q : InstPos, q.block ≠ P ∨ q.index < T → F'.inst? q = F.inst? q
  inserted : ∀ j i, new[j]? = some i → F'.inst? ⟨P, T + j⟩ = some i
  branch' : F'.inst? ⟨P, T + new.length⟩ = some (.condBr cond ifTrue ifFalse)
  last' : ∀ j, T + new.length < j → F'.inst? ⟨P, j⟩ = none

/-- The instructions of a block. -/
lemma SSAFunction.inst?_of_block {F : SSAFunction Op} {b : ℕ} {is : List (SSAInst Op)}
    (h : F.blocks[b]? = some is) (j : ℕ) : F.inst? ⟨b, j⟩ = is[j]? := by
  rw [SSAFunction.inst?, h, Option.bind_some]

/-- `insertBefore` puts instructions before the terminator. -/
lemma inserted_insertBefore {F : SSAFunction Op} {P : ℕ} {is : List (SSAInst Op)}
    (hblock : F.blocks[P]? = some is) {cond : IRValue} {ifTrue ifFalse : ℕ}
    (hlast : is.getLast? = some (.condBr cond ifTrue ifFalse)) (new : List (SSAInst Op)) :
    Inserted F (F.insertBefore P new) P (is.length - 1) new cond ifTrue ifFalse := by
  obtain ⟨init, rfl⟩ : ∃ init, is = init ++ [.condBr cond ifTrue ifFalse] :=
    ⟨_, (List.dropLast_append_getLast? _ hlast).symm⟩
  have hlen : (init ++ [SSAInst.condBr cond ifTrue ifFalse]).length - 1 = init.length := by simp
  rw [hlen]
  have hblock' : (F.insertBefore P new).blocks[P]?
      = some (init ++ new ++ [.condBr cond ifTrue ifFalse]) := by
    rw [SSAFunction.insertBefore, List.getElem?_modify_eq, hblock]
    simp
  have hinst := SSAFunction.inst?_of_block hblock
  have hinst' := SSAFunction.inst?_of_block hblock'
  refine ⟨by rw [hinst]; simp, fun j hj => ?_, fun q hq => ?_, fun j i hi => ?_, ?_, fun j hj => ?_⟩
  · rw [hinst]
    exact List.getElem?_eq_none (by simp; omega)
  · obtain ⟨b, j⟩ := q
    by_cases hb : b = P
    · subst hb
      have hj : j < init.length := hq.resolve_left fun hne => hne rfl
      rw [hinst, hinst', List.append_assoc, List.getElem?_append_left hj,
        List.getElem?_append_left hj]
    · have hsame : (F.insertBefore P new).blocks[b]? = F.blocks[b]? :=
        List.getElem?_modify_ne _ _ (Ne.symm hb)
      rw [SSAFunction.inst?, hsame]
      rfl
  · have hlt := (List.getElem?_eq_some_iff.mp hi).1
    rw [hinst', List.append_assoc, List.getElem?_append_right (by omega), Nat.add_sub_cancel_left,
      List.getElem?_append_left hlt, hi]
  · rw [hinst', List.getElem?_append_right (by simp), List.length_append, Nat.sub_self]
    rfl
  · rw [hinst']
    exact List.getElem?_eq_none (by simp; omega)

variable {F F' : SSAFunction Op} {P T : ℕ} {new : List (SSAInst Op)} {cond : IRValue}
  {ifTrue ifFalse : ℕ}

/-- Instructions with a result stay where they are. -/
lemma Inserted.inst?_of_value (h : Inserted F F' P T new cond ifTrue ifFalse) {q : InstPos}
    {i : SSAInst Op} (hi : F.inst? q = some i) (hne : ∀ c t f, i ≠ .condBr c t f) :
    F'.inst? q = some i := by
  obtain ⟨b, j⟩ := q
  refine (h.other ⟨b, j⟩ ?_).trans hi
  by_contra hcon
  obtain ⟨hb, hj⟩ := not_or.mp hcon
  obtain rfl : b = P := not_not.mp hb
  obtain heq | hlt := Nat.eq_or_lt_of_le (not_lt.mp hj)
  · obtain rfl : T = j := heq
    exact hne _ _ _ (Option.some.inj (hi.symm.trans h.branch))
  · rw [h.last j hlt] at hi
    cases hi

/-- Values stay values. -/
lemma Inserted.isValue (h : Inserted F F' P T new cond ifTrue ifFalse) {v : IRValue}
    (hv : F.IsValue v) : F'.IsValue v := by
  intro p hp
  obtain ⟨i, hi, hne⟩ := hv p hp
  exact ⟨i, h.inst?_of_value hi hne, hne⟩

/-- A value is none of the new registers. -/
lemma Inserted.ne_of_isValue (h : Inserted F F' P T new cond ifTrue ifFalse) {v : IRValue}
    (hv : F.IsValue v) {j : ℕ} (hj : T ≤ j) : v ≠ .inst ⟨P, j⟩ := by
  rintro rfl
  obtain ⟨i, hi, hne⟩ := hv _ rfl
  obtain rfl | hlt := Nat.eq_or_lt_of_le hj
  · exact hne _ _ _ (Option.some.inj (hi.symm.trans h.branch))
  · rw [h.last j hlt] at hi
    cases hi

/-- An instruction after the pass is an old one, a new one, or the moved branch. -/
lemma Inserted.cases (h : Inserted F F' P T new cond ifTrue ifFalse) {q : InstPos} {i : SSAInst Op}
    (hi : F'.inst? q = some i) :
    (F.inst? q = some i ∧ (q.block ≠ P ∨ q.index < T)) ∨
      (∃ j, q = ⟨P, T + j⟩ ∧ new[j]? = some i) ∨
      (q = ⟨P, T + new.length⟩ ∧ i = .condBr cond ifTrue ifFalse) := by
  by_cases hold : q.block ≠ P ∨ q.index < T
  · exact .inl ⟨(h.other q hold).symm.trans hi, hold⟩
  · obtain ⟨b, k⟩ := q
    obtain ⟨hb, hk⟩ := not_or.mp hold
    obtain rfl : b = P := not_not.mp hb
    obtain ⟨j, rfl⟩ := Nat.exists_eq_add_of_le (not_lt.mp hk)
    obtain hlt | heq | hgt := Nat.lt_trichotomy j new.length
    · have hnew : new[j]? = some new[j] := List.getElem?_eq_getElem hlt
      have := h.inserted j _ hnew
      rw [hi] at this
      exact .inr (.inl ⟨j, rfl, this ▸ hnew⟩)
    · subst heq
      exact .inr (.inr ⟨rfl, Option.some.inj (hi.symm.trans h.branch')⟩)
    · rw [h.last' _ (by omega)] at hi
      cases hi

end Inserted

/-! ## The new instructions -/

section Run

variable {Op μ : Type*} {DL : DataLayout} {typ : IRValue → LLVMType} (base : Semantics Op μ)

/-- The next instruction is an assume that does not hold. -/
def BlockedAt (F : SSAFunction (AssumeOp Op)) (s : SSAState DL typ μ) : Prop :=
  ∃ f v vs, F.inst? s.pos = some (.other (.assume f) (v :: vs)) ∧ (s.regs v).toNat = 0

/-- The runs of a function. -/
def SSAFunction.system (F : SSAFunction (AssumeOp Op)) : System (SSAState DL typ μ) where
  step := F.step (AssumeOp.semantics base)
  Blocked := BlockedAt F

variable {base} {F F' : SSAFunction (AssumeOp Op)}

/-- A blocked state has no next state. -/
lemma step_of_blockedAt {s : SSAState DL typ μ} (h : BlockedAt F s) :
    F.step (AssumeOp.semantics base) s = none := by
  obtain ⟨f, v, vs, hi, hzero⟩ := h
  rw [SSAFunction.step, hi, Option.bind_some]
  simp [SSAFunction.values, AssumeOp.semantics, hzero]

/-- The run has made `d` steps in a block, which only computed registers. -/
structure Computed (F : SSAFunction (AssumeOp Op)) (base : Semantics Op μ)
    (s u : SSAState DL typ μ) (d : ℕ) : Prop where
  run_eq : (F.system base).run d s = some u
  pos_eq : u.pos = ⟨s.pos.block, s.pos.index + d⟩
  mem_eq : u.mem = s.mem
  regs_eq : ∀ v, (∀ j, s.pos.index ≤ j → v ≠ .inst ⟨s.pos.block, j⟩) → u.regs v = s.regs v
  quiet : ∀ j w, j < d → (F.system base).run j s = some w → ¬BlockedAt F w ∧ w.mem = s.mem

namespace Computed

variable {s u : SSAState DL typ μ} {d : ℕ}

lemma zero (s : SSAState DL typ μ) : Computed F base s s 0 :=
  ⟨rfl, rfl, rfl, fun _ _ => rfl, fun _ _ hj => absurd hj (Nat.not_lt_zero _)⟩

/-- One more instruction that is no assume. -/
lemma snoc (h : Computed F base s u d) {i : SSAInst (AssumeOp Op)} (hi : F.inst? u.pos = some i)
    (hne : ∀ f vs, i ≠ .other (.assume f) vs)
    {x : BitVec (DL.getTypeSizeInBits (typ (.inst u.pos)))}
    (hstep : F.step (AssumeOp.semantics base) u = some (SSAFunction.assign u x u.mem)) :
    Computed F base s (SSAFunction.assign u x u.mem) (d + 1) := by
  refine ⟨by rw [System.run, h.run_eq]; exact hstep, ?_, h.mem_eq, fun v hv => ?_,
    fun j w hj hw => ?_⟩
  · have hpos : (SSAFunction.assign u x u.mem).pos = u.pos.next := rfl
    rw [hpos, h.pos_eq]
    rfl
  · refine (Function.update_of_ne ?_ _ _).trans (h.regs_eq v hv)
    rw [h.pos_eq]
    exact hv _ (Nat.le_add_right _ _)
  · obtain heq | hlt := Nat.eq_or_lt_of_le (Nat.lt_succ_iff.mp hj)
    · subst heq
      obtain rfl := Option.some.inj (h.run_eq.symm.trans hw)
      refine ⟨?_, h.mem_eq⟩
      rintro ⟨f, v, vs, hi', -⟩
      exact hne _ _ (Option.some.inj (hi.symm.trans hi'))
    · exact h.quiet j w hlt hw

end Computed

/-- The types of the new registers: a negation has the type of its operand, and casts are valid. -/
structure NewTypes (typ : IRValue → LLVMType) (F : SSAFunction (AssumeOp Op)) : Prop where
  not : ∀ p o, F.inst? p = some (.other .not [o]) → typ (.inst p) = typ o
  casts : ∀ p op o, F.inst? p = some (.cast op o) → op.castIsValid (typ o) (typ (.inst p)) = true

/-- A negation is computed. -/
lemma Computed.not {s u : SSAState DL typ μ} {d : ℕ} (h : Computed F base s u d) {o : IRValue}
    (hi : F.inst? u.pos = some (.other .not [o])) (htyp : typ (.inst u.pos) = .integer 1) :
    ∃ u', Computed F base s u' (d + 1) ∧
      (u'.regs (.inst u.pos)).toNat = 1 - (u.regs o).toNat := by
  refine ⟨_, h.snoc hi (fun _ _ => nofun) (x := BitVec.ofNat _ (1 - (u.regs o).toNat)) ?_, ?_⟩
  · rw [SSAFunction.step, hi, Option.bind_some]
    rfl
  · have hsize : DL.getTypeSizeInBits (typ (.inst u.pos)) = 1 := by rw [htyp]; rfl
    rw [SSAFunction.regs_assign, BitVec.toNat_ofNat, hsize]
    omega

/-- A widening is computed. -/
lemma Computed.zext {s u : SSAState DL typ μ} {d : ℕ} (h : Computed F base s u d) {o : IRValue}
    (hi : F.inst? u.pos = some (.cast .zext o)) (hone : typ o = .integer 1)
    (hvalid : CastOps.zext.castIsValid (typ o) (typ (.inst u.pos)) = true) :
    ∃ u', Computed F base s u' (d + 1) ∧ (u'.regs (.inst u.pos)).toNat = (u.regs o).toNat := by
  refine ⟨_, h.snoc hi (fun _ _ => nofun)
    (x := CastOps.apply DL .zext (typ o) (typ (.inst u.pos)) (u.regs o)) ?_, ?_⟩
  · rw [SSAFunction.step, hi, Option.bind_some]
  · obtain ⟨width, hwidth, hlt⟩ : ∃ width, typ (.inst u.pos) = .integer width ∧ 1 < width := by
      rw [hone] at hvalid
      revert hvalid
      cases typ (.inst u.pos) with
      | integer width => exact fun hvalid => ⟨width, rfl, of_decide_eq_true hvalid⟩
      | _ => exact fun hvalid => by cases hvalid
    have hsize : DL.getTypeSizeInBits (typ (.inst u.pos)) = width := by rw [hwidth]; rfl
    have hsize' : DL.getTypeSizeInBits (typ o) = 1 := by rw [hone]; rfl
    have hbit : (u.regs o).toNat < 2 ^ 1 :=
      lt_of_lt_of_eq (u.regs o).isLt (congrArg (2 ^ ·) hsize')
    have happly : CastOps.apply DL .zext (typ o) (typ (.inst u.pos)) (u.regs o)
        = (u.regs o).setWidth _ := rfl
    rw [SSAFunction.regs_assign, happly, BitVec.toNat_setWidth, hsize]
    refine Nat.mod_eq_of_lt (hbit.trans_le ?_)
    exact Nat.pow_le_pow_right (by decide) hlt.le

/-- What is created for a condition of one bit: the condition for the other successor, widened if
the function needs it, and the assume. -/
lemma newInsts_cases {typ : IRValue → LLVMType} {argType : AssumeFunction → LLVMType}
    {f : AssumeFunction} {cond : IRValue} {ifFalse succ : ℕ} {pos : InstPos}
    {new : List (SSAInst (AssumeOp Op))}
    (h : newInsts DL typ argType f cond ifFalse succ pos = some new)
    (hcond : typ cond = .integer 1) :
    ∃ negation value, getOtherSuccCondition cond ifFalse succ pos = (negation, value) ∧
      (new = negation ++ [.other (.assume f) [value]] ∨
        new = negation ++ [.cast .zext value,
          .other (.assume f) [.inst ⟨pos.block, pos.index + negation.length⟩]]) := by
  refine ⟨_, _, rfl, ?_⟩
  unfold newInsts at h
  dsimp only at h
  split at h
  · exact .inl (Option.some.inj h).symm
  · split at h
    · cases h
    · have hne : DL.getTypeSizeInBits (typ cond) ≠ 8 * DL.getTypeAllocSize (argType f) := by
        rw [hcond]
        change 1 ≠ _
        omega
      rw [if_neg hne] at h
      exact .inr (Option.some.inj h).symm

variable (base) in
/-- **The guard.**  The new instructions compute the condition for the other successor and assume
it. -/
lemma Inserted.guard {P T : ℕ} {new : List (SSAInst (AssumeOp Op))} {cond : IRValue}
    {ifTrue ifFalse : ℕ} (h : Inserted F F' P T new cond ifTrue ifFalse)
    (htypes : NewTypes typ F') {argType : AssumeFunction → LLVMType} {f : AssumeFunction} {succ : ℕ}
    (hnew : newInsts DL typ argType f cond ifFalse succ ⟨P, T⟩ = some new)
    (hcond : typ cond = .integer 1) {s : SSAState DL typ μ} (hs : s.pos = ⟨P, T⟩) :
    ∃ u d value, d + 1 = new.length ∧ Computed F' base s u d ∧
      F'.inst? u.pos = some (.other (.assume f) [value]) ∧
      (u.regs value).toNat
        = if ifFalse = succ then (s.regs cond).toNat else 1 - (s.regs cond).toNat := by
  obtain ⟨negation, value, hneg, hnew⟩ := newInsts_cases hnew hcond
  -- the condition for the other successor
  obtain ⟨u, hu, hvalue_eq, hvalue_typ⟩ : ∃ u, Computed F' base s u negation.length ∧
      (u.regs value).toNat
        = (if ifFalse = succ then (s.regs cond).toNat else 1 - (s.regs cond).toNat) ∧
      typ value = .integer 1 := by
    unfold getOtherSuccCondition at hneg
    split at hneg
    next heq =>
      obtain ⟨rfl, rfl⟩ := Prod.mk.inj hneg
      exact ⟨s, Computed.zero s, by rw [if_pos heq], hcond⟩
    next hne =>
      obtain ⟨rfl, rfl⟩ := Prod.mk.inj hneg
      have hi : F'.inst? s.pos = some (.other .not [cond]) := by
        rw [hs]
        refine h.inserted 0 _ ?_
        obtain rfl | rfl := hnew <;> rfl
      have htyp := htypes.not _ _ hi
      rw [hcond, hs] at htyp
      have hzero : Computed F' base s s 0 := .zero s
      obtain ⟨u, hu, hval⟩ := hzero.not hi (hs ▸ htyp)
      rw [hs] at hval
      exact ⟨u, hu, by rw [if_neg hne]; exact hval, htyp⟩
  have hpos : u.pos = ⟨P, T + negation.length⟩ := by rw [hu.pos_eq, hs]
  obtain rfl | rfl := hnew
  · refine ⟨u, _, value, by simp, hu, ?_, hvalue_eq⟩
    rw [hpos]
    exact h.inserted _ _ (by simp)
  · have hi : F'.inst? u.pos = some (.cast .zext value) := by
      rw [hpos]
      exact h.inserted _ _ (by simp)
    obtain ⟨u', hu', hval⟩ := hu.zext hi hvalue_typ (htypes.casts _ _ _ hi)
    rw [hpos] at hval
    refine ⟨u', _, _, by simp, hu', ?_, hval.trans hvalue_eq⟩
    rw [hu'.pos_eq, hs]
    exact h.inserted _ _ (by simp)

/-! ## Runs -/

/-- What the pass relies on in a function: operands and incoming values are values, only phi nodes
use their own results, conditions have one bit, and nothing follows a terminator in its block.  LLVM
would let an instruction use its own result in code that cannot be reached. -/
structure AssumeWellFormed (typ : IRValue → LLVMType) (F : SSAFunction (AssumeOp Op)) : Prop where
  values : ∀ p i, F.inst? p = some i → ∀ o ∈ i.operands, F.IsValue o
  not_self : ∀ p i, F.inst? p = some i → .inst p ∉ i.operands
  incoming : ∀ p incoming, F.inst? p = some (.phi incoming) → ∀ e ∈ incoming, F.IsValue e.2
  conds : ∀ p c t f, F.inst? p = some (.condBr c t f) → typ c = .integer 1
  last : ∀ b j i, F.inst? ⟨b, j⟩ = some i → i.isTerminator = true → ∀ k, j < k →
    F.inst? ⟨b, k⟩ = none

/-- Two states are at the same instruction, with the same memory and the same values. -/
structure SameState (F : SSAFunction (AssumeOp Op)) (s t : SSAState DL typ μ) : Prop where
  pos_eq : t.pos = s.pos
  mem_eq : t.mem = s.mem
  regs_eq : ∀ v, F.IsValue v → t.regs v = s.regs v

/-- The constant 0 has its value. -/
def ZeroConstants (regs : Registers DL typ) : Prop :=
  ∀ width, (regs (.constant (.int width 0))).toNat = 0

/-- Corresponding states of a run before and a run after the insertion; the branch stands for the
beginning of the new instructions. -/
structure Corresponds (F : SSAFunction (AssumeOp Op)) (P T : ℕ) (s t : SSAState DL typ μ) : Prop
    extends SameState F s t where
  zero : ZeroConstants s.regs
  bound : s.pos.block = P → s.pos.index ≤ T

section Step

variable {P T : ℕ} {new : List (SSAInst (AssumeOp Op))} {cond : IRValue} {ifTrue ifFalse : ℕ}

/-- The phi nodes of a block get the same values. -/
lemma Inserted.setPhis_eq (h : Inserted F F' P T new cond ifTrue ifFalse)
    (hF : AssumeWellFormed typ F) {regs regs' : Registers DL typ}
    (hregs : ∀ v, F.IsValue v → regs' v = regs v) {block dest : ℕ} {v : IRValue}
    (hv : F.IsValue v) : F'.setPhis regs' block dest v = F.setPhis regs block dest v := by
  cases v with
  | argument n => exact hregs _ hv
  | constant c => exact hregs _ hv
  | inst q =>
    obtain ⟨i, hi, hne⟩ := hv q rfl
    have hi' := h.inst?_of_value hi hne
    simp only [SSAFunction.setPhis, hi, hi']
    split
    · cases i with
      | phi incoming =>
        cases hlookup : incoming.lookup block with
        | none =>
          simp only [hlookup]
          exact hregs _ hv
        | some o =>
          obtain ⟨l₁, l₂, heq, -⟩ := List.lookup_eq_some_iff.mp hlookup
          have ho : F.IsValue o := hF.incoming q incoming hi (block, o) (by rw [heq]; simp)
          simp only [hlookup, hregs o ho]
      | _ => exact hregs _ hv
    · exact hregs _ hv

/-- The constant 0 keeps its value in a branch. -/
lemma ZeroConstants.enter {s : SSAState DL typ μ} (h : ZeroConstants s.regs) (dest : ℕ) (m : μ) :
    ZeroConstants (F.enter s dest m).regs := h

/-- Branches to the same block. -/
lemma Corresponds.enter (h : Inserted F F' P T new cond ifTrue ifFalse)
    (hF : AssumeWellFormed typ F)
    {s t : SSAState DL typ μ} (hblock : t.pos.block = s.pos.block)
    (hregs : ∀ v, F.IsValue v → t.regs v = s.regs v) (hzero : ZeroConstants s.regs) (dest : ℕ)
    (m : μ) : Corresponds F P T (F.enter s dest m) (F'.enter t dest m) := by
  refine ⟨⟨rfl, rfl, fun v hv => ?_⟩, hzero.enter dest m, fun _ => Nat.zero_le T⟩
  rw [SSAFunction.enter, SSAFunction.enter, hblock]
  exact h.setPhis_eq hF hregs hv

/-- The same register gets the same value. -/
lemma Corresponds.assign {p : InstPos} {regs regs' : Registers DL typ} {m m' : μ}
    (h : Corresponds F P T ⟨p, regs, m⟩ ⟨p, regs', m⟩) (hpos : p ≠ ⟨P, T⟩)
    (x : BitVec (DL.getTypeSizeInBits (typ (.inst p)))) :
    Corresponds F P T (SSAFunction.assign ⟨p, regs, m⟩ x m')
      (SSAFunction.assign ⟨p, regs', m⟩ x m') := by
  refine ⟨⟨rfl, rfl, fun v hv => ?_⟩, h.zero, fun hblock => ?_⟩
  · by_cases heq : v = .inst p
    · subst heq
      exact (SSAFunction.regs_assign (s := ⟨p, regs', m⟩)).trans
        (SSAFunction.regs_assign (s := ⟨p, regs, m⟩)).symm
    · exact (Function.update_of_ne heq _ _).trans
        ((h.regs_eq v hv).trans (Function.update_of_ne heq _ _).symm)
  · obtain ⟨block, index⟩ := p
    obtain rfl : block = P := hblock
    have hle : index ≤ T := h.bound rfl
    have hne : index ≠ T := fun heq => hpos (heq ▸ rfl)
    have hlt : index < T := lt_of_le_of_ne hle hne
    exact hlt

variable (base) in
/-- **Steps of other instructions** are the same. -/
lemma Inserted.step_agree (h : Inserted F F' P T new cond ifTrue ifFalse)
    (hF : AssumeWellFormed typ F) {s t : SSAState DL typ μ} (hst : Corresponds F P T s t)
    (hpos : s.pos ≠ ⟨P, T⟩) :
    F'.inst? t.pos = F.inst? s.pos ∧
      (F.step (AssumeOp.semantics base) s = none → F'.step (AssumeOp.semantics base) t = none) ∧
      ∀ s', F.step (AssumeOp.semantics base) s = some s' →
        ∃ t', F'.step (AssumeOp.semantics base) t = some t' ∧ Corresponds F P T s' t' := by
  obtain ⟨p, regs, m⟩ := s
  obtain ⟨p', regs', m'⟩ := t
  obtain rfl : p' = p := hst.pos_eq
  obtain rfl : m' = m := hst.mem_eq
  have hregs : ∀ v, F.IsValue v → regs' v = regs v := hst.regs_eq
  have hinst : F'.inst? p' = F.inst? p' := by
    refine h.other p' ?_
    by_contra hcon
    obtain ⟨hb, hj⟩ := not_or.mp hcon
    have hle := hst.bound (not_not.mp hb)
    exact hpos (by
      obtain ⟨block, index⟩ := p'
      obtain rfl : block = P := not_not.mp hb
      obtain rfl : index = T := le_antisymm hle (not_lt.mp hj)
      rfl)
  refine ⟨hinst, ?_⟩
  cases hi : F.inst? p' with
  | none =>
    simp only [SSAFunction.step, hinst, hi, Option.bind_none, true_and, forall_const]
    intro s' hs'
    cases hs'
  | some i =>
    have hops : ∀ o ∈ i.operands, regs' o = regs o := fun o ho => hregs o (hF.values p' i hi o ho)
    have hvalues : ∀ os : List IRValue, (∀ o ∈ os, o ∈ i.operands) →
        SSAFunction.values regs' os = SSAFunction.values regs os := fun os hos =>
      List.map_congr_left fun o ho => by rw [hops o (hos o ho)]
    have henter := Corresponds.enter h hF (s := ⟨p', regs, m'⟩) (t := ⟨p', regs', m'⟩) rfl hregs
      hst.zero
    cases i with
    | phi incoming =>
      simp only [SSAFunction.step, hinst, hi, Option.bind_some]
      refine ⟨fun hnone => (Option.some_ne_none _ hnone).elim, fun s' hs' => ⟨_, rfl, ?_⟩⟩
      obtain rfl := Option.some.inj hs'
      refine ⟨⟨rfl, rfl, hregs⟩, hst.zero, fun hblock => ?_⟩
      obtain ⟨block, index⟩ := p'
      obtain rfl : block = P := hblock
      have hle : index ≤ T := hst.bound rfl
      have hne : index ≠ T := fun heq => hpos (heq ▸ rfl)
      have hlt : index < T := lt_of_le_of_ne hle hne
      exact hlt
    | cast op o =>
      simp only [SSAFunction.step, hinst, hi, Option.bind_some]
      rw [hops o (List.mem_singleton_self o)]
      exact ⟨fun hnone => (Option.some_ne_none _ hnone).elim,
        fun s' hs' => ⟨_, rfl, Option.some.inj hs' ▸ hst.assign hpos _⟩⟩
    | cmpXchg pointer compareOperand newValue =>
      simp only [SSAFunction.step, hinst, hi, Option.bind_some]
      rw [hops pointer (by simp [SSAInst.operands]),
        hops compareOperand (by simp [SSAInst.operands]),
        hops newValue (by simp [SSAInst.operands])]
      refine ⟨fun hnone => ?_, fun s' hs' => ?_⟩
      · exact Option.map_eq_none_iff.mpr (Option.map_eq_none_iff.mp hnone)
      · obtain ⟨r, hr, rfl⟩ := Option.map_eq_some_iff.mp hs'
        exact ⟨_, Option.map_eq_some_iff.mpr ⟨r, hr, rfl⟩, hst.assign hpos _⟩
    | extractCAS cas index =>
      simp only [SSAFunction.step, hinst, hi, Option.bind_some]
      rw [hops cas (List.mem_singleton_self cas)]
      exact ⟨fun hnone => (Option.some_ne_none _ hnone).elim,
        fun s' hs' => ⟨_, rfl, Option.some.inj hs' ▸ hst.assign hpos _⟩⟩
    | other op operands =>
      simp only [SSAFunction.step, hinst, hi, Option.bind_some]
      rw [hvalues operands fun o ho => ho]
      refine ⟨fun hnone => ?_, fun s' hs' => ?_⟩
      · exact Option.map_eq_none_iff.mpr (Option.map_eq_none_iff.mp hnone)
      · obtain ⟨r, hr, rfl⟩ := Option.map_eq_some_iff.mp hs'
        exact ⟨_, Option.map_eq_some_iff.mpr ⟨r, hr, rfl⟩, hst.assign hpos _⟩
    | br dest =>
      simp only [SSAFunction.step, hinst, hi, Option.bind_some]
      exact ⟨fun hnone => (Option.some_ne_none _ hnone).elim,
        fun s' hs' => ⟨_, rfl, Option.some.inj hs' ▸ henter dest m'⟩⟩
    | condBr c t f =>
      simp only [SSAFunction.step, hinst, hi, Option.bind_some, hops c (List.mem_singleton_self c)]
      exact ⟨fun hnone => (Option.some_ne_none _ hnone).elim,
        fun s' hs' => ⟨_, rfl, Option.some.inj hs' ▸ henter _ m'⟩⟩
    | terminator op operands successors =>
      simp only [SSAFunction.step, hinst, hi, Option.bind_some]
      rw [hvalues operands fun o ho => ho]
      refine ⟨fun hnone => ?_, fun s' hs' => ?_⟩
      · rw [Option.bind_eq_none_iff] at hnone ⊢
        exact fun r hr => Option.map_eq_none_iff.mpr (Option.map_eq_none_iff.mp (hnone r hr))
      · obtain ⟨r, hr, hs'⟩ := Option.bind_eq_some_iff.mp hs'
        obtain ⟨dest, hdest, rfl⟩ := Option.map_eq_some_iff.mp hs'
        refine ⟨_, Option.bind_eq_some_iff.mpr ⟨r, hr, ?_⟩, henter dest r.2⟩
        exact Option.map_eq_some_iff.mpr ⟨dest, hdest, rfl⟩

variable (base) in
/-- An assume ends the run or goes on. -/
lemma step_assume {u : SSAState DL typ μ} {f : AssumeFunction} {v : IRValue}
    (hi : F.inst? u.pos = some (.other (.assume f) [v])) :
    F.step (AssumeOp.semantics base) u =
      if (u.regs v).toNat = 0 then none
      else some (SSAFunction.assign u (BitVec.ofNat _ 0) u.mem) := by
  rw [SSAFunction.step, hi, Option.bind_some]
  change Option.map _ (if (u.regs v).toNat = 0 then none else some (0, u.mem)) = _
  split <;> rfl

/-- The step of the branch. -/
lemma step_condBr {s : SSAState DL typ μ} {c : IRValue} {t f : ℕ}
    (hi : F.inst? s.pos = some (.condBr c t f)) :
    F.step (AssumeOp.semantics base) s =
      some (F.enter s (if (s.regs c).toNat = 1 then t else f) s.mem) := by
  rw [SSAFunction.step, hi, Option.bind_some]

/-- The beginning of a block that starts with `assume(false)` is blocked. -/
lemma blockedAt_of_assumeFalse {s : SSAState DL typ μ} {bb : ℕ} {f : AssumeFunction}
    (h : startsWithAssumeFalse F bb = some f) (hpos : s.pos = ⟨bb, 0⟩)
    (hzero : ZeroConstants s.regs) : BlockedAt F s := by
  obtain ⟨i, hi, hfalse⟩ := Option.bind_eq_some_iff.mp h
  unfold isAssumeFalse at hfalse
  split at hfalse
  next f' width value vs =>
    obtain ⟨rfl, -⟩ := Option.ite_none_right_eq_some.mp hfalse
    exact ⟨f', _, vs, hpos ▸ hi, hzero width⟩
  next => cases hfalse

/-- **The step of the branch with its guard.**  The new instructions and the branch lead to the same
place as the branch alone; or the assume does not hold, and then the branch leads to a block that
starts with `assume(false)`. -/
lemma Inserted.branch_step (h : Inserted F F' P T new cond ifTrue ifFalse)
    (hF : AssumeWellFormed typ F) (htypes : NewTypes typ F') {argType : AssumeFunction → LLVMType}
    {f f₀ : AssumeFunction} {succ : ℕ}
    (hnew : newInsts DL typ argType f cond ifFalse succ ⟨P, T⟩ = some new)
    (hsucc : startsWithAssumeFalse F succ = some f₀) (htarget : succ = ifTrue ∨ succ = ifFalse)
    {s t s' : SSAState DL typ μ} (hst : Corresponds F P T s t) (hpos : s.pos = ⟨P, T⟩)
    (hstep : F.step (AssumeOp.semantics base) s = some s') :
    (((∃ t', (F'.system base).run (new.length + 1) t = some t' ∧ Corresponds F P T s' t') ∧
      ∀ j u, j ≤ new.length → (F'.system base).run j t = some u → ¬BlockedAt F' u) ∨
    (BlockedAt F s' ∧ (F'.system base).Blocks t)) ∧
      ∀ j u, j ≤ new.length → (F'.system base).run j t = some u → u.mem = s.mem := by
  have hbranch : F.inst? s.pos = some (.condBr cond ifTrue ifFalse) := hpos ▸ h.branch
  have hcond := hF.conds _ _ _ _ h.branch
  have hvalue : F.IsValue cond := hF.values _ _ h.branch cond (List.mem_singleton_self cond)
  obtain ⟨u, d, value, hd, hu, hi, hval⟩ :=
    h.guard base htypes hnew hcond (s := t) (hst.pos_eq.trans hpos)
  rw [hst.regs_eq cond hvalue] at hval
  have hbit : (s.regs cond).toNat < 2 ^ 1 := by
    have hsize : DL.getTypeSizeInBits (typ cond) = 1 := by rw [hcond]; rfl
    exact lt_of_lt_of_eq (s.regs cond).isLt (congrArg (2 ^ ·) hsize)
  rw [step_condBr hbranch] at hstep
  obtain rfl := Option.some.inj hstep
  have hmem : u.mem = s.mem := hu.mem_eq.trans hst.mem_eq
  have hassume := step_assume base hi
  have hrun : (F'.system base).run (d + 1) t = F'.step (AssumeOp.semantics base) u := by
    rw [System.run, hu.run_eq]
    rfl
  -- the states up to the branch: the new instructions before the assume, the assume, the branch
  have hstates (j : ℕ) (w : SSAState DL typ μ) (hj : j ≤ new.length)
      (hw : (F'.system base).run j t = some w) : (¬BlockedAt F' w ∧ w.mem = t.mem) ∨ w = u ∨
        F'.step (AssumeOp.semantics base) u = some w := by
    obtain hlt | heq | hgt := Nat.lt_trichotomy j d
    · exact .inl (hu.quiet j w hlt hw)
    · exact .inr (.inl (Option.some.inj (hw.symm.trans (heq ▸ hu.run_eq))))
    · obtain rfl : j = d + 1 := by omega
      exact .inr (.inr (hrun.symm.trans hw))
  refine ⟨?_, fun j w hj hw => ?_⟩
  · by_cases hzero : (u.regs value).toNat = 0
    · -- the assume does not hold
      refine .inr ⟨?_, d, u, hu.run_eq, f, value, [], hi, hzero⟩
      refine blockedAt_of_assumeFalse hsucc ?_ (hst.zero.enter _ _)
      have htaken : (if (s.regs cond).toNat = 1 then ifTrue else ifFalse) = succ := by
        rw [hzero] at hval
        split at hval
        next heq => rw [if_neg (by omega), heq]
        next hne => rw [if_pos (by omega), htarget.resolve_right fun heq => hne heq.symm]
      rw [htaken]
      rfl
    · rw [if_neg hzero] at hassume
      have hend : (SSAFunction.assign u (BitVec.ofNat _ 0) u.mem).pos = ⟨P, T + new.length⟩ := by
        have hnext : (SSAFunction.assign u (BitVec.ofNat _ 0) u.mem).pos = u.pos.next := rfl
        rw [hnext, hu.pos_eq, hst.pos_eq, hpos, ← hd]
        rfl
      have hbranch' : F'.inst? (SSAFunction.assign u (BitVec.ofNat _ 0) u.mem).pos
          = some (.condBr cond ifTrue ifFalse) := hend ▸ h.branch'
      have hregs : ∀ v, F.IsValue v →
          (SSAFunction.assign u (BitVec.ofNat _ 0) u.mem).regs v = s.regs v := by
        intro v hv
        have hfresh : ∀ j, t.pos.index ≤ j → v ≠ .inst ⟨t.pos.block, j⟩ := by
          rw [hst.pos_eq, hpos]
          exact fun j hj => h.ne_of_isValue hv hj
        refine (Function.update_of_ne ?_ _ _).trans
          ((hu.regs_eq v hfresh).trans (hst.regs_eq v hv))
        rw [hu.pos_eq]
        exact hfresh _ (Nat.le_add_right _ _)
      refine .inl ⟨⟨_, ?_, Corresponds.enter h hF
        (t := SSAFunction.assign u (BitVec.ofNat _ 0) u.mem) ?_ hregs hst.zero _ s.mem⟩,
        fun j w hj hw => ?_⟩
      · rw [← hd, System.run, hrun, hassume, Option.bind_some]
        refine (step_condBr hbranch').trans ?_
        rw [hregs cond hvalue]
        exact congrArg some (congrArg _ hmem)
      · rw [hend, hpos]
      · obtain ⟨hquiet, -⟩ | rfl | hw := hstates j w hj hw
        · exact hquiet
        · rintro ⟨f', v, vs, hi', hzero'⟩
          obtain ⟨-, hv⟩ := SSAInst.other.inj (Option.some.inj (hi.symm.trans hi'))
          obtain ⟨rfl, -⟩ := List.cons.inj hv
          exact hzero hzero'
        · obtain rfl := Option.some.inj (hassume.symm.trans hw)
          rintro ⟨f', v, vs, hi', -⟩
          cases Option.some.inj (hbranch'.symm.trans hi')
  · obtain ⟨-, hmem'⟩ | rfl | hw := hstates j w hj hw
    · exact hmem'.trans hst.mem_eq
    · exact hmem
    · rw [hassume] at hw
      split at hw
      · cases hw
      · exact Option.some.inj hw ▸ hmem

variable (base) in
/-- **One assume** keeps the runs. -/
theorem Inserted.sameRuns (h : Inserted F F' P T new cond ifTrue ifFalse)
    (hF : AssumeWellFormed typ F) (htypes : NewTypes typ F') {argType : AssumeFunction → LLVMType}
    {f f₀ : AssumeFunction} {succ : ℕ}
    (hnew : newInsts DL typ argType f cond ifFalse succ ⟨P, T⟩ = some new)
    (hsucc : startsWithAssumeFalse F succ = some f₀) (htarget : succ = ifTrue ∨ succ = ifFalse)
    {s : SSAState DL typ μ} (hs : s.pos.block = P → s.pos.index ≤ T)
    (hzero : ZeroConstants s.regs) :
    System.SameRuns (·.mem) (Corresponds F P T) (F.system base) (F'.system base) s s := by
  have hpos_new : new.length ≠ 0 := by
    obtain ⟨negation, value, -, rfl | rfl⟩ := newInsts_cases hnew (hF.conds _ _ _ _ h.branch)
    · simp
    · simp
  have hrule : System.StepsAlong (·.mem) (Corresponds F P T)
      (fun s : SSAState DL typ μ => if s.pos = ⟨P, T⟩ then new.length else 0)
      (F.system base) (F'.system base) → System.SameRuns (·.mem) (Corresponds F P T)
      (F.system base) (F'.system base) s s := fun hsteps =>
    System.sameRuns_of_steps hsteps ⟨⟨rfl, rfl, fun _ _ => rfl⟩, hzero, hs⟩
  refine hrule ⟨fun s t hst hextra => ?_, fun s t hst hnone => ?_, fun s => step_of_blockedAt,
    fun s t s' hst hstep => ?_, fun s t hst j u hj hu => ?_⟩
  · have hpos : s.pos ≠ ⟨P, T⟩ := fun heq => hpos_new (by rwa [if_pos heq] at hextra)
    obtain ⟨hinst, -⟩ := h.step_agree base hF hst hpos
    have hregs : ∀ g v vs, F.inst? s.pos = some (.other (.assume g) (v :: vs)) →
        t.regs v = s.regs v := fun g v vs hi =>
      hst.regs_eq v (hF.values _ _ hi v List.mem_cons_self)
    constructor
    · rintro ⟨g, v, vs, hi, hv⟩
      exact ⟨g, v, vs, hinst.trans hi, by rw [hregs g v vs hi, hv]⟩
    · rintro ⟨g, v, vs, hi, hv⟩
      have hi' := hinst.symm.trans hi
      exact ⟨g, v, vs, hi', by rw [← hregs g v vs hi', hv]⟩
  · have hpos : s.pos ≠ ⟨P, T⟩ := by
      intro heq
      have hbranch : F.inst? s.pos = some (.condBr cond ifTrue ifFalse) := heq ▸ h.branch
      have hstep : F.step (AssumeOp.semantics base) s = none := hnone
      rw [step_condBr hbranch] at hstep
      cases hstep
    exact ⟨(h.step_agree base hF hst hpos).2.1 hnone, if_neg hpos⟩
  · by_cases hpos : s.pos = ⟨P, T⟩
    · simp only [if_pos hpos]
      exact (h.branch_step hF htypes hnew hsucc htarget hst hpos hstep).1.imp_left
        fun hleft => ⟨hleft.1, fun _ => hleft.2⟩
    · simp only [if_neg hpos]
      obtain ⟨t', ht', hagree⟩ := (h.step_agree base hF hst hpos).2.2 s' hstep
      exact .inl ⟨⟨t', ht', hagree⟩, fun hne => absurd rfl hne⟩
  · by_cases hpos : s.pos = ⟨P, T⟩
    · rw [if_pos hpos] at hj
      have hbranch : F.inst? s.pos = some (.condBr cond ifTrue ifFalse) := hpos ▸ h.branch
      exact (h.branch_step hF htypes hnew hsucc htarget hst hpos (step_condBr hbranch)).2 j u hj hu
    · rw [if_neg hpos, Nat.le_zero] at hj
      subst hj
      exact Option.some.inj hu ▸ hst.mem_eq

end Step

end Run

/-! ## Coverage -/

section Coverage

variable {Op : Type*} {DL : DataLayout} {typ : IRValue → LLVMType}
  {argType : AssumeFunction → LLVMType}

/-- The value is the condition under which a branch on `cond` does not go to `succ`: `cond` or its
negation, possibly widened. -/
def OtherCondition (F : SSAFunction (AssumeOp Op)) (cond : IRValue) (ifFalse succ : ℕ)
    (value : IRValue) : Prop :=
  ∃ bit, (value = bit ∨ ∃ p, value = .inst p ∧ F.inst? p = some (.cast .zext bit)) ∧
    (ifFalse = succ ∧ bit = cond ∨
      ifFalse ≠ succ ∧ ∃ q, bit = .inst q ∧ F.inst? q = some (.other .not [cond]))

/-- The conditional branch at the end of the block is preceded by an assume of exactly the condition
under which it does not go to `succ`. -/
def Covered (F : SSAFunction (AssumeOp Op)) (P succ : ℕ) : Prop :=
  ∃ T cond ifTrue ifFalse, F.inst? ⟨P, T⟩ = some (.condBr cond ifTrue ifFalse) ∧
    ∃ j < T, ∃ f value vs, F.inst? ⟨P, j⟩ = some (.other (.assume f) (value :: vs)) ∧
      OtherCondition F cond ifFalse succ value

/-- The block ends with a conditional branch to `succ` and another block. -/
def BranchesOn (F : SSAFunction (AssumeOp Op)) (P succ : ℕ) : Prop :=
  ∃ T cond ifTrue ifFalse, F.inst? ⟨P, T⟩ = some (.condBr cond ifTrue ifFalse) ∧
    (succ = ifTrue ∨ succ = ifFalse) ∧ ifTrue ≠ ifFalse

/-- The instructions that are created for a condition of one bit at a position. -/
inductive Guard (f : AssumeFunction) (cond : IRValue) (ifFalse succ P T : ℕ) :
    List (SSAInst (AssumeOp Op)) → Prop where
  | same (h : ifFalse = succ) : Guard f cond ifFalse succ P T [.other (.assume f) [cond]]
  | not (h : ifFalse ≠ succ) : Guard f cond ifFalse succ P T
      [.other .not [cond], .other (.assume f) [.inst ⟨P, T⟩]]
  | zext (h : ifFalse = succ) : Guard f cond ifFalse succ P T
      [.cast .zext cond, .other (.assume f) [.inst ⟨P, T⟩]]
  | notZext (h : ifFalse ≠ succ) : Guard f cond ifFalse succ P T
      [.other .not [cond], .cast .zext (.inst ⟨P, T⟩), .other (.assume f) [.inst ⟨P, T + 1⟩]]

section Inserted

variable {F F' : SSAFunction (AssumeOp Op)} {P T : ℕ} {new : List (SSAInst (AssumeOp Op))}
  {cond : IRValue} {ifTrue ifFalse : ℕ} {f : AssumeFunction} {succ : ℕ}

lemma guard_of_newInsts (hnew : newInsts DL typ argType f cond ifFalse succ ⟨P, T⟩ = some new)
    (hcond : typ cond = .integer 1) : Guard f cond ifFalse succ P T new := by
  obtain ⟨negation, value, hneg, hnew⟩ := newInsts_cases hnew hcond
  unfold getOtherSuccCondition at hneg
  split at hneg
  next heq =>
    obtain ⟨rfl, rfl⟩ := Prod.mk.inj hneg
    obtain rfl | rfl := hnew
    · exact .same heq
    · exact .zext heq
  next hne =>
    obtain ⟨rfl, rfl⟩ := Prod.mk.inj hneg
    obtain rfl | rfl := hnew
    · exact .not hne
    · exact .notZext hne

/-- A new instruction is neither a phi node nor a terminator, and it uses the condition and new
instructions before it. -/
lemma Guard.inst (h : Guard f cond ifFalse succ P T new) {j : ℕ} {i : SSAInst (AssumeOp Op)}
    (hi : new[j]? = some i) :
    i.isTerminator = false ∧ (∀ incoming, i ≠ .phi incoming) ∧
      ∀ o ∈ i.operands, o = cond ∨ ∃ l < j, o = .inst ⟨P, T + l⟩ := by
  cases h with
  | same =>
    obtain _ | j := j
    · obtain rfl := Option.some.inj hi
      exact ⟨rfl, nofun, fun o ho => .inl (List.mem_singleton.mp ho)⟩
    · cases hi
  | not =>
    obtain _ | _ | j := j
    · obtain rfl := Option.some.inj hi
      exact ⟨rfl, nofun, fun o ho => .inl (List.mem_singleton.mp ho)⟩
    · obtain rfl := Option.some.inj hi
      exact ⟨rfl, nofun, fun o ho => .inr ⟨0, Nat.zero_lt_one, List.mem_singleton.mp ho⟩⟩
    · cases hi
  | zext =>
    obtain _ | _ | j := j
    · obtain rfl := Option.some.inj hi
      exact ⟨rfl, nofun, fun o ho => .inl (List.mem_singleton.mp ho)⟩
    · obtain rfl := Option.some.inj hi
      exact ⟨rfl, nofun, fun o ho => .inr ⟨0, Nat.zero_lt_one, List.mem_singleton.mp ho⟩⟩
    · cases hi
  | notZext =>
    obtain _ | _ | _ | j := j
    · obtain rfl := Option.some.inj hi
      exact ⟨rfl, nofun, fun o ho => .inl (List.mem_singleton.mp ho)⟩
    · obtain rfl := Option.some.inj hi
      exact ⟨rfl, nofun, fun o ho => .inr ⟨0, Nat.zero_lt_one, List.mem_singleton.mp ho⟩⟩
    · obtain rfl := Option.some.inj hi
      exact ⟨rfl, nofun, fun o ho => .inr ⟨1, by decide, List.mem_singleton.mp ho⟩⟩
    · cases hi

/-- An instruction that is no terminator is no conditional branch. -/
lemma SSAInst.ne_condBr {Op : Type*} {i : SSAInst Op} (h : i.isTerminator = false) (c : IRValue)
    (t f : ℕ) : i ≠ .condBr c t f := by
  rintro rfl
  cases h

/-- The function stays well-formed. -/
lemma Inserted.wellFormed (h : Inserted F F' P T new cond ifTrue ifFalse)
    (hF : AssumeWellFormed typ F) (hguard : Guard f cond ifFalse succ P T new) :
    AssumeWellFormed typ F' := by
  have hcond : F.IsValue cond := hF.values _ _ h.branch cond (List.mem_singleton_self cond)
  have hnew : ∀ j i, new[j]? = some i → F'.IsValue (.inst ⟨P, T + j⟩) := by
    intro j i hi p hp
    obtain rfl := IRValue.inst.inj hp
    exact ⟨i, h.inserted j i hi, SSAInst.ne_condBr (hguard.inst hi).1⟩
  refine ⟨fun p i hi o ho => ?_, fun p i hi ho => ?_, fun p incoming hi e he => ?_,
    fun p c t f hi => ?_, fun b j i hi hterm k hk => ?_⟩
  · obtain ⟨hi, -⟩ | ⟨j, rfl, hj⟩ | ⟨rfl, rfl⟩ := h.cases hi
    · exact h.isValue (hF.values p i hi o ho)
    · obtain rfl | ⟨l, hl, rfl⟩ := (hguard.inst hj).2.2 o ho
      · exact h.isValue hcond
      · have hlt := (List.getElem?_eq_some_iff.mp hj).1
        exact hnew l _ (List.getElem?_eq_getElem (hl.trans hlt))
    · exact List.mem_singleton.mp ho ▸ h.isValue hcond
  · obtain ⟨hi, -⟩ | ⟨j, rfl, hj⟩ | ⟨rfl, rfl⟩ := h.cases hi
    · exact hF.not_self p i hi ho
    · obtain heq | ⟨l, hl, heq⟩ := (hguard.inst hj).2.2 _ ho
      · exact h.ne_of_isValue hcond (Nat.le_add_right T j) heq.symm
      · have := (InstPos.mk.inj (IRValue.inst.inj heq)).2
        omega
    · exact h.ne_of_isValue hcond (Nat.le_add_right T _) (List.mem_singleton.mp ho).symm
  · obtain ⟨hi, -⟩ | ⟨j, rfl, hj⟩ | ⟨rfl, heq⟩ := h.cases hi
    · exact h.isValue (hF.incoming p incoming hi e he)
    · exact absurd rfl ((hguard.inst hj).2.1 incoming)
    · cases heq
  · obtain ⟨hi, -⟩ | ⟨j, rfl, hj⟩ | ⟨rfl, heq⟩ := h.cases hi
    · exact hF.conds p c t f hi
    · exact absurd rfl (SSAInst.ne_condBr (hguard.inst hj).1 c t f)
    · obtain ⟨rfl, -⟩ := SSAInst.condBr.inj heq
      exact hF.conds _ _ _ _ h.branch
  · obtain ⟨hi, hold⟩ | ⟨l, heq, hl⟩ | ⟨heq, -⟩ := h.cases hi
    · by_cases hb : b = P
      · -- the branch would follow a terminator
        subst hb
        have hlt : j < T := hold.resolve_left fun hne => hne rfl
        have := hF.last b j i hi hterm T hlt
        rw [h.branch] at this
        cases this
      · rw [h.other ⟨b, k⟩ (.inl hb)]
        exact hF.last b j i hi hterm k hk
    · rw [(hguard.inst hl).1] at hterm
      cases hterm
    · obtain ⟨rfl, rfl⟩ := InstPos.mk.inj heq
      exact h.last' k hk

/-- The types of the new registers of the function before. -/
lemma Inserted.newTypes (h : Inserted F F' P T new cond ifTrue ifFalse) (htypes : NewTypes typ F') :
    NewTypes typ F :=
  ⟨fun p o hi => htypes.not p o (h.inst?_of_value hi nofun),
    fun p op o hi => htypes.casts p op o (h.inst?_of_value hi nofun)⟩

/-- A block with its terminator. -/
lemma AssumeWellFormed.condBr_unique (hF : AssumeWellFormed typ F) {b j k : ℕ} {c c' : IRValue}
    {t t' e e' : ℕ} (hj : F.inst? ⟨b, j⟩ = some (.condBr c t e))
    (hk : F.inst? ⟨b, k⟩ = some (.condBr c' t' e')) : j = k ∧ c = c' ∧ t = t' ∧ e = e' := by
  obtain hlt | rfl | hlt := Nat.lt_trichotomy j k
  · rw [hF.last b j _ hj rfl k hlt] at hk
    cases hk
  · obtain ⟨rfl, rfl, rfl⟩ := SSAInst.condBr.inj (Option.some.inj (hj.symm.trans hk))
    exact ⟨rfl, rfl, rfl, rfl⟩
  · rw [hF.last b k _ hk rfl j hlt] at hj
    cases hj

/-- Blocks keep their conditional branches. -/
lemma Inserted.condBr_iff (h : Inserted F F' P T new cond ifTrue ifFalse)
    (hF : AssumeWellFormed typ F) (hguard : Guard f cond ifFalse succ P T new) {b : ℕ}
    {c : IRValue} {t e : ℕ} :
    (∃ j, F'.inst? ⟨b, j⟩ = some (.condBr c t e)) ↔
      ∃ j, F.inst? ⟨b, j⟩ = some (.condBr c t e) := by
  constructor
  · rintro ⟨j, hj⟩
    obtain ⟨hj, -⟩ | ⟨l, -, hl⟩ | ⟨heq, hi⟩ := h.cases hj
    · exact ⟨j, hj⟩
    · exact absurd rfl (SSAInst.ne_condBr (hguard.inst hl).1 c t e)
    · obtain ⟨rfl, -⟩ := InstPos.mk.inj heq
      exact ⟨T, hi ▸ h.branch⟩
  · rintro ⟨j, hj⟩
    by_cases hb : b = P
    · subst hb
      obtain ⟨rfl, rfl, rfl, rfl⟩ := hF.condBr_unique hj h.branch
      exact ⟨_, h.branch'⟩
    · exact ⟨j, (h.other ⟨b, j⟩ (.inl hb)).trans hj⟩

/-- A condition stays one. -/
lemma Inserted.otherCondition (h : Inserted F F' P T new cond ifTrue ifFalse) {c value : IRValue}
    {e b : ℕ} (hother : OtherCondition F c e b value) : OtherCondition F' c e b value := by
  obtain ⟨bit, hvalue, hbit⟩ := hother
  refine ⟨bit, hvalue.imp_right ?_, hbit.imp_right (And.imp_right ?_)⟩
  · exact fun ⟨p, hp, hi⟩ => ⟨p, hp, h.inst?_of_value hi nofun⟩
  · exact fun ⟨q, hq, hi⟩ => ⟨q, hq, h.inst?_of_value hi nofun⟩

/-- A covered branch stays covered. -/
lemma Inserted.covered (h : Inserted F F' P T new cond ifTrue ifFalse)
    (hF : AssumeWellFormed typ F) {Q b : ℕ} (hcovered : Covered F Q b) : Covered F' Q b := by
  obtain ⟨T', c, t, e, hbranch, j, hj, g, value, vs, hi, hother⟩ := hcovered
  have hi' := h.inst?_of_value hi nofun
  by_cases hQ : Q = P
  · subst hQ
    obtain ⟨rfl, rfl, rfl, rfl⟩ := hF.condBr_unique hbranch h.branch
    exact ⟨_, _, _, _, h.branch', j, by omega, g, value, vs, hi', h.otherCondition hother⟩
  · exact ⟨T', c, t, e, (h.other ⟨Q, T'⟩ (.inl hQ)).trans hbranch, j, hj, g, value, vs, hi',
      h.otherCondition hother⟩

/-- **The guard covers the branch.** -/
lemma Inserted.covered_succ (h : Inserted F F' P T new cond ifTrue ifFalse)
    (hguard : Guard f cond ifFalse succ P T new) : Covered F' P succ := by
  refine ⟨_, _, _, _, h.branch', ?_⟩
  cases hguard with
  | same heq =>
    exact ⟨T + 0, by simp, f, cond, [], h.inserted 0 _ rfl, cond, .inl rfl, .inl ⟨heq, rfl⟩⟩
  | not hne =>
    exact ⟨T + 1, by simp, f, _, [], h.inserted 1 _ rfl, _, .inl rfl,
      .inr ⟨hne, _, rfl, h.inserted 0 _ rfl⟩⟩
  | zext heq =>
    exact ⟨T + 1, by simp, f, _, [], h.inserted 1 _ rfl, cond,
      .inr ⟨_, rfl, h.inserted 0 _ rfl⟩, .inl ⟨heq, rfl⟩⟩
  | notZext hne =>
    exact ⟨T + 2, by simp, f, _, [], h.inserted 2 _ rfl, _, .inr ⟨_, rfl, h.inserted 1 _ rfl⟩,
      .inr ⟨hne, _, rfl, h.inserted 0 _ rfl⟩⟩

/-- What an old value stands for was there before. -/
lemma Inserted.otherCondition_old (h : Inserted F F' P T new cond ifTrue ifFalse)
    (hF : AssumeWellFormed typ F) {c value : IRValue} {e b : ℕ} (hvalue : F.IsValue value)
    (hother : OtherCondition F' c e b value) : OtherCondition F c e b value := by
  -- the instruction of an old value is the old one
  have hold : ∀ {p : InstPos} {i : SSAInst (AssumeOp Op)}, F.IsValue (.inst p) →
      F'.inst? p = some i → F.inst? p = some i := by
    intro p i hp hi
    obtain ⟨i', hi', hne⟩ := hp p rfl
    rw [← hi, h.inst?_of_value hi' hne]
    exact hi'
  obtain ⟨bit, hcast, hbit⟩ := hother
  have hcast' : value = bit ∨ ∃ p, value = .inst p ∧ F.inst? p = some (.cast .zext bit) :=
    hcast.imp_right fun ⟨p, hp, hi⟩ => ⟨p, hp, hold (hp ▸ hvalue) hi⟩
  have hbit_value : F.IsValue bit := by
    obtain rfl | ⟨p, -, hi⟩ := hcast'
    · exact hvalue
    · exact hF.values p _ hi bit (List.mem_singleton_self bit)
  exact ⟨bit, hcast', hbit.imp_right (And.imp_right fun ⟨q, hq, hi⟩ =>
    ⟨q, hq, hold (hq ▸ hbit_value) hi⟩)⟩

/-- The condition of a guard is that for its own successor only. -/
lemma Guard.succ_eq (hguard : Guard f cond ifFalse succ P T new)
    (h : Inserted F F' P T new cond ifTrue ifFalse) (hF' : AssumeWellFormed typ F')
    (htypes : NewTypes typ F') (hF : AssumeWellFormed typ F)
    (hsucc : succ = ifTrue ∨ succ = ifFalse) {b : ℕ}
    (hb : b = ifTrue ∨ b = ifFalse) {j : ℕ} {g : AssumeFunction} {value : IRValue}
    {vs : List IRValue} (hj : new[j]? = some (.other (.assume g) (value :: vs)))
    (hother : OtherCondition F' cond ifFalse b value) : b = succ := by
  have hcond : F.IsValue cond := hF.values _ _ h.branch cond (List.mem_singleton_self cond)
  have hfresh : ∀ k, cond ≠ .inst ⟨P, T + k⟩ := fun k =>
    h.ne_of_isValue hcond (Nat.le_add_right T k)
  -- the condition is not its own negation, nor the widening of it
  have hnot : ∀ q, cond = .inst q → F'.inst? q ≠ some (.other .not [cond]) := by
    rintro q rfl hi
    exact hF'.not_self q _ hi (List.mem_singleton_self _)
  have hzext : ∀ p q, cond = .inst p → F'.inst? p = some (.cast .zext (.inst q)) →
      F'.inst? q ≠ some (.other .not [cond]) := by
    rintro p q rfl hp hq
    have hvalid := htypes.casts _ _ _ hp
    rw [htypes.not _ _ hq, hF.conds _ _ _ _ h.branch] at hvalid
    exact absurd hvalid (by decide)
  obtain ⟨bit, hcast, hbit⟩ := hother
  by_contra hne
  cases hguard with
  | same heq =>
    obtain _ | j := j
    · obtain ⟨-, hv⟩ := SSAInst.other.inj (Option.some.inj hj)
      obtain ⟨rfl, -⟩ := List.cons.inj hv
      obtain ⟨heq', -⟩ | ⟨-, q, rfl, hq⟩ := hbit
      · exact hne (heq'.symm.trans heq)
      · obtain hc | ⟨p, hp, hi⟩ := hcast
        · exact hnot q hc hq
        · exact hzext p q hp hi hq
    · cases hj
  | not hne' =>
    have h₀ := h.inserted 0 _ rfl
    obtain _ | _ | j := j
    · cases hj
    · obtain ⟨-, hv⟩ := SSAInst.other.inj (Option.some.inj hj)
      obtain ⟨rfl, -⟩ := List.cons.inj hv
      obtain ⟨-, rfl⟩ | ⟨hneb, -⟩ := hbit
      · obtain hc | ⟨p, hp, hi⟩ := hcast
        · exact hfresh 0 hc.symm
        · obtain rfl := IRValue.inst.inj hp
          cases hi.symm.trans h₀
      · omega
    · cases hj
  | zext heq =>
    have h₀ := h.inserted 0 _ rfl
    obtain _ | _ | j := j
    · cases hj
    · obtain ⟨-, hv⟩ := SSAInst.other.inj (Option.some.inj hj)
      obtain ⟨rfl, -⟩ := List.cons.inj hv
      obtain ⟨heq', -⟩ | ⟨-, q, rfl, hq⟩ := hbit
      · exact hne (heq'.symm.trans heq)
      · obtain hc | ⟨p, hp, hi⟩ := hcast
        · obtain rfl := IRValue.inst.inj hc
          cases hq.symm.trans h₀
        · obtain rfl := IRValue.inst.inj hp
          obtain ⟨-, hc⟩ := SSAInst.cast.inj (Option.some.inj (hi.symm.trans h₀))
          exact hnot q hc.symm hq
    · cases hj
  | notZext hne' =>
    have h₀ := h.inserted 0 _ rfl
    have h₁ := h.inserted 1 _ rfl
    obtain _ | _ | _ | j := j
    · cases hj
    · cases hj
    · obtain ⟨-, hv⟩ := SSAInst.other.inj (Option.some.inj hj)
      obtain ⟨rfl, -⟩ := List.cons.inj hv
      obtain ⟨-, rfl⟩ | ⟨hneb, -⟩ := hbit
      · obtain hc | ⟨p, hp, hi⟩ := hcast
        · exact hfresh 1 hc.symm
        · obtain rfl := IRValue.inst.inj hp
          obtain ⟨-, hc⟩ := SSAInst.cast.inj (Option.some.inj (hi.symm.trans h₁))
          exact hfresh 0 hc
      · omega
    · cases hj

/-- **A branch that is covered** was covered before, or it is the one with the guard. -/
lemma Inserted.covered_inv (h : Inserted F F' P T new cond ifTrue ifFalse)
    (hF : AssumeWellFormed typ F) (hguard : Guard f cond ifFalse succ P T new)
    (htypes : NewTypes typ F') (hsucc : succ = ifTrue ∨ succ = ifFalse) {Q b : ℕ}
    (hbranch : BranchesOn F Q b) (hcovered : Covered F' Q b) :
    Covered F Q b ∨ Q = P ∧ b = succ := by
  have hF' := h.wellFormed hF hguard
  obtain ⟨T₀, c₀, t₀, e₀, hT₀, hb, -⟩ := hbranch
  obtain ⟨T', c, t, e, hT', j, hj, g, value, vs, hi, hother⟩ := hcovered
  -- the branch is the same one
  obtain ⟨T₁, hT₁⟩ := (h.condBr_iff hF hguard).mpr ⟨T₀, hT₀⟩
  obtain ⟨rfl, rfl, rfl, rfl⟩ := hF'.condBr_unique hT₁ hT'
  obtain ⟨hi₀, hold⟩ | ⟨l, heq, hl⟩ | ⟨-, heq⟩ := h.cases hi
  · refine .inl ⟨T₀, c₀, t₀, e₀, hT₀, j, ?_, g, value, vs, hi₀, ?_⟩
    · -- nothing stands behind the branch
      by_contra hle
      obtain heq | hlt := Nat.eq_or_lt_of_le (not_lt.mp hle)
      · subst heq
        cases hi₀.symm.trans hT₀
      · rw [hF.last Q T₀ _ hT₀ rfl j hlt] at hi₀
        cases hi₀
    · exact h.otherCondition_old hF (hF.values _ _ hi₀ value List.mem_cons_self) hother
  · obtain ⟨rfl, rfl⟩ := InstPos.mk.inj heq
    obtain ⟨-, rfl, rfl, rfl⟩ := hF.condBr_unique hT₀ h.branch
    exact .inr ⟨rfl, hguard.succ_eq h hF' htypes hF hsucc hb hl hother⟩
  · cases heq

end Inserted

end Coverage

/-! ## The whole pass -/

section Whole

variable {Op : Type*} (DL : DataLayout) (typ : IRValue → LLVMType)
  (argType : AssumeFunction → LLVMType)

/-- The function with guards at the branches `guarded`: each one was put there for a block that
starts with `assume(false)`. -/
inductive Guarded (F : SSAFunction (AssumeOp Op)) :
    List (ℕ × ℕ) → SSAFunction (AssumeOp Op) → Prop where
  | refl : Guarded F [] F
  | step {guarded : List (ℕ × ℕ)} {G G' : SSAFunction (AssumeOp Op)} {P T : ℕ}
      {new : List (SSAInst (AssumeOp Op))} {cond : IRValue} {ifTrue ifFalse : ℕ}
      {f f₀ : AssumeFunction} {succ : ℕ} (hG : Guarded F guarded G)
      (hinserted : Inserted G G' P T new cond ifTrue ifFalse)
      (hnew : newInsts DL typ argType f cond ifFalse succ ⟨P, T⟩ = some new)
      (hsucc : startsWithAssumeFalse G succ = some f₀)
      (htarget : succ = ifTrue ∨ succ = ifFalse) : Guarded F ((P, succ) :: guarded) G'

variable {DL typ argType} {F G : SSAFunction (AssumeOp Op)} {guarded : List (ℕ × ℕ)}

namespace Guarded

/-- The guards keep the function well-formed, its values and its branches. -/
lemma keeps (h : Guarded DL typ argType F guarded G) (hF : AssumeWellFormed typ F) :
    AssumeWellFormed typ G ∧ (∀ v, F.IsValue v → G.IsValue v) ∧
      (∀ q i, F.inst? q = some i → i.isTerminator = false → G.inst? q = some i) ∧
      ∀ b c t e, (∃ j, G.inst? ⟨b, j⟩ = some (.condBr c t e)) ↔
        ∃ j, F.inst? ⟨b, j⟩ = some (.condBr c t e) := by
  induction h with
  | refl => exact ⟨hF, fun _ hv => hv, fun _ _ hi _ => hi, fun _ _ _ _ => Iff.rfl⟩
  | step hG hinserted hnew hsucc htarget ih =>
    obtain ⟨hwf, hvalues, hinsts, hbranches⟩ := ih
    have hguard := guard_of_newInsts hnew (hwf.conds _ _ _ _ hinserted.branch)
    exact ⟨hinserted.wellFormed hwf hguard, fun v hv => hinserted.isValue (hvalues v hv),
      fun q i hi hterm => hinserted.inst?_of_value (hinsts q i hi hterm) (SSAInst.ne_condBr hterm),
      fun b c t e => (hinserted.condBr_iff hwf hguard).trans (hbranches b c t e)⟩

/-- Branches on conditions are those from before. -/
lemma branchesOn_iff (h : Guarded DL typ argType F guarded G) (hF : AssumeWellFormed typ F)
    {P b : ℕ} : BranchesOn G P b ↔ BranchesOn F P b := by
  obtain ⟨-, -, -, hbranches⟩ := h.keeps hF
  constructor
  · rintro ⟨T, c, t, e, hT, hb⟩
    obtain ⟨T', hT'⟩ := (hbranches P c t e).mp ⟨T, hT⟩
    exact ⟨T', c, t, e, hT', hb⟩
  · rintro ⟨T, c, t, e, hT, hb⟩
    obtain ⟨T', hT'⟩ := (hbranches P c t e).mpr ⟨T, hT⟩
    exact ⟨T', c, t, e, hT', hb⟩

/-- A block that starts with `assume(false)` goes on doing so. -/
lemma startsWithAssumeFalse (h : Guarded DL typ argType F guarded G) (hF : AssumeWellFormed typ F)
    {b : ℕ} {f : AssumeFunction} (hb : GenMC.startsWithAssumeFalse F b = some f) :
    GenMC.startsWithAssumeFalse G b = some f := by
  obtain ⟨i, hi, hfalse⟩ := Option.bind_eq_some_iff.mp hb
  have hterm : i.isTerminator = false := by
    unfold isAssumeFalse at hfalse
    split at hfalse
    next => rfl
    next => cases hfalse
  exact Option.bind_eq_some_iff.mpr ⟨i, (h.keeps hF).2.2.1 _ i hi hterm, hfalse⟩

/-- **The covered branches** are those that were covered and those with a guard. -/
theorem covered_iff (h : Guarded DL typ argType F guarded G) (hF : AssumeWellFormed typ F)
    (htypes : NewTypes typ G) {P b : ℕ} (hbranch : BranchesOn F P b) :
    Covered G P b ↔ Covered F P b ∨ (P, b) ∈ guarded := by
  induction h with
  | refl => simp
  | step hG hinserted hnew hsucc htarget ih =>
    have hwf := (hG.keeps hF).1
    have hguard := guard_of_newInsts hnew (hwf.conds _ _ _ _ hinserted.branch)
    rw [List.mem_cons, ← or_left_comm, ← ih (hinserted.newTypes htypes), Prod.mk.injEq]
    constructor
    · intro hcovered
      exact (hinserted.covered_inv hwf hguard htypes htarget ((hG.branchesOn_iff hF).mpr hbranch)
        hcovered).symm
    · rintro (⟨rfl, rfl⟩ | hcovered)
      · exact hinserted.covered_succ hguard
      · exact hinserted.covered hwf hcovered

/-- **The runs stay the same.** -/
theorem sameRuns {μ : Type*} (h : Guarded DL typ argType F guarded G)
    (hF : AssumeWellFormed typ F) (htypes : NewTypes typ G) (base : Semantics Op μ)
    {s : SSAState DL typ μ} (hs : s.pos = SSAFunction.entry) (hzero : ZeroConstants s.regs) :
    System.SameRuns (·.mem) (SameState F) (F.system base) (G.system base) s s := by
  induction h with
  | refl => exact System.SameRuns.refl _ (fun _ => ⟨rfl, rfl, fun _ _ => rfl⟩) _ s
  | step hG hinserted hnew hsucc htarget ih =>
    obtain ⟨hwf, hvalues, -⟩ := hG.keeps hF
    have hentry := hinserted.sameRuns base hwf htypes hnew hsucc htarget (s := s)
      (fun _ => by rw [hs]; exact Nat.zero_le _) hzero
    refine (ih (hinserted.newTypes htypes)).trans (fun s t u hst htu => ?_) hentry
    exact ⟨htu.pos_eq.trans hst.pos_eq, htu.mem_eq.trans hst.mem_eq, fun v hv =>
      (htu.regs_eq v (hvalues v hv)).trans (hst.regs_eq v hv)⟩

end Guarded

/-- A block ends with a conditional branch if it has one. -/
lemma endsWithCondBr_iff (hF : AssumeWellFormed typ F) {P : ℕ} :
    endsWithCondBr F P = true ↔ ∃ c t e j, F.inst? ⟨P, j⟩ = some (.condBr c t e) := by
  constructor
  · intro h
    unfold endsWithCondBr at h
    split at h
    next c t e hlast =>
      obtain ⟨is, hblock, hlast⟩ := Option.bind_eq_some_iff.mp hlast
      exact ⟨c, t, e, _, (inserted_insertBefore hblock hlast []).branch⟩
    next => cases h
  · rintro ⟨c, t, e, j, hj⟩
    obtain ⟨is, hblock, hj'⟩ := Option.bind_eq_some_iff.mp hj
    have hlt : j < is.length := (List.getElem?_eq_some_iff.mp hj').1
    have hlen : is.length = j + 1 := by
      by_contra hne
      have hnone := hF.last P j _ hj rfl (j + 1) (Nat.lt_succ_self j)
      rw [SSAFunction.inst?_of_block hblock] at hnone
      have := List.getElem?_eq_none_iff.mp hnone
      omega
    have hlast : is.getLast? = some (.condBr c t e) := by
      rw [List.getLast?_eq_getElem?, hlen, Nat.add_sub_cancel]
      exact hj'
    rw [endsWithCondBr, hblock, Option.bind_some, hlast]

/-- The guards do not change which blocks end with a conditional branch. -/
lemma Guarded.endsWithCondBr_eq (h : Guarded DL typ argType F guarded G)
    (hF : AssumeWellFormed typ F) : endsWithCondBr G = endsWithCondBr F := by
  obtain ⟨hG, -, -, hbranches⟩ := h.keeps hF
  funext P
  rw [Bool.eq_iff_iff, endsWithCondBr_iff hG, endsWithCondBr_iff hF]
  exact exists_congr fun c => exists_congr fun t => exists_congr fun e => hbranches P c t e

/-- The assume functions have room for a condition. -/
abbrev FitsArguments (DL : DataLayout) (argType : AssumeFunction → LLVMType) : Prop :=
  ∀ f, DL.getTypeAllocSize (.integer 1) ≤ DL.getTypeAllocSize (argType f)

/-- **One predecessor**: it gets a guard if it ends with a conditional branch. -/
lemma propagateAssumeToPred_spec (hG : AssumeWellFormed typ G) (hfits : FitsArguments DL argType)
    (f : AssumeFunction) (bb P : ℕ) :
    (endsWithCondBr G P = false →
      propagateAssumeToPred DL typ argType f bb G P = some (false, G)) ∧
    (endsWithCondBr G P = true → ∃ G' T new c t e,
      propagateAssumeToPred DL typ argType f bb G P = some (true, G') ∧
        Inserted G G' P T new c t e ∧
        newInsts DL typ argType f c e bb ⟨P, T⟩ = some new) := by
  unfold endsWithCondBr propagateAssumeToPred
  split
  next c t e hlast =>
    refine ⟨nofun, fun _ => ?_⟩
    obtain ⟨is, hblock, hlast⟩ := Option.bind_eq_some_iff.mp hlast
    have hbranch := (inserted_insertBefore hblock hlast []).branch
    have hcond := hG.conds _ _ _ _ hbranch
    obtain ⟨new, hnew⟩ : ∃ new : List (SSAInst (AssumeOp Op)),
        newInsts DL typ argType f c e bb ⟨P, is.length - 1⟩ = some new := by
      unfold newInsts
      dsimp only
      split
      · exact ⟨_, rfl⟩
      · rw [if_neg (by rw [hcond]; exact not_lt.mpr (hfits f))]
        exact ⟨_, rfl⟩
    refine ⟨_, _, new, c, t, e, ?_, inserted_insertBefore hblock hlast new, hnew⟩
    rw [hblock, Option.map_some, Option.getD_some, hnew, Option.map_some]
  next hne =>
    refine ⟨fun _ => ?_, nofun⟩
    rfl

/-- **All predecessors**: the fold stops at the first one that gets a guard. -/
lemma propagateAssume_spec (hG : AssumeWellFormed typ G) (hfits : FitsArguments DL argType)
    (preds : ℕ → List ℕ) (f : AssumeFunction) (bb : ℕ) :
    (firstCondPred preds G bb = none →
      propagateAssume DL typ argType preds f bb G = some (false, G)) ∧
    ∀ P, firstCondPred preds G bb = some P → ∃ G' T new c t e,
      propagateAssume DL typ argType preds f bb G = some (true, G') ∧
        Inserted G G' P T new c t e ∧
        newInsts DL typ argType f c e bb ⟨P, T⟩ = some new := by
  unfold firstCondPred propagateAssume
  have hdone : ∀ (l : List ℕ) (G' : SSAFunction (AssumeOp Op)), l.foldlM (fun r p =>
      if r.1 then some r else propagateAssumeToPred DL typ argType f bb r.2 p) (true, G')
        = some (true, G') := by
    intro l G'
    induction l with
    | nil => rfl
    | cons p l ih =>
      rw [List.foldlM_cons]
      exact ih
  induction preds bb with
  | nil => exact ⟨fun _ => rfl, nofun⟩
  | cons p l ih =>
    obtain ⟨hfalse, htrue⟩ := propagateAssumeToPred_spec hG hfits f bb p
    rw [List.foldlM_cons, List.find?_cons]
    cases hp : endsWithCondBr G p with
    | false =>
      simp only [Bool.false_eq_true, if_false, hfalse hp]
      exact ih
    | true =>
      obtain ⟨G', T, new, c, t, e, hrun, hinserted⟩ := htrue hp
      refine ⟨nofun, fun P hP => ?_⟩
      obtain rfl := Option.some.inj hP
      refine ⟨G', T, new, c, t, e, ?_, hinserted⟩
      simp only [Bool.false_eq_true, if_false, hrun]
      exact hdone l G'

/-- A block with a conditional branch is a predecessor of the targets of the branch only. -/
lemma AssumeWellFormed.target_of_mem_preds (hF : AssumeWellFormed typ F) {preds : ℕ → List ℕ}
    (hpreds : F.ListsPredecessors preds) {P B T t e : ℕ} {c : IRValue}
    (hbranch : F.inst? ⟨P, T⟩ = some (.condBr c t e)) (hP : P ∈ preds B) : B = t ∨ B = e := by
  obtain ⟨j, i, hi, hterm, hB⟩ := (hpreds B P).mp hP
  -- a block has one terminator
  obtain rfl : j = T := by
    obtain hlt | heq | hlt := Nat.lt_trichotomy j T
    · rw [hF.last P j i hi hterm T hlt] at hbranch
      cases hbranch
    · exact heq
    · rw [hF.last P T _ hbranch rfl j hlt] at hi
      cases hi
  obtain rfl := Option.some.inj (hi.symm.trans hbranch)
  exact (List.mem_cons.mp hB).imp_right List.mem_singleton.mp

variable (DL typ argType F) in
/-- What holds after the loop has visited some blocks: there are guards at the first predecessors
with conditional branches of those that start with `assume(false)`. -/
structure PropagatedFrom (preds : ℕ → List ℕ) (done : List ℕ) (guarded : List (ℕ × ℕ))
    (G : SSAFunction (AssumeOp Op)) : Prop where
  guards : Guarded DL typ argType F guarded G
  first : ∀ e ∈ guarded, firstCondPred preds F e.2 = some e.1
  all : ∀ B ∈ done, (startsWithAssumeFalse F B).isSome → ∀ P, firstCondPred preds F B = some P →
    (P, B) ∈ guarded

namespace PropagatedFrom

variable {preds : ℕ → List ℕ} {done : List ℕ} {B P : ℕ}

/-- A block that gets no guard. -/
lemma skip (h : PropagatedFrom DL typ argType F preds done guarded G)
    (hB : ∀ P, firstCondPred preds F B = some P → ¬(startsWithAssumeFalse F B).isSome) :
    PropagatedFrom DL typ argType F preds (done ++ [B]) guarded G := by
  refine ⟨h.guards, h.first, fun C hC hstart P hP => ?_⟩
  obtain hC | hC := List.mem_append.mp hC
  · exact h.all C hC hstart P hP
  · obtain rfl := List.mem_singleton.mp hC
    exact absurd hstart (hB P hP)

/-- A block that gets a guard. -/
lemma guard (h : PropagatedFrom DL typ argType F preds done guarded G)
    {G' : SSAFunction (AssumeOp Op)} (hguards : Guarded DL typ argType F ((P, B) :: guarded) G')
    (hP : firstCondPred preds F B = some P) :
    PropagatedFrom DL typ argType F preds (done ++ [B]) ((P, B) :: guarded) G' := by
  refine ⟨hguards, fun e he => ?_, fun C hC hstart Q hQ => ?_⟩
  · obtain rfl | he := List.mem_cons.mp he
    · exact hP
    · exact h.first e he
  · obtain hC | hC := List.mem_append.mp hC
    · exact List.mem_cons_of_mem _ (h.all C hC hstart Q hQ)
    · obtain rfl := List.mem_singleton.mp hC
      obtain rfl := Option.some.inj (hP.symm.trans hQ)
      exact List.mem_cons_self

/-- **One round** of the loop over the blocks. -/
lemma visit (hF : AssumeWellFormed typ F) (hfits : FitsArguments DL argType)
    (hpreds : F.ListsPredecessors preds) {r : Bool × SSAFunction (AssumeOp Op)}
    (h : PropagatedFrom DL typ argType F preds done guarded r.2) (B : ℕ) :
    ∃ r', propagateFrom DL typ argType preds r B = some r' ∧
      ∃ guarded', PropagatedFrom DL typ argType F preds (done ++ [B]) guarded' r'.2 := by
  have hG := (h.guards.keeps hF).1
  have hfirst : firstCondPred preds r.2 B = firstCondPred preds F B := by
    rw [firstCondPred, firstCondPred, h.guards.endsWithCondBr_eq hF]
  unfold propagateFrom
  cases hstart : startsWithAssumeFalse r.2 B with
  | none =>
    refine ⟨r, rfl, guarded, h.skip fun P _ hsome => ?_⟩
    obtain ⟨f, hf⟩ := Option.isSome_iff_exists.mp hsome
    rw [h.guards.startsWithAssumeFalse hF hf] at hstart
    cases hstart
  | some f =>
    obtain ⟨hnone, hsome⟩ := propagateAssume_spec hG hfits preds f B
    rw [hfirst] at hnone hsome
    cases hP : firstCondPred preds F B with
    | none =>
      refine ⟨(r.1 || false, r.2), by simp only [hnone hP, Option.map_some], guarded,
        h.skip fun P hP' => ?_⟩
      rw [hP] at hP'
      cases hP'
    | some P =>
      obtain ⟨G', T, new, c, t, e, hrun, hinserted, hnew⟩ := hsome P hP
      obtain ⟨T', hbranch⟩ := ((h.guards.keeps hF).2.2.2 P c t e).mp ⟨T, hinserted.branch⟩
      have htarget : B = t ∨ B = e :=
        hF.target_of_mem_preds hpreds hbranch (List.mem_of_find?_eq_some hP)
      exact ⟨(r.1 || true, G'), by simp only [hrun, Option.map_some], _,
        h.guard (.step h.guards hinserted hnew hstart htarget) hP⟩

end PropagatedFrom

/-- **The pass** puts guards at the first predecessors with conditional branches, and only there. -/
theorem propagateAssumes_guarded (hF : AssumeWellFormed typ F) (hfits : FitsArguments DL argType)
    {preds : ℕ → List ℕ} (hpreds : F.ListsPredecessors preds) :
    ∃ modified F' guarded, propagateAssumes DL typ argType preds F = some (modified, F') ∧
      Guarded DL typ argType F guarded F' ∧
      (∀ e ∈ guarded, firstCondPred preds F e.2 = some e.1) ∧
      ∀ B, (startsWithAssumeFalse F B).isSome → ∀ P, firstCondPred preds F B = some P →
        (P, B) ∈ guarded := by
  have hinitial : PropagatedFrom DL typ argType F preds [] [] F :=
    ⟨.refl, fun _ he => absurd he List.not_mem_nil, fun _ hB => absurd hB List.not_mem_nil⟩
  obtain ⟨⟨modified, F'⟩, hrun, guarded, hguarded⟩ := PartialRun.foldlM_total
    (f := propagateFrom DL typ argType preds) (List.range F.blocks.length)
    (fun done r => ∃ guarded, PropagatedFrom DL typ argType F preds done guarded r.2)
    (fun done B _ _ r hr => hr.elim fun _ h => h.visit hF hfits hpreds B)
    (s := (false, F)) ⟨[], hinitial⟩
  refine ⟨modified, F', guarded, hrun, hguarded.guards, hguarded.first,
    fun B hstart => hguarded.all B (List.mem_range.mpr ?_) hstart⟩
  obtain ⟨f, hf⟩ := Option.isSome_iff_exists.mp hstart
  obtain ⟨i, hi, -⟩ := Option.bind_eq_some_iff.mp hf
  obtain ⟨is, his, -⟩ := Option.bind_eq_some_iff.mp hi
  exact (List.getElem?_eq_some_iff.mp his).1

/-- Every branch to a block that starts with `assume(false)` and to another block is preceded by an
assume of the condition for the other block. -/
def CoversBranches (F F' : SSAFunction (AssumeOp Op)) : Prop :=
  ∀ B, (startsWithAssumeFalse F B).isSome → ∀ P, BranchesOn F P B → Covered F' P B

/-- From every initial state the executions that are not blocked are the same. -/
def SameExecutions (DL : DataLayout) (typ : IRValue → LLVMType) (μ : Type*)
    (F F' : SSAFunction (AssumeOp Op)) : Prop :=
  ∀ (base : Semantics Op μ) (s : SSAState DL typ μ), s.pos = SSAFunction.entry →
    ZeroConstants s.regs →
    System.SameRuns (·.mem) (SameState F) (F.system base) (F'.system base) s s

/-- **The propagation of assumes.**  The pass ends and the executions stay the same; it reaches all
branches exactly if each one is at the end of the first predecessor with a conditional branch, or
had its assume before. -/
theorem propagateAssumes_iff (μ : Type*) (hF : AssumeWellFormed typ F)
    (hfits : FitsArguments DL argType) {preds : ℕ → List ℕ}
    (hpreds : F.ListsPredecessors preds) :
    ∃ modified F', propagateAssumes DL typ argType preds F = some (modified, F') ∧
      (NewTypes typ F' → SameExecutions DL typ μ F F' ∧
        (CoversBranches F F' ∧ SameExecutions DL typ μ F F' ↔
          ∀ B, (startsWithAssumeFalse F B).isSome → ∀ P, BranchesOn F P B →
            firstCondPred preds F B = some P ∨ Covered F P B)) := by
  obtain ⟨modified, F', guarded, hrun, hguarded, hfirst, hall⟩ :=
    propagateAssumes_guarded hF hfits hpreds
  refine ⟨modified, F', hrun, fun htypes => ?_⟩
  have hsame : SameExecutions DL typ μ F F' := fun base s hs hzero =>
    hguarded.sameRuns hF htypes base hs hzero
  refine ⟨hsame, ⟨fun h B hstart P hbranch => ?_, fun h => ⟨fun B hstart P hbranch => ?_, hsame⟩⟩⟩
  · obtain hcovered | hmem := (hguarded.covered_iff hF htypes hbranch).mp (h.1 B hstart P hbranch)
    · exact .inr hcovered
    · exact .inl (hfirst _ hmem)
  · refine (hguarded.covered_iff hF htypes hbranch).mpr ?_
    obtain hP | hcovered := h B hstart P hbranch
    · exact .inr (hall B hstart P hP)
    · exact .inl hcovered

end Whole

/-! ## Two predecessors -/

/-- Two blocks that end with conditional branches; the first one goes to the block 3, which starts
with `assume(false)`, and the second one to `dest`. -/
def twoBranches (dest : ℕ) : SSAFunction (AssumeOp Unit) :=
  ⟨[[.condBr (.argument 0) 1 2], [.condBr (.argument 1) 3 4], [.condBr (.argument 2) dest 4],
    [.other (.assume ⟨"__VERIFIER_assume", rfl⟩) [.constant (.int 1 0)],
      .terminator (.rest ()) [] []],
    [.terminator (.rest ()) [] []]]⟩

/-- The order of its predecessors. -/
def twoBranchesPreds (dest block : ℕ) : List ℕ :=
  (List.range 3).filter fun p =>
    ((twoBranches dest).inst? ⟨p, 0⟩).any fun i => decide (block ∈ i.targets)

lemma inst?_twoBranches {dest : ℕ} {p : InstPos} {i : SSAInst (AssumeOp Unit)}
    (h : (twoBranches dest).inst? p = some i) :
    (p, i) ∈ [((⟨0, 0⟩ : InstPos), SSAInst.condBr (.argument 0) 1 2),
      (⟨1, 0⟩, .condBr (.argument 1) 3 4), (⟨2, 0⟩, .condBr (.argument 2) dest 4),
      (⟨3, 0⟩, .other (.assume ⟨"__VERIFIER_assume", rfl⟩) [.constant (.int 1 0)]),
      (⟨3, 1⟩, .terminator (.rest ()) [] []), (⟨4, 0⟩, .terminator (.rest ()) [] [])] := by
  obtain ⟨b, k⟩ := p
  match b, k with
  | 0, 0 | 1, 0 | 2, 0 | 3, 0 | 3, 1 | 4, 0 =>
    obtain rfl := Option.some.inj h
    simp
  | 0, k + 1 | 1, k + 1 | 2, k + 1 | 3, k + 2 | 4, k + 1 | b + 5, k => cases h

lemma twoBranches_wellFormed (dest : ℕ) :
    AssumeWellFormed (fun _ => .integer 1) (twoBranches dest) where
  values p i hi o ho := by
    have hcases := inst?_twoBranches hi
    simp only [List.mem_cons, Prod.mk.injEq, List.not_mem_nil, or_false] at hcases
    obtain ⟨-, rfl⟩ | ⟨-, rfl⟩ | ⟨-, rfl⟩ | ⟨-, rfl⟩ | ⟨-, rfl⟩ | ⟨-, rfl⟩ := hcases <;>
      simp [SSAInst.operands] at ho <;> subst ho <;> exact nofun
  not_self p i hi := by
    have hcases := inst?_twoBranches hi
    simp only [List.mem_cons, Prod.mk.injEq, List.not_mem_nil, or_false] at hcases
    obtain ⟨-, rfl⟩ | ⟨-, rfl⟩ | ⟨-, rfl⟩ | ⟨-, rfl⟩ | ⟨-, rfl⟩ | ⟨-, rfl⟩ := hcases <;>
      simp [SSAInst.operands]
  incoming p incoming hi := by simpa using inst?_twoBranches hi
  conds _ _ _ _ _ := rfl
  last b j i hi hterm k hk := by
    have hcases := inst?_twoBranches hi
    simp only [List.mem_cons, Prod.mk.injEq, InstPos.mk.injEq, List.not_mem_nil, or_false] at hcases
    obtain ⟨⟨rfl, rfl⟩, -⟩ | ⟨⟨rfl, rfl⟩, -⟩ | ⟨⟨rfl, rfl⟩, -⟩ | ⟨-, rfl⟩ | ⟨⟨rfl, rfl⟩, -⟩ |
      ⟨⟨rfl, rfl⟩, -⟩ := hcases
    · obtain ⟨k, rfl⟩ := Nat.exists_eq_add_of_lt hk
      rfl
    · obtain ⟨k, rfl⟩ := Nat.exists_eq_add_of_lt hk
      rfl
    · obtain ⟨k, rfl⟩ := Nat.exists_eq_add_of_lt hk
      rfl
    · cases hterm
    · obtain ⟨k, rfl⟩ := Nat.exists_eq_add_of_le hk
      rw [Nat.add_comm]
      rfl
    · obtain ⟨k, rfl⟩ := Nat.exists_eq_add_of_lt hk
      rfl

lemma twoBranches_lists (dest : ℕ) :
    (twoBranches dest).ListsPredecessors (twoBranchesPreds dest) := by
  intro b p
  rw [twoBranchesPreds, List.mem_filter, List.mem_range, Option.any_eq_true]
  constructor
  · rintro ⟨hp, i, hi, hb⟩
    have hcases := inst?_twoBranches hi
    refine ⟨0, i, hi, ?_, of_decide_eq_true hb⟩
    simp only [List.mem_cons, Prod.mk.injEq, InstPos.mk.injEq, List.not_mem_nil, or_false] at hcases
    obtain ⟨-, rfl⟩ | ⟨-, rfl⟩ | ⟨-, rfl⟩ | ⟨⟨rfl, -⟩, -⟩ | ⟨-, rfl⟩ | ⟨-, rfl⟩ := hcases
    · rfl
    · rfl
    · rfl
    · omega
    · rfl
    · rfl
  · rintro ⟨j, i, hi, -, hb⟩
    have hcases := inst?_twoBranches hi
    simp only [List.mem_cons, Prod.mk.injEq, InstPos.mk.injEq, List.not_mem_nil, or_false] at hcases
    obtain ⟨⟨rfl, rfl⟩, -⟩ | ⟨⟨rfl, rfl⟩, -⟩ | ⟨⟨rfl, rfl⟩, -⟩ | ⟨-, rfl⟩ | ⟨-, rfl⟩ | ⟨-, rfl⟩ :=
      hcases
    · exact ⟨by decide, i, hi, decide_eq_true hb⟩
    · exact ⟨by decide, i, hi, decide_eq_true hb⟩
    · exact ⟨by decide, i, hi, decide_eq_true hb⟩
    · cases hb
    · cases hb
    · cases hb

lemma startsWithAssumeFalse_twoBranches {dest B : ℕ}
    (h : (startsWithAssumeFalse (twoBranches dest) B).isSome) : B = 3 := by
  obtain ⟨f, hf⟩ := Option.isSome_iff_exists.mp h
  obtain ⟨i, hi, hfalse⟩ := Option.bind_eq_some_iff.mp hf
  have hcases := inst?_twoBranches hi
  simp only [List.mem_cons, Prod.mk.injEq, InstPos.mk.injEq, List.not_mem_nil, or_false] at hcases
  obtain ⟨-, rfl⟩ | ⟨-, rfl⟩ | ⟨-, rfl⟩ | ⟨⟨hB, -⟩, -⟩ | ⟨-, rfl⟩ | ⟨-, rfl⟩ := hcases
  · cases hfalse
  · cases hfalse
  · cases hfalse
  · exact hB
  · cases hfalse
  · cases hfalse

/-- The second branch does not go to the block 3, and the pass reaches all branches that do. -/
theorem propagateAssumes_oneBranch : ∃ modified F',
    propagateAssumes .unpadded (fun _ => .integer 1) (fun _ => .integer 1) (twoBranchesPreds 4)
      (twoBranches 4) = some (modified, F') ∧
    CoversBranches (twoBranches 4) F' ∧
      SameExecutions .unpadded (fun _ => .integer 1) ℕ (twoBranches 4) F' := by
  obtain ⟨modified, F', hrun, hF'⟩ := propagateAssumes_iff ℕ (twoBranches_wellFormed 4)
    (fun _ => le_refl (DataLayout.unpadded.getTypeAllocSize (.integer 1))) (twoBranches_lists 4)
  refine ⟨modified, F', hrun, (hF' ⟨fun p o _ => rfl, fun p op o hi => ?_⟩).2.mpr
    fun B hB P hP => .inl ?_⟩
  · -- nothing is widened
    have hF : F' = ⟨[[.condBr (.argument 0) 1 2],
        [.other .not [.argument 1],
          .other (.assume ⟨"__VERIFIER_assume", rfl⟩) [.inst ⟨1, 0⟩], .condBr (.argument 1) 3 4],
        [.condBr (.argument 2) 4 4],
        [.other (.assume ⟨"__VERIFIER_assume", rfl⟩) [.constant (.int 1 0)],
          .terminator (.rest ()) [] []],
        [.terminator (.rest ()) [] []]]⟩ :=
      (Prod.mk.inj (Option.some.inj (hrun.symm.trans rfl))).2
    subst hF
    obtain ⟨b, k⟩ := p
    match b, k with
    | 0, 0 | 1, 0 | 1, 1 | 1, 2 | 2, 0 | 3, 0 | 3, 1 | 4, 0 => cases hi
    | 0, k + 1 | 1, k + 3 | 2, k + 1 | 3, k + 2 | 4, k + 1 | b + 5, k => cases hi
  · obtain rfl := startsWithAssumeFalse_twoBranches hB
    obtain ⟨T, c, t, e, hi, hsucc, hne⟩ := hP
    have hcases := inst?_twoBranches hi
    simp only [List.mem_cons, Prod.mk.injEq, InstPos.mk.injEq, SSAInst.condBr.injEq,
      List.not_mem_nil, or_false] at hcases
    obtain ⟨-, -, rfl, rfl⟩ | ⟨⟨rfl, -⟩, -⟩ | ⟨-, -, rfl, rfl⟩ | ⟨-, h⟩ | ⟨-, h⟩ | ⟨-, h⟩ := hcases
    · omega
    · rfl
    · exact absurd rfl hne
    · cases h
    · cases h
    · cases h

/-- The second branch goes to the block 3 as well, and no assume is put before it. -/
theorem not_coversBranches_twoBranches : ∃ F',
    propagateAssumes .unpadded (fun _ => .integer 1) (fun _ => .integer 1) (twoBranchesPreds 3)
      (twoBranches 3) = some (true, F') ∧
    AssumeWellFormed (fun _ => .integer 1) (twoBranches 3) ∧
    (twoBranches 3).ListsPredecessors (twoBranchesPreds 3) ∧
    ¬CoversBranches (twoBranches 3) F' := by
  refine ⟨_, rfl, twoBranches_wellFormed 3, twoBranches_lists 3, fun h => ?_⟩
  obtain ⟨T, c, t, e, hbranch, j, hj, -⟩ := h 3 rfl 2 ⟨0, _, _, _, rfl, .inl rfl, by decide⟩
  -- the branch is still the first instruction of its block
  obtain _ | T := T
  · exact absurd hj (Nat.not_lt_zero j)
  · cases hbranch

end GenMC
