import GenMC.Lib.PartialRun
import GenMC.Static.OperandReplacement

/-!
# Redundant casts

`EliminateRedundantInstPass` looks for casts `A → B → A` and replaces the second one by the operand
of the first one.  It compares the sizes of `A` and `B` in memory, in bytes.  A pair returns its
operand if and only if `B` has at least as many bits as `A` (`CastPair.returns_iff`), and types of
different widths can have the same size in memory.

If the pairs return their operands, a replacement changes no run of the function: wherever the
second cast is an operand, it dominates the use, and its register and the operand of the first cast
have the same value.
-/

namespace GenMC

/-- Casts `A → B → A`. -/
structure CastPair where
  /-- The cast `A → B`. -/
  first : CastOps
  /-- The cast `B → A`. -/
  second : CastOps
  /-- The type `A`. -/
  outer : LLVMType
  /-- The type `B`. -/
  middle : LLVMType
deriving DecidableEq

namespace CastPair

/-- Both casts are valid. -/
def Valid (p : CastPair) : Prop :=
  p.first.castIsValid p.outer p.middle = true ∧ p.second.castIsValid p.middle p.outer = true

/-- The value of the pair. -/
def apply (DL : DataLayout) (p : CastPair) (v : BitVec (DL.getTypeSizeInBits p.outer)) :
    BitVec (DL.getTypeSizeInBits p.outer) :=
  p.second.apply DL p.middle p.outer (p.first.apply DL p.outer p.middle v)

/-- The pair returns its operand. -/
def Returns (DL : DataLayout) (p : CastPair) : Prop := ∀ v, p.apply DL v = v

end CastPair

/-- `isRedundantCastPair`, for the source and the target of the first cast and the target of the
second one. -/
def isRedundantCastPair (DL : DataLayout) (srcTy destTy destTy' : LLVMType) : Bool :=
  decide (srcTy = destTy') && decide (DL.getTypeAllocSize destTy ≥ DL.getTypeAllocSize srcTy)

/-! ## The value of a pair -/

section Casts

variable {DL : DataLayout} {op : CastOps} {source dest : LLVMType}

/-- A valid cast to a type that is not wider keeps the low bits. -/
lemma CastOps.apply_of_le (hvalid : op.castIsValid source dest = true)
    (hle : DL.getTypeSizeInBits dest ≤ DL.getTypeSizeInBits source)
    (v : BitVec (DL.getTypeSizeInBits source)) : op.apply DL source dest v = v.setWidth _ := by
  cases op with
  | sext =>
    cases source <;> cases dest <;> simp only [castIsValid, Bool.false_eq_true] at hvalid
    simp only [decide_eq_true_eq] at hvalid
    exact absurd hle (Nat.not_le.mpr hvalid)
  | _ => rfl

/-- A cast to a type that is not narrower can be undone. -/
lemma CastOps.setWidth_apply_of_le
    (hle : DL.getTypeSizeInBits source ≤ DL.getTypeSizeInBits dest)
    (v : BitVec (DL.getTypeSizeInBits source)) :
    (op.apply DL source dest v).setWidth (DL.getTypeSizeInBits source) = v := by
  cases op with
  | sext =>
    refine BitVec.eq_of_getLsbD_eq fun i hi => ?_
    simp only [apply, BitVec.getLsbD_setWidth, BitVec.getLsbD_signExtend, hi, hi.trans_le hle,
      decide_true, Bool.true_and, if_true]
  | _ =>
    refine BitVec.eq_of_getLsbD_eq fun i hi => ?_
    simp only [apply, BitVec.getLsbD_setWidth, hi, hi.trans_le hle, decide_true, Bool.true_and]

/-- All casts keep 0. -/
lemma CastOps.apply_zero : op.apply DL source dest 0#_ = 0#_ := by
  cases op with
  | sext =>
    refine BitVec.eq_of_getLsbD_eq fun i hi => ?_
    rw [apply, BitVec.getLsbD_signExtend]
    simp [BitVec.msb_zero]
  | _ => exact BitVec.setWidth_zero _ _

end Casts

/-- **A pair returns its operand if and only if the type between the casts has at least as many
bits.**  Otherwise the first cast loses the lowest bit that does not fit. -/
lemma CastPair.returns_iff {DL : DataLayout} {p : CastPair} (hp : p.Valid) :
    p.Returns DL ↔ DL.getTypeSizeInBits p.outer ≤ DL.getTypeSizeInBits p.middle := by
  constructor
  · intro h
    by_contra hlt
    rw [Nat.not_le] at hlt
    have hbit := h (BitVec.twoPow _ (DL.getTypeSizeInBits p.middle))
    have hfirst : p.first.apply DL p.outer p.middle
        (BitVec.twoPow _ (DL.getTypeSizeInBits p.middle)) = 0#_ := by
      rw [CastOps.apply_of_le hp.1 hlt.le]
      refine BitVec.eq_of_getLsbD_eq fun i hi => ?_
      rw [BitVec.getLsbD_setWidth, BitVec.getLsbD_twoPow]
      simp [hi.ne']
    rw [CastPair.apply, hfirst, CastOps.apply_zero] at hbit
    have hone := congrArg (BitVec.getLsbD · (DL.getTypeSizeInBits p.middle)) hbit
    simp only [BitVec.getLsbD_zero, BitVec.getLsbD_twoPow, hlt, decide_true, Bool.and_self] at hone
    cases hone
  · intro hle v
    rw [CastPair.apply, CastOps.apply_of_le hp.2 hle]
    exact CastOps.setWidth_apply_of_le hle v

/-! ## The pass -/

namespace SSAFunction

variable {Op μ : Type*} {DL : DataLayout} {typ : IRValue → LLVMType}

/-- The state of the pass. -/
structure Elimination (Op : Type*) where
  /-- The function. -/
  fn : SSAFunction Op
  /-- The casts that are erased at the end. -/
  deleted : List InstPos
  /-- The pairs that have been found. -/
  pairs : List CastPair

/-- The body of the loop over the instructions. -/
def eliminateAt (DL : DataLayout) (typ : IRValue → LLVMType) (e : Elimination Op) (p : InstPos) :
    Elimination Op :=
  if p ∈ e.deleted then e
  else
    match e.fn.inst? p with
    | some (.cast op (.inst q)) =>
      match e.fn.inst? q with
      | some (.cast op' w) =>
        if isRedundantCastPair DL (typ w) (typ (.inst q)) (typ (.inst p)) then
          { fn := e.fn.replaceAllUsesWith p w
            deleted := p :: e.deleted
            pairs := ⟨op', op, typ w, typ (.inst q)⟩ :: e.pairs }
        else e
      | _ => e
    | _ => e

/-- `eliminateRedundantInst`, before the deleted casts are erased. -/
def eliminateRedundantInst (DL : DataLayout) (typ : IRValue → LLVMType) (F : SSAFunction Op) :
    Elimination Op :=
  F.layout.foldl (eliminateAt DL typ) ⟨F, [], []⟩

/-! ## What the pass keeps -/

/-- The function at a point of the pass; if the pairs that have been found return their operands, it
has the runs of the given one. -/
structure Eliminated (DL : DataLayout) (typ : IRValue → LLVMType) (μ : Type*)
    (F : SSAFunction Op) (e : Elimination Op) : Prop where
  /-- The function is well-formed. -/
  wellFormed : e.fn.WellFormed typ
  /-- The pairs are pairs of valid casts. -/
  valid : ∀ p ∈ e.pairs, p.Valid
  /-- The runs are the same. -/
  runs : (∀ p ∈ e.pairs, p.Returns DL) → ∀ (sem : Semantics Op μ) (n : ℕ) (s₀ : SSAState DL typ μ),
    s₀.pos = entry → e.fn.run sem n s₀ = F.run sem n s₀

/-- A pair that returns its operand: the second cast may be replaced by this operand. -/
lemma run_replaceCast {F : SSAFunction Op} (hF : F.WellFormed typ) {p q : InstPos} {w : IRValue}
    {op op' : CastOps} (hp : F.inst? p = some (.cast op (.inst q)))
    (hq : F.inst? q = some (.cast op' w)) (htyp : typ w = typ (.inst p))
    (hreturns : (CastPair.mk op' op (typ w) (typ (.inst q))).Returns DL) {sem : Semantics Op μ}
    {s₀ : SSAState DL typ μ} (hs₀ : s₀.pos = entry) (n : ℕ) :
    (F.replaceAllUsesWith p w).run sem n s₀ = F.run sem n s₀ := by
  have hqp : F.SDom q p := hF.dominated p _ hp q List.mem_cons_self
  have hbefore : ∀ x, w = .inst x → F.SDom x p := fun x hx =>
    (hF.dominated q _ hq x (hx ▸ List.mem_cons_self)).trans hqp
  refine run_replaceAllUsesWith hF ⟨htyp, hbefore⟩ (fun n s hs hdom => ?_) n
  have hsecond : s.regs (.inst p) = op.apply DL _ _ (s.regs (.inst q)) :=
    cast_of_dominated hF hp hs₀ hs hdom
  have hfirst : s.regs (.inst q) = op'.apply DL _ _ (s.regs w) :=
    cast_of_dominated hF hq hs₀ hs (hqp.trans hdom)
  have hpair : op.apply DL (typ (.inst q)) (typ w) (op'.apply DL _ _ (s.regs w)) = s.regs w :=
    hreturns (s.regs w)
  have hcongr : ∀ t, typ w = t → (op.apply DL (typ (.inst q)) (typ w) (s.regs (.inst q))).toNat =
      (op.apply DL (typ (.inst q)) t (s.regs (.inst q))).toNat := by
    rintro t rfl
    rfl
  rw [hsecond, ← hcongr _ htyp, hfirst, hpair]

/-- One instruction. -/
lemma Eliminated.step {F : SSAFunction Op} {e : Elimination Op}
    (h : Eliminated DL typ μ F e) (p : InstPos) :
    Eliminated DL typ μ F (eliminateAt DL typ e p) := by
  unfold eliminateAt
  split
  · exact h
  split
  next op q hp =>
    split
    next op' w hq =>
      split
      next hredundant =>
        have htyp : typ w = typ (.inst p) :=
          of_decide_eq_true (Bool.and_eq_true_iff.mp hredundant).1
        have hqp : e.fn.SDom q p := h.wellFormed.dominated p _ hp q List.mem_cons_self
        have hbefore : ∀ x, w = .inst x → e.fn.SDom x p := fun x hx =>
          (h.wellFormed.dominated q _ hq x (hx ▸ List.mem_cons_self)).trans hqp
        constructor
        · exact h.wellFormed.replaceAllUsesWith ⟨htyp, hbefore⟩
        · rintro pair (_ | ⟨_, hpair⟩)
          · refine ⟨h.wellFormed.casts q op' w hq, ?_⟩
            rw [htyp]
            exact h.wellFormed.casts p op _ hp
          · exact h.valid pair hpair
        · intro hreturns sem n s₀ hs₀
          rw [run_replaceCast h.wellFormed hp hq htyp (hreturns _ List.mem_cons_self) hs₀]
          exact h.runs (fun pair hpair => hreturns pair (List.mem_cons_of_mem _ hpair)) sem n s₀ hs₀
      next => exact h
    next => exact h
  next => exact h

/-- The pass keeps the values of all instructions: the pairs that it finds return their operands,
and every run is the same. -/
structure PreservesValues (DL : DataLayout) (typ : IRValue → LLVMType) (μ : Type*)
    (F : SSAFunction Op) : Prop where
  /-- A pair returns its operand. -/
  pairs : ∀ p ∈ (eliminateRedundantInst DL typ F).pairs, p.Returns DL
  /-- The states of a run are the same, with the values of all registers. -/
  runs : ∀ (sem : Semantics Op μ) (n : ℕ) (s₀ : SSAState DL typ μ), s₀.pos = entry →
    (eliminateRedundantInst DL typ F).fn.run sem n s₀ = F.run sem n s₀

lemma eliminated_eliminateRedundantInst {F : SSAFunction Op} (hF : F.WellFormed typ) :
    Eliminated DL typ μ F (eliminateRedundantInst DL typ F) := by
  have hstart : Eliminated DL typ μ F ⟨F, [], []⟩ :=
    ⟨hF, nofun, fun _ _ _ _ _ => rfl⟩
  unfold eliminateRedundantInst
  generalize F.layout = layout
  generalize (⟨F, [], []⟩ : Elimination Op) = e at hstart
  induction layout generalizing e with
  | nil => exact hstart
  | cons p layout ih => exact ih _ (hstart.step p)

/-- **Redundant casts.**  The pass keeps the values of all instructions if and only if the type
between the casts of each pair that it finds has at least as many bits as the other one. -/
theorem eliminateRedundantInst_preserves_iff (F : SSAFunction Op) (hF : F.WellFormed typ) :
    PreservesValues DL typ μ F ↔ ∀ p ∈ (eliminateRedundantInst DL typ F).pairs,
      DL.getTypeSizeInBits p.outer ≤ DL.getTypeSizeInBits p.middle := by
  have helim : Eliminated DL typ μ F (eliminateRedundantInst DL typ F) :=
    eliminated_eliminateRedundantInst hF
  have hpairs : (∀ p ∈ (eliminateRedundantInst DL typ F).pairs, p.Returns DL) ↔
      ∀ p ∈ (eliminateRedundantInst DL typ F).pairs,
        DL.getTypeSizeInBits p.outer ≤ DL.getTypeSizeInBits p.middle :=
    forall₂_congr fun p hp => CastPair.returns_iff (helim.valid p hp)
  rw [← hpairs]
  exact ⟨fun h => h.pairs, fun h => ⟨h, helim.runs h⟩⟩

/-! ## A pair of casts -/

/-- Two casts of an argument, and an operation on the result. -/
def castTwice (op op' : CastOps) : SSAFunction Unit :=
  ⟨[[.cast op (.argument 0), .cast op' (.inst ⟨0, 0⟩), .other () [.inst ⟨0, 1⟩],
    .terminator () [] []]]⟩

/-- The types of `castTwice`: bytes, and an integer between the casts. -/
def castTwiceTypes (width : ℕ) (v : IRValue) : LLVMType :=
  if v = .inst ⟨0, 0⟩ then .integer width else .integer 8

lemma castTwice_wellFormed {op op' : CastOps} {width : ℕ}
    (h : op.castIsValid (.integer 8) (.integer width) = true)
    (h' : op'.castIsValid (.integer width) (.integer 8) = true) :
    (castTwice op op').WellFormed (castTwiceTypes width) := by
  have hinst : ∀ p i, (castTwice op op').inst? p = some i →
      (p = ⟨0, 0⟩ ∧ i = .cast op (.argument 0)) ∨ (p = ⟨0, 1⟩ ∧ i = .cast op' (.inst ⟨0, 0⟩)) ∨
        (p = ⟨0, 2⟩ ∧ i = .other () [.inst ⟨0, 1⟩]) ∨ (p = ⟨0, 3⟩ ∧ i = .terminator () [] []) := by
    rintro ⟨b, k⟩ i hi
    match b, k with
    | 0, 0 => exact Or.inl ⟨rfl, (Option.some.inj hi).symm⟩
    | 0, 1 => exact Or.inr (Or.inl ⟨rfl, (Option.some.inj hi).symm⟩)
    | 0, 2 => exact Or.inr (Or.inr (Or.inl ⟨rfl, (Option.some.inj hi).symm⟩))
    | 0, 3 => exact Or.inr (Or.inr (Or.inr ⟨rfl, (Option.some.inj hi).symm⟩))
    | 0, k + 4 => cases hi
    | b + 1, k => cases hi
  constructor
  · intro p i hi q hq
    obtain ⟨rfl, rfl⟩ | ⟨rfl, rfl⟩ | ⟨rfl, rfl⟩ | ⟨rfl, rfl⟩ := hinst p i hi
    · cases List.mem_singleton.mp hq
    · obtain rfl := IRValue.inst.inj (List.mem_singleton.mp hq)
      exact sDom_of_lt (by decide)
    · obtain rfl := IRValue.inst.inj (List.mem_singleton.mp hq)
      exact sDom_of_lt (by decide)
    · cases hq
  · intro p i hi t ht
    obtain ⟨rfl, rfl⟩ | ⟨rfl, rfl⟩ | ⟨rfl, rfl⟩ | ⟨rfl, rfl⟩ := hinst p i hi <;> cases ht
  · intro p c o hi
    obtain ⟨rfl, hc⟩ | ⟨rfl, hc⟩ | ⟨rfl, hc⟩ | ⟨rfl, hc⟩ := hinst p _ hi
    · obtain ⟨rfl, rfl⟩ := SSAInst.cast.inj hc
      exact h
    · obtain ⟨rfl, rfl⟩ := SSAInst.cast.inj hc
      exact h'
    · cases hc
    · cases hc

/-- A byte is extended to 32 bits and truncated. -/
theorem eliminateRedundantInst_preserves_extended :
    PreservesValues .unpadded (castTwiceTypes 32) Unit (castTwice .zext .trunc) :=
  (eliminateRedundantInst_preserves_iff (castTwice .zext .trunc)
    (castTwice_wellFormed (by decide) (by decide))).mpr (by decide)

/-- The operation returns its operand. -/
def copySemantics : Semantics Unit Unit where
  exec _ operands m := some (operands.headD 0, m)
  choose _ _ _ := none
  cmpXchg _ _ _ _ _ := none
  eq_of_success h := nomatch h

/-- A byte is truncated to one bit and extended: both types take a byte in memory, so that the pair
counts as redundant, and the operation gets 2 instead of 0. -/
theorem eliminateRedundantInst_narrow :
    let s₀ : SSAState .unpadded (castTwiceTypes 1) Unit :=
      ⟨⟨0, 0⟩, fun v => if v = .argument 0 then 2#_ else 0#_, ()⟩
    let F := castTwice .trunc .zext
    isRedundantCastPair .unpadded (.integer 8) (.integer 1) (.integer 8) = true ∧
      (F.run copySemantics 3 s₀).map (fun s => (s.regs (.inst ⟨0, 2⟩)).toNat) = some 0 ∧
      ((eliminateRedundantInst .unpadded (castTwiceTypes 1) F).fn.run copySemantics 3 s₀).map
        (fun s => (s.regs (.inst ⟨0, 2⟩)).toNat) = some 2 ∧
      ¬PreservesValues .unpadded (castTwiceTypes 1) Unit F := by
  refine ⟨by decide, by decide, by decide, fun h => ?_⟩
  have hpair := h.pairs ⟨.trunc, .zext, .integer 8, .integer 1⟩ (by decide) 2#8
  have hbits : (0 : ℕ) = 2 := congrArg BitVec.toNat hpair
  cases hbits

end SSAFunction

end GenMC
