import GenMC.Support.SExprArithmetic
import Mathlib.Data.Finset.Basic

/-!
# Functions of the intermediate representation

A function is a list of basic blocks, and a block is a list of instructions.  An instruction is also
the register that it assigns, so that registers are positions.  Only the instructions that
annotations go through have all their operands; of the others it matters that the thread stops at
them or goes on.
-/

namespace GenMC

/-- The position of an instruction: its block, and its index there. -/
structure InstPos where
  /-- `getParent`. -/
  block : ℕ
  /-- The index in the block. -/
  index : ℕ
deriving DecidableEq

/-- The position of `getNextNode`. -/
def InstPos.next (p : InstPos) : InstPos := ⟨p.block, p.index + 1⟩

/-- `Constant`, with the widths of integer types. -/
inductive IRConstant where
  | int (width value : ℕ)
  | undef (width : ℕ)
  | nullPointer
  -- floating-point constants, global variables and so on
  | other
deriving DecidableEq

/-- `Value`: an operand, and a register of an annotation. -/
inductive IRValue where
  | inst (pos : InstPos)
  | argument (n : ℕ)
  | constant (c : IRConstant)
deriving DecidableEq

/-- `Instruction`; a width is the one of the result, or of the operands of a comparison. -/
inductive Instruction where
  | binary (opcode : ArithmeticKind) (width : ℕ) (left right : IRValue)
  | icmp (predicate : CmpKind) (width : ℕ) (left right : IRValue)
  | select (cond ifTrue ifFalse : IRValue)
  | cast (opcode : CastKind) (source target : ℕ) (op : IRValue)
  | bitCast (op : IRValue)
  -- `PtrToInt` and `IntToPtr`, with the sizes of the types in bytes
  | pointerCast (srcSize dstSize width : ℕ) (op : IRValue)
  -- `ExtractValue` from a CAS, which stands for the value that it has read
  | extractCAS (index : ℕ) (cas compareOperand : IRValue)
  -- any other instruction without side effects, also an `ExtractValue` from another aggregate and
  -- a call
  | unsupported
  | phi (incoming : List (ℕ × IRValue))
  | br (dest : ℕ)
  | condBr (cond : IRValue) (ifTrue ifFalse : ℕ)
  | assume (cond : IRValue)
  | load
  | atomicCmpXchg
  -- any other instruction for which `hasSideEffects` holds
  | sideEffect
  | error
  -- any other terminator
  | exit
deriving DecidableEq

namespace Instruction

/-- Whether a block ends with the instruction. -/
def isTerminator : Instruction → Bool
  | br _ => true
  | condBr _ _ _ => true
  | exit => true
  | _ => false

/-- The blocks that a branch may go to. -/
def targets : Instruction → List ℕ
  | br dest => [dest]
  | condBr _ ifTrue ifFalse => [ifTrue, ifFalse]
  | _ => []

/-- The operands of an instruction that is no phi node. -/
def operands : Instruction → List IRValue
  | binary _ _ left right => [left, right]
  | icmp _ _ left right => [left, right]
  | select cond ifTrue ifFalse => [cond, ifTrue, ifFalse]
  | cast _ _ _ op => [op]
  | bitCast op => [op]
  | pointerCast _ _ _ op => [op]
  | extractCAS _ cas compareOperand => [cas, compareOperand]
  | condBr cond _ _ => [cond]
  | assume cond => [cond]
  | _ => []

end Instruction

/-- `Function`, with the sizes of the types of its values. -/
structure IRFunction where
  /-- The basic blocks. -/
  blocks : List (List Instruction)
  /-- `getTypeAllocSizeInBits` of the type of a value. -/
  typeSize : IRValue → ℕ

namespace IRFunction

variable (F : IRFunction)

/-- The instruction at a position. -/
def inst? (p : InstPos) : Option Instruction := F.blocks[p.block]?.bind (·[p.index]?)

/-- The positions of the instructions. -/
def positions : Finset InstPos :=
  ((List.range F.blocks.length).flatMap fun b =>
    (List.range ((F.blocks[b]?.map List.length).getD 0)).map (⟨b, ·⟩)).toFinset

/-- The incoming values of the phi nodes at the beginning of a block. -/
def phis (b : ℕ) : List (List (ℕ × IRValue)) :=
  ((F.blocks[b]?.getD []).takeWhile fun i => i matches .phi _).filterMap fun i =>
    match i with
    | .phi incoming => some incoming
    | _ => none

/-- The phi nodes of a block are its first instructions. -/
lemma inst?_of_phis {b j : ℕ} {incoming : List (ℕ × IRValue)}
    (h : (F.phis b)[j]? = some incoming) : F.inst? ⟨b, j⟩ = some (.phi incoming) := by
  unfold phis at h
  unfold inst?
  cases hb : F.blocks[b]? with
  | none =>
    rw [hb] at h
    cases h
  | some is =>
    rw [hb, Option.getD_some] at h
    rw [Option.bind_some]
    clear hb
    induction is generalizing j with
    | nil => cases h
    | cons i is ih =>
      cases i with
      | phi incoming' =>
        cases j with
        | zero =>
          obtain rfl := Option.some.inj h
          rfl
        | succ j => exact ih h
      | _ => cases h

/-- The positions of the function. -/
@[simp] lemma mem_positions {p : InstPos} : p ∈ F.positions ↔ (F.inst? p).isSome := by
  obtain ⟨b, k⟩ := p
  unfold positions inst?
  simp only [List.mem_toFinset, List.mem_flatMap, List.mem_range, List.mem_map, InstPos.mk.injEq]
  constructor
  · rintro ⟨b', hb, k', hk, rfl, rfl⟩
    rw [List.getElem?_eq_getElem hb] at hk ⊢
    rw [Option.bind_some, List.getElem?_eq_getElem hk]
    rfl
  · intro h
    obtain ⟨i, hi⟩ := Option.isSome_iff_exists.mp h
    obtain ⟨is, his, hi⟩ := Option.bind_eq_some_iff.mp hi
    refine ⟨b, (List.getElem?_eq_some_iff.mp his).1, k, ?_, rfl, rfl⟩
    rw [his]
    exact (List.getElem?_eq_some_iff.mp hi).1

/-- A value that may be an operand of an annotated instruction. -/
def Supported (op : IRValue) : Prop := op ≠ .constant .other

instance (op : IRValue) : Decidable (Supported op) := inferInstanceAs (Decidable (¬_))

/-- A function whose blocks end with terminators and whose branches lead to blocks.  The operands
are integers or pointers, and the phi nodes have values for the branches to their blocks. -/
structure WellFormed : Prop where
  /-- Terminators are the last instructions of the blocks. -/
  terminated : ∀ p ∈ F.positions, ∀ i ∈ F.inst? p, (F.inst? p.next).isSome = !i.isTerminator
  /-- Branches lead to blocks. -/
  targets : ∀ p ∈ F.positions, ∀ i ∈ F.inst? p, ∀ t ∈ i.targets, (F.inst? ⟨t, 0⟩).isSome
  /-- Operands are integers or pointers. -/
  operands : ∀ p ∈ F.positions, ∀ i ∈ F.inst? p, ∀ op ∈ i.operands, Supported op
  /-- A phi node has a value for every branch to its block. -/
  incoming : ∀ p ∈ F.positions, ∀ i ∈ F.inst? p, ∀ t ∈ i.targets, ∀ phi ∈ F.phis t,
    ∃ op ∈ phi.lookup p.block, Supported op

end IRFunction

end GenMC
