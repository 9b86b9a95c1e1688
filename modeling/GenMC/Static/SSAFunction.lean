import GenMC.Lib.Dominance
import GenMC.Static.IRFunction

/-!
# Functions in SSA form

The transformations of functions rewrite instructions and their operands.  What they must keep is
the run of a function: the control flow, the effects on the memory, and the value that every
instruction assigns to its register.  Casts, compare-exchanges, extracts of their results and
branches have their own meaning here; every other operation is a function of the values of its
operands and of the memory, the same one for all functions.

A register has as many bits as its type.  In a well-formed function the definition of an operand
dominates its use, and what an instruction has computed then still holds wherever the instruction
dominates (`holds_of_dominated`).
-/

namespace GenMC

/-- `Type`; all pointer types are one, and the result of a compare-exchange is a pair of a value and
of a bit. -/
inductive LLVMType where
  | integer (width : ℕ)
  | pointer
  | floating (width : ℕ)
  | casResult (value : LLVMType)
deriving DecidableEq

/-- `DataLayout`. -/
structure DataLayout where
  /-- The size of pointers. -/
  pointerSizeInBits : ℕ
  /-- `getABITypeAlign`, in bytes. -/
  abiAlignment : LLVMType → ℕ

namespace DataLayout

variable (DL : DataLayout)

/-- `getTypeSizeInBits`. -/
def getTypeSizeInBits : LLVMType → ℕ
  | .integer width => width
  | .pointer => DL.pointerSizeInBits
  | .floating width => width
  | .casResult value => getTypeSizeInBits value + 1

/-- `getTypeStoreSize`. -/
def getTypeStoreSize (typ : LLVMType) : ℕ := (DL.getTypeSizeInBits typ + 7) / 8

/-- `getTypeAllocSize`: the store size up to the alignment. -/
def getTypeAllocSize (typ : LLVMType) : ℕ :=
  (DL.getTypeStoreSize typ + DL.abiAlignment typ - 1) / DL.abiAlignment typ * DL.abiAlignment typ

/-- A layout with 64-bit pointers and no padding. -/
def unpadded : DataLayout := ⟨64, fun _ => 1⟩

end DataLayout

/-- `CastInst::CastOps`, without the casts of floating-point numbers. -/
inductive CastOps where
  | trunc | zext | sext | ptrToInt | intToPtr | bitCast
deriving DecidableEq

namespace CastOps

/-- `castIsValid`. -/
def castIsValid : CastOps → LLVMType → LLVMType → Bool
  | trunc, .integer source, .integer dest => dest < source
  | zext, .integer source, .integer dest => source < dest
  | sext, .integer source, .integer dest => source < dest
  | ptrToInt, .pointer, .integer _ => true
  | intToPtr, .integer _, .pointer => true
  | bitCast, .pointer, .pointer => true
  | bitCast, .integer source, .integer dest => source = dest
  | bitCast, .integer source, .floating dest => source = dest
  | bitCast, .floating source, .integer dest => source = dest
  | bitCast, .floating source, .floating dest => source = dest
  | _, _, _ => false

/-- The value of a cast. -/
def apply (DL : DataLayout) (op : CastOps) (source dest : LLVMType)
    (v : BitVec (DL.getTypeSizeInBits source)) : BitVec (DL.getTypeSizeInBits dest) :=
  match op with
  | sext => v.signExtend _
  | _ => v.setWidth _

end CastOps

/-- An instruction; operations of a kind `Op` have no other meaning than their results. -/
inductive SSAInst (Op : Type*) where
  | phi (incoming : List (ℕ × IRValue))
  | cast (op : CastOps) (operand : IRValue)
  | cmpXchg (pointer compareOperand newValue : IRValue)
  -- `ExtractValue`, which is from a compare-exchange
  | extractCAS (cas : IRValue) (index : ℕ)
  | other (op : Op) (operands : List IRValue)
  | br (dest : ℕ)
  | condBr (cond : IRValue) (ifTrue ifFalse : ℕ)
  -- any other terminator
  | terminator (op : Op) (operands : List IRValue) (successors : List ℕ)
deriving DecidableEq

namespace SSAInst

variable {Op : Type*}

/-- Whether a block ends with the instruction. -/
def isTerminator : SSAInst Op → Bool
  | br _ => true
  | condBr _ _ _ => true
  | terminator _ _ _ => true
  | _ => false

/-- The blocks that a terminator may go to. -/
def targets : SSAInst Op → List ℕ
  | br dest => [dest]
  | condBr _ ifTrue ifFalse => [ifTrue, ifFalse]
  | terminator _ _ successors => successors
  | _ => []

/-- Whether the instruction is a phi node. -/
def isPhi : SSAInst Op → Bool
  | phi _ => true
  | _ => false

/-- The operands of an instruction that is no phi node. -/
def operands : SSAInst Op → List IRValue
  | phi _ => []
  | cast _ operand => [operand]
  | cmpXchg pointer compareOperand newValue => [pointer, compareOperand, newValue]
  | extractCAS cas _ => [cas]
  | other _ operands => operands
  | br _ => []
  | condBr cond _ _ => [cond]
  | terminator _ operands _ => operands

end SSAInst

/-- What the operations of a program do. -/
structure Semantics (Op μ : Type*) where
  /-- The result of an operation, and the memory after it. -/
  exec : Op → List ℕ → μ → Option (ℕ × μ)
  /-- The successor that a terminator chooses. -/
  choose : Op → List ℕ → μ → Option (ℕ × μ)
  /-- The value that a compare-exchange has read, and whether it was successful. -/
  cmpXchg : ℕ → (width : ℕ) → BitVec width → BitVec width → μ → Option (BitVec width × Bool × μ)
  /-- A successful compare-exchange has read the expected value. -/
  eq_of_success : ∀ {pointer width compareOperand newValue m v m'},
    cmpXchg pointer width compareOperand newValue m = some (v, true, m') → v = compareOperand

/-- The values of all registers, with the types that the values have. -/
abbrev Registers (DL : DataLayout) (typ : IRValue → LLVMType) : Type :=
  (v : IRValue) → BitVec (DL.getTypeSizeInBits (typ v))

/-- A thread in a function. -/
structure SSAState (DL : DataLayout) (typ : IRValue → LLVMType) (μ : Type*) where
  /-- The next instruction. -/
  pos : InstPos
  /-- The values of the registers. -/
  regs : Registers DL typ
  /-- The memory. -/
  mem : μ

/-- `Function`: its basic blocks; the first one is the entry. -/
structure SSAFunction (Op : Type*) where
  /-- The basic blocks. -/
  blocks : List (List (SSAInst Op))

namespace SSAFunction

/-- The first instruction of the entry. -/
def entry : InstPos := ⟨0, 0⟩

variable {Op μ : Type*} {DL : DataLayout} {typ : IRValue → LLVMType}
  (F : SSAFunction Op) (sem : Semantics Op μ)

/-- The instruction at a position. -/
def inst? (p : InstPos) : Option (SSAInst Op) := F.blocks[p.block]?.bind (·[p.index]?)

/-- The positions of the instructions in their order (`inst_begin … inst_end`). -/
def layout : List InstPos :=
  (List.range F.blocks.length).flatMap fun b =>
    (List.range ((F.blocks[b]?.map List.length).getD 0)).map (⟨b, ·⟩)

/-- The control flow between instructions. -/
def Edge (p q : InstPos) : Prop :=
  ∃ i, F.inst? p = some i ∧
    if i.isTerminator then ∃ t ∈ i.targets, q = ⟨t, 0⟩ else q = p.next

/-- Every path from the entry passes an instruction before another one. -/
abbrev SDom (p q : InstPos) : Prop := Dominance.StrictlyDominates F.Edge entry p q

/-- A path from the entry leads to an instruction. -/
abbrev Reached (q : InstPos) : Prop := Dominance.Reachable F.Edge entry q

/-- A function whose definitions dominate their uses; a phi node uses a value at the end of the
block that the value comes from.  The types fit to the casts. -/
structure WellFormed (typ : IRValue → LLVMType) (F : SSAFunction Op) : Prop where
  /-- An operand has been computed before. -/
  dominated : ∀ p i, F.inst? p = some i → ∀ q, IRValue.inst q ∈ i.operands → F.SDom q p
  /-- An incoming value has been computed before the branch. -/
  incoming : ∀ p i, F.inst? p = some i → ∀ t ∈ i.targets, ∀ k phi,
    F.inst? ⟨t, k⟩ = some (.phi phi) → ∀ q, phi.lookup p.block = some (.inst q) → F.SDom q p
  /-- Casts are valid. -/
  casts : ∀ p op o, F.inst? p = some (.cast op o) → op.castIsValid (typ o) (typ (.inst p)) = true

variable {F} in
/-- The layout has all instructions. -/
lemma mem_layout {p : InstPos} {i : SSAInst Op} (h : F.inst? p = some i) :
    p ∈ F.layout := by
  obtain ⟨block, k⟩ := p
  obtain ⟨insts, hinsts, hi⟩ := Option.bind_eq_some_iff.mp h
  obtain ⟨hblock, -⟩ := List.getElem?_eq_some_iff.mp hinsts
  obtain ⟨hk, -⟩ := List.getElem?_eq_some_iff.mp hi
  refine List.mem_flatMap.mpr ⟨block, List.mem_range.mpr hblock, List.mem_map.mpr ⟨k, ?_, rfl⟩⟩
  change F.blocks[block]? = some insts at hinsts
  rw [hinsts]
  exact List.mem_range.mpr hk

/-- The order of the predecessors: those blocks whose terminators go to the block. -/
abbrev ListsPredecessors (preds : ℕ → List ℕ) : Prop :=
  ∀ b p, p ∈ preds b ↔ ∃ j i, F.inst? ⟨p, j⟩ = some i ∧ i.isTerminator = true ∧ b ∈ i.targets

/-! ## Steps -/

/-- The register of the next instruction gets a value. -/
def assign (s : SSAState DL typ μ) (v : BitVec (DL.getTypeSizeInBits (typ (.inst s.pos)))) (m : μ) :
    SSAState DL typ μ :=
  ⟨s.pos.next, Function.update s.regs (.inst s.pos) v, m⟩

/-- The registers after the phi nodes of a block have got their values. -/
def setPhis (regs : Registers DL typ) (block dest : ℕ) : Registers DL typ
  | .inst q =>
    if q.block = dest then
      match F.inst? q with
      | some (.phi incoming) =>
        match incoming.lookup block with
        | some o => (regs o).setWidth _
        | none => regs (.inst q)
      | _ => regs (.inst q)
    else regs (.inst q)
  | .argument n => regs (.argument n)
  | .constant c => regs (.constant c)

/-- The branch to a block. -/
def enter (s : SSAState DL typ μ) (dest : ℕ) (m : μ) : SSAState DL typ μ :=
  ⟨⟨dest, 0⟩, F.setPhis s.regs s.pos.block dest, m⟩

/-- The values of operands. -/
def values (regs : Registers DL typ) (operands : List IRValue) : List ℕ :=
  operands.map fun o => (regs o).toNat

/-- The value of `ExtractValue` from the result of a compare-exchange. -/
def extract {width : ℕ} (v : BitVec width) (index width' : ℕ) : BitVec width' :=
  if index = 0 then (v >>> 1).setWidth width' else (v.setWidth 1).setWidth width'

/-- One step of a thread. -/
def step (s : SSAState DL typ μ) : Option (SSAState DL typ μ) :=
  (F.inst? s.pos).bind fun i =>
    match i with
    | .phi _ => some { s with pos := s.pos.next }
    | .cast op o => some (assign s (op.apply DL (typ o) (typ (.inst s.pos)) (s.regs o)) s.mem)
    | .cmpXchg pointer compareOperand newValue =>
      (sem.cmpXchg (s.regs pointer).toNat _ (s.regs compareOperand)
          ((s.regs newValue).setWidth _) s.mem).map fun r =>
        assign s ((r.1.concat r.2.1).setWidth _) r.2.2
    | .extractCAS cas index => some (assign s (extract (s.regs cas) index _) s.mem)
    | .other op operands =>
      (sem.exec op (values s.regs operands) s.mem).map fun r => assign s (BitVec.ofNat _ r.1) r.2
    | .br dest => some (F.enter s dest s.mem)
    | .condBr cond ifTrue ifFalse =>
      some (F.enter s (if (s.regs cond).toNat = 1 then ifTrue else ifFalse) s.mem)
    | .terminator op operands successors =>
      (sem.choose op (values s.regs operands) s.mem).bind fun r =>
        successors[r.1]?.map fun dest => F.enter s dest r.2

/-- A number of steps. -/
def run : ℕ → SSAState DL typ μ → Option (SSAState DL typ μ)
  | 0, s => some s
  | n + 1, s => (run n s).bind (F.step sem)

variable {F sem} {s s' : SSAState DL typ μ}

/-- What a step of a terminator and of another instruction leads to. -/
lemma step_cases (h : F.step sem s = some s') :
    ∃ i, F.inst? s.pos = some i ∧
      ((i.isTerminator = true ∧ ∃ t ∈ i.targets, ∃ m, s' = F.enter s t m) ∨
        (i.isTerminator = false ∧ (i.isPhi = true → s'.regs = s.regs) ∧ s'.pos = s.pos.next ∧
          ∀ v, v ≠ .inst s.pos → s'.regs v = s.regs v)) := by
  obtain ⟨i, hi, h⟩ := Option.bind_eq_some_iff.mp h
  have hassign (v : BitVec (DL.getTypeSizeInBits (typ (.inst s.pos)))) (m : μ)
      (h : assign s v m = s') : s'.pos = s.pos.next ∧
        ∀ w, w ≠ .inst s.pos → s'.regs w = s.regs w := by
    subst h
    exact ⟨rfl, fun w hw => Function.update_of_ne hw _ _⟩
  refine ⟨i, hi, ?_⟩
  cases i with
  | phi incoming =>
    obtain rfl := Option.some.inj h
    exact Or.inr ⟨rfl, fun _ => rfl, rfl, fun _ _ => rfl⟩
  | cast op o => exact Or.inr ⟨rfl, nofun, hassign _ _ (Option.some.inj h)⟩
  | cmpXchg pointer compareOperand newValue =>
    obtain ⟨r, -, h⟩ := Option.map_eq_some_iff.mp h
    exact Or.inr ⟨rfl, nofun, hassign _ _ h⟩
  | extractCAS cas index => exact Or.inr ⟨rfl, nofun, hassign _ _ (Option.some.inj h)⟩
  | other op operands =>
    obtain ⟨r, -, h⟩ := Option.map_eq_some_iff.mp h
    exact Or.inr ⟨rfl, nofun, hassign _ _ h⟩
  | br dest => exact Or.inl ⟨rfl, dest, List.mem_singleton_self dest, _, (Option.some.inj h).symm⟩
  | condBr cond ifTrue ifFalse =>
    refine Or.inl ⟨rfl, _, ?_, _, (Option.some.inj h).symm⟩
    split <;> simp [SSAInst.targets]
  | terminator op operands successors =>
    obtain ⟨r, -, h⟩ := Option.bind_eq_some_iff.mp h
    obtain ⟨dest, hdest, h⟩ := Option.map_eq_some_iff.mp h
    exact Or.inl ⟨rfl, dest, List.mem_of_getElem? hdest, _, h.symm⟩

/-- A step follows the control flow. -/
lemma edge_of_step (h : F.step sem s = some s') : F.Edge s.pos s'.pos := by
  obtain ⟨i, hi, ⟨hterm, t, ht, m, rfl⟩ | ⟨hterm, -, hpos, -⟩⟩ := step_cases h
  · exact ⟨i, hi, by rw [hterm]; exact ⟨t, ht, rfl⟩⟩
  · exact ⟨i, hi, by rw [hterm]; exact hpos⟩

/-- A run stays on paths from the entry. -/
lemma reached_of_run {s₀ : SSAState DL typ μ} (hs₀ : s₀.pos = entry) {n : ℕ}
    (h : F.run sem n s₀ = some s) : F.Reached s.pos := by
  induction n generalizing s with
  | zero =>
    obtain rfl := Option.some.inj h
    rw [hs₀]
    exact .refl
  | succ n ih =>
    obtain ⟨s₁, h₁, hstep⟩ := Option.bind_eq_some_iff.mp h
    exact (ih h₁).tail (edge_of_step hstep)

/-- The phi nodes of a block are the only registers that a branch to the block changes. -/
lemma setPhis_of_not_phi {regs : Registers DL typ} {block dest : ℕ} {v : IRValue}
    (h : ∀ k incoming, v = .inst ⟨dest, k⟩ → F.inst? ⟨dest, k⟩ ≠ some (.phi incoming)) :
    F.setPhis regs block dest v = regs v := by
  cases v with
  | inst q =>
    simp only [setPhis]
    split
    next hq =>
      obtain ⟨b, k⟩ := q
      obtain rfl : b = dest := hq
      split
      next incoming hphi => exact absurd hphi (h k incoming rfl)
      next => rfl
    next => rfl
  | argument n => rfl
  | constant c => rfl

lemma regs_enter_of_not_phi {dest : ℕ} {m : μ} {v : IRValue}
    (h : ∀ k incoming, v = .inst ⟨dest, k⟩ → F.inst? ⟨dest, k⟩ ≠ some (.phi incoming)) :
    (F.enter s dest m).regs v = s.regs v := setPhis_of_not_phi h

/-- A block is entered at its beginning: a walk to another instruction passes the one before. -/
lemma avoids_pred {b : InstPos} {block k : ℕ}
    (h : Dominance.Avoids F.Edge entry b ⟨block, k + 1⟩) :
    Dominance.Avoids F.Edge entry b ⟨block, k⟩ ∧ (⟨block, k⟩ : InstPos) ≠ b := by
  generalize hq : (⟨block, k + 1⟩ : InstPos) = q at h
  cases h with
  | root => exact absurd (congrArg InstPos.index hq) (Nat.succ_ne_zero k)
  | @step p _ havoids hne hedge =>
    obtain ⟨i, -, hedge⟩ := hedge
    split at hedge
    · obtain ⟨t, -, rfl⟩ := hedge
      exact absurd (congrArg InstPos.index hq) (Nat.succ_ne_zero k)
    · subst hedge
      obtain ⟨block', k'⟩ := p
      obtain ⟨rfl, hk⟩ := InstPos.mk.inj hq
      obtain rfl : k = k' := Nat.succ.inj hk
      exact ⟨havoids, hne⟩

/-- What strictly dominates the beginning of a block strictly dominates the block. -/
lemma SDom.of_first {b : InstPos} {dest : ℕ} (h : F.SDom b ⟨dest, 0⟩) (k : ℕ) :
    F.SDom b ⟨dest, k⟩ := by
  induction k with
  | zero => exact h
  | succ k ih => exact fun havoids => ih (avoids_pred havoids).1

/-- An instruction strictly dominates the later ones of its block. -/
lemma sDom_of_lt {block j k : ℕ} (h : j < k) : F.SDom ⟨block, j⟩ ⟨block, k⟩ := by
  induction k with
  | zero => exact absurd h (Nat.not_lt_zero j)
  | succ k ih =>
    intro havoids
    obtain ⟨havoids, hne⟩ := avoids_pred havoids
    have hjk : j ≠ k := fun hjk => hne (hjk ▸ rfl)
    exact ih (by omega) havoids

/-- An instruction of the entry strictly dominates the other blocks. -/
lemma sDom_of_entry {k : ℕ} {q : InstPos} (hq : q.block ≠ 0)
    (hk : ∀ j < k, ∀ i, F.inst? ⟨0, j⟩ = some i → i.isTerminator = false) : F.SDom ⟨0, k⟩ q := by
  suffices h : ∀ x, Dominance.Avoids F.Edge entry ⟨0, k⟩ x → x.block = 0 ∧ x.index ≤ k from
    fun havoids => hq (h q havoids).1
  intro x hx
  induction hx with
  | root => exact ⟨rfl, Nat.zero_le k⟩
  | @step p x _ hne hedge ih =>
    obtain ⟨block, j⟩ := p
    obtain ⟨rfl, hle⟩ : block = 0 ∧ j ≤ k := ih
    have hlt : j < k := lt_of_le_of_ne hle fun hjk => hne (hjk ▸ rfl)
    obtain ⟨i, hi, hedge⟩ := hedge
    rw [hk j hlt i hi] at hedge
    obtain rfl : x = ⟨0, j + 1⟩ := hedge
    exact ⟨rfl, hlt⟩

/-- **What an instruction has computed stays true.**  A fact about the register of an instruction
and those of its operands that holds after the instruction holds wherever the instruction strictly
dominates: to change one of these registers, the run has to pass the instruction again. -/
theorem holds_of_dominated (hF : F.WellFormed typ) {Q : Registers DL typ → Prop} {b : InstPos}
    {i : SSAInst Op} (hi : F.inst? b = some i) (hphi : i.isPhi = false)
    (hframe : ∀ regs regs' : Registers DL typ, regs' (.inst b) = regs (.inst b) →
      (∀ o ∈ i.operands, regs' o = regs o) → Q regs → Q regs')
    (hexec : ∀ s s' : SSAState DL typ μ, s.pos = b → F.Reached b → F.step sem s = some s' →
      Q s'.regs)
    {s₀ : SSAState DL typ μ} (hs₀ : s₀.pos = entry) {n : ℕ} (h : F.run sem n s₀ = some s)
    (hdom : F.SDom b s.pos) : Q s.regs := by
  induction n generalizing s with
  | zero =>
    obtain rfl := Option.some.inj h
    rw [hs₀] at hdom
    exact absurd .root hdom
  | succ n ih =>
    have hreached := reached_of_run hs₀ h
    obtain ⟨s₁, h₁, hstep⟩ := Option.bind_eq_some_iff.mp h
    have hreached₁ := reached_of_run hs₀ h₁
    by_cases hb : s₁.pos = b
    · exact hexec s₁ s hb (hb ▸ hreached₁) hstep
    · have hdom₁ : F.SDom b s₁.pos := hdom.of_edge (edge_of_step hstep) hb
      -- an operand of the instruction that is assigned here would have to be dominated by it
      have hoperand (q : InstPos) (hq : .inst q ∈ i.operands) : ¬F.SDom b q := fun hbq =>
        hbq.asymm (hF.dominated b i hi q hq) hreached hdom
      obtain ⟨j, hj, ⟨-, t, ht, m, rfl⟩ | ⟨-, -, -, hregs⟩⟩ := step_cases hstep
      · have hsame (v : IRValue) (hv : v = .inst b ∨ v ∈ i.operands) :
            (F.enter s₁ t m).regs v = s₁.regs v := by
          refine regs_enter_of_not_phi fun k incoming hvk hphik => ?_
          rcases hv with rfl | hv
          · obtain rfl := IRValue.inst.inj hvk
            obtain rfl := Option.some.inj (hi.symm.trans hphik)
            cases hphi
          · subst hvk
            exact hoperand _ hv (SDom.of_first hdom k)
        exact hframe s₁.regs _ (hsame _ (Or.inl rfl)) (fun o ho => hsame o (Or.inr ho))
          (ih h₁ hdom₁)
      · refine hframe s₁.regs _ (hregs _ fun h => hb (IRValue.inst.inj h).symm) (fun o ho => ?_)
          (ih h₁ hdom₁)
        refine hregs o fun h => ?_
        subst h
        exact hoperand _ ho hdom₁

/-- The register of an instruction that has been executed. -/
lemma regs_assign {v : BitVec (DL.getTypeSizeInBits (typ (.inst s.pos)))} {m : μ} :
    (assign s v m).regs (.inst s.pos) = v := Function.update_self _ _ _

/-- The operands of an instruction that has been executed; none of them is its own register. -/
lemma regs_assign_operand (hF : F.WellFormed typ) {i : SSAInst Op} (hi : F.inst? s.pos = some i)
    (hreached : F.Reached s.pos) {v : BitVec (DL.getTypeSizeInBits (typ (.inst s.pos)))} {m : μ}
    {o : IRValue} (ho : o ∈ i.operands) : (assign s v m).regs o = s.regs o := by
  refine Function.update_of_ne ?_ _ _
  rintro rfl
  exact Dominance.not_strictlyDominates_self hreached (hF.dominated s.pos i hi s.pos ho)

/-- The register of a cast that dominates. -/
lemma cast_of_dominated (hF : F.WellFormed typ) {b : InstPos} {op : CastOps} {o : IRValue}
    (hi : F.inst? b = some (.cast op o)) {s₀ : SSAState DL typ μ} (hs₀ : s₀.pos = entry) {n : ℕ}
    (h : F.run sem n s₀ = some s) (hdom : F.SDom b s.pos) :
    s.regs (.inst b) = op.apply DL (typ o) (typ (.inst b)) (s.regs o) := by
  refine holds_of_dominated (Q := fun regs => regs (.inst b) = op.apply DL _ _ (regs o)) hF hi rfl
    ?_ ?_ hs₀ h hdom
  · intro regs regs' hb hops hQ
    rw [hb, hops o List.mem_cons_self, hQ]
  · rintro s s' rfl hreached hstep
    rw [step, hi, Option.bind_some] at hstep
    obtain rfl := Option.some.inj hstep
    rw [regs_assign, regs_assign_operand hF hi hreached List.mem_cons_self]

/-- The register of an extract that dominates. -/
lemma extract_of_dominated (hF : F.WellFormed typ) {b : InstPos} {cas : IRValue} {index : ℕ}
    (hi : F.inst? b = some (.extractCAS cas index)) {s₀ : SSAState DL typ μ}
    (hs₀ : s₀.pos = entry) {n : ℕ} (h : F.run sem n s₀ = some s) (hdom : F.SDom b s.pos) :
    s.regs (.inst b) = extract (s.regs cas) index _ := by
  refine holds_of_dominated (Q := fun regs => regs (.inst b) = extract (regs cas) index _) hF hi rfl
    ?_ ?_ hs₀ h hdom
  · intro regs regs' hb hops hQ
    rw [hb, hops cas List.mem_cons_self, hQ]
  · rintro s s' rfl hreached hstep
    rw [step, hi, Option.bind_some] at hstep
    obtain rfl := Option.some.inj hstep
    rw [regs_assign, regs_assign_operand hF hi hreached List.mem_cons_self]

end SSAFunction

end GenMC
