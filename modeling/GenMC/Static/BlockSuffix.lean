import Mathlib.Tactic

/-!
# Suffixes of basic blocks

The end of a basic block from some instruction on is a list of instructions, here from the
terminator upwards.  A run of it reads operands, among them the results of the instructions that
have been executed, and leaves a trace of the operations and the values of their operands.  The phi
nodes read what the registers have been when the block was entered.

Two suffixes run in the same way if corresponding instructions have the same operations, and each
operand is either the result of corresponding instructions before, or the same value in both that
neither of the suffixes has assigned before (`agree_runSuffix`).
-/

namespace GenMC

/-- `Value`, as an operand of an instruction. -/
inductive BlockOperand where
  | constant (c : ℕ)
  | basicBlock (b : ℕ)
  | argument (n : ℕ)
  | instruction (id : ℕ)
deriving DecidableEq

/-- `isa<Constant>(op) || isa<BasicBlock>(op)`. -/
def BlockOperand.isFixed : BlockOperand → Bool
  | constant _ => true
  | basicBlock _ => true
  | _ => false

/-- `Instruction`: the operation is the opcode with the types and all that belongs to it. -/
structure BlockInst (Op : Type*) where
  op : Op
  /-- `getRawSubclassOptionalData`: flags as `nsw`. -/
  optionalData : ℕ
  operands : List BlockOperand
  /-- The incoming blocks of a phi node. -/
  incomingBlocks : Option (List ℕ)
deriving DecidableEq

namespace BlockInst

variable {Op : Type*}

/-- `isIdenticalTo`. -/
def isIdenticalTo [DecidableEq Op] (i j : BlockInst Op) : Bool := i = j

/-- `isSameOperationAs`. -/
def isSameOperationAs [DecidableEq Op] (i j : BlockInst Op) : Bool :=
  i.op = j.op && i.operands.length = j.operands.length &&
    i.incomingBlocks.isSome == j.incomingBlocks.isSome

/-- The value of a phi node for a predecessor. -/
def incomingValue (i : BlockInst Op) (pred : ℕ) : Option BlockOperand :=
  i.incomingBlocks.bind fun blocks => (blocks.zip i.operands).lookup pred

end BlockInst

/-- Instructions at the same place of two suffixes. -/
abbrev InstPair (Op : Type*) := (ℕ × BlockInst Op) × (ℕ × BlockInst Op)

/-- What operations do, with values in `V` and memories in `μ`. -/
structure OpSemantics (Op V μ : Type*) where
  undef : V
  exec : Op → List V → μ → V × μ

/-- The state of a run; the trace begins with what has been executed last. -/
structure SuffixState (Op V μ : Type*) where
  regs : BlockOperand → V
  mem : μ
  trace : List (Op × List V)

section

variable {Op V μ : Type*} (S : OpSemantics Op V μ) (entry : BlockOperand → V) (pred : ℕ)

/-- One instruction; `entry` are the registers when the block was entered from `pred`. -/
def runInst (p : ℕ × BlockInst Op) (st : SuffixState Op V μ) : SuffixState Op V μ :=
  match p.2.incomingBlocks with
  | some _ =>
    let v := (p.2.incomingValue pred).elim S.undef entry
    ⟨Function.update st.regs (.instruction p.1) v, st.mem, (p.2.op, [v]) :: st.trace⟩
  | none =>
    let vs := p.2.operands.map st.regs
    let (v, mem) := S.exec p.2.op vs st.mem
    ⟨Function.update st.regs (.instruction p.1) v, mem, (p.2.op, vs) :: st.trace⟩

/-- The run of a suffix, from its top. -/
def runSuffix (mem : μ) (suffix : List (ℕ × BlockInst Op)) : SuffixState Op V μ :=
  suffix.foldr (runInst S entry pred) ⟨entry, mem, []⟩

/-- The names of a pair of instructions. -/
def pointOf (p : InstPair Op) : ℕ × ℕ := (p.1.1, p.2.1)

/-- Two operands are the results of corresponding instructions, or the same value that has not been
assigned. -/
def OperandsMatch (done : List (ℕ × ℕ)) (x y : BlockOperand) : Prop :=
  (∃ d ∈ done, x = .instruction d.1 ∧ y = .instruction d.2) ∨
    (x = y ∧ ∀ d ∈ done, x ≠ .instruction d.1 ∧ x ≠ .instruction d.2)

/-- Two instructions have the same operation and matching operands; for phi nodes the operands are
the ones of the predecessor. -/
structure InstsMatch (done : List (ℕ × ℕ)) (i j : BlockInst Op) : Prop where
  op_eq : i.op = j.op
  isSome_eq : i.incomingBlocks.isSome = j.incomingBlocks.isSome
  incoming : i.incomingBlocks.isSome → ∀ pred, i.incomingValue pred = j.incomingValue pred
  operands : i.incomingBlocks = none → List.Forall₂ (OperandsMatch done) i.operands j.operands

/-- All pairs of instructions match, where the pairs above have been executed. -/
def SuffixesMatch : List (InstPair Op) → Prop
  | [] => True
  | p :: pairs => InstsMatch (pairs.map pointOf) p.1.2 p.2.2 ∧ SuffixesMatch pairs

/-- Two runs that have executed corresponding instructions in the same way. -/
structure Agree (done : List (ℕ × ℕ)) (st st' : SuffixState Op V μ) : Prop where
  mem_eq : st.mem = st'.mem
  trace_eq : st.trace = st'.trace
  results : ∀ d ∈ done, st.regs (.instruction d.1) = st'.regs (.instruction d.2)
  left : ∀ x, (∀ d ∈ done, x ≠ .instruction d.1) → st.regs x = entry x
  right : ∀ x, (∀ d ∈ done, x ≠ .instruction d.2) → st'.regs x = entry x

variable {S entry pred} {done : List (ℕ × ℕ)} {st st' : SuffixState Op V μ}

/-- Matching operands have the same value. -/
lemma Agree.regs_eq (h : Agree entry done st st') {x y : BlockOperand}
    (hmatch : OperandsMatch done x y) : st.regs x = st'.regs y := by
  rcases hmatch with ⟨d, hd, rfl, rfl⟩ | ⟨rfl, hfresh⟩
  · exact h.results d hd
  · rw [h.left x fun d hd => (hfresh d hd).1, h.right x fun d hd => (hfresh d hd).2]

lemma Agree.map_regs (h : Agree entry done st st') {xs ys : List BlockOperand}
    (hall : List.Forall₂ (OperandsMatch done) xs ys) : xs.map st.regs = ys.map st'.regs := by
  induction hall with
  | nil => rfl
  | cons hxy _ ih => rw [List.map_cons, List.map_cons, h.regs_eq hxy, ih]

/-- Corresponding results are assigned. -/
lemma Agree.assign (h : Agree entry done st st') {a b : ℕ} (ha : ∀ d ∈ done, d.1 ≠ a)
    (hb : ∀ d ∈ done, d.2 ≠ b) (v : V) (mem : μ) (e : Op × List V) :
    Agree entry ((a, b) :: done)
      ⟨Function.update st.regs (.instruction a) v, mem, e :: st.trace⟩
      ⟨Function.update st'.regs (.instruction b) v, mem, e :: st'.trace⟩ where
  mem_eq := rfl
  trace_eq := by rw [h.trace_eq]
  results := by
    intro d hd
    dsimp only
    obtain rfl | hd := List.mem_cons.mp hd
    · rw [Function.update_self, Function.update_self]
    · rw [Function.update_of_ne fun heq => ha d hd (BlockOperand.instruction.inj heq),
        Function.update_of_ne fun heq => hb d hd (BlockOperand.instruction.inj heq)]
      exact h.results d hd
  left := by
    intro x hx
    dsimp only
    rw [Function.update_of_ne (hx (a, b) List.mem_cons_self)]
    exact h.left x fun d hd => hx d (List.mem_cons_of_mem _ hd)
  right := by
    intro x hx
    dsimp only
    rw [Function.update_of_ne (hx (a, b) List.mem_cons_self)]
    exact h.right x fun d hd => hx d (List.mem_cons_of_mem _ hd)

/-- One pair of matching instructions. -/
lemma Agree.runInst (h : Agree entry done st st') {p q : ℕ × BlockInst Op}
    (hmatch : InstsMatch done p.2 q.2) (hp : ∀ d ∈ done, d.1 ≠ p.1) (hq : ∀ d ∈ done, d.2 ≠ q.1) :
    Agree entry ((p.1, q.1) :: done) (runInst S entry pred p st) (runInst S entry pred q st') := by
  have hsome := hmatch.isSome_eq
  unfold GenMC.runInst
  cases hinc : p.2.incomingBlocks with
  | some blocks =>
    rw [hinc] at hsome
    obtain ⟨blocks', hinc'⟩ := Option.isSome_iff_exists.mp hsome.symm
    have hvalue := hmatch.incoming (by rw [hinc]; rfl) pred
    simp only [hinc', hvalue, hmatch.op_eq, ← h.mem_eq]
    exact h.assign hp hq _ _ _
  | none =>
    rw [hinc] at hsome
    have hinc' := Option.not_isSome_iff_eq_none.mp (by rw [← hsome]; exact Bool.false_ne_true)
    have hvalues := h.map_regs (hmatch.operands hinc)
    simp only [hinc', hvalues, hmatch.op_eq, ← h.mem_eq]
    exact h.assign hp hq _ _ _

variable (S entry pred) in
/-- Matching suffixes run in the same way, by induction from the top. -/
lemma agree_runSuffix (mem : μ) {pairs : List (InstPair Op)}
    (hmatch : SuffixesMatch pairs) (hfst : (pairs.map fun p => p.1.1).Nodup)
    (hsnd : (pairs.map fun p => p.2.1).Nodup) :
    Agree entry (pairs.map pointOf) (runSuffix S entry pred mem (pairs.map Prod.fst))
      (runSuffix S entry pred mem (pairs.map Prod.snd)) := by
  induction pairs with
  | nil => exact ⟨rfl, rfl, fun d hd => absurd hd List.not_mem_nil, fun _ _ => rfl, fun _ _ => rfl⟩
  | cons p pairs ih =>
    rw [List.map_cons, List.nodup_cons, List.mem_map] at hfst hsnd
    refine (ih hmatch.2 hfst.2 hsnd.2).runInst hmatch.1 ?_ ?_
    · intro d hd heq
      obtain ⟨q, hq, rfl⟩ := List.mem_map.mp hd
      exact hfst.1 ⟨q, hq, heq⟩
    · intro d hd heq
      obtain ⟨q, hq, rfl⟩ := List.mem_map.mp hd
      exact hsnd.1 ⟨q, hq, heq⟩

/-- Suffixes match if every pair matches, where the pairs above it have been executed. -/
lemma suffixesMatch_of_forall {pairs : List (InstPair Op)}
    (h : ∀ (n : ℕ) (p : InstPair Op), pairs[n]? = some p →
      InstsMatch ((pairs.drop (n + 1)).map pointOf) p.1.2 p.2.2) : SuffixesMatch pairs := by
  induction pairs with
  | nil => trivial
  | cons p pairs ih => exact ⟨h 0 p rfl, ih fun n q hq => h (n + 1) q hq⟩

/-- The trace of the upper part of a suffix. -/
lemma trace_runSuffix_drop (mem : μ) (suffix : List (ℕ × BlockInst Op)) (n : ℕ) :
    (runSuffix S entry pred mem suffix).trace.drop n =
      (runSuffix S entry pred mem (suffix.drop n)).trace := by
  induction suffix generalizing n with
  | nil => rw [List.drop_nil]; exact List.drop_nil
  | cons p suffix ih =>
    cases n with
    | zero => rfl
    | succ n =>
      rw [List.drop_succ_cons, ← ih n]
      unfold runSuffix
      rw [List.foldr_cons, runInst]
      split <;> rfl

/-- Two suffixes with the same trace have the same traces above. -/
lemma trace_eq_of_drop {mem : μ} {suffix suffix' rest rest' : List (ℕ × BlockInst Op)} {n : ℕ}
    (htrace : (runSuffix S entry pred mem suffix).trace =
      (runSuffix S entry pred mem suffix').trace)
    (hdrop : suffix.drop n = rest) (hdrop' : suffix'.drop n = rest') :
    (runSuffix S entry pred mem rest).trace = (runSuffix S entry pred mem rest').trace := by
  rw [← hdrop, ← hdrop', ← trace_runSuffix_drop, ← trace_runSuffix_drop, htrace]

end

/-! ## Symbolic runs

In a symbolic run every register has its own name, and all results are undefined.  Its trace shows
which operands have been assigned. -/

section

variable {Op : Type*}

/-- All results are undefined. -/
def symbolic (Op : Type*) : OpSemantics Op (Option BlockOperand) Unit :=
  ⟨none, fun _ _ _ => (none, ())⟩

/-- The registers of a symbolic run, where no phi node has a value for the predecessor. -/
lemma regs_symbolic {pred : ℕ} (suffix : List (ℕ × BlockInst Op))
    (hpred : ∀ p ∈ suffix, p.2.incomingValue pred = none) (x : BlockOperand) :
    (∀ p ∈ suffix, x ≠ .instruction p.1) ∧
        (runSuffix (symbolic Op) some pred () suffix).regs x = some x ∨
      (∃ p ∈ suffix, x = .instruction p.1) ∧
        (runSuffix (symbolic Op) some pred () suffix).regs x = none := by
  induction suffix with
  | nil => exact .inl ⟨fun p hp => absurd hp List.not_mem_nil, rfl⟩
  | cons p suffix ih =>
    have ih := ih fun q hq => hpred q (List.mem_cons_of_mem _ hq)
    have hregs : (runSuffix (symbolic Op) some pred () (p :: suffix)).regs = Function.update
        (runSuffix (symbolic Op) some pred () suffix).regs (.instruction p.1) none := by
      unfold runSuffix
      rw [List.foldr_cons, runInst]
      split
      · rw [hpred p List.mem_cons_self]
        rfl
      · rfl
    rw [hregs]
    by_cases hx : x = .instruction p.1
    · subst hx
      exact .inr ⟨⟨p, List.mem_cons_self, rfl⟩, Function.update_self _ _ _⟩
    rw [Function.update_of_ne hx]
    rcases ih with ⟨hfresh, hx'⟩ | ⟨⟨q, hq, hxq⟩, hx'⟩
    · refine .inl ⟨fun q hq => ?_, hx'⟩
      obtain rfl | hq := List.mem_cons.mp hq
      · exact hx
      · exact hfresh q hq
    · exact .inr ⟨⟨q, List.mem_cons_of_mem _ hq, hxq⟩, hx'⟩

/-- There is a block that is no predecessor of any phi node. -/
lemma exists_fresh_pred (suffix : List (ℕ × BlockInst Op)) :
    ∃ pred, ∀ p ∈ suffix, p.2.incomingValue pred = none := by
  obtain ⟨pred, hpred⟩ := Infinite.exists_notMem_finset
    (suffix.flatMap fun p => p.2.incomingBlocks.getD []).toFinset
  rw [List.mem_toFinset, List.mem_flatMap] at hpred
  refine ⟨pred, fun p hp => ?_⟩
  rw [BlockInst.incomingValue]
  cases hblocks : p.2.incomingBlocks with
  | none => rfl
  | some blocks =>
    rw [Option.bind_some, List.lookup_eq_none_iff]
    intro d hd
    have hne : pred ≠ d.1 := fun heq => hpred ⟨p, hp, by
      rw [hblocks, heq]
      exact (List.of_mem_zip hd).1⟩
    exact bne_iff_ne.mpr hne

variable {n : ℕ} {suffix suffix' rest rest' : List (ℕ × BlockInst Op)} {p q : ℕ × BlockInst Op}

/-- Phi nodes at the same place of symbolic runs with the same trace. -/
lemma incomingValue_eq_of_symbolic {pred : ℕ}
    (htrace : (runSuffix (symbolic Op) some pred () suffix).trace =
      (runSuffix (symbolic Op) some pred () suffix').trace)
    (hdrop : suffix.drop n = p :: rest) (hdrop' : suffix'.drop n = q :: rest')
    (hp : p.2.incomingBlocks.isSome) (hq : q.2.incomingBlocks.isSome) :
    p.2.incomingValue pred = q.2.incomingValue pred := by
  have htrace := trace_eq_of_drop htrace hdrop hdrop'
  have helim : ∀ o : Option BlockOperand, o.elim none some = o := fun o => by cases o <;> rfl
  obtain ⟨blocks, hp⟩ := Option.isSome_iff_exists.mp hp
  obtain ⟨blocks', hq⟩ := Option.isSome_iff_exists.mp hq
  unfold runSuffix at htrace
  rw [List.foldr_cons, List.foldr_cons, runInst, runInst, hp, hq] at htrace
  simp only [symbolic, helim, List.cons.injEq, Prod.mk.injEq, and_true] at htrace
  exact htrace.1.2

/-- Operands at the same place of symbolic runs with the same trace. -/
lemma map_regs_eq_of_symbolic {pred : ℕ}
    (htrace : (runSuffix (symbolic Op) some pred () suffix).trace =
      (runSuffix (symbolic Op) some pred () suffix').trace)
    (hdrop : suffix.drop n = p :: rest) (hdrop' : suffix'.drop n = q :: rest')
    (hp : p.2.incomingBlocks = none) (hq : q.2.incomingBlocks = none) :
    p.2.operands.map (runSuffix (symbolic Op) some pred () rest).regs =
      q.2.operands.map (runSuffix (symbolic Op) some pred () rest').regs := by
  have htrace := trace_eq_of_drop htrace hdrop hdrop'
  unfold runSuffix at htrace
  rw [List.foldr_cons, List.foldr_cons, runInst, runInst, hp, hq] at htrace
  simp only [symbolic, List.cons.injEq, Prod.mk.injEq] at htrace
  exact htrace.1.2

end

end GenMC
