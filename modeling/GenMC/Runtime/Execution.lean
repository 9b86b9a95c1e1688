import GenMC.Static.IRFunction

/-!
# The interpreter inside of a function

A thread that runs the instructions of a function without memory accesses: integer arithmetic at the
width of the instruction, comparisons, casts, branches and assumes.  A register has its value in the
low bits of a word.  All phi nodes of a block get their values at once when the block is entered.
The run ends when an assume fails, and where annotations end: at loads, calls with side effects and
so on.  A step has no result where the behaviour of the program is not defined.
-/

namespace GenMC

/-- The value of a binary operator on the low bits of two words; nothing for a division by zero and
for a shift by the width or more. -/
def ArithmeticKind.atWidth (k : ArithmeticKind) (width : ℕ) (v w : SVal) : Option SVal :=
  let a : BitVec width := v.setWidth width
  let b : BitVec width := w.setWidth width
  match k with
  | .add => some ((a + b).setWidth 64)
  | .sub => some ((a - b).setWidth 64)
  | .mul => some ((a * b).setWidth 64)
  | .udiv => if b = 0 then none else some ((a / b).setWidth 64)
  | .sdiv => if b = 0 then none else some ((a.sdiv b).setWidth 64)
  | .urem => if b = 0 then none else some ((a % b).setWidth 64)
  | .srem => if b = 0 then none else some ((a.srem b).setWidth 64)
  | .and => some ((a &&& b).setWidth 64)
  | .or => some ((a ||| b).setWidth 64)
  | .xor => some ((a ^^^ b).setWidth 64)
  | .shl => if b.toNat < width then some ((a <<< b.toNat).setWidth 64) else none
  | .lshr => if b.toNat < width then some ((a >>> b.toNat).setWidth 64) else none
  | .ashr => if b.toNat < width then some ((a.sshiftRight b.toNat).setWidth 64) else none

/-- The truth value of a comparison of the low bits of two words. -/
def CmpKind.atWidth (k : CmpKind) (width : ℕ) (v w : SVal) : Bool :=
  let a : BitVec width := v.setWidth width
  let b : BitVec width := w.setWidth width
  match k with
  | .eq => a == b
  | .ne => a != b
  | .ult => a.ult b
  | .ule => a.ule b
  | .ugt => b.ult a
  | .uge => b.ule a
  | .slt => a.slt b
  | .sle => a.sle b
  | .sgt => b.slt a
  | .sge => b.sle a

/-- `getOperandValue`; undefined values and constants that do not fit into a word have none. -/
def IRValue.eval (regs : IRValue → SVal) : IRValue → Option SVal
  | .constant (.int _ value) => if value < 2 ^ 64 then some (BitVec.ofNat 64 value) else none
  | .constant .nullPointer => some 0
  | .constant _ => none
  | reg => some (regs reg)

/-- The value that an instruction assigns to its register. -/
def Instruction.eval (regs : IRValue → SVal) : Instruction → Option SVal
  | binary opcode width left right =>
    (left.eval regs).bind fun v => (right.eval regs).bind fun w => opcode.atWidth width v w
  | icmp predicate width left right =>
    (left.eval regs).bind fun v => (right.eval regs).map fun w =>
      SVal.ofBool (predicate.atWidth width v w)
  | select cond ifTrue ifFalse =>
    (cond.eval regs).bind fun c => if c.getBool then ifTrue.eval regs else ifFalse.eval regs
  | cast opcode source target op => (op.eval regs).map (opcode.meaning source target)
  | bitCast op => op.eval regs
  | pointerCast srcSize dstSize width op =>
    if dstSize < srcSize then (op.eval regs).map (CastKind.trunc.meaning (8 * srcSize) width)
    else if srcSize < dstSize then (op.eval regs).map (CastKind.zext.meaning (8 * srcSize) width)
    else op.eval regs
  | extractCAS index cas compareOperand =>
    if index = 0 then cas.eval regs
    else (cas.eval regs).bind fun v => (compareOperand.eval regs).map fun w =>
      SVal.ofBool (v == w)
  | _ => none

namespace IRFunction

/-- A thread in a function. -/
structure State where
  /-- The next instruction. -/
  pos : InstPos
  /-- The values of the registers. -/
  regs : IRValue → SVal

/-- What a step leads to. -/
inductive Outcome where
  | running (s : State)
  -- an assume has failed
  | blocked
  -- a load, an instruction with side effects, an error, or the end of the function
  | stopped

variable (F : IRFunction)

/-- The registers after the phi nodes of a block have got their values. -/
def setPhis (regs : IRValue → SVal) (dest : ℕ) (values : List SVal) : IRValue → SVal
  | .inst q => if q.block = dest then values[q.index]?.getD (regs (.inst q)) else regs (.inst q)
  | reg => regs reg

/-- The incoming value of a phi node for a block. -/
def incomingValue (regs : IRValue → SVal) (block : ℕ) (phi : List (ℕ × IRValue)) : Option SVal :=
  (phi.lookup block).bind (IRValue.eval regs)

/-- `SwitchToNewBasicBlock`. -/
def switchToNewBasicBlock (s : State) (dest : ℕ) : Option State :=
  ((F.phis dest).mapM (incomingValue s.regs s.pos.block)).map fun values =>
    ⟨⟨dest, 0⟩, setPhis s.regs dest values⟩

/-- One step of a thread. -/
def step (s : State) : Option Outcome :=
  (F.inst? s.pos).bind fun i =>
    match i with
    | .phi _ => some (.running { s with pos := s.pos.next })
    | .br dest => (F.switchToNewBasicBlock s dest).map .running
    | .condBr cond ifTrue ifFalse =>
      (cond.eval s.regs).bind fun c =>
        (F.switchToNewBasicBlock s (if c.getBool then ifTrue else ifFalse)).map .running
    | .assume cond =>
      (cond.eval s.regs).map fun c =>
        if c.getBool then .running { s with pos := s.pos.next } else .blocked
    | .load | .atomicCmpXchg | .sideEffect | .error | .exit => some .stopped
    | i => (i.eval s.regs).map fun v =>
        .running ⟨s.pos.next, Function.update s.regs (.inst s.pos) v⟩

/-- A number of steps; a run that has ended stays where it is. -/
def run : ℕ → State → Option Outcome
  | 0, s => some (.running s)
  | n + 1, s =>
    (F.step s).bind fun o =>
      match o with
      | .running s' => run n s'
      | o => some o

/-- The run reaches a failing assume before a load or an instruction with side effects. -/
def ReachesFailingAssume (s : State) : Prop := ∃ n, F.run n s = some .blocked

/-- What every state of a run meets. -/
def Along (P : State → Prop) (s : State) : Prop := ∀ n s', F.run n s = some (.running s') → P s'

variable {F}

section Steps

variable {s : State}

/-- The phi nodes have got their values. -/
lemma step_phi {incoming : List (ℕ × IRValue)} (hi : F.inst? s.pos = some (.phi incoming)) :
    F.step s = some (.running { s with pos := s.pos.next }) := by
  rw [step, hi]
  rfl

/-- An unconditional branch. -/
lemma step_br {dest : ℕ} (hi : F.inst? s.pos = some (.br dest)) :
    F.step s = (F.switchToNewBasicBlock s dest).map .running := by
  rw [step, hi]
  rfl

/-- A conditional branch. -/
lemma step_condBr {cond : IRValue} {ifTrue ifFalse : ℕ}
    (hi : F.inst? s.pos = some (.condBr cond ifTrue ifFalse)) {c : SVal}
    (hc : cond.eval s.regs = some c) :
    F.step s =
      (F.switchToNewBasicBlock s (if c.getBool then ifTrue else ifFalse)).map .running := by
  rw [step, hi]
  exact congrArg (Option.bind · _) hc

/-- A failing assume. -/
lemma step_assume {cond : IRValue} (hi : F.inst? s.pos = some (.assume cond))
    (hc : cond.eval s.regs = some 0) : F.step s = some .blocked := by
  rw [step, hi]
  exact congrArg (Option.map _) hc

/-- An instruction that assigns a value to its register. -/
lemma step_eval {i : Instruction} (hi : F.inst? s.pos = some i) {v : SVal}
    (hv : i.eval s.regs = some v) :
    F.step s = some (.running ⟨s.pos.next, Function.update s.regs (.inst s.pos) v⟩) := by
  rw [step, hi, Option.bind_some]
  cases i <;> first
    | exact congrArg (Option.map _) hv
    | cases hv

end Steps

/-- A run after its first step. -/
lemma run_of_step {s s' : State} (h : F.step s = some (.running s')) (n : ℕ) :
    F.run (n + 1) s = F.run n s' := by
  rw [run, h, Option.bind_some]

/-- A run before its last step. -/
lemma run_succ_eq_running {s s' : State} (n : ℕ) :
    F.run (n + 1) s = some (.running s') ↔
      ∃ s'', F.run n s = some (.running s'') ∧ F.step s'' = some (.running s') := by
  induction n generalizing s with
  | zero =>
    constructor
    · intro h
      rw [run] at h
      obtain ⟨o, ho, h⟩ := Option.bind_eq_some_iff.mp h
      cases o with
      | running t => exact ⟨s, rfl, ho.trans h⟩
      | _ => cases h
    · rintro ⟨s'', hs, hstep⟩
      obtain rfl := Outcome.running.inj (Option.some.inj hs)
      exact run_of_step hstep 0
  | succ n ih =>
    constructor
    · intro h
      rw [run] at h
      obtain ⟨o, ho, h⟩ := Option.bind_eq_some_iff.mp h
      cases o with
      | running t =>
        obtain ⟨s'', hrun, hstep⟩ := ih.mp h
        exact ⟨s'', (run_of_step ho n).trans hrun, hstep⟩
      | _ => cases h
    · rintro ⟨s'', hrun, hstep⟩
      rw [run] at hrun
      obtain ⟨o, ho, hrun⟩ := Option.bind_eq_some_iff.mp hrun
      cases o with
      | running t => exact (run_of_step ho (n + 1)).trans (ih.mpr ⟨s'', hrun, hstep⟩)
      | _ => cases hrun

/-- The first state of a run. -/
lemma Along.here {P : State → Prop} {s : State} (h : F.Along P s) : P s := h 0 s rfl

/-- The run that is left after a step. -/
lemma Along.next {P : State → Prop} {s s' : State} (h : F.Along P s)
    (hstep : F.step s = some (.running s')) : F.Along P s' :=
  fun n s'' hrun => h (n + 1) s'' ((run_of_step hstep n).trans hrun)

/-- A run that fails after a step. -/
lemma ReachesFailingAssume.of_step {s s' : State} (hstep : F.step s = some (.running s'))
    (h : F.ReachesFailingAssume s') : F.ReachesFailingAssume s := by
  obtain ⟨n, hn⟩ := h
  exact ⟨n + 1, (run_of_step hstep n).trans hn⟩

end IRFunction

end GenMC
