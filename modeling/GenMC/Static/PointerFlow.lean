import GenMC.Static.LLVMUtils
import GenMC.Static.SSAFunction

/-!
# The flow of addresses through a function

Which memory an address belongs to cannot be forged: the result of an operation is an address of
memory that one of its operands has an address of.  An execution of a function records what may tell
other code about an address: calls, returns, and stores.  Memory of other code is reached through
global variables, arguments and the results of calls.

Loads are left open as far as other threads and reordering are: a load returns an address that has
been stored in the memory it reads, or one that other code knows.  `step_block` and `step_event` say
where an address and an entry of the record come from.
-/

namespace GenMC

/-- The operations that matter for addresses. -/
inductive MemoryOp (Fn Pure : Type*) where
  | alloca
  -- whether all indices are zero
  | getElementPtr (zeroIndices : Bool)
  | load
  | store
  | atomicRMW (op : Pure)
  | call (callee : Callee Fn)
  | invoke (callee : Callee Fn)
  | ret
  -- any other operation, as selects, comparisons and switches are
  | pure (op : Pure)
deriving DecidableEq

/-- Memory that is not allocated by a function, and the memory that an instruction of the function
has allocated at a time. -/
inductive MemBlock where
  | outside (n : ℕ)
  | allocated (site : InstPos) (time : ℕ)
deriving DecidableEq

/-- A value; the result of a compare-exchange is the value that it has read, with a bit. -/
inductive PtrValue where
  | int (n : ℤ)
  | pointer (block : MemBlock) (offset : ℤ)
  | casResult (value : PtrValue) (success : Bool)
deriving DecidableEq

/-- The memory that a value is an address of. -/
def PtrValue.block? : PtrValue → Option MemBlock
  | int _ => none
  | pointer block _ => some block
  | casResult value _ => value.block?

/-- What an execution does with addresses. -/
inductive PtrEvent where
  -- an argument of a call
  | passed (block : MemBlock)
  | returned (block : MemBlock)
  | stored (block target : MemBlock)
deriving DecidableEq

/-- Other code can get the address: it has been returned or passed to a call, or it is stored in
memory that is global, reached through an argument, or has escaped itself. -/
inductive Escaped (events : List PtrEvent) : MemBlock → Prop
  | outside (n : ℕ) : Escaped events (.outside n)
  | passed {b} : .passed b ∈ events → Escaped events b
  | returned {b} : .returned b ∈ events → Escaped events b
  | stored {b c} : .stored b c ∈ events → Escaped events c → Escaped events b

/-- What has escaped does not come back. -/
lemma Escaped.mono {events events' : List PtrEvent} (h : ∀ e ∈ events, e ∈ events')
    {b : MemBlock} (hb : Escaped events b) : Escaped events' b := by
  induction hb with
  | outside n => exact .outside n
  | passed hmem => exact .passed (h _ hmem)
  | returned hmem => exact .returned (h _ hmem)
  | stored hmem _ ih => exact .stored (h _ hmem) ih

/-- An address of the first memory has been stored in the second one, directly or through the memory
of others. -/
abbrev Holds (events : List PtrEvent) : MemBlock → MemBlock → Prop :=
  Relation.ReflTransGen fun b c => .stored b c ∈ events

/-- The results of operations, which forge no addresses. -/
structure PtrSemantics (Pure : Type*) where
  /-- The value of a cast. -/
  cast : CastOps → PtrValue → PtrValue
  /-- The address that indices lead to. -/
  getElementPtr : PtrValue → List PtrValue → PtrValue
  /-- The result of any other operation. -/
  eval : Pure → List PtrValue → PtrValue
  /-- The successor that a terminator chooses. -/
  choose : Pure → List PtrValue → ℕ
  block?_cast : ∀ op v b, (cast op v).block? = some b → v.block? = some b
  block?_getElementPtr : ∀ v indices b, (getElementPtr v indices).block? = some b →
    v.block? = some b
  block?_eval : ∀ op vs b, (eval op vs).block? = some b → ∃ v ∈ vs, v.block? = some b

namespace SSAInst

variable {Op : Type*}

/-- The values that an instruction uses. -/
def usedValues : SSAInst Op → List IRValue
  | phi incoming => incoming.map Prod.snd
  | i => i.operands

/-- The pointer that an instruction writes through. -/
def writtenPointer {Fn Pure : Type*} : SSAInst (MemoryOp Fn Pure) → Option IRValue
  | other .store [_, pointer] => some pointer
  | cmpXchg pointer _ _ => some pointer
  | other (.atomicRMW _) [pointer, _] => some pointer
  | _ => none

/-- The operand of a cast, and the pointer that indices start from. -/
def base? {Fn Pure : Type*} : SSAInst (MemoryOp Fn Pure) → Option IRValue
  | cast _ operand => some operand
  | other (.getElementPtr _) (base :: _) => some base
  | _ => none

/-- What is left of an instruction, when casts have been stripped. -/
def toStripped {Fn Pure : Type*} : SSAInst (MemoryOp Fn Pure) → StrippedInst Fn
  | other .alloca _ => .alloca
  | other (.call callee) _ => .call callee
  | _ => .other

end SSAInst

/-- The state of an execution. -/
structure PtrState where
  /-- The next instruction. -/
  pos : InstPos
  /-- The values of the registers. -/
  regs : IRValue → PtrValue
  /-- What has happened to addresses, the last event first. -/
  events : List PtrEvent
  /-- The number of steps so far. -/
  time : ℕ

namespace PtrState

/-- The register of the next instruction gets a value. -/
def assign (s : PtrState) (v : PtrValue) (new : List PtrEvent) : PtrState :=
  ⟨s.pos.next, Function.update s.regs (.inst s.pos) v, new ++ s.events, s.time + 1⟩

/-- The register of an invoke gets a value before the branch. -/
def invoked (s : PtrState) (v : PtrValue) (new : List PtrEvent) : PtrState :=
  { s with regs := Function.update s.regs (.inst s.pos) v, events := new ++ s.events }

/-- The memory that the next instruction allocates. -/
def fresh (s : PtrState) : MemBlock := .allocated s.pos s.time

/-- The memory that operands have addresses of. -/
def blocks (s : PtrState) (operands : List IRValue) : List MemBlock :=
  operands.filterMap fun o => (s.regs o).block?

/-- An address is stored through a pointer. -/
def storeEvents (v : PtrValue) (target : MemBlock) : List PtrEvent :=
  (v.block?.map (PtrEvent.stored · target)).toList

/-- What a load may return: an address that has been stored in the memory that it reads, or one that
other code knows. -/
def Readable (s : PtrState) (target : MemBlock) (v : PtrValue) : Prop :=
  ∀ b, v.block? = some b → .stored b target ∈ s.events ∨ Escaped s.events b

end PtrState

/-- What is known about the functions that are called. -/
structure CallContext (Fn : Type*) where
  /-- `getName`. -/
  name : Fn → String
  /-- The functions that return allocations. -/
  allocFuns : Finset Fn

namespace CallContext

variable {Fn : Type*} [DecidableEq Fn] (ctx : CallContext Fn)

/-- Whether a call is one of a clean internal function. -/
def isClean (callee : Callee Fn) : Bool :=
  isCleanInternalFunction (callee.getCalledFunOrStripValName ctx.name)

/-- Whether a call allocates. -/
def allocates (callee : Callee Fn) : Bool :=
  (StrippedInst.call callee).isAlloc ctx.name (some ctx.allocFuns)

/-- Whether an instruction allocates memory itself. -/
def isAllocation {Pure : Type*} (i : SSAInst (MemoryOp Fn Pure)) : Bool :=
  i.toStripped.isAlloc ctx.name (some ctx.allocFuns)

/-- The arguments of a call that is none of a clean internal function are passed on. -/
def callEvents (s : PtrState) (callee : Callee Fn) (operands : List IRValue) : List PtrEvent :=
  if ctx.isClean callee then [] else (s.blocks operands).map .passed

/-- A called function returns no other addresses than those of its arguments and those that other
code knows. -/
def Returnable (s : PtrState) (callee : Callee Fn) (operands : List IRValue) (v : PtrValue) :
    Prop :=
  ∀ b, v.block? = some b →
    b ∈ s.blocks operands ∨ Escaped (ctx.callEvents s callee operands ++ s.events) b

end CallContext

namespace SSAFunction

variable {Fn Pure : Type*} [DecidableEq Fn] (F : SSAFunction (MemoryOp Fn Pure))
  (ctx : CallContext Fn) (sem : PtrSemantics Pure)

/-- The registers after the phi nodes of a block have got their values. -/
def setPtrPhis (regs : IRValue → PtrValue) (block dest : ℕ) : IRValue → PtrValue
  | .inst q =>
    if q.block = dest then
      match F.inst? q with
      | some (.phi incoming) =>
        match incoming.lookup block with
        | some o => regs o
        | none => regs (.inst q)
      | _ => regs (.inst q)
    else regs (.inst q)
  | v => regs v

/-- The branch to a block. -/
def enterBlock (s : PtrState) (dest : ℕ) : PtrState :=
  ⟨⟨dest, 0⟩, F.setPtrPhis s.regs s.pos.block dest, s.events, s.time + 1⟩

/-- A position without an instruction, where a return leads. -/
def exit : InstPos := ⟨F.blocks.length, 0⟩

/-- One step of an execution. -/
inductive PtrStep (s : PtrState) : PtrState → Prop
  | phi {incoming} : F.inst? s.pos = some (.phi incoming) →
    PtrStep s ⟨s.pos.next, s.regs, s.events, s.time + 1⟩
  | cast {op o} : F.inst? s.pos = some (.cast op o) →
    PtrStep s (s.assign (sem.cast op (s.regs o)) [])
  | extractCAS {cas index value success} : F.inst? s.pos = some (.extractCAS cas index) →
    s.regs cas = .casResult value success →
    PtrStep s (s.assign (if index = 0 then value else .int success.toInt) [])
  | cmpXchg {pointer compareOperand newValue target offset v} :
    F.inst? s.pos = some (.cmpXchg pointer compareOperand newValue) →
    s.regs pointer = .pointer target offset → s.Readable target v →
    v = s.regs compareOperand →
    PtrStep s (s.assign (.casResult v true) (PtrState.storeEvents (s.regs newValue) target))
  | cmpXchgFailed {pointer compareOperand newValue target offset v} :
    F.inst? s.pos = some (.cmpXchg pointer compareOperand newValue) →
    s.regs pointer = .pointer target offset → s.Readable target v →
    PtrStep s (s.assign (.casResult v false) [])
  | alloca {operands} : F.inst? s.pos = some (.other .alloca operands) →
    PtrStep s (s.assign (.pointer s.fresh 0) [])
  | getElementPtr {zeroIndices base indices} :
    F.inst? s.pos = some (.other (.getElementPtr zeroIndices) (base :: indices)) →
    PtrStep s (s.assign (sem.getElementPtr (s.regs base) (indices.map s.regs)) [])
  | load {pointer target offset v} : F.inst? s.pos = some (.other .load [pointer]) →
    s.regs pointer = .pointer target offset → s.Readable target v → PtrStep s (s.assign v [])
  | store {value pointer target offset} : F.inst? s.pos = some (.other .store [value, pointer]) →
    s.regs pointer = .pointer target offset →
    PtrStep s (s.assign (.int 0) (PtrState.storeEvents (s.regs value) target))
  | atomicRMW {op pointer value target offset v} :
    F.inst? s.pos = some (.other (.atomicRMW op) [pointer, value]) →
    s.regs pointer = .pointer target offset → s.Readable target v →
    PtrStep s (s.assign v (PtrState.storeEvents (sem.eval op [v, s.regs value]) target))
  -- a call that allocates returns new memory, or none; the called function may have told others
  | allocCall {callee operands v} {published : Bool} :
    F.inst? s.pos = some (.other (.call callee) operands) → ctx.allocates callee = true →
    (∀ b, v.block? = some b → b = s.fresh) →
    PtrStep s (s.assign v ((if published then [.stored s.fresh (.outside 0)] else []) ++
      ctx.callEvents s callee operands))
  | call {callee operands v} : F.inst? s.pos = some (.other (.call callee) operands) →
    ctx.allocates callee = false → ctx.Returnable s callee operands v →
    PtrStep s (s.assign v (ctx.callEvents s callee operands))
  | pure {op operands} : F.inst? s.pos = some (.other (.pure op) operands) →
    PtrStep s (s.assign (sem.eval op (operands.map s.regs)) [])
  | br {dest} : F.inst? s.pos = some (.br dest) → PtrStep s (F.enterBlock s dest)
  | condBr {cond ifTrue ifFalse} : F.inst? s.pos = some (.condBr cond ifTrue ifFalse) →
    PtrStep s (F.enterBlock s (if s.regs cond = .int 0 then ifFalse else ifTrue))
  | switch {op operands successors dest} :
    F.inst? s.pos = some (.terminator (.pure op) operands successors) →
    successors[sem.choose op (operands.map s.regs)]? = some dest →
    PtrStep s (F.enterBlock s dest)
  | invoke {callee operands successors dest v} :
    F.inst? s.pos = some (.terminator (.invoke callee) operands successors) → dest ∈ successors →
    ctx.Returnable s callee operands v →
    PtrStep s (F.enterBlock (s.invoked v (ctx.callEvents s callee operands)) dest)
  | ret {operands successors} : F.inst? s.pos = some (.terminator .ret operands successors) →
    PtrStep s ⟨F.exit, s.regs, (s.blocks operands).map .returned ++ s.events, s.time + 1⟩

/-- What is assumed at the beginning: arguments and constants are addresses of other memory. -/
structure PtrStart (s : PtrState) : Prop where
  pos : s.pos = entry
  events : s.events = []
  time : s.time = 0
  /-- No register has been assigned. -/
  inst : ∀ p, (s.regs (.inst p)).block? = none
  /-- Nothing has been allocated. -/
  block : ∀ v b, (s.regs v).block? = some b → ∃ n, b = .outside n

/-- An execution, by its states. -/
structure PtrRun (σ : ℕ → PtrState) (n : ℕ) : Prop where
  start : PtrStart (σ 0)
  step : ∀ i < n, F.PtrStep ctx sem (σ i) (σ (i + 1))

/-! ## Where addresses come from -/

/-- The result of an instruction neither is new memory nor has a base. -/
def Plain (i : SSAInst (MemoryOp Fn Pure)) : Prop :=
  ctx.isAllocation i = false ∧ i.base? = none

/-- Where the address in the register of an instruction comes from: new memory, the base or another
operand, memory that an operand is an address of, or other code.  A phi node may get the result of
the terminator before it. -/
inductive Origin (s s' : PtrState) (b : MemBlock) : InstPos → SSAInst (MemoryOp Fn Pure) → Prop
  | fresh {i} : ctx.isAllocation i = true → b = s.fresh → Origin s s' b s.pos i
  | base {p i o} : i.base? = some o → (s.regs o).block? = some b → Origin s s' b p i
  | operand {p i o} : Plain ctx i → o ∈ i.usedValues → (s.regs o).block? = some b →
    Origin s s' b p i
  | read {p i o c} : Plain ctx i → o ∈ i.usedValues → (s.regs o).block? = some c →
    .stored b c ∈ s.events → Origin s s' b p i
  | known {p i} : Plain ctx i → Escaped s'.events b → Origin s s' b p i
  | through {p i q j} : Plain ctx i → .inst q ∈ i.usedValues → F.inst? q = some j →
    Origin s s' b q j → Origin s s' b p i

/-- What causes an event: a call, a return, a store of an address through a pointer, or a called
function that allocates. -/
inductive Cause (s : PtrState) (i : SSAInst (MemoryOp Fn Pure)) : PtrEvent → Prop
  | call {callee operands o b} : i = .other (.call callee) operands → ctx.isClean callee = false →
    o ∈ i.usedValues → (s.regs o).block? = some b → Cause s i (.passed b)
  | invoke {callee operands successors o b} : i = .terminator (.invoke callee) operands successors →
    o ∈ i.usedValues → (s.regs o).block? = some b → Cause s i (.passed b)
  | ret {operands successors o b} : i = .terminator .ret operands successors →
    o ∈ i.usedValues → (s.regs o).block? = some b → Cause s i (.returned b)
  | store {pointer c o b} : i.writtenPointer = some pointer → (s.regs pointer).block? = some c →
    o ∈ i.usedValues → (s.regs o).block? = some b → Cause s i (.stored b c)
  | known {b c} : Escaped s.events b → Cause s i (.stored b c)
  | published {c} : Cause s i (.stored s.fresh c)

variable {F ctx sem} {s s' : PtrState}

omit [DecidableEq Fn] in
lemma mem_blocks {operands : List IRValue} {b : MemBlock} :
    b ∈ s.blocks operands ↔ ∃ o ∈ operands, (s.regs o).block? = some b := List.mem_filterMap

/-- The only register that changes is the one of the instruction. -/
lemma block?_assign {v : PtrValue} {new : List PtrEvent} {w : IRValue} {b : MemBlock}
    (h : ((s.assign v new).regs w).block? = some b) :
    (s.regs w).block? = some b ∨ (w = .inst s.pos ∧ v.block? = some b) := by
  by_cases hw : w = .inst s.pos
  · subst hw
    change (Function.update s.regs (.inst s.pos) v (.inst s.pos)).block? = some b at h
    rw [Function.update_self] at h
    exact .inr ⟨rfl, h⟩
  · change (Function.update s.regs (.inst s.pos) v w).block? = some b at h
    rw [Function.update_of_ne hw] at h
    exact .inl h

omit [DecidableEq Fn] in
/-- The only registers that a branch changes are those of phi nodes. -/
lemma block?_enterBlock {dest : ℕ} {w : IRValue} {b : MemBlock}
    (h : ((F.enterBlock s dest).regs w).block? = some b) :
    (s.regs w).block? = some b ∨ ∃ q incoming, w = .inst q ∧ F.inst? q = some (.phi incoming) ∧
      ∃ o ∈ incoming.map Prod.snd, (s.regs o).block? = some b := by
  change (F.setPtrPhis s.regs s.pos.block dest w).block? = some b at h
  cases w with
  | inst q =>
    simp only [setPtrPhis] at h
    split at h
    next =>
      split at h
      next hphi =>
        split at h
        next o ho =>
          obtain ⟨l₁, l₂, rfl, -⟩ := List.lookup_eq_some_iff.mp ho
          have hmem : o ∈ (l₁ ++ (s.pos.block, o) :: l₂).map Prod.snd := by simp
          exact .inr ⟨q, _, rfl, hphi, o, hmem, h⟩
        next => exact .inl h
      next => exact .inl h
    next => exact .inl h
  | argument n => exact .inl h
  | constant c => exact .inl h

lemma origin_assign {i : SSAInst (MemoryOp Fn Pure)} (hi : F.inst? s.pos = some i) {v : PtrValue}
    {new : List PtrEvent} {w : IRValue} {b : MemBlock}
    (horigin : v.block? = some b → F.Origin ctx s (s.assign v new) b s.pos i)
    (hw : ((s.assign v new).regs w).block? = some b) :
    (s.regs w).block? = some b ∨ ∃ p i, w = .inst p ∧ F.inst? p = some i ∧
      F.Origin ctx s (s.assign v new) b p i := by
  rcases block?_assign hw with hw | ⟨rfl, hv⟩
  · exact .inl hw
  · exact .inr ⟨s.pos, i, rfl, hi, horigin hv⟩

lemma origin_enterBlock {dest : ℕ} {w : IRValue} {b : MemBlock}
    (hw : ((F.enterBlock s dest).regs w).block? = some b) :
    (s.regs w).block? = some b ∨ ∃ p i, w = .inst p ∧ F.inst? p = some i ∧
      F.Origin ctx s (F.enterBlock s dest) b p i := by
  obtain hw | ⟨q, incoming, rfl, hq, o, ho, hb⟩ := block?_enterBlock hw
  · exact .inl hw
  · exact .inr ⟨q, _, rfl, hq, .operand ⟨rfl, rfl⟩ ho hb⟩

/-- The result of an operation. -/
lemma origin_eval {op : Pure} {operands : List IRValue} {b : MemBlock} {p : InstPos}
    {i : SSAInst (MemoryOp Fn Pure)} (hplain : Plain ctx i)
    (hoperands : ∀ o ∈ operands, o ∈ i.usedValues)
    (hb : (sem.eval op (operands.map s.regs)).block? = some b) : F.Origin ctx s s' b p i := by
  obtain ⟨v, hv, hb⟩ := sem.block?_eval op _ b hb
  obtain ⟨o, ho, rfl⟩ := List.mem_map.mp hv
  exact .operand hplain (hoperands o ho) hb

lemma origin_readable {i : SSAInst (MemoryOp Fn Pure)} (hplain : Plain ctx i) {pointer : IRValue}
    (hpointer : pointer ∈ i.usedValues) {target : MemBlock} {offset : ℤ}
    (htarget : s.regs pointer = .pointer target offset) {v : PtrValue}
    (hv : s.Readable target v) (hevents : ∀ e ∈ s.events, e ∈ s'.events) {b : MemBlock}
    (hb : v.block? = some b) {p : InstPos} : F.Origin ctx s s' b p i := by
  rcases hv b hb with hstored | hescaped
  · exact .read hplain hpointer (by rw [htarget]; rfl) hstored
  · exact .known hplain (hescaped.mono hevents)

lemma origin_returnable {callee : Callee Fn} {operands : List IRValue} {v : PtrValue}
    (hv : ctx.Returnable s callee operands v) {i : SSAInst (MemoryOp Fn Pure)}
    (hplain : Plain ctx i) (hoperands : ∀ o ∈ operands, o ∈ i.usedValues)
    (hevents : s'.events = ctx.callEvents s callee operands ++ s.events) {b : MemBlock}
    (hb : v.block? = some b) {p : InstPos} : F.Origin ctx s s' b p i := by
  rcases hv b hb with hmem | hescaped
  · obtain ⟨o, ho, hob⟩ := mem_blocks.mp hmem
    exact .operand hplain (hoperands o ho) hob
  · exact .known hplain (hevents ▸ hescaped)

/-- **Where an address comes from.**  A step changes the register of an instruction, or those of phi
nodes, and an address in it has an origin. -/
theorem step_block (h : F.PtrStep ctx sem s s') {w : IRValue} {b : MemBlock}
    (hw : (s'.regs w).block? = some b) :
    (s.regs w).block? = some b ∨ ∃ p i, w = .inst p ∧ F.inst? p = some i ∧
      F.Origin ctx s s' b p i := by
  cases h with
  | phi hi => exact .inl hw
  | cast hi => exact origin_assign hi (fun hb => .base rfl (sem.block?_cast _ _ b hb)) hw
  | @extractCAS cas index value success hi hcas =>
    refine origin_assign hi (fun hb => .operand ⟨rfl, rfl⟩ List.mem_cons_self ?_) hw
    rw [hcas]
    split at hb
    · exact hb
    · cases hb
  | cmpXchg hi hpointer hv _ =>
    refine origin_assign hi (fun hb => ?_) hw
    exact origin_readable ⟨rfl, rfl⟩ List.mem_cons_self hpointer hv
      (fun e he => List.mem_append_right _ he) hb
  | cmpXchgFailed hi hpointer hv =>
    refine origin_assign hi (fun hb => ?_) hw
    exact origin_readable ⟨rfl, rfl⟩ List.mem_cons_self hpointer hv
      (fun e he => List.mem_append_right _ he) hb
  | alloca hi => exact origin_assign hi (fun hb => .fresh rfl (Option.some.inj hb).symm) hw
  | getElementPtr hi =>
    exact origin_assign hi (fun hb => .base rfl (sem.block?_getElementPtr _ _ b hb)) hw
  | load hi hpointer hv =>
    refine origin_assign hi (fun hb => ?_) hw
    exact origin_readable ⟨rfl, rfl⟩ List.mem_cons_self hpointer hv
      (fun e he => List.mem_append_right _ he) hb
  | store hi _ => exact origin_assign hi (fun hb => nomatch hb) hw
  | atomicRMW hi hpointer hv =>
    refine origin_assign hi (fun hb => ?_) hw
    exact origin_readable ⟨rfl, rfl⟩ List.mem_cons_self hpointer hv
      (fun e he => List.mem_append_right _ he) hb
  | allocCall hi halloc hv => exact origin_assign hi (fun hb => .fresh halloc (hv b hb)) hw
  | @call callee operands v hi halloc hv =>
    refine origin_assign hi (fun hb => ?_) hw
    exact origin_returnable (i := .other (.call callee) operands) hv ⟨halloc, rfl⟩ (fun _ ho => ho)
      rfl hb
  | pure hi => exact origin_assign hi (origin_eval ⟨rfl, rfl⟩ fun _ ho => ho) hw
  | br _ => exact origin_enterBlock hw
  | condBr _ => exact origin_enterBlock hw
  | switch _ _ => exact origin_enterBlock hw
  | @invoke callee operands successors dest v hi _ hv =>
    -- the register is assigned before the phi nodes
    have horigin (hb : v.block? = some b) : F.Origin ctx s
        (F.enterBlock (s.invoked v (ctx.callEvents s callee operands)) dest) b s.pos
        (.terminator (.invoke callee) operands successors) :=
      origin_returnable (i := .terminator (.invoke callee) operands successors) hv ⟨rfl, rfl⟩
        (fun _ ho => ho) rfl hb
    have hassigned {o : IRValue} (ho : ((s.assign v []).regs o).block? = some b) :
        (s.regs o).block? = some b ∨ o = .inst s.pos ∧ v.block? = some b := block?_assign ho
    obtain hw | ⟨q, incoming, rfl, hq, o, ho, hb⟩ := block?_enterBlock hw
    · rcases hassigned hw with hw | ⟨rfl, hv⟩
      · exact .inl hw
      · exact .inr ⟨s.pos, _, rfl, hi, horigin hv⟩
    · refine .inr ⟨q, _, rfl, hq, ?_⟩
      rcases hassigned hb with hb | ⟨rfl, hv⟩
      · exact .operand ⟨rfl, rfl⟩ ho hb
      · exact .through ⟨rfl, rfl⟩ ho hi (horigin hv)
  | ret _ => exact .inl hw

omit [DecidableEq Fn] in
lemma mem_storeEvents {v : PtrValue} {target : MemBlock} {e : PtrEvent}
    (he : e ∈ PtrState.storeEvents v target) : ∃ b, v.block? = some b ∧ e = .stored b target := by
  obtain ⟨b, hb, rfl⟩ := Option.map_eq_some_iff.mp (Option.mem_toList.mp he)
  exact ⟨b, hb, rfl⟩

omit [DecidableEq Fn] in
lemma cause_store {i : SSAInst (MemoryOp Fn Pure)} {pointer o : IRValue}
    (hpointer : i.writtenPointer = some pointer) {target : MemBlock} {offset : ℤ}
    (htarget : s.regs pointer = .pointer target offset) (ho : o ∈ i.usedValues) {e : PtrEvent}
    (he : e ∈ PtrState.storeEvents (s.regs o) target) : Cause ctx s i e := by
  obtain ⟨b, hb, rfl⟩ := mem_storeEvents he
  exact .store hpointer (by rw [htarget]; rfl) ho hb

/-- **What happens to addresses.**  Every event has a cause. -/
theorem step_event (h : F.PtrStep ctx sem s s') {e : PtrEvent} (he : e ∈ s'.events) :
    e ∈ s.events ∨ ∃ i, F.inst? s.pos = some i ∧ Cause ctx s i e := by
  have hnew {new : List PtrEvent} (he : e ∈ new ++ s.events) {i : SSAInst (MemoryOp Fn Pure)}
      (hi : F.inst? s.pos = some i) (hcause : e ∈ new → e ∈ s.events ∨ Cause ctx s i e) :
      e ∈ s.events ∨ ∃ i, F.inst? s.pos = some i ∧ Cause ctx s i e := by
    rcases List.mem_append.mp he with he | he
    · exact (hcause he).imp_right fun h => ⟨i, hi, h⟩
    · exact .inl he
  have hargument {callee : Callee Fn} {operands : List IRValue}
      (he : e ∈ ctx.callEvents s callee operands) : ctx.isClean callee = false ∧
        ∃ o ∈ operands, ∃ b, (s.regs o).block? = some b ∧ e = .passed b := by
    unfold CallContext.callEvents at he
    split at he
    · cases he
    · rename_i hclean
      obtain ⟨b, hb, rfl⟩ := List.mem_map.mp he
      obtain ⟨o, ho, hob⟩ := mem_blocks.mp hb
      exact ⟨Bool.eq_false_of_not_eq_true hclean, o, ho, b, hob, rfl⟩
  cases h with
  | phi _ => exact .inl he
  | cast _ => exact .inl he
  | extractCAS _ _ => exact .inl he
  | @cmpXchg pointer compareOperand newValue _ _ _ hi hpointer _ _ =>
    have hmem : newValue ∈ (.cmpXchg pointer compareOperand newValue :
        SSAInst (MemoryOp Fn Pure)).usedValues := by
      simp [SSAInst.usedValues, SSAInst.operands]
    exact hnew he hi fun he => .inr (cause_store rfl hpointer hmem he)
  | cmpXchgFailed _ _ _ => exact .inl he
  | alloca _ => exact .inl he
  | getElementPtr _ => exact .inl he
  | load _ _ _ => exact .inl he
  | store hi hpointer =>
    exact hnew he hi fun he => .inr (cause_store rfl hpointer List.mem_cons_self he)
  | @atomicRMW op pointer value target offset v hi hpointer hv =>
    refine hnew he hi fun he => ?_
    obtain ⟨b, hb, rfl⟩ := mem_storeEvents he
    obtain ⟨w, hw, hwb⟩ := sem.block?_eval _ _ b hb
    rcases List.mem_cons.mp hw with rfl | hw
    · -- the old value is written back
      rcases hv b hwb with hstored | hescaped
      · exact .inl hstored
      · exact .inr (.known hescaped)
    · obtain rfl := List.mem_singleton.mp hw
      have hmem : value ∈ (.other (.atomicRMW op) [pointer, value] :
          SSAInst (MemoryOp Fn Pure)).usedValues := List.mem_cons_of_mem _ List.mem_cons_self
      exact .inr (.store rfl (by rw [hpointer]; rfl) hmem hwb)
  | allocCall hi _ _ =>
    refine hnew he hi fun he => .inr ?_
    rcases List.mem_append.mp he with he | he
    · split at he
      · obtain rfl := List.mem_singleton.mp he
        exact .published
      · cases he
    · obtain ⟨hclean, o, ho, b, hb, rfl⟩ := hargument he
      exact .call rfl hclean ho hb
  | call hi _ _ =>
    refine hnew he hi fun he => .inr ?_
    obtain ⟨hclean, o, ho, b, hb, rfl⟩ := hargument he
    exact .call rfl hclean ho hb
  | pure _ => exact .inl he
  | br _ => exact .inl he
  | condBr _ => exact .inl he
  | switch _ _ => exact .inl he
  | invoke hi _ _ =>
    refine hnew he hi fun he => .inr ?_
    obtain ⟨-, o, ho, b, hb, rfl⟩ := hargument he
    exact .invoke rfl ho hb
  | ret hi =>
    refine hnew he hi fun he => .inr ?_
    obtain ⟨b, hb, rfl⟩ := List.mem_map.mp he
    obtain ⟨o, ho, hob⟩ := mem_blocks.mp hb
    exact .ret rfl ho hob

/-- The record of events only grows. -/
lemma events_of_step (h : F.PtrStep ctx sem s s') : ∀ e ∈ s.events, e ∈ s'.events := by
  intro e he
  cases h <;> first | exact he | exact List.mem_append_right _ he

lemma time_of_step (h : F.PtrStep ctx sem s s') : s'.time = s.time + 1 := by
  cases h <;> rfl

/-- An instruction is executed. -/
lemma exists_inst?_of_ptrStep (h : F.PtrStep ctx sem s s') : ∃ i, F.inst? s.pos = some i := by
  cases h <;> exact ⟨_, ‹_›⟩

/-- A step follows the control flow, if it does not return. -/
lemma edge_of_ptrStep (h : F.PtrStep ctx sem s s') {i : SSAInst (MemoryOp Fn Pure)}
    (hi : F.inst? s'.pos = some i) : F.Edge s.pos s'.pos := by
  cases h with
  | phi hj => exact ⟨_, hj, rfl⟩
  | cast hj => exact ⟨_, hj, rfl⟩
  | extractCAS hj _ => exact ⟨_, hj, rfl⟩
  | cmpXchg hj _ _ _ => exact ⟨_, hj, rfl⟩
  | cmpXchgFailed hj _ _ => exact ⟨_, hj, rfl⟩
  | alloca hj => exact ⟨_, hj, rfl⟩
  | getElementPtr hj => exact ⟨_, hj, rfl⟩
  | load hj _ _ => exact ⟨_, hj, rfl⟩
  | store hj _ => exact ⟨_, hj, rfl⟩
  | atomicRMW hj _ _ => exact ⟨_, hj, rfl⟩
  | allocCall hj _ _ => exact ⟨_, hj, rfl⟩
  | call hj _ _ => exact ⟨_, hj, rfl⟩
  | pure hj => exact ⟨_, hj, rfl⟩
  | br hj => exact ⟨_, hj, _, List.mem_singleton_self _, rfl⟩
  | condBr hj =>
    refine ⟨_, hj, _, ?_, rfl⟩
    split <;> simp [SSAInst.targets]
  | switch hj hdest => exact ⟨_, hj, _, List.mem_of_getElem? hdest, rfl⟩
  | invoke hj hdest _ => exact ⟨_, hj, _, hdest, rfl⟩
  | ret _ =>
    obtain ⟨insts, hinsts, -⟩ := Option.bind_eq_some_iff.mp hi
    exact absurd (List.getElem?_eq_some_iff.mp hinsts).1 (Nat.lt_irrefl _)

variable {σ : ℕ → PtrState} {n : ℕ}

/-- An execution that has not come to an instruction avoids it on its way. -/
lemma PtrRun.avoids (hrun : F.PtrRun ctx sem σ n) {b : InstPos} {m : ℕ}
    (hb : ∀ i < m, (σ i).pos ≠ b) (hm : m < n) : Dominance.Avoids F.Edge entry b (σ m).pos := by
  induction m with
  | zero =>
    rw [hrun.start.pos]
    exact .root
  | succ m ih =>
    have hstep := hrun.step m (Nat.lt_of_succ_lt hm)
    obtain ⟨i, hi⟩ := exists_inst?_of_ptrStep (hrun.step (m + 1) hm)
    have havoids := ih (fun i hi => hb i (Nat.lt_succ_of_lt hi)) (Nat.lt_of_succ_lt hm)
    exact .step havoids (hb m (Nat.lt_succ_self m)) (edge_of_ptrStep hstep hi)

lemma PtrRun.time (hrun : F.PtrRun ctx sem σ n) {i : ℕ} (hi : i ≤ n) : (σ i).time = i := by
  induction i with
  | zero => exact hrun.start.time
  | succ i ih => rw [time_of_step (hrun.step i hi), ih (Nat.le_of_succ_le hi)]

lemma PtrRun.events (hrun : F.PtrRun ctx sem σ n) {i j : ℕ} (hij : i ≤ j) (hj : j ≤ n)
    {e : PtrEvent} (he : e ∈ (σ i).events) : e ∈ (σ j).events := by
  induction hij with
  | refl => exact he
  | @step j hij ih => exact events_of_step (hrun.step j hj) e (ih (Nat.le_of_succ_le hj))

end SSAFunction

end GenMC
