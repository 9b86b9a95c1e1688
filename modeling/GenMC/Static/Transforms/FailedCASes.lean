import GenMC.Static.Transforms.BackedgeCond
import GenMC.Support.PartialEvaluation
import Mathlib.Data.Nat.Bitwise

/-!
# Failed compare-exchanges of a spin loop

`failedCASesLeadToHeader` asks whether an iteration of a loop that comes back to its header has only
failed compare-exchanges.  The conditions of the back edge for all compare-exchanges are put into a
conjunction, which must be false for all outcomes other than that all of them fail.

A condition is about what follows a compare-exchange.  One that an iteration does not execute takes
part in the conjunction too, and if its condition is false then the test does not see that another
one may come back to the header after it has succeeded.  The test is right for the iterations whose
instructions are evaluated as they are executed and whose outcomes let the other compare-exchanges
lead to the header as well (`failedCASesLeadToHeader_sound`).
-/

namespace GenMC

namespace IRFunction

variable (F : IRFunction)

/-! ## The test -/

/-- `isCASExtract`: whether an instruction extracts from a compare-exchange whether it has
succeeded. -/
def isCASExtract (inst cas : InstPos) : Bool :=
  match F.inst? inst with
  | some (.extractCAS index (.inst casi) _) => index = 1 ∧ casi = cas
  | _ => false

/-- The extract that `tryGetCASResultExtracts` finds for a compare-exchange. -/
def casResultExtract (cas : InstPos) : Option InstPos :=
  if F.isCASExtract cas.next.next cas then some cas.next.next
  else if F.isCASExtract cas.next cas then some cas.next
  else none

/-- `tryGetCASResultExtracts`. -/
def tryGetCASResultExtracts (cass : List InstPos) : Option (List InstPos) :=
  cass.mapM F.casResultExtract

/-- `valueMap`: the bits of a number are the values of the extracts. -/
def valueMap (extracts : List InstPos) (i : ℕ) : IRValue → Option SVal :=
  extracts.zipIdx.foldl (fun map x =>
    Function.update map (.inst x.1) (some (SVal.ofBool (i.testBit x.2)))) fun _ => none

/-- The loop over the outcomes of the compare-exchanges. -/
def isFalseForAll (backedgeCondition : IRExpr) (extracts : List InstPos) : List ℕ → Option Bool
  | [] => some true
  | i :: is =>
    (SExprEvaluator.evaluate backedgeCondition (valueMap extracts i) ∅).bind fun res =>
      if 0 < res.numUnknown || res.value.getBool then some false
      else isFalseForAll backedgeCondition extracts is

/-- `failedCASesLeadToHeader`. -/
def failedCASesLeadToHeader (clean : InstPos → Bool) (cass : List InstPos) (latch header : ℕ) :
    Option Bool :=
  if cass = [] then some true
  else
    match F.tryGetCASResultExtracts cass with
    | none => some false
    | some extracts =>
      (cass.mapM fun cas => F.annotateCASWithBackedgeCond clean cas latch header).bind
        fun casConditions =>
          -- `1 << n` is not defined from the width of the type on
          if extracts.length < 32 then
            isFalseForAll (.logical .conjunction casConditions) extracts
              (List.range' 1 (2 ^ extracts.length - 1))
          else none

/-! ## Iterations -/

/-- A step of a thread in a loop: a load and a compare-exchange read some value. -/
inductive IterationStep : State → State → Prop
  | step {s s' : State} : F.step s = some (.running s') → IterationStep s s'
  | read {s : State} (v : SVal) :
      F.inst? s.pos = some .load ∨ F.inst? s.pos = some .atomicCmpXchg →
      IterationStep s ⟨s.pos.next, Function.update s.regs (.inst s.pos) v⟩

/-- The states of a run up to the step that leads to the header. -/
inductive RunsBack (header : ℕ) : State → List State → Prop
  | last {s s' : State} : F.IterationStep s s' → s'.pos = ⟨header, 0⟩ → RunsBack header s [s]
  | step {s s' : State} {trace : List State} : F.IterationStep s s' → s'.pos ≠ ⟨header, 0⟩ →
      RunsBack header s' trace → RunsBack header s (s :: trace)

/-- One iteration of a loop that returns to the header through a latch. -/
structure Iteration (header latch : ℕ) (s : State) (trace : List State) : Prop where
  start : s.pos = ⟨header, 0⟩
  runs : F.RunsBack header s trace
  latch : ∃ t ∈ trace.getLast?, t.pos.block = latch

/-- A compare-exchange has failed: the extract that says whether it has succeeded is 0. -/
def HasFailed (trace : List State) (cas : InstPos) : Prop :=
  ∃ t ∈ trace, ∃ cmp, F.inst? t.pos = some (.extractCAS 1 (.inst cas) cmp) ∧
    (Instruction.extractCAS 1 (.inst cas) cmp).eval t.regs = some 0

/-- Every compare-exchange that is executed has failed. -/
def AllHaveFailed (trace : List State) : Prop :=
  ∀ t ∈ trace, F.inst? t.pos = some .atomicCmpXchg → F.HasFailed trace t.pos

/-- The operands of an instruction and, at a branch, of the phi nodes behind it. -/
def reads (p : InstPos) (i : Instruction) : List IRValue :=
  i.operands ++ i.targets.flatMap fun dest => (F.phis dest).filterMap (·.lookup p.block)

/-- A loop in SSA form without inner loops, with one of its latches. -/
structure SSALoop (header latch : ℕ) : Prop where
  /-- Terminators are the last instructions of the blocks. -/
  terminated : F.Terminated
  /-- There are no inner loops: no iteration enters a block twice. -/
  noInnerLoop : ∀ walk, F.blockGraph.IsIteration header latch walk → walk.Nodup
  /-- A register of the loop is assigned before it is read. -/
  defined : ∀ w₁ b w₂, F.blockGraph.IsIteration header latch (w₁ ++ b :: w₂) →
    ∀ k i, F.inst? ⟨b, k⟩ = some i → ∀ q, .inst q ∈ F.reads ⟨b, k⟩ i →
      q.block ∈ w₁ ∨ (q.block = b ∧ q.index < k) ∨ q.block ∉ F.backedgePaths latch header

/-- An instruction that is evaluated has the result of its expression. -/
def Evaluated (s : State) : Prop :=
  ∀ i, F.inst? s.pos = some i → passesAnnot i = false → F.Translated s

/-- The instructions behind a compare-exchange have the results of their expressions. -/
def EvaluatedBehindCASes (trace : List State) : Prop :=
  ∀ t rest, (t :: rest) <:+ trace → F.inst? t.pos = some .atomicCmpXchg →
    ∀ u ∈ rest, F.Evaluated u

/-- The outcomes of an iteration: the values of the extracts that it executes. -/
def HasOutcomes (cass : List InstPos) (trace : List State) (outcome : InstPos → Bool) : Prop :=
  ∀ t ∈ trace, ∀ cas ∈ cass, F.casResultExtract cas = some t.pos → ∀ i ∈ F.inst? t.pos,
    i.eval t.regs = some (SVal.ofBool (outcome t.pos))

/-- The compare-exchanges that an iteration skips lead to the header too: with some outcomes for
them, and those of the iteration for the ones that it executes, there is an assignment of the
registers that leads from behind each of them to the header. -/
def OthersLead (latch header : ℕ) (cass : List InstPos) (trace : List State) : Prop :=
  ∃ outcome, F.HasOutcomes cass trace outcome ∧
    ∀ cas ∈ cass, (∀ t ∈ trace, t.pos ≠ cas) → ∃ env,
      (∀ cas' ∈ cass, ∀ x ∈ F.casResultExtract cas', env (.inst x) = SVal.ofBool (outcome x)) ∧
        F.LeadsToHeader header (F.backedgePaths latch header) env cas.next

variable {F} {header latch : ℕ}

/-! ## What the test says -/

/-- The values of the extracts. -/
lemma valueMap_eq_some {extracts : List InstPos} {i : ℕ} {r : IRValue} {v : SVal}
    (h : valueMap extracts i r = some v) :
    ∃ (j : ℕ) (x : InstPos), extracts[j]? = some x ∧ r = .inst x ∧
      v = SVal.ofBool (i.testBit j) := by
  unfold valueMap at h
  have hmem : ∀ (xs : List (InstPos × ℕ)) (map : IRValue → Option SVal),
      xs.foldl (fun (map : IRValue → Option SVal) x =>
        Function.update map (.inst x.1) (some (SVal.ofBool (i.testBit x.2)))) map r = some v →
      map r = some v ∨ ∃ x ∈ xs, r = .inst x.1 ∧ v = SVal.ofBool (i.testBit x.2) := by
    intro xs
    induction xs with
    | nil => exact fun map h => .inl h
    | cons x xs ih =>
      intro map h
      rw [List.foldl_cons] at h
      obtain h | ⟨y, hy, hr, hv⟩ := ih _ h
      · by_cases hr : r = .inst x.1
        · rw [hr, Function.update_self] at h
          exact .inr ⟨x, List.mem_cons_self, hr, (Option.some.inj h).symm⟩
        · rw [Function.update_of_ne hr] at h
          exact .inl h
      · exact .inr ⟨y, List.mem_cons_of_mem x hy, hr, hv⟩
  obtain h | ⟨x, hx, hr, hv⟩ := hmem _ _ h
  · cases h
  · exact ⟨x.2, x.1, List.mem_zipIdx_iff_getElem?.mp hx, hr, hv⟩

/-- The condition is false for all outcomes that the loop looks at. -/
lemma evaluate_of_isFalseForAll {e : IRExpr} {extracts : List InstPos} {is : List ℕ}
    (h : isFalseForAll e extracts is = some true) {i : ℕ} (hi : i ∈ is) :
    ∃ res, SExprEvaluator.evaluate e (valueMap extracts i) ∅ = some res ∧ res.numUnknown = 0 ∧
      res.value.getBool = false := by
  induction is with
  | nil => exact absurd hi List.not_mem_nil
  | cons j is ih =>
    obtain ⟨res, hres, h⟩ := Option.bind_eq_some_iff.mp h
    split at h
    next => cases h
    next hok =>
      obtain rfl | hi := List.mem_cons.mp hi
      · refine ⟨res, hres, ?_⟩
        simp only [Bool.or_eq_true, decide_eq_true_eq, not_or, Bool.not_eq_true] at hok
        exact ⟨Nat.eq_zero_of_not_pos hok.1, hok.2⟩
      · exact ih h hi

/-- **A positive answer.**  For every outcome with a success there is a compare-exchange whose
condition is false, whatever the other registers are. -/
lemma exists_condition_false {clean : InstPos → Bool} {cass : List InstPos}
    (h : F.failedCASesLeadToHeader clean cass latch header = some true) (outcome : InstPos → Bool)
    {cas x : InstPos} (hcas : cas ∈ cass) (hx : F.casResultExtract cas = some x)
    (hsuccess : outcome x = true) :
    ∃ cas' ∈ cass, ∃ e v, F.annotateCASWithBackedgeCond clean cas' latch header = some e ∧
      SVal.getBool v = false ∧ ∀ env, (∀ cas' ∈ cass, ∀ x ∈ F.casResultExtract cas',
        env (.inst x) = SVal.ofBool (outcome x)) → SExpr.visit env e = some v := by
  unfold failedCASesLeadToHeader at h
  rw [if_neg (List.ne_nil_of_mem hcas)] at h
  split at h
  next => cases h
  next extracts hextracts =>
    obtain ⟨conds, hconds, h⟩ := Option.bind_eq_some_iff.mp h
    split at h
    next =>
      obtain ⟨-, hget⟩ := PartialRun.getElem?_of_mapM hextracts
      obtain ⟨-, hgetc⟩ := PartialRun.getElem?_of_mapM hconds
      -- the number whose bits are the outcomes
      let i := Nat.ofBits fun j : Fin extracts.length => outcome extracts[j]
      have hbit (j : ℕ) (y : InstPos) (hy : extracts[j]? = some y) :
          i.testBit j = outcome y := by
        obtain ⟨hj, rfl⟩ := List.getElem?_eq_some_iff.mp hy
        exact Nat.testBit_ofBits_lt _ j hj
      obtain ⟨x', hxmem, hx'⟩ := PartialRun.exists_of_mapM hextracts hcas
      obtain rfl := Option.some.inj (hx.symm.trans hx')
      obtain ⟨j, hj⟩ := List.mem_iff_getElem?.mp hxmem
      have hpos : i ≠ 0 := by
        intro hzero
        have hb := hbit j x hj
        rw [hzero, Nat.zero_testBit, hsuccess] at hb
        cases hb
      have hlt : i < 2 ^ extracts.length := Nat.ofBits_lt_two_pow _
      have hi : i ∈ List.range' 1 (2 ^ extracts.length - 1) := by
        rw [List.mem_range'_1]
        omega
      obtain ⟨res, hres, hunknown, hfalse⟩ := evaluate_of_isFalseForAll h hi
      obtain ⟨e, he, v, hv, henv⟩ :=
        SExprEvaluator.exists_kid_of_numUnknown_eq_zero hres hunknown hfalse
      obtain ⟨j', hj'⟩ := List.mem_iff_getElem?.mp he
      obtain ⟨cas', hcas', hannot⟩ := hgetc j' e hj'
      refine ⟨cas', List.mem_of_getElem? hcas', e, v, hannot, hv, fun env hflags => henv env ?_⟩
      intro r w hr
      obtain ⟨k, y, hy, rfl, rfl⟩ := valueMap_eq_some hr
      obtain ⟨cas'', hcas'', hyx⟩ := hget k y hy
      rw [hflags cas'' (List.mem_of_getElem? hcas'') y hyx, hbit k y hy]
    next => cases h

/-! ## Steps -/

section Steps

variable {s s' : State}

/-- A step to the next instruction. -/
structure Advances (F : IRFunction) (s s' : State) (i : Instruction) : Prop where
  inst : F.inst? s.pos = some i
  notTerminator : i.isTerminator = false
  pos : s'.pos = s.pos.next
  /-- Only the register of the instruction may change. -/
  frame : ∀ r, r ≠ .inst s.pos → s'.regs r = s.regs r
  /-- A phi node has its value already. -/
  phi : ∀ incoming, i = .phi incoming → s'.regs = s.regs
  /-- The register gets the value of the instruction. -/
  value : ∀ v, i.eval s.regs = some v → s'.regs (.inst s.pos) = v
  /-- Instructions that are evaluated and extracts have values. -/
  defined : passesAnnot i = false ∨ (∃ k cas cmp, i = .extractCAS k cas cmp) →
    ∃ v, i.eval s.regs = some v

/-- A step to another block. -/
structure Jumps (F : IRFunction) (s s' : State) (i : Instruction) (dest : ℕ) : Prop where
  inst : F.inst? s.pos = some i
  target : i = .br dest ∨ ∃ cond ifTrue ifFalse c, i = .condBr cond ifTrue ifFalse ∧
    cond.eval s.regs = some c ∧ dest = if c.getBool then ifTrue else ifFalse
  switch : F.switchToNewBasicBlock s dest = some s'

/-- What a step does. -/
lemma IterationStep.cases (h : F.IterationStep s s') :
    (∃ i, F.Advances s s' i) ∨ ∃ i dest, F.Jumps s s' i dest := by
  cases h with
  | read v hi =>
    refine .inl ?_
    have hframe : ∀ r, r ≠ .inst s.pos → Function.update s.regs (.inst s.pos) v r = s.regs r :=
      fun r hr => Function.update_of_ne hr ..
    obtain hi | hi := hi
    · exact ⟨.load, hi, rfl, rfl, hframe, fun _ h => (by cases h), fun _ h => (by cases h),
        by simp [passesAnnot]⟩
    · exact ⟨.atomicCmpXchg, hi, rfl, rfl, hframe, fun _ h => (by cases h), fun _ h => (by cases h),
        by simp [passesAnnot]⟩
  | step hstep =>
    rw [IRFunction.step] at hstep
    obtain ⟨i, hi, hstep⟩ := Option.bind_eq_some_iff.mp hstep
    have hassigns (hterm : i.isTerminator = false) (hphi : ∀ incoming, i ≠ .phi incoming)
        (heval : (i.eval s.regs).map (fun v =>
          Outcome.running ⟨s.pos.next, Function.update s.regs (.inst s.pos) v⟩) =
            some (.running s')) : F.Advances s s' i := by
      obtain ⟨v, hv, hs'⟩ := Option.map_eq_some_iff.mp heval
      obtain rfl := Outcome.running.inj hs'
      refine ⟨hi, hterm, rfl, fun r hr => Function.update_of_ne hr .., fun incoming h =>
        absurd h (hphi incoming), fun w hw => ?_, fun _ => ⟨v, hv⟩⟩
      exact (Function.update_self ..).trans (Option.some.inj (hv.symm.trans hw))
    cases i with
    | phi incoming =>
      obtain rfl := Outcome.running.inj (Option.some.inj hstep)
      exact .inl ⟨_, hi, rfl, rfl, fun _ _ => rfl, fun _ _ => rfl, fun _ h => (by cases h),
        by simp [passesAnnot]⟩
    | br dest =>
      obtain ⟨t, ht, hrunning⟩ := Option.map_eq_some_iff.mp hstep
      obtain rfl := Outcome.running.inj hrunning
      exact .inr ⟨_, dest, hi, .inl rfl, ht⟩
    | condBr cond ifTrue ifFalse =>
      obtain ⟨c, hc, hstep⟩ := Option.bind_eq_some_iff.mp hstep
      obtain ⟨t, ht, hrunning⟩ := Option.map_eq_some_iff.mp hstep
      obtain rfl := Outcome.running.inj hrunning
      exact .inr ⟨_, _, hi, .inr ⟨cond, ifTrue, ifFalse, c, rfl, hc, rfl⟩, ht⟩
    | assume cond =>
      obtain ⟨c, -, hc⟩ := Option.map_eq_some_iff.mp hstep
      split at hc
      next =>
        obtain rfl := Outcome.running.inj hc
        exact .inl ⟨_, hi, rfl, rfl, fun _ _ => rfl, fun _ h => (by cases h),
          fun _ h => (by cases h), by simp [passesAnnot]⟩
      next => cases hc
    | load => cases hstep
    | atomicCmpXchg => cases hstep
    | sideEffect => cases hstep
    | error => cases hstep
    | exit => cases hstep
    | _ => exact .inl ⟨_, hassigns rfl (fun _ h => by cases h) hstep⟩

/-- A jump sets the phi nodes of the block. -/
lemma Jumps.spec {i : Instruction} {dest : ℕ} (h : F.Jumps s s' i dest) :
    s'.pos = ⟨dest, 0⟩ ∧ (∀ n, s'.regs (.argument n) = s.regs (.argument n)) ∧
      (∀ q : InstPos, q.block ≠ dest → s'.regs (.inst q) = s.regs (.inst q)) ∧
      ∀ j phi, (F.phis dest)[j]? = some phi → ∃ op v, phi.lookup s.pos.block = some op ∧
        op.eval s.regs = some v ∧ s'.regs (.inst ⟨dest, j⟩) = v := by
  obtain ⟨values, hvalues, rfl⟩ := Option.map_eq_some_iff.mp h.switch
  obtain ⟨hlength, hget⟩ := PartialRun.getElem?_of_mapM hvalues
  refine ⟨rfl, fun n => rfl, fun q hq => if_neg hq, fun j phi hphi => ?_⟩
  have hj : j < values.length := hlength ▸ (List.getElem?_eq_some_iff.mp hphi).1
  obtain ⟨phi', hphi', hv⟩ := hget j _ (List.getElem?_eq_getElem hj)
  obtain rfl := Option.some.inj (hphi.symm.trans hphi')
  obtain ⟨op, hop, hv⟩ := Option.bind_eq_some_iff.mp hv
  refine ⟨op, _, hop, hv, ?_⟩
  change setPhis s.regs dest values (.inst ⟨dest, j⟩) = _
  rw [setPhis, if_pos rfl, List.getElem?_eq_getElem hj, Option.getD_some]

/-- A jump goes along an edge. -/
lemma Jumps.mem_successors {i : Instruction} {dest : ℕ} (hF : F.Terminated)
    (h : F.Jumps s s' i dest) :
    dest ∈ i.targets ∧ s.pos.block ∈ F.blockGraph.predecessors dest := by
  have htarget : dest ∈ i.targets ∧ i.isTerminator = true := by
    obtain rfl | ⟨cond, ifTrue, ifFalse, c, rfl, -, rfl⟩ := h.target
    · exact ⟨List.mem_singleton_self dest, rfl⟩
    · refine ⟨?_, rfl⟩
      split
      · exact List.mem_cons_self
      · exact List.mem_cons_of_mem _ List.mem_cons_self
  have hterm : (F.inst? s.pos.next).isSome = false := by
    rw [hF s.pos i h.inst, htarget.2]
    rfl
  refine ⟨htarget.1, mem_predecessors.mpr ?_⟩
  have hinst := h.inst
  unfold inst? at hinst
  obtain ⟨is, his, hi⟩ := Option.bind_eq_some_iff.mp hinst
  refine ⟨(List.getElem?_eq_some_iff.mp his).1, ?_⟩
  have hlast : F.terminatorPos s.pos.block = s.pos := by
    have hlt := (List.getElem?_eq_some_iff.mp hi).1
    have hnone : is[s.pos.index + 1]? = none := by
      have hnext : F.inst? s.pos.next = is[s.pos.index + 1]? := by
        change F.blocks[s.pos.block]?.bind _ = _
        rw [his, Option.bind_some]
        rfl
      rw [← hnext]
      exact Option.isNone_iff_eq_none.mp (by simpa using hterm)
    have hge := List.getElem?_eq_none_iff.mp hnone
    unfold terminatorPos
    rw [his, Option.getD_some]
    have hindex : is.length - 1 = s.pos.index := by omega
    rw [hindex]
  rw [successors, hlast, h.inst]
  exact htarget.1

end Steps

/-! ## Runs -/

/-- The blocks that the states of a run pass. -/
def blockWalk : List State → List ℕ
  | [] => []
  | [s] => [s.pos.block]
  | s :: s' :: rest =>
    if s'.pos.index = 0 then s.pos.block :: blockWalk (s' :: rest) else blockWalk (s' :: rest)

section Runs

variable {s s' : State} {trace : List State}

/-- A run begins with its first state. -/
lemma RunsBack.exists_cons (h : F.RunsBack header s trace) : ∃ rest, trace = s :: rest := by
  cases h with
  | last => exact ⟨[], rfl⟩
  | step _ _ _ => exact ⟨_, rfl⟩

/-- The blocks of a run after a step to the next instruction. -/
lemma blockWalk_of_advances {i : Instruction} (h : F.Advances s s' i)
    (hruns : F.RunsBack header s' trace) : blockWalk (s :: trace) = blockWalk trace := by
  obtain ⟨rest, rfl⟩ := hruns.exists_cons
  have hindex : s'.pos.index ≠ 0 := by
    rw [h.pos]
    exact Nat.succ_ne_zero _
  rw [blockWalk, if_neg hindex]

/-- The blocks of a run after a jump. -/
lemma blockWalk_of_jumps {i : Instruction} {dest : ℕ} (h : F.Jumps s s' i dest)
    (hruns : F.RunsBack header s' trace) :
    blockWalk (s :: trace) = s.pos.block :: blockWalk trace := by
  obtain ⟨rest, rfl⟩ := hruns.exists_cons
  have hindex : s'.pos.index = 0 := by rw [h.spec.1]
  rw [blockWalk, if_pos hindex]

/-- The last step of a run is a jump to the header. -/
lemma exists_jumps_header (h : F.IterationStep s s') (hpos : s'.pos = ⟨header, 0⟩) :
    ∃ i, F.Jumps s s' i header := by
  obtain ⟨i, hadv⟩ | ⟨i, dest, hjump⟩ := h.cases
  · have hnext := hadv.pos.symm.trans hpos
    cases hnext
  · have hdest := hjump.spec.1.symm.trans hpos
    cases hdest
    exact ⟨i, hjump⟩

/-- The blocks of a run begin with the one of its first state. -/
lemma RunsBack.exists_blockWalk (h : F.RunsBack header s trace) :
    ∃ w, blockWalk trace = s.pos.block :: w := by
  induction h with
  | last => exact ⟨[], rfl⟩
  | @step s s' trace hstep hpos hruns ih =>
    obtain ⟨w, hw⟩ := ih
    obtain ⟨i, hadv⟩ | ⟨i, dest, hjump⟩ := hstep.cases
    · have hblock : s'.pos.block = s.pos.block := by rw [hadv.pos]; rfl
      rw [blockWalk_of_advances hadv hruns]
      exact ⟨w, hblock ▸ hw⟩
    · exact ⟨_, blockWalk_of_jumps hjump hruns⟩

/-- The blocks of a run are a path in the control-flow graph to the block of its last state. -/
lemma RunsBack.blockWalk_spec (hF : F.Terminated) (h : F.RunsBack header s trace) :
    (blockWalk trace).getLast? = trace.getLast?.map (·.pos.block) ∧
      (blockWalk trace).IsChain (fun a b => a ∈ F.blockGraph.predecessors b) ∧
      ∀ t ∈ trace, t.pos.block ∈ blockWalk trace := by
  induction h with
  | @last s s' hstep hpos =>
    refine ⟨rfl, List.isChain_singleton _, fun t ht => ?_⟩
    rw [List.mem_singleton] at ht
    exact ht ▸ List.mem_singleton_self _
  | @step s s' trace hstep hpos hruns ih =>
    obtain ⟨hlast, hchain, hblocks⟩ := ih
    obtain ⟨w, hw⟩ := hruns.exists_blockWalk
    obtain ⟨rest, rfl⟩ := hruns.exists_cons
    obtain ⟨i, hadv⟩ | ⟨i, dest, hjump⟩ := hstep.cases
    · have hblock : s'.pos.block = s.pos.block := by rw [hadv.pos]; rfl
      rw [blockWalk_of_advances hadv hruns]
      refine ⟨hlast, hchain, fun t ht => ?_⟩
      obtain rfl | ht := List.mem_cons.mp ht
      · rw [hw, hblock]
        exact List.mem_cons_self
      · exact hblocks t ht
    · rw [blockWalk_of_jumps hjump hruns]
      have hpred := (hjump.mem_successors hF).2
      have hdest : s'.pos.block = dest := by rw [hjump.spec.1]
      refine ⟨?_, ?_, fun t ht => ?_⟩
      · rw [hw, List.getLast?_cons_cons, ← hw, hlast, List.getLast?_cons_cons]
      · rw [hw] at hchain ⊢
        exact List.isChain_cons_cons.mpr ⟨hdest ▸ hpred, hchain⟩
      · obtain rfl | ht := List.mem_cons.mp ht
        · exact List.mem_cons_self
        · exact List.mem_cons_of_mem _ (hblocks t ht)

/-- The rest of a run from one of its states is a run, and its blocks are the last ones. -/
lemma RunsBack.suffix (h : F.RunsBack header s trace) {t : State}
    (ht : t ∈ trace) : ∃ rest w, F.RunsBack header t (t :: rest) ∧ (t :: rest) <:+ trace ∧
      blockWalk trace = w ++ blockWalk (t :: rest) := by
  induction h with
  | @last s s' hstep hpos =>
    rw [List.mem_singleton] at ht
    subst ht
    exact ⟨[], [], .last hstep hpos, List.suffix_rfl, rfl⟩
  | @step s s' trace hstep hpos hruns ih =>
    obtain rfl | ht := List.mem_cons.mp ht
    · exact ⟨trace, [], .step hstep hpos hruns, List.suffix_rfl, rfl⟩
    · obtain ⟨rest, w, hrest, hsuffix, hw⟩ := ih ht
      have hsuffix' := hsuffix.trans (List.suffix_cons s trace)
      obtain ⟨i, hadv⟩ | ⟨i, dest, hjump⟩ := hstep.cases
      · exact ⟨rest, w, hrest, hsuffix', by rw [blockWalk_of_advances hadv hruns, hw]⟩
      · exact ⟨rest, s.pos.block :: w, hrest, hsuffix', by
          rw [blockWalk_of_jumps hjump hruns, hw, List.cons_append]⟩

/-- A run goes on behind an instruction that is no terminator. -/
lemma RunsBack.exists_next (h : F.RunsBack header s trace) {t : State} (ht : t ∈ trace)
    {i : Instruction} (hi : F.inst? t.pos = some i) (hterm : i.isTerminator = false) :
    ∃ t' rest, F.RunsBack header t' (t' :: rest) ∧ (t :: t' :: rest) <:+ trace ∧
      F.Advances t t' i := by
  obtain ⟨rest, w, hrest, hsuffix, -⟩ := h.suffix ht
  have hadvances : ∀ t', F.IterationStep t t' → F.Advances t t' i := by
    intro t' hstep
    obtain ⟨i', hadv⟩ | ⟨i', dest, hjump⟩ := hstep.cases
    · obtain rfl := Option.some.inj (hi.symm.trans hadv.inst)
      exact hadv
    · obtain rfl := Option.some.inj (hi.symm.trans hjump.inst)
      obtain rfl | ⟨cond, ifTrue, ifFalse, c, rfl, -⟩ := hjump.target
      · cases hterm
      · cases hterm
  cases hrest with
  | last hstep hpos =>
    have hnext := (hadvances _ hstep).pos.symm.trans hpos
    cases hnext
  | @step _ t' _ hstep hpos hruns =>
    obtain ⟨rest', rfl⟩ := hruns.exists_cons
    exact ⟨t', rest', hruns, hsuffix, hadvances t' hstep⟩

/-- The state after an instruction that is no terminator. -/
lemma RunsBack.exists_advances (h : F.RunsBack header s trace) {t : State} (ht : t ∈ trace)
    {i : Instruction} (hi : F.inst? t.pos = some i) (hterm : i.isTerminator = false) :
    ∃ t' ∈ trace, F.Advances t t' i := by
  obtain ⟨t', rest, -, hsuffix, hadv⟩ := h.exists_next ht hi hterm
  exact ⟨t', hsuffix.subset (List.mem_cons_of_mem t List.mem_cons_self), hadv⟩

/-- The other blocks of a run are entered at their beginnings. -/
lemma RunsBack.exists_entry (h : F.RunsBack header s trace) {b : ℕ}
    (hb : b ∈ (blockWalk trace).tail) : ∃ t ∈ trace.tail, t.pos = ⟨b, 0⟩ := by
  induction h with
  | last => exact absurd hb List.not_mem_nil
  | @step s s' trace hstep hpos hruns ih =>
    obtain ⟨i, hadv⟩ | ⟨i, dest, hjump⟩ := hstep.cases
    · rw [blockWalk_of_advances hadv hruns] at hb
      obtain ⟨t, ht, hpos⟩ := ih hb
      exact ⟨t, List.mem_of_mem_tail ht, hpos⟩
    · rw [blockWalk_of_jumps hjump hruns, List.tail_cons] at hb
      obtain ⟨w, hw⟩ := hruns.exists_blockWalk
      obtain ⟨rest, rfl⟩ := hruns.exists_cons
      rw [hw] at hb ih
      obtain rfl | hb := List.mem_cons.mp hb
      · exact ⟨s', List.mem_cons_self, by rw [hjump.spec.1]⟩
      · obtain ⟨t, ht, hpos⟩ := ih hb
        exact ⟨t, List.mem_of_mem_tail ht, hpos⟩

/-- A run does not pass the beginning of the header again. -/
lemma RunsBack.pos_ne (h : F.RunsBack header s trace) :
    ∀ t ∈ trace.tail, t.pos ≠ ⟨header, 0⟩ := by
  induction h with
  | last => exact fun t ht => absurd ht List.not_mem_nil
  | @step s s' trace hstep hpos hruns ih =>
    obtain ⟨rest, rfl⟩ := hruns.exists_cons
    intro t ht
    obtain rfl | ht := List.mem_cons.mp ht
    · exact hpos
    · exact ih t ht

/-- A run that begins at the beginning of a block executes all instructions of its blocks.  By
induction on the index; a block is left by its last instruction only. -/
lemma RunsBack.exists_mem (hF : F.Terminated) (h : F.RunsBack header s trace)
    (hstart : s.pos.index = 0) {q : InstPos} (hq : q.block ∈ blockWalk trace)
    (hinst : (F.inst? q).isSome) : ∃ t ∈ trace, t.pos = q := by
  obtain ⟨b, k⟩ := q
  induction k with
  | zero =>
    obtain ⟨w, hw⟩ := h.exists_blockWalk
    have hq' : b ∈ s.pos.block :: w := hw ▸ hq
    obtain rfl | hb := List.mem_cons.mp hq'
    · obtain ⟨rest, rfl⟩ := h.exists_cons
      exact ⟨s, List.mem_cons_self, by rw [← hstart]⟩
    · obtain ⟨t, ht, hpos⟩ := h.exists_entry (b := b) (by rw [hw]; exact hb)
      exact ⟨t, List.mem_of_mem_tail ht, hpos⟩
  | succ k ih =>
    obtain ⟨is, his, hk⟩ := Option.bind_eq_some_iff.mp (Option.eq_some_of_isSome hinst)
    have hlt : k < is.length := (List.getElem?_eq_some_iff.mp hk).1.trans' (Nat.lt_succ_self k)
    have hi : F.inst? ⟨b, k⟩ = some is[k] :=
      Option.bind_eq_some_iff.mpr ⟨is, his, List.getElem?_eq_getElem hlt⟩
    obtain ⟨t, ht, hpos⟩ := ih hq (hi ▸ rfl)
    have hterm : is[k].isTerminator = false := by
      have hnext := hF ⟨b, k⟩ _ hi
      rw [show (⟨b, k⟩ : InstPos).next = ⟨b, k + 1⟩ from rfl, hinst] at hnext
      simpa using hnext.symm
    obtain ⟨t', ht', hadv⟩ := h.exists_advances ht (hpos ▸ hi) hterm
    exact ⟨t', ht', by rw [hadv.pos, hpos]; rfl⟩

/-- The registers that a run does not assign any more: those of blocks that it has not entered, and
in its block those of earlier instructions and of phi nodes. -/
lemma RunsBack.regs_eq (h : F.RunsBack header s trace) {t : State} (ht : t ∈ trace.getLast?) :
    (∀ n, t.regs (.argument n) = s.regs (.argument n)) ∧
      ∀ q : InstPos, q.block ∉ (blockWalk trace).tail →
        (q.block = s.pos.block → q.index < s.pos.index ∨ ∃ incoming,
          F.inst? q = some (.phi incoming)) → t.regs (.inst q) = s.regs (.inst q) := by
  induction h with
  | @last s s' hstep hpos =>
    obtain rfl := Option.some.inj ht
    exact ⟨fun _ => rfl, fun _ _ _ => rfl⟩
  | @step s s' trace hstep hpos hruns ih =>
    obtain ⟨rest, rfl⟩ := hruns.exists_cons
    rw [List.getLast?_cons_cons] at ht
    obtain ⟨harg, hreg⟩ := ih ht
    obtain ⟨i, hadv⟩ | ⟨i, dest, hjump⟩ := hstep.cases
    · rw [blockWalk_of_advances hadv hruns]
      have hblock : s'.pos.block = s.pos.block := by rw [hadv.pos]; rfl
      refine ⟨fun n => (harg n).trans (hadv.frame _ nofun), fun q hq hassigned => ?_⟩
      have hkeep : s'.regs (.inst q) = s.regs (.inst q) := by
        by_cases hpos : q = s.pos
        · subst hpos
          obtain hlt | ⟨incoming, hphi⟩ := hassigned rfl
          · exact absurd hlt (lt_irrefl _)
          · obtain rfl := Option.some.inj (hadv.inst.symm.trans hphi)
            rw [hadv.phi incoming rfl]
        · exact hadv.frame _ fun heq => hpos (IRValue.inst.inj heq)
      rw [← hkeep]
      refine hreg q hq fun heq => (hassigned (heq.trans hblock)).imp_left fun hlt => ?_
      rw [hadv.pos]
      exact Nat.lt_succ_of_lt hlt
    · obtain ⟨hdest, hargs, hregs, -⟩ := hjump.spec
      rw [blockWalk_of_jumps hjump hruns, List.tail_cons]
      refine ⟨fun n => (harg n).trans (hargs n), fun q hq _ => ?_⟩
      obtain ⟨w, hw⟩ := hruns.exists_blockWalk
      have hne : q.block ≠ dest := by
        rintro rfl
        rw [hw, hdest] at hq
        exact hq List.mem_cons_self
      rw [← hregs q hne]
      exact hreg q (fun hmem => hq (List.mem_of_mem_tail hmem)) fun heq =>
        absurd (heq.trans (by rw [hdest])) hne

end Runs

/-! ## Runs and assignments -/

/-- An assignment of the registers that has the values that a run reads and assigns. -/
structure Agrees (F : IRFunction) (env : IRValue → SVal) (trace : List State) : Prop where
  /-- Constants have their values. -/
  constants : ∀ c v, (IRValue.constant c).eval env = some v → env (.constant c) = v
  /-- Operands have the values that they have when they are read. -/
  reads : ∀ t ∈ trace, ∀ i, F.inst? t.pos = some i → ∀ r ∈ F.reads t.pos i,
    r.eval env = r.eval t.regs
  /-- The registers that a block has assigned have their values. -/
  assigned : ∀ t ∈ trace, ∀ q : InstPos, q.block = t.pos.block →
    (q.index < t.pos.index ∨ ∃ incoming, F.inst? q = some (.phi incoming)) →
      env (.inst q) = t.regs (.inst q)

section Assignments

variable {s s' : State} {trace : List State} {env : IRValue → SVal}

/-- The value of a register that is no undefined constant. -/
lemma Agrees.eq_of_eval (h : F.Agrees env trace) {r : IRValue} {v : SVal}
    (hv : r.eval env = some v) : env r = v := by
  cases r with
  | constant c => exact h.constants c v hv
  | inst p => exact Option.some.inj hv
  | argument n => exact Option.some.inj hv

/-- A step to the next instruction is settled. -/
lemma Agrees.settled (h : F.Agrees env trace) (hs : s ∈ trace) (hs' : s' ∈ trace)
    {i : Instruction} (hadv : F.Advances s s' i) (heval : F.Evaluated s) :
    F.Settled env s.pos i := by
  intro hpass e he
  obtain ⟨v, hv⟩ := hadv.defined (.inl hpass)
  have hvisit := visit_generateInstExpr hadv.inst (heval i hadv.inst hpass) he hv
  rw [visit_instExpr_congr he fun op hop =>
    h.reads s hs i hadv.inst op (List.mem_append_left _ hop), hvisit]
  have hblock : s.pos.block = s'.pos.block := by
    rw [hadv.pos]
    rfl
  have hindex : s.pos.index < s'.pos.index := by
    rw [hadv.pos]
    exact Nat.lt_succ_self _
  rw [h.assigned s' hs' s.pos hblock (.inl hindex), hadv.value v hv]

/-- A jump goes where the condition says. -/
lemma Agrees.goesTo (h : F.Agrees env trace) (hs : s ∈ trace) {i : Instruction} {dest : ℕ}
    (hjump : F.Jumps s s' i dest) : GoesTo env i dest := by
  obtain rfl | ⟨cond, ifTrue, ifFalse, c, rfl, hc, rfl⟩ := hjump.target
  · rfl
  · have hread : cond ∈ F.reads s.pos (.condBr cond ifTrue ifFalse) :=
      List.mem_append_left _ (List.mem_singleton_self cond)
    have hcond := h.eq_of_eval ((h.reads s hs _ hjump.inst cond hread).trans hc)
    change _ = if (env cond).getBool then ifTrue else ifFalse
    rw [hcond]

/-- A jump settles the phi nodes. -/
lemma Agrees.settledPhis (hF : F.Terminated) (h : F.Agrees env trace) (hs : s ∈ trace)
    (hs' : s' ∈ trace) {i : Instruction} {dest : ℕ} (hjump : F.Jumps s s' i dest) :
    F.SettledPhis env s.pos.block dest := by
  intro j phi hphi op hop e he
  obtain ⟨hpos, -, -, hvalues⟩ := hjump.spec
  obtain ⟨op', v, hop', hv, hreg⟩ := hvalues j phi hphi
  obtain rfl := Option.some.inj (hop'.symm.trans hop)
  have hread : op' ∈ F.reads s.pos i := by
    refine List.mem_append_right _ (List.mem_flatMap.mpr ⟨dest, (hjump.mem_successors hF).1, ?_⟩)
    exact List.mem_filterMap.mpr ⟨phi, List.mem_of_getElem? hphi, hop'⟩
  have heval : op'.eval env = some v := (h.reads s hs i hjump.inst op' hread).trans hv
  rw [visit_generateOperandExpr he heval, h.assigned s' hs' ⟨dest, j⟩ (by rw [hpos])
    (.inr ⟨phi, F.inst?_of_phis hphi⟩), hreg]

/-- **A run back to the header** is a way to the header for every assignment that agrees with it.
By induction on the run. -/
lemma Agrees.leadsToHeader (hF : F.Terminated) {blocks : Finset ℕ} (hheader : header ∈ blocks)
    (h : F.Agrees env trace) (hblocks : ∀ t ∈ trace, t.pos.block ∈ blocks) {rest : List State}
    (hruns : F.RunsBack header s rest) (hrest : rest ⊆ trace)
    (heval : ∀ t ∈ rest, F.Evaluated t) : F.LeadsToHeader header blocks env s.pos := by
  induction hruns with
  | @last s s' hstep hpos =>
    have hs := hrest (List.mem_singleton_self s)
    obtain ⟨i, hjump⟩ := exists_jumps_header hstep hpos
    exact .branch (hblocks s hs) hjump.inst (h.goesTo hs hjump) (fun hne => absurd rfl hne)
      (.header hheader)
  | @step s s' rest hstep hpos hruns ih =>
    have hs := hrest List.mem_cons_self
    have hrest' : rest ⊆ trace := List.Subset.trans (List.subset_cons_self s rest) hrest
    have hleads := ih hrest' fun t ht => heval t (List.mem_cons_of_mem s ht)
    obtain ⟨rest, rfl⟩ := hruns.exists_cons
    have hs' := hrest' List.mem_cons_self
    obtain ⟨i, hadv⟩ | ⟨i, dest, hjump⟩ := hstep.cases
    · rw [hadv.pos] at hleads
      exact .next (hblocks s hs) hadv.inst hadv.notTerminator
        (h.settled hs hs' hadv (heval s List.mem_cons_self)) hleads
    · rw [hjump.spec.1] at hleads
      exact .branch (hblocks s hs) hjump.inst (h.goesTo hs hjump)
        (fun _ => h.settledPhis hF hs hs' hjump) hleads

end Assignments

/-! ## The assignment of an iteration -/

section Iterations

variable {s : State} {trace : List State}

/-- The blocks of an iteration. -/
lemma Iteration.isIteration (hloop : F.SSALoop header latch)
    (h : F.Iteration header latch s trace) :
    F.blockGraph.IsIteration header latch (blockWalk trace) := by
  obtain ⟨w, hw⟩ := h.runs.exists_blockWalk
  obtain ⟨hlast, hchain, -⟩ := h.runs.blockWalk_spec hloop.terminated
  refine ⟨?_, ?_, hchain, fun hmem => ?_⟩
  · rw [hw, List.head?_cons, h.start]
  · obtain ⟨t, ht, hblock⟩ := h.latch
    rw [hlast, Option.mem_def.mp ht, Option.map_some, hblock]
  · obtain ⟨t, ht, hpos⟩ := h.runs.exists_entry hmem
    exact h.runs.pos_ne t ht hpos

/-- The blocks of an iteration are on back paths. -/
lemma Iteration.mem_backedgePaths (hloop : F.SSALoop header latch)
    (h : F.Iteration header latch s trace) {b : ℕ} (hb : b ∈ blockWalk trace) :
    b ∈ F.backedgePaths latch header := by
  refine IRFunction.mem_backedgePaths ?_ (h.isIteration hloop)
    (hloop.noInnerLoop _ (h.isIteration hloop)) hb
  obtain ⟨t, ht, rfl⟩ := h.latch
  obtain ⟨rest, w, hrest, -⟩ := h.runs.suffix (List.mem_of_mem_getLast? ht)
  have hstep : ∃ t', F.IterationStep t t' := by
    cases hrest with
    | last hstep => exact ⟨_, hstep⟩
    | step hstep => exact ⟨_, hstep⟩
  obtain ⟨t', hstep⟩ := hstep
  have hinst : ∃ i, F.inst? t.pos = some i := by
    obtain ⟨i, hadv⟩ | ⟨i, dest, hjump⟩ := hstep.cases
    · exact ⟨i, hadv.inst⟩
    · exact ⟨i, hjump.inst⟩
  obtain ⟨i, hi⟩ := hinst
  obtain ⟨is, his, -⟩ := Option.bind_eq_some_iff.mp hi
  exact (List.getElem?_eq_some_iff.mp his).1

/-- The registers at the end of an iteration; those of blocks that it has not passed have the values
of other outcomes. -/
def iterationEnv (F : IRFunction) (header latch : ℕ) (trace : List State) (t : State)
    (outcome : InstPos → Bool) : IRValue → SVal
  | .constant c => ((IRValue.constant c).eval t.regs).getD 0
  | .argument n => t.regs (.argument n)
  | .inst q =>
    if q.block ∈ F.backedgePaths latch header ∧ q.block ∉ blockWalk trace then
      SVal.ofBool (outcome q)
    else t.regs (.inst q)

/-- **The assignment of an iteration.**  A register that is read has been assigned before in the
iteration or outside of the loop, and it is not assigned again. -/
lemma Iteration.agrees (hloop : F.SSALoop header latch) (h : F.Iteration header latch s trace)
    {t : State} (ht : t ∈ trace.getLast?) (outcome : InstPos → Bool) :
    F.Agrees (F.iterationEnv header latch trace t outcome) trace := by
  have hiter := h.isIteration hloop
  have hnodup := hloop.noInnerLoop _ hiter
  -- the registers from a state on
  have hstate : ∀ u ∈ trace, ∃ w w', blockWalk trace = w ++ u.pos.block :: w' ∧
      (∀ n, t.regs (.argument n) = u.regs (.argument n)) ∧
      ∀ q : InstPos, q.block ∉ w' → (q.block = u.pos.block → q.index < u.pos.index ∨
        ∃ incoming, F.inst? q = some (.phi incoming)) → t.regs (.inst q) = u.regs (.inst q) := by
    intro u hu
    obtain ⟨rest, w, hrest, hsuffix, hw⟩ := h.runs.suffix hu
    obtain ⟨w', hw'⟩ := hrest.exists_blockWalk
    have hlast : t ∈ (u :: rest).getLast? := by
      obtain ⟨pre, hpre⟩ := hsuffix
      rw [← hpre, List.getLast?_append_of_ne_nil _ (List.cons_ne_nil u rest)] at ht
      exact ht
    obtain ⟨hargs, hregs⟩ := hrest.regs_eq hlast
    rw [hw', List.tail_cons] at hregs
    exact ⟨w, w', by rw [hw, hw'], hargs, hregs⟩
  have hassigned : ∀ u ∈ trace, ∀ q : InstPos, q.block = u.pos.block →
      (q.index < u.pos.index ∨ ∃ incoming, F.inst? q = some (.phi incoming)) →
        F.iterationEnv header latch trace t outcome (.inst q) = u.regs (.inst q) := by
    intro u hu q hblock hq
    obtain ⟨w, w', hw, -, hregs⟩ := hstate u hu
    have hmem : q.block ∈ blockWalk trace := by
      rw [hw, hblock]
      exact List.mem_append_right w List.mem_cons_self
    rw [iterationEnv, if_neg fun hnot => hnot.2 hmem]
    refine hregs q ?_ fun _ => hq
    rw [hw] at hnodup
    rw [hblock]
    exact (List.nodup_cons.mp (List.nodup_append.mp hnodup).2.1).1
  refine ⟨fun c v hv => ?_, fun u hu i hi r hr => ?_, hassigned⟩
  · have hconst : (IRValue.constant c).eval t.regs = some v := by
      cases c <;> exact hv
    rw [iterationEnv, hconst, Option.getD_some]
  · obtain ⟨w, w', hw, hargs, hregs⟩ := hstate u hu
    rw [hw] at hiter hnodup
    obtain ⟨-, hnodup', hdisjoint⟩ := List.nodup_append.mp hnodup
    cases r with
    | constant c =>
      cases c <;> rfl
    | argument n => exact congrArg some (hargs n)
    | inst q =>
      refine congrArg some ?_
      obtain hq | ⟨hblock, hlt⟩ | hq := hloop.defined w u.pos.block w' hiter u.pos.index i hi q hr
      · have hmem : q.block ∈ blockWalk trace := hw ▸ List.mem_append_left _ hq
        rw [iterationEnv, if_neg fun hnot => hnot.2 hmem]
        exact hregs q (fun hmem => hdisjoint _ hq _ (List.mem_cons_of_mem _ hmem) rfl)
          fun heq => absurd heq (hdisjoint _ hq _ List.mem_cons_self)
      · exact hassigned u hu q hblock (.inl hlt)
      · rw [iterationEnv, if_neg fun hin => hq hin.1]
        have hnot : q.block ∉ w ++ u.pos.block :: w' := fun hmem =>
          hq (h.mem_backedgePaths hloop (hw ▸ hmem))
        exact hregs q (fun hmem => hnot (List.mem_append_right w (List.mem_cons_of_mem _ hmem)))
          fun heq => absurd (List.mem_append_right w (heq ▸ List.mem_cons_self)) hnot

end Iterations

/-! ## Soundness -/

section Soundness

variable {s : State} {trace : List State} {cass : List InstPos}

/-- The extract of a compare-exchange. -/
lemma casResultExtract_spec {cas x : InstPos} (h : F.casResultExtract cas = some x) :
    (x = cas.next ∨ x = cas.next.next) ∧
      ∃ cmp, F.inst? x = some (.extractCAS 1 (.inst cas) cmp) := by
  have hextract : ∀ y, F.isCASExtract y cas = true →
      ∃ cmp, F.inst? y = some (.extractCAS 1 (.inst cas) cmp) := by
    intro y hy
    unfold isCASExtract at hy
    split at hy
    next index casi cmp hi =>
      obtain ⟨rfl, rfl⟩ := of_decide_eq_true hy
      exact ⟨cmp, hi⟩
    next => cases hy
  unfold casResultExtract at h
  split at h
  next hy =>
    obtain rfl := Option.some.inj h
    exact ⟨.inr rfl, hextract _ hy⟩
  next =>
    split at h
    next hy =>
      obtain rfl := Option.some.inj h
      exact ⟨.inl rfl, hextract _ hy⟩
    next => cases h

/-- A positive answer finds the extracts. -/
lemma exists_casResultExtract {clean : InstPos → Bool}
    (h : F.failedCASesLeadToHeader clean cass latch header = some true) {cas : InstPos}
    (hcas : cas ∈ cass) : ∃ x, F.casResultExtract cas = some x := by
  unfold failedCASesLeadToHeader at h
  rw [if_neg (List.ne_nil_of_mem hcas)] at h
  split at h
  next => cases h
  next extracts hextracts =>
    obtain ⟨x, -, hx⟩ := PartialRun.exists_of_mapM hextracts hcas
    exact ⟨x, hx⟩

/-- A compare-exchange that is executed is followed by its extract. -/
lemma Iteration.exists_extract (hF : F.Terminated) (h : F.Iteration header latch s trace)
    {t : State} (ht : t ∈ trace) (hcas : F.inst? t.pos = some .atomicCmpXchg) {x : InstPos}
    (hx : F.casResultExtract t.pos = some x) :
    ∃ u ∈ trace, ∃ u' ∈ trace, ∃ cmp v, u.pos = x ∧
      F.Advances u u' (.extractCAS 1 (.inst t.pos) cmp) ∧
      (Instruction.extractCAS 1 (.inst t.pos) cmp).eval u.regs = some v ∧
        (v = SVal.ofBool true ∨ v = SVal.ofBool false) := by
  obtain ⟨hpos, cmp, hinst⟩ := casResultExtract_spec hx
  obtain ⟨t', ht', hadv⟩ := h.runs.exists_advances ht hcas rfl
  have hextract : ∃ u ∈ trace, u.pos = x := by
    obtain rfl | rfl := hpos
    · exact ⟨t', ht', hadv.pos⟩
    · -- the instruction between them is not the last one of the block
      have hblock : t'.pos.block ∈ blockWalk trace :=
        (h.runs.blockWalk_spec hF).2.2 t' ht'
      have hindex : s.pos.index = 0 := by rw [h.start]
      refine h.runs.exists_mem hF hindex (q := t.pos.next.next) ?_ (hinst ▸ rfl)
      rw [hadv.pos] at hblock
      exact hblock
  obtain ⟨u, hu, rfl⟩ := hextract
  obtain ⟨u', hu', hadv'⟩ := h.runs.exists_advances hu hinst rfl
  obtain ⟨v, hv⟩ := hadv'.defined (.inr ⟨1, _, cmp, rfl⟩)
  refine ⟨u, hu, u', hu', cmp, v, rfl, hadv', hv, ?_⟩
  rw [Instruction.eval, if_neg Nat.one_ne_zero] at hv
  obtain ⟨a, -, hv⟩ := Option.bind_eq_some_iff.mp hv
  obtain ⟨b, -, rfl⟩ := Option.map_eq_some_iff.mp hv
  cases a == b with
  | true => exact .inl rfl
  | false => exact .inr rfl

/-- The extracts have the outcomes in the assignment of an iteration. -/
lemma Iteration.env_extract (hloop : F.SSALoop header latch)
    (hiter : F.Iteration header latch s trace)
    (hcass : ∀ cas, cas ∈ cass ↔ F.inst? cas = some .atomicCmpXchg ∧
      cas.block ∈ F.backedgePaths latch header) {outcome : InstPos → Bool}
    (houtcome : F.HasOutcomes cass trace outcome) {t : State} (ht : t ∈ trace.getLast?)
    {cas x : InstPos} (hcas : cas ∈ cass) (hx : F.casResultExtract cas = some x) :
    F.iterationEnv header latch trace t outcome (.inst x) = SVal.ofBool (outcome x) := by
  have hF := hloop.terminated
  obtain ⟨hpos, -⟩ := casResultExtract_spec hx
  have hblock : x.block = cas.block := by
    obtain rfl | rfl := hpos <;> rfl
  by_cases hwalk : x.block ∈ blockWalk trace
  · -- the extract is executed
    have hindex : s.pos.index = 0 := by rw [hiter.start]
    have hinst := ((hcass cas).mp hcas).1
    obtain ⟨r, hr, rfl⟩ := hiter.runs.exists_mem hF hindex (hblock ▸ hwalk) (hinst ▸ rfl)
    obtain ⟨u, hu, u', hu', cmp, v, rfl, hadv, hv, -⟩ := hiter.exists_extract hF hr hinst hx
    have hvalue := houtcome u hu r.pos hcas hx _ hadv.inst
    have hnext : u.pos.block = u'.pos.block ∧ u.pos.index < u'.pos.index := by
      rw [hadv.pos]
      exact ⟨rfl, Nat.lt_succ_self _⟩
    rw [(hiter.agrees hloop ht outcome).assigned u' hu' u.pos hnext.1 (.inl hnext.2),
      hadv.value v hv]
    exact Option.some.inj (hv.symm.trans hvalue)
  · have hin : x.block ∈ F.backedgePaths latch header := hblock ▸ ((hcass cas).mp hcas).2
    rw [iterationEnv, if_pos ⟨hin, hwalk⟩]

/-- In the assignment of an iteration control gets from every compare-exchange that is executed to
the header. -/
lemma Iteration.leadsToHeader (hloop : F.SSALoop header latch)
    (hiter : F.Iteration header latch s trace) (heval : F.EvaluatedBehindCASes trace)
    (outcome : InstPos → Bool) {last : State} (hlast : last ∈ trace.getLast?) {t : State}
    (ht : t ∈ trace) (hcas : F.inst? t.pos = some .atomicCmpXchg) :
    F.LeadsToHeader header (F.backedgePaths latch header)
      (F.iterationEnv header latch trace last outcome) t.pos.next := by
  have hblocks : ∀ t ∈ trace, t.pos.block ∈ F.backedgePaths latch header := fun t ht =>
    hiter.mem_backedgePaths hloop ((hiter.runs.blockWalk_spec hloop.terminated).2.2 t ht)
  have hheader : header ∈ F.backedgePaths latch header := by
    obtain ⟨tail, rfl⟩ := hiter.runs.exists_cons
    have hblock := hblocks s List.mem_cons_self
    rwa [hiter.start] at hblock
  obtain ⟨t', rest, hrest, hsuffix, hadv⟩ := hiter.runs.exists_next ht hcas rfl
  have hsub : t' :: rest ⊆ trace := List.Subset.trans (List.subset_cons_self t _) hsuffix.subset
  rw [← hadv.pos]
  exact (hiter.agrees hloop hlast outcome).leadsToHeader hloop.terminated hheader hblocks hrest
    hsub (heval t _ hsuffix hcas)

/-- An iteration that comes back to the header has only failed compare-exchanges if the test says
so, provided that the instructions behind a compare-exchange have the results of their expressions
and that the compare-exchanges that the iteration skips lead to the header too. -/
theorem failedCASesLeadToHeader_sound {F : IRFunction} {header latch : ℕ} {clean : InstPos → Bool}
    {cass : List InstPos} {s : State} {trace : List State} (hloop : F.SSALoop header latch)
    (hcass : ∀ cas, cas ∈ cass ↔ F.inst? cas = some .atomicCmpXchg ∧
      cas.block ∈ F.backedgePaths latch header)
    (h : F.failedCASesLeadToHeader clean cass latch header = some true)
    (hiter : F.Iteration header latch s trace) (heval : F.EvaluatedBehindCASes trace)
    (hothers : F.OthersLead latch header cass trace) : F.AllHaveFailed trace := by
  obtain ⟨outcome, houtcome, hskipped⟩ := hothers
  have hF := hloop.terminated
  intro t ht hinst
  have hcas : t.pos ∈ cass := (hcass t.pos).mpr ⟨hinst,
    hiter.mem_backedgePaths hloop ((hiter.runs.blockWalk_spec hF).2.2 t ht)⟩
  obtain ⟨x, hx⟩ := exists_casResultExtract h hcas
  obtain ⟨u, hu, u', hu', cmp, v, rfl, hadv, hv, rfl | rfl⟩ := hiter.exists_extract hF ht hinst hx
  · -- with a success there is a condition that is false
    exfalso
    have hsuccess : outcome u.pos = true := by
      have heq := Option.some.inj (hv.symm.trans (houtcome u hu t.pos hcas hx _ hadv.inst))
      cases hout : outcome u.pos with
      | true => rfl
      | false =>
        rw [hout] at heq
        exact absurd heq (by decide)
    obtain ⟨cas', hcas', e, w, he, hfalse, hall⟩ :=
      exists_condition_false h outcome hcas hx hsuccess
    have hcontra : ∀ env, (∀ cas' ∈ cass, ∀ x ∈ F.casResultExtract cas',
        env (.inst x) = SVal.ofBool (outcome x)) →
        ¬F.LeadsToHeader header (F.backedgePaths latch header) env cas'.next := by
      intro env hflags hleads
      obtain ⟨w', hw', htrue⟩ := isTrue_of_leadsToHeader hF he hleads
      obtain rfl := Option.some.inj (hw'.symm.trans (hall env hflags))
      rw [hfalse] at htrue
      cases htrue
    by_cases hrun : ∃ r ∈ trace, r.pos = cas'
    · -- the condition is true for the iteration itself
      obtain ⟨r, hr, rfl⟩ := hrun
      obtain ⟨last, hlast, -⟩ := hiter.latch
      exact hcontra _ (fun cas'' hcas'' y hy => hiter.env_extract hloop hcass houtcome hlast
        hcas'' hy) (hiter.leadsToHeader hloop heval outcome hlast hr ((hcass r.pos).mp hcas').1)
    · obtain ⟨env, hflags, hleads⟩ := hskipped cas' hcas' fun r hr hpos => hrun ⟨r, hr, hpos⟩
      exact hcontra env hflags hleads
  · exact ⟨u, hu, cmp, hadv.inst, hv⟩

end Soundness

/-! ## Examples -/

section Examples

variable {cass : List InstPos}

/-- Whether a register is read after it has been assigned: in the same block, or in a block that all
ways to lead through its block. -/
def readsAfter (F : IRFunction) (header : ℕ) (p : InstPos) : IRValue → Bool
  | .inst q => (q.block = p.block ∧ q.index < p.index) ∨
      (p.block ≠ header ∧ ∀ pred ∈ F.blockGraph.predecessors p.block, pred = q.block)
  | _ => true

/-- A loop whose edges, other than the ones to the header, go to later blocks. -/
lemma ssaLoop_of_increasing (hF : F.WellFormed)
    (hedges : ∀ a < F.blocks.length, ∀ b ∈ F.successors a, b ≠ header → a < b)
    (hreads : ∀ p ∈ F.positions, ∀ i ∈ F.inst? p, ∀ r ∈ F.reads p i,
      F.readsAfter header p r = true) : F.SSALoop header latch := by
  refine ⟨hF.isTerminated, fun walk hiter => ?_, fun w₁ b w₂ hiter k i hi q hq => ?_⟩
  · have hchain : walk.IsChain (· < ·) := by
      refine hiter.edges.imp_of_mem_tail_imp fun a b _ hb hedge => ?_
      obtain ⟨ha, hsucc⟩ := mem_predecessors.mp hedge
      exact hedges a ha b hsucc fun heq => hiter.once (heq ▸ hb)
    exact (List.isChain_iff_pairwise.mp hchain).imp fun h => h.ne
  · have hafter := hreads ⟨b, k⟩ ((F.mem_positions).mpr (hi ▸ rfl)) i hi _ hq
    unfold readsAfter at hafter
    obtain ⟨hblock, hlt⟩ | ⟨hne, hpreds⟩ := of_decide_eq_true hafter
    · exact .inr (.inl ⟨hblock, hlt⟩)
    · -- the block before it in the walk
      have hw₁ : w₁ ≠ [] := by
        rintro rfl
        exact hne (Option.some.inj hiter.head)
      have hedge := hiter.edges.rel_getLast_head_of_append hw₁ (List.cons_ne_nil b w₂)
      exact .inl (hpreds _ hedge ▸ List.getLast_mem hw₁)

/-- The compare-exchanges of the back paths, among the instructions of the function. -/
lemma mem_cass_iff (hmem : ∀ cas ∈ F.positions, cas ∈ cass ↔
      F.inst? cas = some .atomicCmpXchg ∧ cas.block ∈ F.backedgePaths latch header)
    (hsub : ∀ cas ∈ cass, cas ∈ F.positions) (cas : InstPos) :
    cas ∈ cass ↔ F.inst? cas = some .atomicCmpXchg ∧ cas.block ∈ F.backedgePaths latch header :=
  ⟨fun h => (hmem cas (hsub cas h)).mp h,
    fun h => (hmem cas ((F.mem_positions).mpr (h.1 ▸ rfl))).mpr h⟩

/-- The loop `while (!cas(x, 0, 1));`. -/
def spinCAS : IRFunction where
  blocks := [[.br 1],
    [.atomicCmpXchg, .extractCAS 1 (.inst ⟨1, 0⟩) (.constant (.int 32 0)),
      .condBr (.inst ⟨1, 1⟩) 2 1],
    [.exit]]
  typeSize _ := 32

/-- The compare-exchange of an iteration reads 5. -/
theorem failedCASesLeadToHeader_spinCAS : ∃ s trace, spinCAS.Iteration 1 1 s trace ∧
    trace.length = 3 ∧ spinCAS.AllHaveFailed trace := by
  have hloop : spinCAS.SSALoop 1 1 :=
    ssaLoop_of_increasing ⟨by decide, by decide, by decide, by decide⟩ (by decide) (by decide)
  have hiter : spinCAS.Iteration 1 1 ⟨⟨1, 0⟩, fun _ => 0⟩ _ :=
    ⟨rfl, .step (.read 5 (.inr rfl)) (by decide) (.step (.step rfl) (by decide)
      (.last (.step rfl) rfl)), ⟨_, rfl, rfl⟩⟩
  have hcass : ∀ cas, cas ∈ [(⟨1, 0⟩ : InstPos)] ↔ spinCAS.inst? cas = some .atomicCmpXchg ∧
      cas.block ∈ spinCAS.backedgePaths 1 1 := mem_cass_iff (by decide) (by decide)
  have htest : spinCAS.failedCASesLeadToHeader (fun _ => false) [⟨1, 0⟩] 1 1 = some true := by
    decide +kernel
  refine ⟨_, _, hiter, rfl, failedCASesLeadToHeader_sound hloop hcass htest hiter ?_
    ⟨fun _ => false, ?_, ?_⟩⟩
  · intro t rest hsuffix _ u hu i hi hpass
    have hmem := hsuffix.subset (List.mem_cons_of_mem t hu)
    simp only [List.mem_cons, List.not_mem_nil, or_false] at hmem
    obtain rfl | rfl | rfl := hmem
    · obtain rfl := Option.some.inj hi
      cases hpass
    · obtain rfl := Option.some.inj hi
      cases hpass
    · obtain rfl := Option.some.inj hi
      cases hpass
  · intro t ht cas hcas hx i hi
    obtain rfl := List.mem_singleton.mp hcas
    simp only [List.mem_cons, List.not_mem_nil, or_false] at ht
    obtain rfl | rfl | rfl := ht
    · exact absurd hx (by decide)
    · obtain rfl := Option.some.inj hi
      rfl
    · exact absurd hx (by decide)
  · intro cas hcas hnot
    obtain rfl := List.mem_singleton.mp hcas
    exact absurd rfl (hnot _ List.mem_cons_self)

/-- The loop `do { v = y; cas(x, 0, 1); } while (v % 2 == 0);`. -/
def spinEven : IRFunction where
  blocks := [[.br 1],
    [.load, .atomicCmpXchg, .extractCAS 1 (.inst ⟨1, 1⟩) (.constant (.int 32 0)),
      .binary .srem 32 (.inst ⟨1, 0⟩) (.constant (.int 32 2)),
      .icmp .eq 32 (.inst ⟨1, 3⟩) (.constant (.int 32 0)), .condBr (.inst ⟨1, 4⟩) 1 2],
    [.exit]]
  typeSize _ := 32

/-- The loop `for (;;) { if (y) cas(x, 0, 1); else { r = cas(z, 0, 1); if (!r || r) break; } }`,
where the condition behind the second compare-exchange is tested in two blocks. -/
def spinTwo : IRFunction where
  blocks := [[.br 1],
    [.load, .condBr (.inst ⟨1, 0⟩) 2 3],
    [.atomicCmpXchg, .extractCAS 1 (.inst ⟨2, 0⟩) (.constant (.int 32 0)), .br 5],
    [.atomicCmpXchg, .extractCAS 1 (.inst ⟨3, 0⟩) (.constant (.int 32 0)),
      .condBr (.inst ⟨3, 1⟩) 4 6],
    [.condBr (.inst ⟨3, 1⟩) 6 5],
    [.br 1],
    [.exit]]
  typeSize _ := 32

/-- Two loops that the test accepts, with iterations that come back to the header after a
compare-exchange has succeeded.  In the first one the test takes the remainder for 1, so that the
condition of the back edge is false.  In the second one the other compare-exchange never leads to
the header, so that the conjunction is false. -/
theorem failedCASesLeadToHeader_not_sound :
    (spinEven.SSALoop 1 1 ∧
      (∀ cas, cas ∈ [(⟨1, 1⟩ : InstPos)] ↔ spinEven.inst? cas = some .atomicCmpXchg ∧
        cas.block ∈ spinEven.backedgePaths 1 1) ∧
      spinEven.failedCASesLeadToHeader (fun _ => false) [⟨1, 1⟩] 1 1 = some true ∧
      ∃ s trace, spinEven.Iteration 1 1 s trace ∧ ¬spinEven.AllHaveFailed trace) ∧
    spinTwo.SSALoop 1 5 ∧
      (∀ cas, cas ∈ [(⟨2, 0⟩ : InstPos), ⟨3, 0⟩] ↔ spinTwo.inst? cas = some .atomicCmpXchg ∧
        cas.block ∈ spinTwo.backedgePaths 5 1) ∧
      spinTwo.failedCASesLeadToHeader (fun _ => false) [⟨2, 0⟩, ⟨3, 0⟩] 5 1 = some true ∧
      ∃ s trace, spinTwo.Iteration 1 5 s trace ∧ ¬spinTwo.AllHaveFailed trace := by
  refine ⟨⟨?_, mem_cass_iff (by decide) (by decide), by decide +kernel, ?_⟩, ?_,
    mem_cass_iff (by decide) (by decide), by decide +kernel, ?_⟩
  · exact ssaLoop_of_increasing ⟨by decide, by decide, by decide, by decide⟩ (by decide)
      (by decide)
  · refine ⟨⟨⟨1, 0⟩, fun _ => 0⟩, _, ⟨rfl, .step (.read 0 (.inl rfl)) (by decide)
      (.step (.read 0 (.inr rfl)) (by decide) (.step (.step rfl) (by decide)
        (.step (.step rfl) (by decide) (.step (.step rfl) (by decide)
          (.last (.step rfl) rfl))))), ⟨_, rfl, rfl⟩⟩, fun h => ?_⟩
    obtain ⟨t, ht, cmp, hinst, hv⟩ := h _ (List.mem_cons_of_mem _ List.mem_cons_self) rfl
    simp only [List.mem_cons, List.not_mem_nil, or_false] at ht
    -- the only extract is 1
    obtain rfl | rfl | rfl | rfl | rfl | rfl := ht <;> cases hinst
    exact absurd hv (by decide)
  · exact ssaLoop_of_increasing ⟨by decide, by decide, by decide, by decide⟩ (by decide)
      (by decide)
  · refine ⟨⟨⟨1, 0⟩, fun _ => 0⟩, _, ⟨rfl, .step (.read 1 (.inl rfl)) (by decide)
      (.step (.step rfl) (by decide) (.step (.read 0 (.inr rfl)) (by decide)
        (.step (.step rfl) (by decide) (.step (.step rfl) (by decide)
          (.last (.step rfl) rfl))))), ⟨_, rfl, rfl⟩⟩, fun h => ?_⟩
    obtain ⟨t, ht, cmp, hinst, hv⟩ :=
      h _ (List.mem_cons_of_mem _ (List.mem_cons_of_mem _ List.mem_cons_self)) rfl
    simp only [List.mem_cons, List.not_mem_nil, or_false] at ht
    obtain rfl | rfl | rfl | rfl | rfl | rfl := ht <;> cases hinst
    exact absurd hv (by decide)

end Examples

end IRFunction

end GenMC
