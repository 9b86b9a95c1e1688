import GenMC.Static.Transforms.AnnotationSoundness
import GenMC.Support.PartialEvaluation

/-!
# The entry test of a loop

A loop whose header always goes to the body when it is entered from outside need not test its
condition there.  `entryAlwaysJumpsToBody` propagates the condition of the header backwards to the
block before the loop and evaluates the expression without the values of any registers: it has to be
true, and no register may have been looked at.

The expression is that of a header whose instructions are executed on words, as the evaluator
executes them (`wordRegs`): results are not cut to the widths of their types, casts do nothing, a
signed remainder is 1, and the phi nodes are assigned one by one, from the last one to the first
one.  The answer is right if and only if the condition has the same truth value for words as for
integers of the widths of their types (`entryAlwaysJumpsToBody_sound_iff`).
-/

namespace GenMC

/-- `Loop`: a loop of a function. -/
structure IRLoop where
  /-- `getHeader`. -/
  header : ℕ
  /-- The blocks that `contains` finds. -/
  blocks : Finset ℕ
  /-- `getLoopPredecessor`. -/
  predecessor : Option ℕ
  header_mem : header ∈ blocks
  predecessor_notMem : ∀ pred ∈ predecessor, pred ∉ blocks

/-- `inLoopBody`. -/
def inLoopBody (l : IRLoop) (bb : ℕ) : Bool := bb ∈ l.blocks ∧ bb ≠ l.header

namespace IRFunction

variable (F : IRFunction) (l : IRLoop)

/-- `generateExprJumpsToBody`. -/
def generateExprJumpsToBody : Option IRExpr :=
  (F.annotateBBCond l.header l.predecessor).map fun condExp =>
    match F.inst? (F.terminatorPos l.header) with
    | some (.br dest) => if inLoopBody l dest then condExp else .not condExp
    | some (.condBr _ ifTrue _) => if inLoopBody l ifTrue then condExp else .not condExp
    | _ => createFalse

/-- `entryAlwaysJumpsToBody`. -/
def entryAlwaysJumpsToBody : Option Bool :=
  let succs := ((F.inst? (F.terminatorPos l.header)).map Instruction.targets).getD []
  if succs.all fun bb => !inLoopBody l bb then some false
  else
    (F.generateExprJumpsToBody l).bind fun e =>
      (SExprEvaluator.evaluate e (fun _ => none) ∅).map fun res =>
        res.numUnknown == 0 && res.value.getBool

/-! ## Executions of the header -/

/-- The instructions of a header that the test is meant for, other than its branch. -/
def isPlain : Instruction → Bool
  | .phi _ | .binary _ _ _ _ | .icmp _ _ _ _ | .select _ _ _ | .cast _ _ _ _ | .bitCast _
  | .pointerCast _ _ _ _ => true
  | _ => false

/-- A header that consists of phi nodes, instructions on integers and a terminator. -/
def PlainHeader : Prop :=
  ∀ k < (F.terminatorPos l.header).index, ∀ i ∈ F.inst? ⟨l.header, k⟩, isPlain i

instance : Decidable (F.PlainHeader l) :=
  inferInstanceAs (Decidable
    (∀ k < (F.terminatorPos l.header).index, ∀ i ∈ F.inst? ⟨l.header, k⟩, isPlain i))

/-- An execution of the header: it is entered from the block before the loop, its instructions are
executed up to its terminator, and the terminator is executed. -/
structure HeaderRun (s s₁ s₂ s₃ : State) : Prop where
  /-- The terminator of the block before the loop is next. -/
  start : s.pos.block ∈ l.predecessor ∧ s.pos = F.terminatorPos s.pos.block
  /-- It goes to the header. -/
  enters : F.step s = some (.running s₁)
  /-- The header is executed from its beginning. -/
  header : s₁.pos = ⟨l.header, 0⟩
  /-- The instructions before the terminator. -/
  instructions : F.run (F.terminatorPos l.header).index s₁ = some (.running s₂)
  /-- The terminator. -/
  branch : F.step s₂ = some (.running s₃)

/-- Every execution of the header that is entered from outside goes to the body. -/
def EntersBody : Prop := ∀ s s₁ s₂ s₃, F.HeaderRun l s s₁ s₂ s₃ → inLoopBody l s₃.pos.block

/-! ## Executions on words -/

/-- The registers after an instruction that assigns the value of its expression. -/
def wordStep (regs : IRValue → SVal) (p : InstPos) (i : Instruction) : IRValue → SVal :=
  match i with
  | .phi _ => regs
  | i => Function.update regs (.inst p) (wordValue regs (F.generateInstExpr i))

/-- The registers after the first instructions of a block. -/
def wordRegs (regs : IRValue → SVal) (bb : ℕ) : ℕ → IRValue → SVal
  | 0 => regs
  | k + 1 =>
    match F.inst? ⟨bb, k⟩ with
    | some i => F.wordStep (wordRegs regs bb k) ⟨bb, k⟩ i
    | none => wordRegs regs bb k

/-- The condition of the header when its instructions are executed on words. -/
def wordCondition (regs : IRValue → SVal) (pred : ℕ) (cond : IRValue) : Bool :=
  (wordValue (F.wordRegs (F.wordPhis regs pred l.header) l.header
    (F.terminatorPos l.header).index) (F.generateOperandExpr cond)).getBool

/-- A header that may leave the loop by its second successor does so on words whenever it does. -/
def AgreesOnWords : Prop :=
  ∀ cond ifTrue ifFalse,
    F.inst? (F.terminatorPos l.header) = some (.condBr cond ifTrue ifFalse) →
    inLoopBody l ifFalse = false →
    ∀ s s₁ s₂ s₃, F.HeaderRun l s s₁ s₂ s₃ → ∀ c ∈ cond.eval s₂.regs,
      c.getBool = F.wordCondition l s.regs s.pos.block cond

/-- The steps of an execution of the header, up to its terminator, are translated. -/
def HeaderTranslated (s s₁ : State) : Prop :=
  F.EdgeTranslated s.regs s.pos.block l.header ∧
    ∀ n < (F.terminatorPos l.header).index, ∀ s', F.run n s₁ = some (.running s') → F.Translated s'

variable {F l}

/-! ## Annotations of a block -/

/-- An annotation is propagated from the successor. -/
lemma propagateAnnotFromSucc_congr {annot annot' : InstPos → Option IRExpr} (curr : InstPos)
    {succ : InstPos} (h : annot succ = annot' succ) :
    F.propagateAnnotFromSucc annot curr succ = F.propagateAnnotFromSucc annot' curr succ := by
  rw [propagateAnnotFromSucc, propagateAnnotFromSucc, h]

/-- What the loop of `annotateBBCond` does: every instruction gets the annotation that is propagated
from the next one.  By induction on the index; the map changes above it only. -/
lemma annotateBackwards_spec {bb k : ℕ} {annot A : InstPos → Option IRExpr}
    (h : F.annotateBackwards bb k annot = some A) :
    (∀ j, k ≤ j → A ⟨bb, j⟩ = annot ⟨bb, j⟩) ∧ ∀ j < k, ∃ i e, F.inst? ⟨bb, j⟩ = some i ∧
      A ⟨bb, j⟩ = some e ∧ (i.mayReadOrWriteMemory = false →
        F.propagateAnnotFromSucc A ⟨bb, j⟩ ⟨bb, j + 1⟩ = some e) := by
  induction k generalizing annot with
  | zero =>
    obtain rfl := Option.some.inj h
    exact ⟨fun _ _ => rfl, fun j hj => absurd hj (Nat.not_lt_zero j)⟩
  | succ k ih =>
    obtain ⟨i, hi, h⟩ := Option.bind_eq_some_iff.mp h
    obtain ⟨e, he, h⟩ := Option.bind_eq_some_iff.mp h
    obtain ⟨hframe, hbelow⟩ := ih h
    have hkeep : ∀ j, k + 1 ≤ j → A ⟨bb, j⟩ = annot ⟨bb, j⟩ := by
      intro j hj
      have hne : (⟨bb, j⟩ : InstPos) ≠ ⟨bb, k⟩ := by
        intro heq
        injection heq
        omega
      rw [hframe j (by omega), Function.update_of_ne hne]
    refine ⟨hkeep, fun j hj => ?_⟩
    by_cases hjk : j = k
    · subst hjk
      refine ⟨i, e, hi, by rw [hframe j le_rfl, Function.update_self], fun hmem => ?_⟩
      rw [hmem, if_neg Bool.false_ne_true] at he
      rw [propagateAnnotFromSucc_congr _ (hkeep (j + 1) le_rfl), he]
    · exact hbelow j (by omega)

/-- The annotation of an instruction on integers: nothing is done for a phi node, and for another
one its expression takes the place of its register. -/
lemma propagate_of_isPlain {annot : InstPos → Option IRExpr} {p : InstPos} {i : Instruction}
    {e : IRExpr} (hi : F.inst? p = some i) (hplain : isPlain i = true)
    (he : F.propagateAnnotFromSucc annot p p.next = some e) :
    ∃ e', annot p.next = some e' ∧ (((∃ incoming, i = .phi incoming) ∧ e = e'.clone) ∨
      ((∀ incoming, i ≠ .phi incoming) ∧ ∃ op, F.generateInstExpr i = some op ∧
        e = SExpr.substitute e'.clone (.inst p) op)) := by
  obtain ⟨e', he', he⟩ := Option.bind_eq_some_iff.mp he
  obtain ⟨succExp, hexp, he⟩ := Option.bind_eq_some_iff.mp he
  obtain ⟨i', hi', he⟩ := Option.bind_eq_some_iff.mp he
  obtain rfl := Option.some.inj (hi.symm.trans hi')
  have hsame : ¬p.block ≠ p.next.block := not_not.mpr rfl
  rw [substitutePhis, if_neg hsame] at hexp
  obtain rfl := Option.some.inj hexp
  refine ⟨e', he', ?_⟩
  cases i with
  | phi incoming => exact .inl ⟨⟨incoming, rfl⟩, (Option.some.inj he).symm⟩
  | br dest => cases hplain
  | condBr cond ifTrue ifFalse => cases hplain
  | _ =>
    obtain ⟨op, hop, rfl⟩ := Option.map_eq_some_iff.mp he
    exact .inr ⟨fun _ h => (by cases h), op, hop, rfl⟩

/-- Plain instructions do not access memory. -/
lemma mayReadOrWriteMemory_of_isPlain {i : Instruction} (h : isPlain i = true) :
    i.mayReadOrWriteMemory = false := by
  cases i <;> first
    | rfl
    | cases h

/-- The annotations of the instructions of a plain header. -/
structure HeaderAnnotated (F : IRFunction) (l : IRLoop) (cond : IRValue)
    (A : InstPos → Option IRExpr) : Prop where
  /-- The terminator has the annotation of the condition. -/
  last : A (F.terminatorPos l.header) = F.generateOperandExpr cond
  /-- The other ones have annotations that are propagated. -/
  before : ∀ j < (F.terminatorPos l.header).index, ∃ i e, F.inst? ⟨l.header, j⟩ = some i ∧
    isPlain i = true ∧ A ⟨l.header, j⟩ = some e ∧
      F.propagateAnnotFromSucc A ⟨l.header, j⟩ ⟨l.header, j + 1⟩ = some e

/-- The condition of a plain header is propagated to its first instruction and from there to the
block before the loop. -/
lemma exists_headerAnnotated (hplain : F.PlainHeader l) {pred : ℕ} (hpred : pred ∈ l.predecessor)
    {cond : IRValue} {ifTrue ifFalse : ℕ}
    (hterm : F.inst? (F.terminatorPos l.header) = some (.condBr cond ifTrue ifFalse)) {e : IRExpr}
    (he : F.annotateBBCond l.header l.predecessor = some e) :
    ∃ A, F.HeaderAnnotated l cond A ∧
      F.propagateAnnotFromSucc A (F.terminatorPos pred) ⟨l.header, 0⟩ = some e := by
  rw [annotateBBCond, hterm, Option.mem_def.mp hpred] at he
  obtain ⟨e₀, he₀, he⟩ := Option.bind_eq_some_iff.mp he
  obtain ⟨A, hA, he⟩ := Option.bind_eq_some_iff.mp he
  obtain ⟨hframe, hbelow⟩ := annotateBackwards_spec hA
  refine ⟨A, ⟨?_, fun j hj => ?_⟩, he⟩
  · have hlast := hframe (F.terminatorPos l.header).index le_rfl
    rw [he₀]
    exact hlast.trans (Function.update_self ..)
  · obtain ⟨i, e, hi, hAj, hprop⟩ := hbelow j hj
    have hi' := hplain j hj i hi
    exact ⟨i, e, hi, hi', hAj, hprop (mayReadOrWriteMemory_of_isPlain hi')⟩

/-! ## Annotations and executions on words -/

section Words

variable {annot A : InstPos → Option IRExpr} {regs : IRValue → SVal} {v : SVal}

/-- The annotation of an instruction has the value that the next one has after the instruction. -/
lemma visit_wordStep {p : InstPos} {i : Instruction} {e : IRExpr} (hi : F.inst? p = some i)
    (hplain : isPlain i = true) (he : F.propagateAnnotFromSucc annot p p.next = some e)
    (hv : SExpr.visit regs e = some v) :
    ∃ e', annot p.next = some e' ∧ SExpr.visit (F.wordStep regs p i) e' = some v := by
  obtain ⟨e', he', hcases⟩ := propagate_of_isPlain hi hplain he
  refine ⟨e', he', ?_⟩
  obtain ⟨⟨incoming, rfl⟩, rfl⟩ | ⟨hphi, op, hop, rfl⟩ := hcases
  · rwa [SExpr.visit_clone] at hv
  · have hstep : F.wordStep regs p i = Function.update regs (.inst p)
        (wordValue regs (F.generateInstExpr i)) := by
      cases i with
      | phi incoming => exact absurd rfl (hphi incoming)
      | _ => rfl
    rw [hstep, wordValue, hop, Option.bind_some, ← SExpr.visit_clone]
    exact SExpr.visit_of_substitute hv 0

/-- The annotation of the first instruction has the value that a later one has after the
instructions before it. -/
lemma HeaderAnnotated.visit_wordRegs {cond : IRValue} (h : F.HeaderAnnotated l cond A) {e : IRExpr}
    (he : A ⟨l.header, 0⟩ = some e) (hv : SExpr.visit regs e = some v) (n : ℕ)
    (hn : n ≤ (F.terminatorPos l.header).index) :
    ∃ e', A ⟨l.header, n⟩ = some e' ∧
      SExpr.visit (F.wordRegs regs l.header n) e' = some v := by
  induction n with
  | zero => exact ⟨e, he, hv⟩
  | succ n ih =>
    obtain ⟨eₙ, heₙ, hvₙ⟩ := ih (by omega)
    obtain ⟨i, e', hi, hplain, he', hprop⟩ := h.before n (by omega)
    obtain rfl := Option.some.inj (heₙ.symm.trans he')
    rw [wordRegs, hi]
    exact visit_wordStep hi hplain hprop hvₙ

/-- **The condition on words** is the value of the annotation at the block before the loop. -/
lemma HeaderAnnotated.wordCondition_eq {cond : IRValue} (h : F.HeaderAnnotated l cond A)
    {curr : InstPos} (hne : curr.block ≠ l.header) {i : Instruction} (hi : F.inst? curr = some i)
    (hbranch : i.targets ≠ []) {e : IRExpr}
    (he : F.propagateAnnotFromSucc A curr ⟨l.header, 0⟩ = some e)
    (hv : SExpr.visit regs e = some v) :
    F.wordCondition l regs curr.block cond = v.getBool := by
  obtain ⟨e₀, he₀, he⟩ := Option.bind_eq_some_iff.mp he
  obtain ⟨succExp, hexp, he⟩ := Option.bind_eq_some_iff.mp he
  obtain ⟨i', hi', he⟩ := Option.bind_eq_some_iff.mp he
  obtain rfl := Option.some.inj (hi.symm.trans hi')
  have heq : succExp = e := by
    cases i with
    | br dest => exact Option.some.inj he
    | condBr cond ifTrue ifFalse => exact Option.some.inj he
    | _ => exact absurd rfl hbranch
  subst heq
  rw [substitutePhis, if_pos hne] at hexp
  have hphis := hv
  rw [visit_wordPhis hexp, SExpr.visit_clone] at hphis
  obtain ⟨e', he', hvalue⟩ := h.visit_wordRegs he₀ hphis _ le_rfl
  have hlast : F.generateOperandExpr cond = some e' := h.last.symm.trans he'
  rw [wordCondition, wordValue, hlast, Option.bind_some, hvalue, Option.getD_some]

end Words

/-! ## Annotations and executions -/

section Executions

variable {s s' s₁ s₂ s₃ : State}

/-- Plain instructions are followed by the next one. -/
lemma pos_of_isPlain {i : Instruction} (hi : F.inst? s.pos = some i) (hplain : isPlain i = true)
    (hstep : F.step s = some (.running s')) : s'.pos = s.pos.next := by
  by_cases hphi : ∃ incoming, i = .phi incoming
  · obtain ⟨incoming, rfl⟩ := hphi
    rw [step_phi hi] at hstep
    obtain rfl := Outcome.running.inj (Option.some.inj hstep)
    rfl
  · have heval : ∃ v, i.eval s.regs = some v := by
      rw [step, hi, Option.bind_some] at hstep
      cases i <;> first
        | exact absurd hplain Bool.false_ne_true
        | exact absurd ⟨_, rfl⟩ hphi
        | exact (Option.map_eq_some_iff.mp hstep).imp fun v hv => hv.1
    obtain ⟨v, hv⟩ := heval
    rw [step_eval hi hv] at hstep
    obtain rfl := Outcome.running.inj (Option.some.inj hstep)
    rfl

/-- The annotation keeps its value in a translated step of a plain instruction. -/
lemma visit_of_translated {annot : InstPos → Option IRExpr} {i : Instruction} {e : IRExpr}
    (hi : F.inst? s.pos = some i) (hplain : isPlain i = true)
    (he : F.propagateAnnotFromSucc annot s.pos s.pos.next = some e) (ht : F.Translated s)
    (hstep : F.step s = some (.running s')) :
    ∃ e', annot s.pos.next = some e' ∧ SExpr.visit s'.regs e' = SExpr.visit s.regs e := by
  obtain ⟨e', he', hcases⟩ := propagate_of_isPlain hi hplain he
  refine ⟨e', he', ?_⟩
  obtain ⟨⟨incoming, rfl⟩, rfl⟩ | ⟨hphi, op, hop, rfl⟩ := hcases
  · rw [step_phi hi] at hstep
    obtain rfl := Outcome.running.inj (Option.some.inj hstep)
    exact (SExpr.visit_clone s.regs e').symm
  · have hends : endsAnnotation i = false ∧ i.isTerminator = false := by
      cases i <;> first
        | exact ⟨rfl, rfl⟩
        | cases hplain
    obtain ⟨v, hv⟩ := exists_eval hi ht hends.1 hends.2 hphi
    rw [step_eval hi hv] at hstep
    obtain rfl := Outcome.running.inj (Option.some.inj hstep)
    rw [SExpr.visit_substitute _ _ _ _ (visit_generateInstExpr hi ht hop hv), SExpr.visit_clone]

/-- The run through a plain header. -/
lemma pos_of_run (hplain : F.PlainHeader l) (hheader : s₁.pos = ⟨l.header, 0⟩) {n : ℕ}
    (hn : n ≤ (F.terminatorPos l.header).index) (hrun : F.run n s₁ = some (.running s')) :
    s'.pos = ⟨l.header, n⟩ := by
  induction n generalizing s' with
  | zero =>
    obtain rfl := Outcome.running.inj (Option.some.inj hrun)
    exact hheader
  | succ n ih =>
    obtain ⟨t, ht, hstep⟩ := (run_succ_eq_running n).mp hrun
    have hpos := ih (by omega) ht
    cases hi : F.inst? t.pos with
    | none =>
      rw [step, hi] at hstep
      cases hstep
    | some i =>
      rw [pos_of_isPlain hi (hplain n (by omega) i (hpos ▸ hi)) hstep, hpos]
      rfl

/-- The annotation keeps its value in a translated run through the header. -/
lemma HeaderAnnotated.visit_of_run {cond : IRValue} {A : InstPos → Option IRExpr}
    (h : F.HeaderAnnotated l cond A) (hplain : F.PlainHeader l)
    (hheader : s₁.pos = ⟨l.header, 0⟩) {e : IRExpr} (he : A ⟨l.header, 0⟩ = some e) {n : ℕ}
    (ht : ∀ m < n, ∀ t, F.run m s₁ = some (.running t) → F.Translated t)
    (hn : n ≤ (F.terminatorPos l.header).index) (hrun : F.run n s₁ = some (.running s')) :
    ∃ e', A ⟨l.header, n⟩ = some e' ∧ SExpr.visit s'.regs e' = SExpr.visit s₁.regs e := by
  induction n generalizing s' with
  | zero =>
    obtain rfl := Outcome.running.inj (Option.some.inj hrun)
    exact ⟨e, he, rfl⟩
  | succ n ih =>
    obtain ⟨t, hrunₙ, hstep⟩ := (run_succ_eq_running n).mp hrun
    obtain ⟨eₙ, heₙ, hvₙ⟩ := ih (fun m hm => ht m (by omega)) (by omega) hrunₙ
    have hpos := pos_of_run hplain hheader (by omega) hrunₙ
    obtain ⟨i, e', hi, hplain', he', hprop⟩ := h.before n (by omega)
    obtain rfl := Option.some.inj (heₙ.symm.trans he')
    have hprop' : F.propagateAnnotFromSucc A t.pos t.pos.next = some eₙ := by
      rw [hpos]
      exact hprop
    obtain ⟨e'', he'', hv⟩ := visit_of_translated (hpos ▸ hi) hplain' hprop'
      (ht n n.lt_succ_self t hrunₙ) hstep
    rw [hpos] at he''
    exact ⟨e'', he'', hv.trans hvₙ⟩

end Executions

/-! ## Soundness -/

/-- A positive answer: the first successor of the header is in the body, and the condition that is
propagated to the block before the loop is true whatever the registers are. -/
lemma condition_of_entryAlwaysJumpsToBody (h : F.entryAlwaysJumpsToBody l = some true) :
    (∃ dest, F.inst? (F.terminatorPos l.header) = some (.br dest) ∧ inLoopBody l dest = true) ∨
      ∃ cond ifTrue ifFalse e,
        F.inst? (F.terminatorPos l.header) = some (.condBr cond ifTrue ifFalse) ∧
        inLoopBody l ifTrue = true ∧ F.annotateBBCond l.header l.predecessor = some e ∧
        ∀ regs, ∃ v, SExpr.visit regs e = some v ∧ v.getBool = true := by
  rw [entryAlwaysJumpsToBody] at h
  split at h
  next => cases h
  next hsuccs =>
    obtain ⟨e, he, hmap⟩ := Option.bind_eq_some_iff.mp h
    obtain ⟨res, hres, hboth⟩ := Option.map_eq_some_iff.mp hmap
    obtain ⟨hunknown, hbool⟩ := (Bool.and_eq_true _ _).mp hboth
    have hvalue (regs : IRValue → SVal) : SExpr.visit regs e = some res.value :=
      SExprEvaluator.visit_of_numUnknown_eq_zero hres (beq_iff_eq.mp hunknown) nofun
    -- the negation of a condition is evaluated to false
    have hnot : ∀ condExp, e ≠ .not condExp := by
      rintro condExp rfl
      rw [← Option.some.inj (hvalue fun _ => 0)] at hbool
      exact absurd hbool (by decide)
    obtain ⟨condExp, hcond, he⟩ := Option.map_eq_some_iff.mp he
    cases hterm : F.inst? (F.terminatorPos l.header) with
    | none =>
      rw [hterm] at hsuccs
      exact absurd rfl hsuccs
    | some i =>
      rw [hterm] at hsuccs he
      cases i with
      | br dest =>
        refine .inl ⟨dest, rfl, ?_⟩
        by_contra hdest
        simp [Instruction.targets, hdest] at hsuccs
      | condBr cond ifTrue ifFalse =>
        simp only at he
        split at he
        next htrue =>
          subst he
          exact .inr ⟨cond, ifTrue, ifFalse, condExp, rfl, htrue, hcond,
            fun regs => ⟨res.value, hvalue regs, hbool⟩⟩
        next => exact absurd he.symm (hnot condExp)
      | _ => exact absurd rfl hsuccs

section Runs

variable {s s₁ s₂ s₃ : State}

/-- The edge to the header. -/
lemma HeaderRun.edge (h : F.HeaderRun l s s₁ s₂ s₃) :
    ∃ i, F.inst? s.pos = some i ∧ i.targets ≠ [] ∧
      F.switchToNewBasicBlock s l.header = some s₁ := by
  have hstep := h.enters
  rw [step] at hstep
  obtain ⟨i, hi, hstep⟩ := Option.bind_eq_some_iff.mp hstep
  refine ⟨i, hi, ?_⟩
  have hblock (dest : ℕ) (hswitch : F.switchToNewBasicBlock s dest = some s₁) :
      F.switchToNewBasicBlock s l.header = some s₁ := by
    obtain ⟨values, -, rfl⟩ := Option.map_eq_some_iff.mp hswitch
    have heq := h.header
    injection heq with heq
    exact heq ▸ hswitch
  have hnext : s₁.pos ≠ s.pos.next := by
    rw [h.header]
    intro heq
    injection heq with _ heq
    omega
  cases i with
  | br dest =>
    obtain ⟨t, ht, hrunning⟩ := Option.map_eq_some_iff.mp hstep
    obtain rfl := Outcome.running.inj hrunning
    exact ⟨List.cons_ne_nil _ _, hblock dest ht⟩
  | condBr cond ifTrue ifFalse =>
    obtain ⟨c, -, hstep⟩ := Option.bind_eq_some_iff.mp hstep
    obtain ⟨t, ht, hrunning⟩ := Option.map_eq_some_iff.mp hstep
    obtain rfl := Outcome.running.inj hrunning
    exact ⟨List.cons_ne_nil _ _, hblock _ ht⟩
  | phi incoming =>
    obtain rfl := Outcome.running.inj (Option.some.inj hstep)
    exact absurd rfl hnext
  | assume cond =>
    obtain ⟨c, -, hc⟩ := Option.map_eq_some_iff.mp hstep
    split at hc
    next =>
      obtain rfl := Outcome.running.inj hc
      exact absurd rfl hnext
    next => cases hc
  | _ => first
    | cases hstep
    | obtain ⟨v, -, hv⟩ := Option.map_eq_some_iff.mp hstep
      obtain rfl := Outcome.running.inj hv
      exact absurd rfl hnext

/-- The block before the loop is not the header. -/
lemma HeaderRun.block_ne (h : F.HeaderRun l s s₁ s₂ s₃) : s.pos.block ≠ l.header :=
  fun heq => l.predecessor_notMem _ h.start.1 (heq ▸ l.header_mem)

/-- An unconditional branch of the header. -/
lemma HeaderRun.block_of_br (h : F.HeaderRun l s s₁ s₂ s₃) (hplain : F.PlainHeader l) {dest : ℕ}
    (hterm : F.inst? (F.terminatorPos l.header) = some (.br dest)) : s₃.pos.block = dest := by
  have hpos := pos_of_run hplain h.header le_rfl h.instructions
  have hbranch := h.branch
  have hi : F.inst? s₂.pos = some (.br dest) := by
    rw [hpos]
    exact hterm
  rw [step_br hi] at hbranch
  obtain ⟨t, ht, hrunning⟩ := Option.map_eq_some_iff.mp hbranch
  obtain rfl := Outcome.running.inj hrunning
  obtain ⟨values, -, rfl⟩ := Option.map_eq_some_iff.mp ht
  rfl

/-- A conditional branch of the header. -/
lemma HeaderRun.block_of_condBr (h : F.HeaderRun l s s₁ s₂ s₃) (hplain : F.PlainHeader l)
    {cond : IRValue} {ifTrue ifFalse : ℕ}
    (hterm : F.inst? (F.terminatorPos l.header) = some (.condBr cond ifTrue ifFalse)) :
    ∃ c, cond.eval s₂.regs = some c ∧
      s₃.pos.block = if c.getBool then ifTrue else ifFalse := by
  have hpos := pos_of_run hplain h.header le_rfl h.instructions
  have hbranch := h.branch
  have hi : F.inst? s₂.pos = some (.condBr cond ifTrue ifFalse) := by
    rw [hpos]
    exact hterm
  rw [step, hi, Option.bind_some] at hbranch
  obtain ⟨c, hc, hbranch⟩ := Option.bind_eq_some_iff.mp hbranch
  obtain ⟨t, ht, hrunning⟩ := Option.map_eq_some_iff.mp hbranch
  obtain rfl := Outcome.running.inj hrunning
  obtain ⟨values, -, rfl⟩ := Option.map_eq_some_iff.mp ht
  exact ⟨c, hc, rfl⟩

/-- The condition of the header in a translated execution is the value of the annotation at the
block before the loop. -/
lemma HeaderRun.visit_of_translated (h : F.HeaderRun l s s₁ s₂ s₃) (hplain : F.PlainHeader l)
    (ht : F.HeaderTranslated l s s₁) {cond : IRValue} {A : InstPos → Option IRExpr}
    (hA : F.HeaderAnnotated l cond A) {e : IRExpr}
    (he : F.propagateAnnotFromSucc A s.pos ⟨l.header, 0⟩ = some e) {c : SVal}
    (hc : cond.eval s₂.regs = some c) : SExpr.visit s.regs e = some c := by
  obtain ⟨i, hi, hbranch, hswitch⟩ := h.edge
  obtain ⟨e₀, he₀, -⟩ := Option.bind_eq_some_iff.mp he
  obtain ⟨s', hs', -, hvisit⟩ := ht.1.visit_propagate hi hbranch he₀ he
  obtain rfl := Option.some.inj (hs'.symm.trans hswitch)
  obtain ⟨e', he', hrun⟩ := hA.visit_of_run hplain h.header he₀ ht.2 le_rfl h.instructions
  have hcond : F.generateOperandExpr cond = some e' := hA.last.symm.trans he'
  rw [hvisit, ← hrun, visit_generateOperandExpr hcond hc]

end Runs

/-- A loop whose entry test is removed.  Every execution of its header that is entered from outside
goes to the body if and only if the condition of the header has the same truth value when the header
is executed on words.  This is so in an execution all of whose steps are translated. -/
theorem entryAlwaysJumpsToBody_sound_iff {F : IRFunction} {l : IRLoop} (hplain : F.PlainHeader l)
    (h : F.entryAlwaysJumpsToBody l = some true) :
    (F.EntersBody l ↔ F.AgreesOnWords l) ∧ ∀ s s₁ s₂ s₃, F.HeaderRun l s s₁ s₂ s₃ →
      F.HeaderTranslated l s s₁ → inLoopBody l s₃.pos.block = true := by
  obtain ⟨dest, hterm, hdest⟩ | ⟨cond, ifTrue, ifFalse, e, hterm, htrue, he, hvalue⟩ :=
    condition_of_entryAlwaysJumpsToBody h
  · have hbody : ∀ s s₁ s₂ s₃, F.HeaderRun l s s₁ s₂ s₃ → inLoopBody l s₃.pos.block = true := by
      intro s s₁ s₂ s₃ hrun
      rw [hrun.block_of_br hplain hterm, hdest]
    refine ⟨iff_of_true hbody ?_, fun s s₁ s₂ s₃ hrun _ => hbody s s₁ s₂ s₃ hrun⟩
    intro cond ifTrue ifFalse hterm'
    cases hterm.symm.trans hterm'
  · -- the condition on words is true, as the annotation is
    have hword : ∀ s s₁ s₂ s₃, F.HeaderRun l s s₁ s₂ s₃ →
        F.wordCondition l s.regs s.pos.block cond = true := by
      intro s s₁ s₂ s₃ hrun
      obtain ⟨A, hA, hprop⟩ := exists_headerAnnotated hplain hrun.start.1 hterm he
      obtain ⟨i, hi, hbranch, -⟩ := hrun.edge
      obtain ⟨v, hv, hbool⟩ := hvalue s.regs
      rw [← hrun.start.2] at hprop
      rw [hA.wordCondition_eq hrun.block_ne hi hbranch hprop hv, hbool]
    refine ⟨⟨fun hbody => ?_, fun hagrees => ?_⟩, ?_⟩
    · intro cond' ifTrue' ifFalse' hterm' hfalse s s₁ s₂ s₃ hrun c hc
      cases hterm.symm.trans hterm'
      rw [hword s s₁ s₂ s₃ hrun]
      obtain ⟨c', hc', hblock⟩ := hrun.block_of_condBr hplain hterm
      obtain rfl := Option.some.inj (hc'.symm.trans hc)
      have hin := hbody s s₁ s₂ s₃ hrun
      rw [hblock] at hin
      by_contra hc'
      rw [if_neg hc', hfalse] at hin
      cases hin
    · intro s s₁ s₂ s₃ hrun
      obtain ⟨c, hc, hblock⟩ := hrun.block_of_condBr hplain hterm
      rw [hblock]
      by_cases hfalse : inLoopBody l ifFalse = true
      · split
        · exact htrue
        · exact hfalse
      · have hagree := hagrees cond ifTrue ifFalse hterm (Bool.eq_false_of_not_eq_true hfalse)
          s s₁ s₂ s₃ hrun c hc
        rw [hagree, hword s s₁ s₂ s₃ hrun, if_pos rfl, htrue]
    · intro s s₁ s₂ s₃ hrun ht
      obtain ⟨A, hA, hprop⟩ := exists_headerAnnotated hplain hrun.start.1 hterm he
      obtain ⟨c, hc, hblock⟩ := hrun.block_of_condBr hplain hterm
      rw [← hrun.start.2] at hprop
      have hvisit := hrun.visit_of_translated hplain ht hA hprop hc
      obtain ⟨v, hv, hbool⟩ := hvalue s.regs
      obtain rfl := Option.some.inj (hvisit.symm.trans hv)
      rw [hblock, if_pos hbool, htrue]

/-! ## Examples -/

/-- A loop that is entered with a constant and goes on as long as a condition holds; the function is
`for (i = init; cond; i++)` with an empty body. -/
def countingLoop (init : ℕ) (header : List Instruction) : IRFunction where
  blocks := [[.br 1],
    .phi [(0, .constant (.int 32 init)), (2, .inst ⟨2, 0⟩)] :: header,
    [.binary .add 32 (.inst ⟨1, 0⟩) (.constant (.int 32 1)), .br 1],
    [.exit]]
  typeSize _ := 32

/-- The loop of the header 1 and the body 2. -/
def countingBlocks : IRLoop where
  header := 1
  blocks := {1, 2}
  predecessor := some 0
  header_mem := by decide
  predecessor_notMem := by decide

/-- The loop `for (i = 7; i < 10; i++)`. -/
def belowTen : IRFunction := countingLoop 7
  [.icmp .ult 32 (.inst ⟨1, 0⟩) (.constant (.int 32 10)), .condBr (.inst ⟨1, 1⟩) 2 3]

/-- The loop is entered. -/
theorem entryAlwaysJumpsToBody_belowTen : (belowTen.EntersBody countingBlocks ↔
      belowTen.AgreesOnWords countingBlocks) ∧
    ∀ s s₁ s₂ s₃, belowTen.HeaderRun countingBlocks s s₁ s₂ s₃ →
      belowTen.HeaderTranslated countingBlocks s s₁ →
        inLoopBody countingBlocks s₃.pos.block = true :=
  entryAlwaysJumpsToBody_sound_iff (by decide) (by decide +kernel)

/-- The loop `for (i = 6; i % 2 != 0; i++)`, with a signed remainder. -/
def whileOdd : IRFunction := countingLoop 6
  [.binary .srem 32 (.inst ⟨1, 0⟩) (.constant (.int 32 2)),
    .icmp .ne 32 (.inst ⟨1, 1⟩) (.constant (.int 32 0)), .condBr (.inst ⟨1, 2⟩) 2 3]

/-- The test says that the loop is entered, since it takes the remainder for 1.  The execution
leaves the loop at once. -/
theorem entryAlwaysJumpsToBody_whileOdd : whileOdd.PlainHeader countingBlocks ∧
    whileOdd.entryAlwaysJumpsToBody countingBlocks = some true ∧
    ¬whileOdd.EntersBody countingBlocks := by
  refine ⟨by decide, by decide +kernel, fun h => ?_⟩
  have hrun : whileOdd.HeaderRun countingBlocks ⟨⟨0, 0⟩, fun _ => 0⟩ _ _ _ :=
    ⟨⟨rfl, rfl⟩, rfl, rfl, rfl, rfl⟩
  exact absurd (h _ _ _ _ hrun) (by decide)

end IRFunction

end GenMC
