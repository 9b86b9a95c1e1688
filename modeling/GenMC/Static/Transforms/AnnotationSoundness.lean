import GenMC.ADT.VectorClock
import GenMC.Runtime.Execution
import GenMC.Static.Transforms.InstAnnotator

/-!
# Annotations and runs

A thread for which the annotation of a load is false must not get past the next assume.  This holds
for runs all of whose steps are translated (`Translated`): every instruction is supported, the word
operators of the evaluator have its result at its width, branches test registers, and no phi node of
a block that is entered reads another one that changes before it is replaced.
-/

namespace GenMC

namespace IRFunction

variable {F : IRFunction}

/-- The word operator gives the result at the width. -/
def FitsWidth (k : ArithmeticKind) (width : ℕ) (v w : SVal) : Prop :=
  (k.atWidth width v w).isSome ∧ k.apply v w = k.atWidth width v w

instance (k : ArithmeticKind) (width : ℕ) (v w : SVal) : Decidable (FitsWidth k width v w) :=
  inferInstanceAs (Decidable (_ ∧ _))

/-- Replacing the phi nodes of a block one by one gives the values that they get at once: each has
an incoming value, and none of them reads a later one that changes.  On an edge of a block to itself
nothing is replaced, so that nothing may change. -/
structure EdgeTranslated (F : IRFunction) (regs : IRValue → SVal) (pred dest : ℕ) : Prop where
  /-- The incoming values are defined. -/
  defined : ∀ phi ∈ F.phis dest, (incomingValue regs pred phi).isSome
  /-- A phi node that an earlier one reads keeps its value. -/
  ordered : pred ≠ dest → ∀ j < (F.phis dest).length, ∀ k < j,
    ((F.phis dest)[k]?.bind fun phi => phi.lookup pred) = some (.inst ⟨dest, j⟩) →
      ((F.phis dest)[j]?.bind (incomingValue regs pred)) = some (regs (.inst ⟨dest, j⟩))
  /-- The phi nodes of a block that is its own successor keep their values. -/
  loop : pred = dest → ∀ j < (F.phis dest).length,
    ((F.phis dest)[j]?.bind (incomingValue regs pred)) = some (regs (.inst ⟨dest, j⟩))

/-- The condition on the step of a thread. -/
def Translated (F : IRFunction) (s : State) : Prop :=
  match F.inst? s.pos with
  | some (.binary opcode width left right) =>
    opcode ≠ .srem ∧ ∃ v ∈ left.eval s.regs, ∃ w ∈ right.eval s.regs, FitsWidth opcode width v w
  | some (.icmp predicate width left right) =>
    ∃ v ∈ left.eval s.regs, ∃ w ∈ right.eval s.regs,
      predicate.apply v w = predicate.atWidth width v w
  | some (.cast opcode source target op) => ∃ v ∈ op.eval s.regs, opcode.meaning source target v = v
  | some (.pointerCast srcSize dstSize width op) =>
    ∃ v ∈ op.eval s.regs, (dstSize < srcSize → CastKind.trunc.meaning (8 * srcSize) width v = v) ∧
      (srcSize < dstSize → CastKind.zext.meaning (8 * srcSize) width v = v)
  | some (.select cond ifTrue ifFalse) =>
    ((Instruction.select cond ifTrue ifFalse).eval s.regs).isSome
  | some (.bitCast op) => (op.eval s.regs).isSome
  | some (.extractCAS index cas compareOperand) =>
    ((Instruction.extractCAS index cas compareOperand).eval s.regs).isSome
  | some .unsupported => False
  | some (.br dest) => EdgeTranslated F s.regs s.pos.block dest
  | some (.condBr cond ifTrue ifFalse) =>
    (∀ c, cond ≠ .constant c) ∧ EdgeTranslated F s.regs s.pos.block
      (if (s.regs cond).getBool then ifTrue else ifFalse)
  | _ => True

/-! ## Values of expressions -/

/-- The expression of an operand with a value has its value. -/
lemma visit_generateOperandExpr {op : IRValue} {e : IRExpr} {regs : IRValue → SVal} {v : SVal}
    (he : F.generateOperandExpr op = some e) (hv : op.eval regs = some v) :
    SExpr.visit regs e = some v := by
  cases op with
  | inst p =>
    obtain rfl := Option.some.inj he
    exact hv
  | argument n =>
    obtain rfl := Option.some.inj he
    exact hv
  | constant c =>
    cases c with
    | int width value =>
      obtain rfl := Option.some.inj he
      rw [IRValue.eval] at hv
      split at hv
      next hlt =>
        rw [SExpr.visit, min_eq_left (by omega)]
        exact hv
      next => cases hv
    | undef width => cases hv
    | nullPointer =>
      obtain rfl := Option.some.inj he
      exact hv
    | other => cases hv

/-- The expression of an operand is 0 only if the operand is. -/
lemma eval_eq_zero_of_visit {op : IRValue} {e : IRExpr} {regs : IRValue → SVal}
    (he : F.generateOperandExpr op = some e) (hzero : SExpr.visit regs e = some 0) :
    op.eval regs = some 0 := by
  cases op with
  | inst p =>
    obtain rfl := Option.some.inj he
    exact hzero
  | argument n =>
    obtain rfl := Option.some.inj he
    exact hzero
  | constant c =>
    cases c with
    | int width value =>
      obtain rfl := Option.some.inj he
      rw [SExpr.visit, Option.some.injEq, ← BitVec.toNat_inj, BitVec.toNat_ofNat,
        Nat.mod_eq_of_lt (by omega)] at hzero
      obtain rfl : value = 0 := by
        change min value (2 ^ 64 - 1) = 0 at hzero
        omega
      rfl
    | undef width =>
      obtain rfl := Option.some.inj he
      exact absurd (Option.some.inj hzero) (by decide)
    | nullPointer => rfl
    | other => cases he

/-- An operand has the same value if its register has. -/
lemma eval_congr {op : IRValue} {regs regs' : IRValue → SVal} (h : regs op = regs' op) :
    op.eval regs = op.eval regs' := by
  cases op with
  | inst p => exact congrArg some h
  | argument n => exact congrArg some h
  | constant c =>
    cases c with
    | int width value => rfl
    | undef width => rfl
    | nullPointer => rfl
    | other => rfl

/-- The expression of an operand has the same value if the operand has. -/
lemma visit_operandExpr_congr {op : IRValue} {e : IRExpr} {regs regs' : IRValue → SVal}
    (he : F.generateOperandExpr op = some e) (h : op.eval regs = op.eval regs') :
    SExpr.visit regs e = SExpr.visit regs' e := by
  cases op with
  | inst p =>
    obtain rfl := Option.some.inj he
    exact h
  | argument n =>
    obtain rfl := Option.some.inj he
    exact h
  | constant c =>
    cases c with
    | other => cases he
    | _ => exact Option.some.inj he ▸ rfl

/-- The expression of an instruction has the same value if its operands have. -/
lemma visit_instExpr_congr {i : Instruction} {e : IRExpr} {regs regs' : IRValue → SVal}
    (he : F.generateInstExpr i = some e) (h : ∀ op ∈ i.operands, op.eval regs = op.eval regs') :
    SExpr.visit regs e = SExpr.visit regs' e := by
  have hop (op : IRValue) (hmem : op ∈ i.operands) (l : IRExpr)
      (hl : F.generateOperandExpr op = some l) : SExpr.visit regs l = SExpr.visit regs' l :=
    visit_operandExpr_congr hl (h op hmem)
  cases i with
  | binary opcode width left right =>
    by_cases hne : opcode = .srem
    · subst hne
      obtain rfl := Option.some.inj he
      rfl
    · have hgen : F.generateInstExpr (.binary opcode width left right) = (do
          return .binary opcode width (← F.generateOperandExpr left)
            (← F.generateOperandExpr right)) := by
        cases opcode <;> first | rfl | exact absurd rfl hne
      rw [hgen] at he
      obtain ⟨l, hl, he⟩ := Option.bind_eq_some_iff.mp he
      obtain ⟨r, hr, he⟩ := Option.bind_eq_some_iff.mp he
      obtain rfl := Option.some.inj he
      rw [SExpr.visit, SExpr.visit, hop left (by simp [Instruction.operands]) l hl,
        hop right (by simp [Instruction.operands]) r hr]
  | icmp predicate width left right =>
    obtain ⟨l, hl, he⟩ := Option.bind_eq_some_iff.mp he
    obtain ⟨r, hr, he⟩ := Option.bind_eq_some_iff.mp he
    obtain rfl := Option.some.inj he
    rw [SExpr.visit, SExpr.visit, hop left (by simp [Instruction.operands]) l hl,
      hop right (by simp [Instruction.operands]) r hr]
  | select cond ifTrue ifFalse =>
    obtain ⟨c, hc, he⟩ := Option.bind_eq_some_iff.mp he
    obtain ⟨t, ht, he⟩ := Option.bind_eq_some_iff.mp he
    obtain ⟨f, hf, he⟩ := Option.bind_eq_some_iff.mp he
    obtain rfl := Option.some.inj he
    rw [SExpr.visit, SExpr.visit, hop cond (by simp [Instruction.operands]) c hc,
      hop ifTrue (by simp [Instruction.operands]) t ht,
      hop ifFalse (by simp [Instruction.operands]) f hf]
  | cast opcode source target op =>
    obtain ⟨l, hl, he⟩ := Option.bind_eq_some_iff.mp he
    obtain rfl := Option.some.inj he
    rw [SExpr.visit, SExpr.visit, hop op (by simp [Instruction.operands]) l hl]
  | bitCast op => exact hop op (by simp [Instruction.operands]) e he
  | pointerCast srcSize dstSize width op =>
    obtain ⟨l, hl, he⟩ := Option.bind_eq_some_iff.mp he
    obtain rfl := Option.some.inj he
    have hvisit := hop op (by simp [Instruction.operands]) l hl
    split
    · rw [SExpr.visit, SExpr.visit, hvisit]
    · split
      · rw [SExpr.visit, SExpr.visit, hvisit]
      · exact hvisit
  | extractCAS index cas compareOperand =>
    rw [generateInstExpr] at he
    by_cases hzero : index = 0
    · rw [if_pos hzero] at he
      exact hop cas (by simp [Instruction.operands]) e he
    · rw [if_neg hzero] at he
      obtain ⟨l, hl, he⟩ := Option.bind_eq_some_iff.mp he
      obtain ⟨r, hr, he⟩ := Option.bind_eq_some_iff.mp he
      obtain rfl := Option.some.inj he
      rw [SExpr.visit, SExpr.visit, hop cas (by simp [Instruction.operands]) l hl,
        hop compareOperand (by simp [Instruction.operands]) r hr]
  | _ =>
    obtain rfl := Option.some.inj he
    rfl

/-- **The expression of an instruction** has the value of the instruction, if the step is
translated. -/
lemma visit_generateInstExpr {s : State} {i : Instruction} {e : IRExpr}
    (hi : F.inst? s.pos = some i) (htranslated : F.Translated s)
    (he : F.generateInstExpr i = some e) {v : SVal} (hv : i.eval s.regs = some v) :
    SExpr.visit s.regs e = some v := by
  unfold Translated at htranslated
  rw [hi] at htranslated
  cases i with
  | binary opcode width left right =>
    obtain ⟨hne, x, hx, y, hy, -, hfits⟩ := htranslated
    rw [Option.mem_def] at hx hy
    rw [Instruction.eval, hx, hy, Option.bind_some, Option.bind_some] at hv
    have hgen : F.generateInstExpr (.binary opcode width left right) = (do
        return .binary opcode width (← F.generateOperandExpr left)
          (← F.generateOperandExpr right)) := by
      cases opcode <;> first | rfl | exact absurd rfl hne
    rw [hgen] at he
    obtain ⟨l, hl, he⟩ := Option.bind_eq_some_iff.mp he
    obtain ⟨r, hr, he⟩ := Option.bind_eq_some_iff.mp he
    obtain rfl := Option.some.inj he
    rw [SExpr.visit, visit_generateOperandExpr hl hx, visit_generateOperandExpr hr hy,
      Option.bind_some, Option.bind_some, hfits, hv]
  | icmp predicate width left right =>
    obtain ⟨x, hx, y, hy, hfits⟩ := htranslated
    rw [Option.mem_def] at hx hy
    rw [Instruction.eval, hx, hy, Option.bind_some, Option.map_some] at hv
    obtain ⟨l, hl, he⟩ := Option.bind_eq_some_iff.mp he
    obtain ⟨r, hr, he⟩ := Option.bind_eq_some_iff.mp he
    obtain rfl := Option.some.inj he
    rw [SExpr.visit, visit_generateOperandExpr hl hx, visit_generateOperandExpr hr hy,
      Option.bind_some, Option.map_some, hfits, hv]
  | select cond ifTrue ifFalse =>
    obtain ⟨c, hc, he⟩ := Option.bind_eq_some_iff.mp he
    obtain ⟨t, ht, he⟩ := Option.bind_eq_some_iff.mp he
    obtain ⟨f, hf, he⟩ := Option.bind_eq_some_iff.mp he
    obtain rfl := Option.some.inj he
    obtain ⟨b, hb, hv⟩ := Option.bind_eq_some_iff.mp hv
    rw [SExpr.visit, visit_generateOperandExpr hc hb, Option.bind_some]
    split at hv
    next htrue => rw [if_pos htrue, visit_generateOperandExpr ht hv]
    next hfalse => rw [if_neg hfalse, visit_generateOperandExpr hf hv]
  | cast opcode source target op =>
    obtain ⟨x, hx, hfits⟩ := htranslated
    obtain ⟨l, hl, he⟩ := Option.bind_eq_some_iff.mp he
    obtain rfl := Option.some.inj he
    rw [Option.mem_def] at hx
    rw [Instruction.eval, hx, Option.map_some, hfits] at hv
    rw [SExpr.visit, visit_generateOperandExpr hl hx, hv]
  | bitCast op => exact visit_generateOperandExpr he hv
  | pointerCast srcSize dstSize width op =>
    obtain ⟨x, hx, htrunc, hzext⟩ := htranslated
    obtain ⟨l, hl, he⟩ := Option.bind_eq_some_iff.mp he
    obtain rfl := Option.some.inj he
    rw [Option.mem_def] at hx
    rw [Instruction.eval, hx, Option.map_some, Option.map_some] at hv
    have hvalue : x = v := by
      split at hv
      next hlt => exact htrunc hlt ▸ Option.some.inj hv
      next =>
        split at hv
        next hlt => exact hzext hlt ▸ Option.some.inj hv
        next => exact Option.some.inj hv
    subst hvalue
    split
    · rw [SExpr.visit, visit_generateOperandExpr hl hx]
    · split
      · rw [SExpr.visit, visit_generateOperandExpr hl hx]
      · exact visit_generateOperandExpr hl hx
  | extractCAS index cas compareOperand =>
    rw [generateInstExpr] at he
    rw [Instruction.eval] at hv
    by_cases hzero : index = 0
    · rw [if_pos hzero] at he hv
      exact visit_generateOperandExpr he hv
    · rw [if_neg hzero] at he hv
      obtain ⟨l, hl, he⟩ := Option.bind_eq_some_iff.mp he
      obtain ⟨r, hr, he⟩ := Option.bind_eq_some_iff.mp he
      obtain rfl := Option.some.inj he
      obtain ⟨x, hx, hv⟩ := Option.bind_eq_some_iff.mp hv
      obtain ⟨y, hy, rfl⟩ := Option.map_eq_some_iff.mp hv
      rw [SExpr.visit, visit_generateOperandExpr hl hx, visit_generateOperandExpr hr hy]
      rfl
  | _ => cases hv

/-- The instructions that assign a value to their registers. -/
lemma exists_eval {s : State} {i : Instruction} (hi : F.inst? s.pos = some i)
    (htranslated : F.Translated s) (hend : endsAnnotation i = false)
    (hterm : i.isTerminator = false) (hphi : ∀ incoming, i ≠ .phi incoming) :
    ∃ v, i.eval s.regs = some v := by
  unfold Translated at htranslated
  rw [hi] at htranslated
  cases i with
  | binary opcode width left right =>
    obtain ⟨-, v, hv, w, hw, hsome, -⟩ := htranslated
    rw [Instruction.eval, Option.mem_def.mp hv, Option.mem_def.mp hw]
    exact Option.isSome_iff_exists.mp hsome
  | icmp predicate width left right =>
    obtain ⟨v, hv, w, hw, -⟩ := htranslated
    exact ⟨_, by rw [Instruction.eval, Option.mem_def.mp hv, Option.mem_def.mp hw]; rfl⟩
  | select cond ifTrue ifFalse => exact Option.isSome_iff_exists.mp htranslated
  | cast opcode source target op =>
    obtain ⟨v, hv, -⟩ := htranslated
    exact ⟨_, by rw [Instruction.eval, Option.mem_def.mp hv]; rfl⟩
  | bitCast op => exact Option.isSome_iff_exists.mp htranslated
  | pointerCast srcSize dstSize width op =>
    obtain ⟨v, hv, -⟩ := htranslated
    rw [Instruction.eval, Option.mem_def.mp hv]
    split
    · exact ⟨_, rfl⟩
    · split
      · exact ⟨_, rfl⟩
      · exact ⟨_, rfl⟩
  | extractCAS index cas compareOperand => exact Option.isSome_iff_exists.mp htranslated
  | unsupported => exact htranslated.elim
  | phi incoming => exact absurd rfl (hphi incoming)
  | br dest => cases hterm
  | condBr cond ifTrue ifFalse => cases hterm
  | exit => cases hterm
  | _ => cases hend

/-! ## Edges -/

/-- The registers when the phi nodes from an index on have their values and the earlier ones have
not. -/
def setPhisFrom (regs : IRValue → SVal) (dest : ℕ) (values : List SVal) (j : ℕ) : IRValue → SVal
  | .inst q =>
    if q.block = dest ∧ j ≤ q.index then values[q.index]?.getD (regs (.inst q)) else regs (.inst q)
  | reg => regs reg

/-- From the first index on, all phi nodes have their values. -/
lemma setPhisFrom_zero (regs : IRValue → SVal) (dest : ℕ) (values : List SVal) :
    setPhisFrom regs dest values 0 = setPhis regs dest values := by
  funext r
  cases r with
  | inst q => simp [setPhisFrom, setPhis]
  | _ => rfl

/-- From the end on, no phi node has its value. -/
lemma setPhisFrom_length (regs : IRValue → SVal) (dest : ℕ) (values : List SVal) {j : ℕ}
    (hj : values.length ≤ j) : setPhisFrom regs dest values j = regs := by
  funext r
  cases r with
  | inst q =>
    rw [setPhisFrom]
    split
    next hq => rw [List.getElem?_eq_none (hj.trans hq.2), Option.getD_none]
    next => rfl
  | _ => rfl

/-- One phi node more gets its value. -/
lemma update_setPhisFrom (regs : IRValue → SVal) (dest : ℕ) {values : List SVal} {j : ℕ} {v : SVal}
    (hv : values[j]? = some v) :
    Function.update (setPhisFrom regs dest values (j + 1)) (.inst ⟨dest, j⟩) v =
      setPhisFrom regs dest values j := by
  funext r
  by_cases hr : r = .inst ⟨dest, j⟩
  · subst hr
    simp [setPhisFrom, hv]
  · rw [Function.update_of_ne hr]
    cases r with
    | inst q =>
      obtain ⟨b, k⟩ := q
      have hne : b = dest → k ≠ j := by
        rintro rfl rfl
        exact hr rfl
      simp only [setPhisFrom]
      by_cases hb : b = dest
      · have hiff : j + 1 ≤ k ↔ j ≤ k := by
          have := hne hb
          omega
        simp only [hb, true_and, hiff]
      · simp only [hb, false_and]
    | _ => rfl

/-- The values that the phi nodes of a block get. -/
lemma EdgeTranslated.exists_values {regs : IRValue → SVal} {pred dest : ℕ}
    (h : F.EdgeTranslated regs pred dest) :
    ∃ values, (F.phis dest).mapM (incomingValue regs pred) = some values ∧
      values.length = (F.phis dest).length ∧
      ∀ j : ℕ, values[j]? = (F.phis dest)[j]?.bind (incomingValue regs pred) := by
  have hvalues := PartialRun.mapM_eq_some_filterMap h.defined
  obtain ⟨hlength, hget⟩ := PartialRun.getElem?_of_mapM hvalues
  refine ⟨_, hvalues, hlength, fun j => ?_⟩
  cases hj : ((F.phis dest).filterMap (incomingValue regs pred))[j]? with
  | none =>
    rw [List.getElem?_eq_none_iff, hlength] at hj
    rw [List.getElem?_eq_none hj, Option.bind_none]
  | some v =>
    obtain ⟨phi, hphi, hv⟩ := hget j v hj
    rw [hphi, Option.bind_some, hv]

/-- Replacing the phi nodes from an index on, one by one.  By induction on the rest of the list: the
expression that is replaced for a register is evaluated where the later ones have their values. -/
lemma EdgeTranslated.visit_foldlM {regs : IRValue → SVal} {pred dest : ℕ}
    (h : F.EdgeTranslated regs pred dest) (hne : pred ≠ dest) {values : List SVal}
    (hlength : values.length = (F.phis dest).length)
    (hget : ∀ j : ℕ, values[j]? = (F.phis dest)[j]?.bind (incomingValue regs pred))
    {rest : List (List (ℕ × IRValue))} {j : ℕ} (hrest : (F.phis dest).drop j = rest)
    {e e' : IRExpr} (hfold : (rest.zipIdx j).foldlM (F.substitutePhi pred dest) e = some e') :
    SExpr.visit regs e' = SExpr.visit (setPhisFrom regs dest values j) e := by
  induction rest generalizing j e with
  | nil =>
    obtain rfl := Option.some.inj hfold
    rw [setPhisFrom_length regs dest values (hlength.trans_le (List.drop_eq_nil_iff.mp hrest))]
  | cons phi rest ih =>
    have hphi : (F.phis dest)[j]? = some phi := by
      rw [← Nat.add_zero j, ← List.getElem?_drop, hrest]
      rfl
    have hdrop : (F.phis dest).drop (j + 1) = rest := by
      rw [← List.drop_drop, hrest]
      rfl
    rw [List.zipIdx_cons, List.foldlM_cons] at hfold
    obtain ⟨e₁, he₁, hfold⟩ := Option.bind_eq_some_iff.mp hfold
    obtain ⟨op, hop, he₁⟩ := Option.bind_eq_some_iff.mp he₁
    obtain ⟨phiOp, hphiOp, rfl⟩ := Option.map_eq_some_iff.mp he₁
    obtain ⟨v, hv⟩ := Option.isSome_iff_exists.mp (h.defined phi (List.mem_of_getElem? hphi))
    have hvalue : values[j]? = some v := by
      rw [hget, hphi, Option.bind_some, hv]
    -- a later phi node that this one reads keeps its value
    have hkeeps : setPhisFrom regs dest values (j + 1) op = regs op := by
      cases op with
      | inst q =>
        rw [setPhisFrom]
        split
        next hq =>
          cases hw : values[q.index]? with
          | none => rfl
          | some w =>
            have hlt : q.index < (F.phis dest).length :=
              hlength ▸ (List.getElem?_eq_some_iff.mp hw).1
            have hq' : q = ⟨dest, q.index⟩ := by
              rw [← hq.1]
            have hsame := h.ordered hne q.index hlt j hq.2
              (by rw [hphi, Option.bind_some, hop]; exact congrArg (some ∘ IRValue.inst) hq')
            rw [← hget, hw] at hsame
            exact (Option.some.inj hsame).trans (congrArg (regs ∘ IRValue.inst) hq'.symm)
        next => rfl
      | _ => rfl
    have heval : op.eval (setPhisFrom regs dest values (j + 1)) = some v := by
      rw [eval_congr hkeeps, ← hv, incomingValue, hop, Option.bind_some]
    rw [ih hdrop hfold, SExpr.visit_substitute _ _ _ _ (visit_generateOperandExpr hphiOp heval),
      update_setPhisFrom regs dest hvalue]

/-- **An edge.**  The expression that is propagated to a branch has the value that the annotation of
the block has when the thread has entered it. -/
lemma EdgeTranslated.visit_propagate {annot : InstPos → Option IRExpr} {s : State} {dest : ℕ}
    {e e₀ : IRExpr} {i : Instruction} (hi : F.inst? s.pos = some i) (hbranch : i.targets ≠ [])
    (h : F.EdgeTranslated s.regs s.pos.block dest) (he₀ : annot ⟨dest, 0⟩ = some e₀)
    (he : F.propagateAnnotFromSucc annot s.pos ⟨dest, 0⟩ = some e) :
    ∃ s', F.switchToNewBasicBlock s dest = some s' ∧ s'.pos = ⟨dest, 0⟩ ∧
      SExpr.visit s.regs e = SExpr.visit s'.regs e₀ := by
  obtain ⟨values, hvalues, hlength, hget⟩ := h.exists_values
  refine ⟨⟨⟨dest, 0⟩, setPhis s.regs dest values⟩, ?_, rfl, ?_⟩
  · rw [switchToNewBasicBlock, hvalues, Option.map_some]
  · obtain ⟨succAnnot, hsucc, he⟩ := Option.bind_eq_some_iff.mp he
    obtain rfl := Option.some.inj (he₀.symm.trans hsucc)
    obtain ⟨succExp, hexp, he⟩ := Option.bind_eq_some_iff.mp he
    obtain ⟨i', hi', he⟩ := Option.bind_eq_some_iff.mp he
    obtain rfl := Option.some.inj (hi.symm.trans hi')
    have heq : succExp = e := by
      cases i with
      | br dest => exact Option.some.inj he
      | condBr cond ifTrue ifFalse => exact Option.some.inj he
      | _ => exact absurd rfl hbranch
    subst heq
    unfold substitutePhis at hexp
    split at hexp
    next hne =>
      rw [h.visit_foldlM hne hlength hget List.drop_zero hexp, setPhisFrom_zero, SExpr.visit_clone]
    next heq =>
      have hregs : setPhis s.regs dest values = s.regs := by
        funext r
        cases r with
        | inst q =>
          rw [setPhis]
          split
          next hq =>
            cases hv : values[q.index]? with
            | none => rfl
            | some v =>
              have hq' : q = ⟨dest, q.index⟩ := by
                rw [← hq]
              have hsame := h.loop (not_not.mp heq) q.index
                (hlength ▸ (List.getElem?_eq_some_iff.mp hv).1)
              rw [← hget, hv] at hsame
              exact (Option.some.inj hsame).trans (congrArg (s.regs ∘ IRValue.inst) hq'.symm)
          next => rfl
        | _ => rfl
      obtain rfl := Option.some.inj hexp
      rw [SExpr.visit_clone, hregs]

/-! ## Phi nodes one by one -/

/-- The value of an expression; 0 if it has none. -/
def wordValue (regs : IRValue → SVal) (e : Option IRExpr) : SVal :=
  (e.bind (SExpr.visit regs)).getD 0

/-- The registers after the phi nodes of a block are assigned one by one, the last one first. -/
def wordPhis (F : IRFunction) (regs : IRValue → SVal) (pred dest : ℕ) : IRValue → SVal :=
  (F.phis dest).zipIdx.foldr (fun phi regs => Function.update regs (.inst ⟨dest, phi.2⟩)
    (wordValue regs ((phi.1.lookup pred).bind F.generateOperandExpr))) regs

/-- Operands have values on words. -/
lemma visit_operandExpr {op : IRValue} {e : IRExpr} (he : F.generateOperandExpr op = some e)
    (regs : IRValue → SVal) : SExpr.visit regs e = some (wordValue regs (some e)) := by
  have hsome : ∃ v, SExpr.visit regs e = some v := by
    cases op with
    | inst p => exact Option.some.inj he ▸ ⟨_, rfl⟩
    | argument n => exact Option.some.inj he ▸ ⟨_, rfl⟩
    | constant c =>
      cases c with
      | other => cases he
      | _ => exact Option.some.inj he ▸ ⟨_, rfl⟩
  obtain ⟨v, hv⟩ := hsome
  rw [wordValue, Option.bind_some, hv, Option.getD_some]

/-- The phi nodes are replaced one by one, so that the last one gets its value first. -/
lemma visit_wordPhis {regs : IRValue → SVal} {pred dest : ℕ} {e e' : IRExpr}
    (hfold : (F.phis dest).zipIdx.foldlM (F.substitutePhi pred dest) e = some e') :
    SExpr.visit regs e' = SExpr.visit (F.wordPhis regs pred dest) e := by
  unfold wordPhis
  generalize (F.phis dest).zipIdx = phis at hfold ⊢
  induction phis generalizing e with
  | nil =>
    obtain rfl := Option.some.inj hfold
    rfl
  | cons phi rest ih =>
    rw [List.foldlM_cons] at hfold
    obtain ⟨e₁, he₁, hfold⟩ := Option.bind_eq_some_iff.mp hfold
    obtain ⟨op, hop, he₁⟩ := Option.bind_eq_some_iff.mp he₁
    obtain ⟨phiOp, hphiOp, rfl⟩ := Option.map_eq_some_iff.mp he₁
    rw [List.foldr_cons, hop, Option.bind_some, hphiOp, ih hfold]
    exact SExpr.visit_substitute _ _ _ _ (visit_operandExpr hphiOp _)

/-! ## Soundness -/

/-- `filterValuesFromAnnotSAVER`: stores whose values make the annotation of a read false are
discarded, but neither the last one nor the one that is maximal in coherence order. -/
def filterValuesFromAnnotSAVER {T : Type*} (annot : Option (SExpr T)) (getWriteValue : Event → SVal)
    (coMax : Event) (validStores : List Event) : Option (List Event) :=
  match annot with
  | none => some validStores
  | some annot =>
    validStores.getLast?.bind fun maximal =>
      PartialRun.eraseIfM (fun w =>
        if w ≠ maximal ∧ w ≠ coMax then
          (annot.evaluate (getWriteValue w)).map fun v => !v.getBool
        else some false) validStores

/-- The annotation is 0 for the value of a store that is discarded. -/
lemma eq_zero_of_filtered {T : Type*} {annot : SExpr T} {getWriteValue : Event → SVal}
    {coMax w : Event} {validStores kept : List Event}
    (h : filterValuesFromAnnotSAVER (some annot) getWriteValue coMax validStores = some kept)
    (hw : w ∈ validStores) (hnot : w ∉ kept) : annot.evaluate (getWriteValue w) = some 0 := by
  obtain ⟨maximal, -, h⟩ := Option.bind_eq_some_iff.mp h
  obtain ⟨b, hb, hor⟩ := PartialRun.exists_of_eraseIfM h hw
  obtain rfl | hmem := hor
  · split at hb
    · obtain ⟨v, hv, hfalse⟩ := Option.map_eq_some_iff.mp hb
      obtain rfl : v = 0 := by simpa [SVal.getBool] using hfalse
      exact hv
    · cases hb
  · exact absurd hmem hnot

/-- A thread for which the annotation of an instruction is 0 reaches a failing assume from there. -/
def Sound (F : IRFunction) (p : InstPos) (e : IRExpr) : Prop :=
  ∀ regs, F.Along F.Translated ⟨p, regs⟩ → SExpr.visit regs e = some 0 →
    F.ReachesFailingAssume ⟨p, regs⟩

/-- The expression true says nothing. -/
lemma sound_createTrue (p : InstPos) : F.Sound p createTrue :=
  fun _ _ hzero => absurd (Option.some.inj hzero) (by decide)

/-- A step that keeps the value of the annotation. -/
lemma Sound.of_step {s s' : State} {e e' : IRExpr} (h : F.Sound s'.pos e')
    (hrun : F.Along F.Translated s) (hstep : F.step s = some (.running s'))
    (heq : SExpr.visit s.regs e = SExpr.visit s'.regs e')
    (hzero : SExpr.visit s.regs e = some 0) : F.ReachesFailingAssume s :=
  .of_step hstep (h s'.regs (hrun.next hstep) (heq ▸ hzero))

/-- The annotation of a point beyond which annotations do not go. -/
lemma sound_of_ends {p : InstPos} {i : Instruction} {annot : InstPos → Option IRExpr} {e : IRExpr}
    (hi : F.inst? p = some i) (hend : endsAnnotation i = true)
    (he : F.finishAnnot annot p = some e) : F.Sound p e := by
  rw [finishAnnot, successors_of_ends hi hend, hi] at he
  cases i with
  | assume cond =>
    intro regs _ hzero
    have hcond : cond.eval regs = some 0 := eval_eq_zero_of_visit he hzero
    exact ⟨1, by rw [run, step_assume hi hcond]; rfl⟩
  | _ => exact Option.some.inj he ▸ sound_createTrue p

/-- The annotation of an instruction that is followed by the next one. -/
lemma sound_of_next (hF : F.WellFormed) {p : InstPos} {i : Instruction}
    {annot : InstPos → Option IRExpr} {e : IRExpr} (hannot : ∀ q e, annot q = some e → F.Sound q e)
    (hi : F.inst? p = some i) (hend : endsAnnotation i = false) (hterm : i.isTerminator = false)
    (he : F.finishAnnot annot p = some e) : F.Sound p e := by
  rw [finishAnnot, successors_of_not_terminator hF hi hend hterm] at he
  obtain ⟨succAnnot, hsucc, he⟩ := Option.bind_eq_some_iff.mp he
  obtain ⟨succExp, hexp, he⟩ := Option.bind_eq_some_iff.mp he
  obtain ⟨i', hi', he⟩ := Option.bind_eq_some_iff.mp he
  obtain rfl := Option.some.inj (hi.symm.trans hi')
  have hsame : ¬p.block ≠ p.next.block := not_not.mpr rfl
  rw [substitutePhis, if_neg hsame] at hexp
  obtain rfl := Option.some.inj hexp
  have hsound := hannot p.next succAnnot hsucc
  intro regs hrun hzero
  by_cases hphi : ∃ incoming, i = .phi incoming
  · obtain ⟨incoming, rfl⟩ := hphi
    obtain rfl := Option.some.inj he
    exact hsound.of_step hrun (step_phi hi) (SExpr.visit_clone regs succAnnot) hzero
  · obtain ⟨v, hv⟩ := exists_eval (s := ⟨p, regs⟩) hi hrun.here hend hterm
      fun incoming h => hphi ⟨incoming, h⟩
    have hgen : ∃ currOp, F.generateInstExpr i = some currOp ∧
        SExpr.substitute succAnnot.clone (.inst p) currOp = e := by
      cases i <;> first
        | exact Option.map_eq_some_iff.mp he
        | cases hv
    obtain ⟨currOp, hop, rfl⟩ := hgen
    refine hsound.of_step hrun (step_eval hi hv) ?_ hzero
    have hcurr := visit_generateInstExpr (s := ⟨p, regs⟩) hi hrun.here hop hv
    rw [SExpr.visit_substitute _ _ _ _ hcurr, SExpr.visit_clone]

/-- The annotation of a terminator. -/
lemma sound_of_terminator (hF : F.WellFormed) {p : InstPos} {i : Instruction}
    {annot : InstPos → Option IRExpr} {e : IRExpr} (hannot : ∀ q e, annot q = some e → F.Sound q e)
    (hi : F.inst? p = some i) (hterm : i.isTerminator = true)
    (he : F.finishAnnot annot p = some e) : F.Sound p e := by
  have hsuccs := successors_of_terminator hF hi hterm
  -- the value of an annotation that is propagated along an edge of the run
  have hedge : ∀ (regs : IRValue → SVal) (dest : ℕ) (e : IRExpr), i.targets ≠ [] →
      F.EdgeTranslated regs p.block dest → F.propagateAnnotFromSucc annot p ⟨dest, 0⟩ = some e →
      ∃ s' e₀, F.switchToNewBasicBlock ⟨p, regs⟩ dest = some s' ∧ F.Sound s'.pos e₀ ∧
        SExpr.visit regs e = SExpr.visit s'.regs e₀ := by
    intro regs dest e hbranch htranslated he
    obtain ⟨e₀, he₀, -⟩ := Option.bind_eq_some_iff.mp he
    obtain ⟨s', hs', hpos, hvisit⟩ :=
      htranslated.visit_propagate (s := ⟨p, regs⟩) hi hbranch he₀ he
    exact ⟨s', e₀, hs', hpos ▸ hannot _ e₀ he₀, hvisit⟩
  rw [finishAnnot, hsuccs, hi] at he
  cases i with
  | br dest =>
    intro regs hrun hzero
    have htranslated := hrun.here
    rw [Translated, hi] at htranslated
    obtain ⟨s', e₀, hs', hsound, hvisit⟩ := hedge regs dest e (List.cons_ne_nil _ _) htranslated he
    have hstep : F.step ⟨p, regs⟩ = some (.running s') := by
      rw [step_br hi, hs', Option.map_some]
    exact hsound.of_step hrun hstep hvisit hzero
  | condBr cond ifTrue ifFalse =>
    intro regs hrun hzero
    have htranslated := hrun.here
    rw [Translated, hi] at htranslated
    obtain ⟨hreg, htranslated⟩ := htranslated
    have hcond : cond.eval regs = some (regs cond) := by
      cases cond with
      | constant c => exact absurd rfl (hreg c)
      | _ => rfl
    obtain ⟨t, ht, he⟩ := Option.bind_eq_some_iff.mp he
    obtain ⟨f, hf, he⟩ := Option.bind_eq_some_iff.mp he
    obtain rfl := Option.some.inj he
    rw [SExpr.visit, SExpr.visit, Option.bind_some] at hzero
    have htaken : ∃ s' e₀, F.switchToNewBasicBlock ⟨p, regs⟩
        (if (regs cond).getBool then ifTrue else ifFalse) = some s' ∧ F.Sound s'.pos e₀ ∧
        SExpr.visit s'.regs e₀ = some 0 := by
      split at hzero
      next htrue =>
        rw [if_pos htrue] at htranslated ⊢
        obtain ⟨s', e₀, hs', hsound, hvisit⟩ :=
          hedge regs ifTrue t (List.cons_ne_nil _ _) htranslated ht
        exact ⟨s', e₀, hs', hsound, hvisit ▸ hzero⟩
      next hfalse =>
        rw [if_neg hfalse] at htranslated ⊢
        obtain ⟨s', e₀, hs', hsound, hvisit⟩ :=
          hedge regs ifFalse f (List.cons_ne_nil _ _) htranslated hf
        exact ⟨s', e₀, hs', hsound, hvisit ▸ hzero⟩
    obtain ⟨s', e₀, hs', hsound, hvisit⟩ := htaken
    have hstep : F.step ⟨p, regs⟩ = some (.running s') := by
      rw [step_condBr hi hcond, hs', Option.map_some]
    exact .of_step hstep (hsound s'.regs (hrun.next hstep) hvisit)
  | exit => exact Option.some.inj he ▸ sound_createTrue p
  | _ => cases hterm

/-- **The end of the search at an instruction** gives a sound annotation if the annotations so far
are. -/
lemma sound_finishAnnot (hF : F.WellFormed) {annot : InstPos → Option IRExpr} {p : InstPos}
    {e : IRExpr} (hannot : ∀ q e, annot q = some e → F.Sound q e)
    (he : F.finishAnnot annot p = some e) : F.Sound p e := by
  cases hi : F.inst? p with
  | none =>
    have hsuccs : F.getNextOrBranchSuccessors p = [] := by
      rw [getNextOrBranchSuccessors, hi]
    rw [finishAnnot, hsuccs, hi] at he
    exact Option.some.inj he ▸ sound_createTrue p
  | some i =>
    cases hend : endsAnnotation i with
    | true => exact sound_of_ends hi hend he
    | false =>
      cases hterm : i.isTerminator with
      | true => exact sound_of_terminator hF hannot hi hterm he
      | false => exact sound_of_next hF hannot hi hend hterm he

/-- **Annotations of loads.**  Every load of a well-formed function gets an annotation.  If it is 0
for the values of the registers, and all steps of the run from the successor of the load with these
values are translated, then the run reaches a failing assume before another load or an instruction
with side effects.  This is the case for the values of the stores that are filtered out. -/
theorem annotate_sound {F : IRFunction} (hF : F.WellFormed) {l : InstPos}
    (hl : F.inst? l = some .load ∨ F.inst? l = some .atomicCmpXchg) :
    ∃ e, F.annotate l = some e ∧
      (∀ regs, F.Along F.Translated ⟨l.next, regs⟩ → SExpr.visit regs e = some 0 →
        F.ReachesFailingAssume ⟨l.next, regs⟩) ∧
      ∀ (rMap : SExpr.ReplaceMap IRValue) (getWriteValue : Event → SVal) (coMax : Event)
        (validStores kept : List Event),
        filterValuesFromAnnotSAVER (some (e.concretize rMap)) getWriteValue coMax validStores =
          some kept → ∀ w ∈ validStores, w ∉ kept →
        F.Along F.Translated ⟨l.next, rMap.env fun _ => getWriteValue w⟩ →
        F.ReachesFailingAssume ⟨l.next, rMap.env fun _ => getWriteValue w⟩ := by
  obtain ⟨s, e, hs, he, hannotate⟩ := exists_annotate hF hl
  have hsound : F.Sound l.next e :=
    DepthFirst.evaluate_invariant sound_createTrue
      (fun annot p e hannot he => sound_finishAnnot hF hannot he)
      (fun _ e h => absurd h (Option.some_ne_none e).symm) hs l.next e he
  refine ⟨e, hannotate, hsound, fun rMap getWriteValue coMax validStores kept hkept w hw hnot => ?_⟩
  refine fun hrun => hsound _ hrun ?_
  have hvalue := eq_zero_of_filtered hkept hw hnot
  rwa [SExpr.evaluate, SExpr.visit_concretize] at hvalue

/-! ## Examples -/

/-- A load, the comparison of its value with 0, and an assume. -/
def assumeZero : IRFunction where
  blocks := [[.load, .icmp .eq 32 (.inst ⟨0, 0⟩) (.constant (.int 32 0)), .assume (.inst ⟨0, 1⟩),
    .exit]]
  typeSize _ := 32

/-- The value 5 makes the assume fail. -/
theorem assumeZero_blocks : ∃ e, assumeZero.annotate ⟨0, 0⟩ = some e ∧
    SExpr.visit (fun _ => 5) e = some 0 ∧
    assumeZero.ReachesFailingAssume ⟨⟨0, 1⟩, fun _ => 5⟩ := by
  obtain ⟨e, he, hsound, -⟩ := annotate_sound (F := assumeZero) (l := ⟨0, 0⟩)
    ⟨by decide, by decide, by decide, by decide⟩ (Or.inl rfl)
  have hrun : assumeZero.Along assumeZero.Translated ⟨⟨0, 1⟩, fun _ => 5⟩ := by
    intro n s hn
    match n with
    | 0 => exact Outcome.running.inj (Option.some.inj hn) ▸ ⟨5, rfl, 0, rfl, by decide⟩
    | 1 => exact Outcome.running.inj (Option.some.inj hn) ▸ trivial
    | n + 2 => cases hn
  have hzero : SExpr.visit (fun _ => 5) e = some 0 := by
    have heval : (assumeZero.annotate ⟨0, 0⟩).bind (SExpr.visit fun _ => 5) = some 0 := by
      decide +kernel
    rwa [he, Option.bind_some] at heval
  exact ⟨e, he, hzero, hsound _ hrun hzero⟩

/-- A load, the comparison of the signed remainder of its value and 2 with 0, and an assume. -/
def assumeEven : IRFunction where
  blocks := [[.load, .binary .srem 32 (.inst ⟨0, 0⟩) (.constant (.int 32 2)),
    .icmp .eq 32 (.inst ⟨0, 1⟩) (.constant (.int 32 0)), .assume (.inst ⟨0, 2⟩), .exit]]
  typeSize _ := 32

/-- The values of two stores. -/
def evenValue (w : Event) : SVal := if w = ⟨1, 1⟩ then 2 else 1

/-- The annotation of the load compares the constant true with 0, so that it is 0 for the value 2,
and a store of this value is discarded.  With this value the assume succeeds and the function
ends. -/
theorem assumeEven_continues : assumeEven.WellFormed ∧ ∃ e, assumeEven.annotate ⟨0, 0⟩ = some e ∧
    SExpr.visit (fun _ => 2) e = some 0 ∧
    filterValuesFromAnnotSAVER (some (e.concretize fun _ => none)) evenValue ⟨2, 1⟩
      [⟨1, 1⟩, ⟨2, 1⟩] = some [⟨2, 1⟩] ∧
    assumeEven.run 4 ⟨⟨0, 1⟩, fun _ => 2⟩ = some .stopped ∧
    ¬assumeEven.ReachesFailingAssume ⟨⟨0, 1⟩, fun _ => 2⟩ := by
  have heval : (assumeEven.annotate ⟨0, 0⟩).any
      (fun e => decide (SExpr.visit (fun _ => 2) e = some 0 ∧
        filterValuesFromAnnotSAVER (some (e.concretize fun _ => none)) evenValue ⟨2, 1⟩
          [⟨1, 1⟩, ⟨2, 1⟩] = some [⟨2, 1⟩])) = true := by
    decide +kernel
  obtain ⟨e, he, hboth⟩ := Option.any_eq_true _ _ |>.mp heval
  obtain ⟨hzero, hkept⟩ := of_decide_eq_true hboth
  refine ⟨⟨by decide, by decide, by decide, by decide⟩, e, he, hzero, hkept, rfl, ?_⟩
  rintro ⟨n, hn⟩
  match n with
  | 0 | 1 | 2 | 3 => cases hn
  | n + 4 => cases hn

end IRFunction

end GenMC
