import GenMC.Static.BackPaths
import GenMC.Static.Transforms.AnnotationSoundness

/-!
# The condition of a back edge

`annotateCASWithBackedgeCond` computes, for a compare-exchange of a loop, the condition on which the
instructions behind it lead back to the header of the loop.  The search stays in the blocks of the
back paths; a block outside of them has the condition false, the header has the condition true, and
the registers of loads, compare-exchanges, their extracts and calls stay in the expression.

An annotation is true for every assignment of the registers that leads to the header
(`isTrue_of_leadsToHeader`).
-/

namespace GenMC

namespace IRFunction

variable (F : IRFunction)

/-! ## Back paths of a function -/

/-- The blocks that the terminator of a block goes to. -/
def successors (bb : ℕ) : List ℕ :=
  ((F.inst? (F.terminatorPos bb)).map Instruction.targets).getD []

/-- The blocks of a function, with what the search for back paths reads of them. -/
def blockGraph : BlockGraph Empty ℕ where
  predecessors bb := (List.range F.blocks.length).filter fun pred => bb ∈ F.successors pred
  instructions bb := (F.blocks[bb]?.getD []).map fun i =>
    match i with
    | .load => .load false
    | .atomicCmpXchg => .atomicCmpXchg
    | i => .other <| endsAnnotation i

/-- `backedgePaths`: the blocks of the back paths from a latch to the header. -/
def backedgePaths (latch header : ℕ) : Finset ℕ :=
  (F.blockGraph.foreachInBackPathTo F.blocks.length latch header []).flatten.toFinset

/-! ## The search -/

/-- `getNextOrBranchSuccessorsInLoop`. -/
def getNextOrBranchSuccessorsInLoop (backedgePaths : Finset ℕ) (header : ℕ) (p : InstPos) :
    List InstPos :=
  if p.block ∉ backedgePaths ∨ p = ⟨header, 0⟩ then []
  else if (F.inst? p.next).isSome then [p.next]
  else ((F.inst? p).map Instruction.targets).getD [] |>.map (⟨·, 0⟩)

/-- The instructions that annotations are not changed by: branches, phi nodes, and those whose
results are unknown.  Extracts from other aggregates and calls without side effects pass annotations
as well, but are not told apart from what is `unsupported`. -/
def passesAnnot : Instruction → Bool
  | .br _ | .condBr _ _ _ | .phi _ | .atomicCmpXchg | .extractCAS _ _ _ | .load => true
  -- calls
  | .assume _ | .sideEffect | .error => true
  | _ => false

/-- `propagateAnnotFromSuccInLoop`. -/
def propagateAnnotFromSuccInLoop (annot : InstPos → Option IRExpr) (curr succ : InstPos) :
    Option IRExpr :=
  (annot succ).bind fun succAnnot =>
    (F.substitutePhis curr succ succAnnot.clone).bind fun succExp =>
      (F.inst? curr).bind fun i =>
        if passesAnnot i then some succExp
        else (F.generateInstExpr i).map fun currOp => SExpr.substitute succExp (.inst curr) currOp

/-- The end of `annotateCASWithBackedgeCondDFS`, after the loop over the successors.  Instructions
with side effects are a bug, unless they call functions of the clean set. -/
def finishBackedgeCond (clean : InstPos → Bool) (backedgePaths : Finset ℕ) (header : ℕ)
    (annot : InstPos → Option IRExpr) (curr : InstPos) : Option IRExpr :=
  match F.getNextOrBranchSuccessorsInLoop backedgePaths header curr with
  | [] =>
    if curr.block ∉ backedgePaths then some createFalse
    else if curr.block = header then some createTrue
    else none
  | [succ] =>
    if F.inst? curr = some .sideEffect ∧ !clean curr then none
    else F.propagateAnnotFromSuccInLoop annot curr succ
  | succ₀ :: succ₁ :: _ =>
    match F.inst? curr with
    | some (.condBr cond _ _) =>
      (F.propagateAnnotFromSuccInLoop annot curr succ₀).bind fun t =>
        (F.propagateAnnotFromSuccInLoop annot curr succ₁).map fun f =>
          .select t.getWidth (.register boolWidth cond) t f
    | _ => none

/-- `annotateCASWithBackedgeCond`. -/
def annotateCASWithBackedgeCond (clean : InstPos → Bool) (cas : InstPos) (latch header : ℕ) :
    Option IRExpr :=
  let backedgePaths := F.backedgePaths latch header
  (DepthFirst.evaluate (F.getNextOrBranchSuccessorsInLoop backedgePaths header) createTrue
    (F.finishBackedgeCond clean backedgePaths header) F.positions.card cas.next .start).bind
      fun s => s.result cas.next

/-! ## What the annotations say -/

/-- The value of the register of an instruction is the one of its expression. -/
def Settled (env : IRValue → SVal) (p : InstPos) (i : Instruction) : Prop :=
  passesAnnot i = false →
    ∀ e, F.generateInstExpr i = some e → SExpr.visit env e = some (env (.inst p))

/-- The values of the phi nodes of a block are the ones of their incoming values. -/
def SettledPhis (env : IRValue → SVal) (pred dest : ℕ) : Prop :=
  ∀ j phi, (F.phis dest)[j]? = some phi → ∀ op ∈ phi.lookup pred, ∀ e,
    F.generateOperandExpr op = some e → SExpr.visit env e = some (env (.inst ⟨dest, j⟩))

/-- The block that a branch goes to. -/
def GoesTo (env : IRValue → SVal) (i : Instruction) (dest : ℕ) : Prop :=
  match i with
  | .br target => dest = target
  | .condBr cond ifTrue ifFalse => dest = if (env cond).getBool then ifTrue else ifFalse
  | _ => False

/-- With an assignment of the registers control gets from an instruction to the header, through
blocks of a set: the assignment has the results of the instructions on the way. -/
inductive LeadsToHeader (header : ℕ) (blocks : Finset ℕ) (env : IRValue → SVal) : InstPos → Prop
  | header : header ∈ blocks → LeadsToHeader header blocks env ⟨header, 0⟩
  | next {p : InstPos} {i : Instruction} : p.block ∈ blocks → F.inst? p = some i →
      i.isTerminator = false → F.Settled env p i → LeadsToHeader header blocks env p.next →
      LeadsToHeader header blocks env p
  | branch {p : InstPos} {i : Instruction} {dest : ℕ} : p.block ∈ blocks → F.inst? p = some i →
      GoesTo env i dest → (dest ≠ header → F.SettledPhis env p.block dest) →
      LeadsToHeader header blocks env ⟨dest, 0⟩ → LeadsToHeader header blocks env p

/-- An annotation that is true for every assignment that leads to the header. -/
def TrueIfLeads (header : ℕ) (blocks : Finset ℕ) (p : InstPos) (e : IRExpr) : Prop :=
  ∀ env, F.LeadsToHeader header blocks env p → ∃ v, SExpr.visit env e = some v ∧ v.getBool = true

variable {F} {header : ℕ} {blocks : Finset ℕ} {env : IRValue → SVal}

/-- Control is in a block of the set. -/
lemma LeadsToHeader.block_mem {p : InstPos} (h : F.LeadsToHeader header blocks env p) :
    p.block ∈ blocks := by
  cases h with
  | header hmem => exact hmem
  | next hmem => exact hmem
  | branch hmem => exact hmem

/-- Instructions that a branch is not. -/
lemma isTerminator_of_goesTo {i : Instruction} {dest : ℕ} (h : GoesTo env i dest) :
    i.isTerminator = true ∧ passesAnnot i = true := by
  cases i <;> first
    | exact ⟨rfl, rfl⟩
    | exact h.elim

/-- Only terminators have no next instruction. -/
def Terminated (F : IRFunction) : Prop :=
  ∀ p i, F.inst? p = some i → (F.inst? p.next).isSome = !i.isTerminator

/-- A well-formed function has its terminators at the ends of the blocks. -/
lemma WellFormed.isTerminated (hF : F.WellFormed) : F.Terminated := fun p i hi =>
  hF.terminated p ((F.mem_positions).mpr (hi ▸ rfl)) i hi

/-- The values of settled phi nodes. -/
lemma SettledPhis.wordPhis_eq {pred dest : ℕ} (h : F.SettledPhis env pred dest)
    (hdefined : ∀ phi ∈ F.phis dest, ∃ op e, phi.lookup pred = some op ∧
      F.generateOperandExpr op = some e) : F.wordPhis env pred dest = env := by
  have hphis : ∀ phi ∈ (F.phis dest).zipIdx, wordValue env
      ((phi.1.lookup pred).bind F.generateOperandExpr) = env (.inst ⟨dest, phi.2⟩) := by
    rintro ⟨phi, j⟩ hphi
    have hj := List.mem_zipIdx_iff_getElem?.mp hphi
    obtain ⟨op, e, hop, he⟩ := hdefined phi (List.mem_of_getElem? hj)
    rw [hop, Option.bind_some, he, wordValue, Option.bind_some, h j phi hj op hop e he,
      Option.getD_some]
  unfold wordPhis
  generalize (F.phis dest).zipIdx = phis at hphis ⊢
  induction phis with
  | nil => rfl
  | cons phi rest ih =>
    rw [List.foldr_cons, ih fun phi' h' => hphis phi' (List.mem_cons_of_mem phi h'),
      hphis phi List.mem_cons_self, Function.update_eq_self]

/-- The phi nodes of a block that annotations are propagated through have incoming values. -/
lemma defined_of_foldlM {pred dest : ℕ} {phis : List (List (ℕ × IRValue) × ℕ)} {e e' : IRExpr}
    (h : phis.foldlM (F.substitutePhi pred dest) e = some e') :
    ∀ phi ∈ phis, ∃ op phiOp, phi.1.lookup pred = some op ∧
      F.generateOperandExpr op = some phiOp := by
  induction phis generalizing e with
  | nil => exact fun _ hmem => absurd hmem List.not_mem_nil
  | cons phi rest ih =>
    rw [List.foldlM_cons] at h
    obtain ⟨e₁, he₁, h⟩ := Option.bind_eq_some_iff.mp h
    obtain ⟨op, hop, he₁⟩ := Option.bind_eq_some_iff.mp he₁
    obtain ⟨phiOp, hphiOp, -⟩ := Option.map_eq_some_iff.mp he₁
    intro phi' hmem
    obtain rfl | hmem := List.mem_cons.mp hmem
    · exact ⟨op, phiOp, hop, hphiOp⟩
    · exact ih h phi' hmem

/-- The annotation of a block that is entered keeps its value when the phi nodes of the block are
replaced. -/
lemma TrueIfLeads.substitutePhis {curr : InstPos} {dest : ℕ} {e e' : IRExpr}
    (h : F.TrueIfLeads header blocks ⟨dest, 0⟩ e)
    (hsettled : dest ≠ header → F.SettledPhis env curr.block dest)
    (he : F.substitutePhis curr ⟨dest, 0⟩ e.clone = some e')
    (hleads : F.LeadsToHeader header blocks env ⟨dest, 0⟩) :
    ∃ v, SExpr.visit env e' = some v ∧ v.getBool = true := by
  unfold IRFunction.substitutePhis at he
  split at he
  next hne =>
    rw [visit_wordPhis he, SExpr.visit_clone]
    by_cases hheader : dest = header
    · -- any assignment leads to the header from the header
      subst hheader
      exact h _ (.header hleads.block_mem)
    · have hdefined : ∀ phi ∈ F.phis dest, ∃ op e, phi.lookup curr.block = some op ∧
          F.generateOperandExpr op = some e := by
        intro phi hphi
        obtain ⟨j, hj⟩ := List.mem_iff_getElem?.mp hphi
        exact defined_of_foldlM he (phi, j) (List.mem_zipIdx_iff_getElem?.mpr hj)
      rw [(hsettled hheader).wordPhis_eq hdefined]
      exact h env hleads
  next =>
    obtain rfl := Option.some.inj he
    rw [SExpr.visit_clone]
    exact h env hleads

/-- The annotation of an instruction that is followed by the next one. -/
lemma TrueIfLeads.next {annot : InstPos → Option IRExpr} {p : InstPos} {i : Instruction}
    {e : IRExpr} (hannot : ∀ q e, annot q = some e → F.TrueIfLeads header blocks q e)
    (hi : F.inst? p = some i) (hsettled : F.Settled env p i)
    (hleads : F.LeadsToHeader header blocks env p.next)
    (he : F.propagateAnnotFromSuccInLoop annot p p.next = some e) :
    ∃ v, SExpr.visit env e = some v ∧ v.getBool = true := by
  obtain ⟨e', he', he⟩ := Option.bind_eq_some_iff.mp he
  obtain ⟨succExp, hexp, he⟩ := Option.bind_eq_some_iff.mp he
  rw [hi, Option.bind_some] at he
  have hsame : ¬p.block ≠ p.next.block := not_not.mpr rfl
  rw [IRFunction.substitutePhis, if_neg hsame] at hexp
  obtain rfl := Option.some.inj hexp
  have htrue := hannot p.next e' he' env hleads
  rw [← SExpr.visit_clone] at htrue
  split at he
  next hpass => exact Option.some.inj he ▸ htrue
  next hpass =>
    obtain ⟨op, hop, rfl⟩ := Option.map_eq_some_iff.mp he
    rw [SExpr.visit_substitute _ _ _ _
      (hsettled (Bool.eq_false_of_not_eq_true hpass) op hop), Function.update_eq_self]
    exact htrue

/-- The annotation of a branch for the block that it goes to. -/
lemma TrueIfLeads.branch {annot : InstPos → Option IRExpr} {p : InstPos} {i : Instruction}
    {dest : ℕ} {e : IRExpr} (hannot : ∀ q e, annot q = some e → F.TrueIfLeads header blocks q e)
    (hi : F.inst? p = some i) (hgoes : GoesTo env i dest)
    (hsettled : dest ≠ header → F.SettledPhis env p.block dest)
    (hleads : F.LeadsToHeader header blocks env ⟨dest, 0⟩)
    (he : F.propagateAnnotFromSuccInLoop annot p ⟨dest, 0⟩ = some e) :
    ∃ v, SExpr.visit env e = some v ∧ v.getBool = true := by
  obtain ⟨e', he', he⟩ := Option.bind_eq_some_iff.mp he
  obtain ⟨succExp, hexp, he⟩ := Option.bind_eq_some_iff.mp he
  rw [hi, Option.bind_some, if_pos (isTerminator_of_goesTo hgoes).2] at he
  obtain rfl := Option.some.inj he
  exact (hannot _ e' he').substitutePhis hsettled hexp hleads

/-- The end of the search at an instruction gives an annotation that is true if control gets to the
header, provided that the annotations so far are. -/
lemma trueIfLeads_finishBackedgeCond (hF : F.Terminated) {clean : InstPos → Bool}
    {annot : InstPos → Option IRExpr} {p : InstPos} {e : IRExpr}
    (hannot : ∀ q e, annot q = some e → F.TrueIfLeads header blocks q e)
    (he : F.finishBackedgeCond clean blocks header annot p = some e) :
    F.TrueIfLeads header blocks p e := by
  intro env hleads
  have hblock : ¬p.block ∉ blocks := not_not.mpr hleads.block_mem
  unfold finishBackedgeCond at he
  by_cases hheader : p = ⟨header, 0⟩
  · -- the search ends at the header
    subst hheader
    have hsuccs : F.getNextOrBranchSuccessorsInLoop blocks header ⟨header, 0⟩ = [] :=
      if_pos (.inr rfl)
    rw [hsuccs] at he
    simp only [if_neg hblock, if_pos] at he
    exact Option.some.inj he ▸ ⟨1, rfl, rfl⟩
  have hinside : ¬(p.block ∉ blocks ∨ p = ⟨header, 0⟩) := not_or.mpr ⟨hblock, hheader⟩
  cases hleads with
  | header => exact absurd rfl hheader
  | @next _ i hmem hi hterm hsettled hleads =>
    have hnext : (F.inst? p.next).isSome = true := by
      rw [hF p i hi, hterm]
      rfl
    have hsuccs : F.getNextOrBranchSuccessorsInLoop blocks header p = [p.next] := by
      rw [getNextOrBranchSuccessorsInLoop, if_neg hinside, if_pos hnext]
    rw [hsuccs] at he
    simp only at he
    split at he
    next => cases he
    next => exact TrueIfLeads.next hannot hi hsettled hleads he
  | @branch _ i dest hmem hi hgoes hsettled hleads =>
    have hnext : ¬(F.inst? p.next).isSome = true := by
      rw [hF p i hi, (isTerminator_of_goesTo hgoes).1]
      exact Bool.false_ne_true
    have hsuccs : F.getNextOrBranchSuccessorsInLoop blocks header p =
        i.targets.map (⟨·, 0⟩) := by
      rw [getNextOrBranchSuccessorsInLoop, if_neg hinside, if_neg hnext, hi]
      rfl
    rw [hsuccs, hi] at he
    cases i with
    | br target =>
      have hdest : dest = target := hgoes
      subst hdest
      simp only [Instruction.targets, List.map_cons, List.map_nil] at he
      split at he
      next => cases he
      next => exact TrueIfLeads.branch hannot hi hgoes hsettled hleads he
    | condBr cond ifTrue ifFalse =>
      simp only [Instruction.targets, List.map_cons, List.map_nil] at he
      obtain ⟨t, ht, he⟩ := Option.bind_eq_some_iff.mp he
      obtain ⟨f, hf, rfl⟩ := Option.map_eq_some_iff.mp he
      have hdest : dest = if (env cond).getBool then ifTrue else ifFalse := hgoes
      rw [SExpr.visit, SExpr.visit, Option.bind_some]
      split
      next htrue =>
        rw [if_pos htrue] at hdest
        subst hdest
        exact TrueIfLeads.branch hannot hi hgoes hsettled hleads ht
      next hfalse =>
        rw [if_neg hfalse] at hdest
        subst hdest
        exact TrueIfLeads.branch hannot hi hgoes hsettled hleads hf
    | _ => exact hgoes.elim

/-- **The condition of a back edge** is true for every assignment of the registers with which
control gets from the compare-exchange to the header. -/
lemma isTrue_of_leadsToHeader (hF : F.Terminated) {clean : InstPos → Bool} {cas : InstPos}
    {latch : ℕ} {e : IRExpr}
    (he : F.annotateCASWithBackedgeCond clean cas latch header = some e)
    (hleads : F.LeadsToHeader header (F.backedgePaths latch header) env cas.next) :
    ∃ v, SExpr.visit env e = some v ∧ v.getBool = true := by
  obtain ⟨s, hs, he⟩ := Option.bind_eq_some_iff.mp he
  have hall : ∀ q e, s.result q = some e →
      F.TrueIfLeads header (F.backedgePaths latch header) q e :=
    DepthFirst.evaluate_invariant (fun _ _ _ => ⟨1, rfl, rfl⟩)
      (fun annot p e hannot he => trueIfLeads_finishBackedgeCond hF hannot he)
      (fun _ e h => absurd h (Option.some_ne_none e).symm) hs
  exact hall _ e he env hleads

/-! ## Blocks of iterations -/

section Paths

variable {latch : ℕ}

lemma mem_predecessors {pred bb : ℕ} :
    pred ∈ F.blockGraph.predecessors bb ↔ pred < F.blocks.length ∧ bb ∈ F.successors pred := by
  simp [blockGraph]

/-- The blocks of an iteration that enters no block twice are on back paths. -/
lemma mem_backedgePaths (hlatch : latch < F.blocks.length) {walk : List ℕ}
    (hiter : F.blockGraph.IsIteration header latch walk) (hnodup : walk.Nodup) {bb : ℕ}
    (hbb : bb ∈ walk) : bb ∈ F.backedgePaths latch header := by
  have hclosed : ∀ b ∈ Finset.range F.blocks.length, ∀ a ∈ F.blockGraph.predecessors b,
      a ∈ Finset.range F.blocks.length :=
    fun b _ a ha => Finset.mem_range.mpr (mem_predecessors.mp ha).1
  have hpath := (BlockGraph.mem_foreachInBackPathTo_nil hclosed (Finset.mem_range.mpr hlatch)
    (Finset.card_range _).le).mpr ⟨by rwa [List.reverse_reverse], List.nodup_reverse.mpr hnodup⟩
  unfold backedgePaths
  rw [List.mem_toFinset, List.mem_flatten]
  exact ⟨walk.reverse, hpath, List.mem_reverse.mpr hbb⟩

end Paths

end IRFunction

end GenMC
