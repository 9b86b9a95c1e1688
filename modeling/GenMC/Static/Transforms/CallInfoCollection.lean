import GenMC.Lib.PartialRun
import GenMC.Lib.SimplePaths
import GenMC.Static.LLVMUtils

/-!
# Functions without side effects

`CallAnalysis` collects the functions of a module that are free of side effects, and those that
return allocations.  For every function it follows the calls in a depth-first search; a function on
the current chain of calls counts as free of side effects, and only the verdict about the first
function of a chain is remembered.

The search follows the simple paths of calls, so that its verdict is exact
(`hasSideEffects_spec`): a function is clean if and only if no obstacle can be reached from it
through calls that may have side effects (`callAnalysis_exact`).  A call that cannot have side
effects, according to LLVM or by the name of the called function, is not followed.
-/

namespace GenMC

namespace LLVMModule

variable {Fn : Type*} [DecidableEq Fn] (M : LLVMModule Fn)

/-- `hasSideEffects` of an instruction, without a set of clean functions. -/
def instHasSideEffects (i : ModuleInst Fn) : Bool := i.hasSideEffects M.name none

/-- The loop of `hasSideEffects` over the instructions of a function. -/
def anySideEffects (visit : Option Fn → Finset Fn → Option (Bool × Finset Fn)) :
    List (ModuleInst Fn) → Finset Fn → Option (Bool × Finset Fn)
  | [], clean => some (false, clean)
  | i :: body, clean =>
    if M.instHasSideEffects i then
      match i with
      | .call callee _ =>
        (visit callee.calledFunction clean).bind fun r =>
          if r.1 then some r else anySideEffects visit body r.2
      | _ => some (true, clean)
    else anySideEffects visit body clean

/-- `hasSideEffects` of a function, with the set `clean` after the call. -/
def hasSideEffects (dirty : Finset Fn) :
    ℕ → List Fn → Option Fn → Finset Fn → Option (Bool × Finset Fn)
  | 0, _, _, _ => none
  | _, _, none, clean => some (true, clean)
  | fuel + 1, chain, some F, clean =>
    if F ∈ dirty then some (true, clean)
    else if F ∈ clean ∨ F ∈ chain then some (false, clean)
    else if M.body F = [] then some (!isCleanInternalFunction (M.name F), clean)
    else
      (M.anySideEffects (hasSideEffects dirty fuel (F :: chain)) (M.body F) clean).map fun r =>
        if r.1 then r else (false, if chain = [] then insert F r.2 else r.2)

/-- `isAllocating`. -/
def isAllocating (F : Fn) : Bool :=
  M.returnsPointer F && (M.body F).all fun i =>
    match i with
    | .ret value => value.any (·.isAlloc M.name none)
    | _ => true

/-- `CallAnalysisResult`, and the functions that are known to have side effects. -/
structure CallAnalysisState (Fn : Type*) where
  /-- The functions without side effects. -/
  clean : Finset Fn
  /-- The functions that return allocations. -/
  alloc : Finset Fn
  /-- The functions with side effects. -/
  dirty : Finset Fn

/-- The body of the loop over the functions of a module. -/
def analyseFunction (s : CallAnalysisState Fn) (F : Fn) : Option (CallAnalysisState Fn) :=
  (M.hasSideEffects s.dirty (M.functions.length + 1) [] (some F) s.clean).map fun r =>
    { clean := if r.1 then r.2 else insert F r.2
      dirty := if r.1 then insert F s.dirty else s.dirty
      alloc := if M.isAllocating F then insert F s.alloc else s.alloc }

/-- `CallAnalysis::run`. -/
def callAnalysis : Option (CallAnalysisState Fn) :=
  M.functions.foldlM M.analyseFunction ⟨∅, ∅, ∅⟩

/-! ## Obstacles -/

/-- A call that may have side effects. -/
def Calls (f g : Fn) : Prop :=
  ∃ i ∈ M.body f, M.instHasSideEffects i = true ∧ i.calledFunction = some g

/-- A function with a side effect that is no call of a known function, and an external function
that is no clean internal one. -/
def Obstacle (f : Fn) : Prop :=
  (M.body f = [] ∧ isCleanInternalFunction (M.name f) = false) ∨
    ∃ i ∈ M.body f, M.instHasSideEffects i = true ∧ i.calledFunction = none

/-- An obstacle can be reached through calls that may have side effects. -/
def Obstructed (f : Fn) : Prop := ∃ g, Relation.ReflTransGen M.Calls f g ∧ M.Obstacle g

variable {M}

/-- The loop, if the verdicts about the called functions are known: it finds a call without a known
function, a side effect that is no call, or a called function with side effects. -/
lemma anySideEffects_eq {visit : Option Fn → Finset Fn → Option (Bool × Finset Fn)}
    {clean : Finset Fn} (verdict : Fn → Bool) (hnone : visit none clean = some (true, clean))
    {body : List (ModuleInst Fn)}
    (hvisit : ∀ i ∈ body, ∀ g, i.calledFunction = some g →
      visit (some g) clean = some (verdict g, clean)) :
    M.anySideEffects visit body clean =
      some (body.any fun i => M.instHasSideEffects i && i.calledFunction.all verdict, clean) := by
  induction body with
  | nil => rfl
  | cons i body ih =>
    have hbody := ih fun j hj => hvisit j (List.mem_cons_of_mem i hj)
    rw [List.any_cons]
    unfold anySideEffects
    cases hi : M.instHasSideEffects i with
    | false =>
      rw [if_neg Bool.false_ne_true, hbody]
      rfl
    | true =>
      rw [if_pos rfl, Bool.true_and]
      cases i with
      | call callee b =>
        have hcallee := hvisit _ List.mem_cons_self
        change ∀ g, callee.calledFunction = some g → _ at hcallee
        change _ = some (callee.calledFunction.all verdict || _, clean)
        cases hg : callee.calledFunction with
        | none =>
          simp only [hg, hnone]
          rfl
        | some g =>
          simp only [hg, hcallee g hg, Option.bind_some]
          cases hv : verdict g with
          | true => simp [hv]
          | false =>
            simp only [Bool.false_eq_true, if_false, hbody]
            simp [hv]
      | _ => rfl

/-- What the two sets of the search may contain. -/
structure MemoOk (M : LLVMModule Fn) (clean dirty : Finset Fn) : Prop where
  /-- No obstacle can be reached from a clean function. -/
  clean : ∀ f ∈ clean, ¬M.Obstructed f
  /-- An obstacle can be reached from a dirty function. -/
  dirty : ∀ f ∈ dirty, M.Obstructed f

/-- From a clean internal function no obstacle can be reached. -/
lemma not_simplyReaches_of_external {F : Fn} (hempty : M.body F = [])
    (hclean : isCleanInternalFunction (M.name F) = true) (chain : List Fn) :
    ¬SimplePaths.SimplyReaches M.Calls M.Obstacle chain F := by
  intro hreach
  obtain ⟨-, hobstacle | ⟨g, ⟨i, hi, -⟩, -⟩⟩ := hreach.cases_head
  · obtain ⟨-, hname⟩ | ⟨i, hi, -⟩ := hobstacle
    · rw [hname] at hclean
      cases hclean
    · rw [hempty] at hi
      exact absurd hi List.not_mem_nil
  · rw [hempty] at hi
    exact absurd hi List.not_mem_nil

section Loop

variable {F : Fn} {verdict : Fn → Bool}

/-- What the loop finds is an obstacle, or leads to one. -/
lemma obstructed_of_any
    (hcalled : ∀ i ∈ M.body F, ∀ g, i.calledFunction = some g → verdict g = true → M.Obstructed g)
    (hany : ((M.body F).any fun i => M.instHasSideEffects i && i.calledFunction.all verdict) =
      true) : M.Obstructed F := by
  obtain ⟨i, hi, heffect⟩ := List.any_eq_true.mp hany
  obtain ⟨heffect, hall⟩ := Bool.and_eq_true_iff.mp heffect
  cases hg : i.calledFunction with
  | none => exact ⟨F, .refl, Or.inr ⟨i, hi, heffect, hg⟩⟩
  | some g =>
    rw [hg, Option.all_some] at hall
    obtain ⟨x, hreach, hx⟩ := hcalled i hi g hg hall
    exact ⟨x, .head ⟨i, hi, heffect, hg⟩ hreach, hx⟩

/-- If the loop finds nothing, no obstacle can be reached. -/
lemma not_simplyReaches_of_any (hbody : M.body F ≠ []) {chain : List Fn}
    (hcalled : ∀ i ∈ M.body F, ∀ g, i.calledFunction = some g → verdict g = false →
      ¬SimplePaths.SimplyReaches M.Calls M.Obstacle (F :: chain) g)
    (hany : ((M.body F).any fun i => M.instHasSideEffects i && i.calledFunction.all verdict) =
      false) : ¬SimplePaths.SimplyReaches M.Calls M.Obstacle chain F := by
  intro hreach
  have hfound := List.any_eq_false.mp hany
  obtain ⟨-, hobstacle | ⟨g, ⟨i, hi, heffect, hg⟩, hreach⟩⟩ := hreach.cases_head
  · obtain ⟨hnil, -⟩ | ⟨i, hi, heffect, hg⟩ := hobstacle
    · exact hbody hnil
    · exact hfound i hi (by rw [heffect, hg]; rfl)
  · have hverdict : verdict g = false := by
      have := hfound i hi
      rw [heffect, hg, Option.all_some, Bool.true_and] at this
      exact Bool.eq_false_iff.mpr this
    exact hcalled i hi g hg hverdict hreach

end Loop

/-- **The verdict about a function.**  If it is positive, an obstacle can be reached; if it is
negative, none can be reached by a simple path outside of the chain.  By induction on the number of
functions outside of the chain. -/
lemma hasSideEffects_spec {clean dirty : Finset Fn} (hmemo : M.MemoOk clean dirty) {fuel : ℕ}
    {chain : List Fn} {F : Fn} (hchain : chain.Nodup) (hsub : ∀ f ∈ chain, f ∈ M.functions)
    (hF : F ∈ M.functions) (hfuel : M.functions.length < fuel + chain.length) :
    ∃ b clean', M.hasSideEffects dirty fuel chain (some F) clean = some (b, clean') ∧
      (clean' = clean ∨ chain = [] ∧ b = false ∧ clean' = insert F clean) ∧
      (b = true → M.Obstructed F) ∧
      (b = false → ¬SimplePaths.SimplyReaches M.Calls M.Obstacle chain F) := by
  induction fuel generalizing chain F with
  | zero =>
    have hle : chain.length ≤ M.functions.length :=
      (List.subperm_of_subset hchain hsub).length_le
    omega
  | succ fuel ih =>
    rw [hasSideEffects]
    split
    next hdirty =>
      exact ⟨true, clean, rfl, Or.inl rfl, fun _ => hmemo.dirty F hdirty, nofun⟩
    next hdirty =>
    split
    next hseen =>
      refine ⟨false, clean, rfl, Or.inl rfl, nofun, fun _ hreach => ?_⟩
      rcases hseen with hclean | hmem
      · exact hmemo.clean F hclean hreach.exists_reflTransGen
      · exact hreach.cases_head.1 hmem
    next hseen =>
    split
    next hempty =>
      refine ⟨_, clean, rfl, Or.inl rfl, fun hb => ?_, fun hb => ?_⟩
      · exact ⟨F, .refl, Or.inl ⟨hempty, Bool.not_eq_true' _ ▸ hb⟩⟩
      · exact not_simplyReaches_of_external hempty (by simpa using hb) chain
    next hempty =>
    have hnotin : F ∉ chain := fun h => hseen (Or.inr h)
    -- the verdicts about the called functions, on the longer chain
    let verdict (g : Fn) : Bool :=
      ((M.hasSideEffects dirty fuel (F :: chain) (some g) clean).map Prod.fst).getD true
    have hcalled : ∀ i ∈ M.body F, ∀ g, i.calledFunction = some g →
        M.hasSideEffects dirty fuel (F :: chain) (some g) clean = some (verdict g, clean) ∧
        (verdict g = true → M.Obstructed g) ∧
        (verdict g = false →
          ¬SimplePaths.SimplyReaches M.Calls M.Obstacle (F :: chain) g) := by
      intro i hi g hg
      obtain ⟨b, clean', hrun, hclean', htrue, hfalse⟩ := ih
        (List.nodup_cons.mpr ⟨hnotin, hchain⟩) (List.forall_mem_cons.mpr ⟨hF, hsub⟩)
        (M.closed F hF i hi g hg) (by rw [List.length_cons]; omega)
      obtain rfl | ⟨hnil, -⟩ := hclean'
      · have hverdict : verdict g = b := by simp only [verdict, hrun, Option.map_some,
          Option.getD_some]
        rw [hverdict]
        exact ⟨hrun, htrue, hfalse⟩
      · exact absurd hnil (List.cons_ne_nil F chain)
    have hnone : M.hasSideEffects dirty fuel (F :: chain) none clean = some (true, clean) := by
      have hpos : 0 < fuel := by
        have hle : (F :: chain).length ≤ M.functions.length :=
          (List.subperm_of_subset (List.nodup_cons.mpr ⟨hnotin, hchain⟩)
            (List.forall_mem_cons.mpr ⟨hF, hsub⟩)).length_le
        rw [List.length_cons] at hle
        omega
      obtain ⟨n, rfl⟩ := Nat.exists_eq_succ_of_ne_zero hpos.ne'
      rfl
    rw [anySideEffects_eq verdict hnone fun i hi g hg => (hcalled i hi g hg).1, Option.map_some]
    cases hany : (M.body F).any fun i => M.instHasSideEffects i && i.calledFunction.all verdict with
    | true =>
      exact ⟨true, clean, rfl, Or.inl rfl,
        fun _ => obstructed_of_any (fun i hi g hg => (hcalled i hi g hg).2.1) hany, nofun⟩
    | false =>
      refine ⟨false, if chain = [] then insert F clean else clean, rfl, ?_, nofun, fun _ => ?_⟩
      · split
        next hnil => exact Or.inr ⟨hnil, rfl, rfl⟩
        next => exact Or.inl rfl
      · exact not_simplyReaches_of_any hempty (fun i hi g hg => (hcalled i hi g hg).2.2) hany

/-! ## The whole analysis -/

/-- The sets after some of the functions have been visited. -/
structure Analysed (M : LLVMModule Fn) (done : List Fn) (s : CallAnalysisState Fn) : Prop where
  /-- The visited functions from which no obstacle can be reached. -/
  clean : ∀ f, f ∈ s.clean ↔ f ∈ done ∧ ¬M.Obstructed f
  /-- The visited functions from which one can be reached. -/
  dirty : ∀ f, f ∈ s.dirty ↔ f ∈ done ∧ M.Obstructed f
  /-- The visited functions that return allocations. -/
  alloc : ∀ f, f ∈ s.alloc ↔ f ∈ done ∧ M.isAllocating f = true

lemma Analysed.memoOk {done : List Fn} {s : CallAnalysisState Fn} (h : M.Analysed done s) :
    M.MemoOk s.clean s.dirty where
  clean f hf := ((h.clean f).mp hf).2
  dirty f hf := ((h.dirty f).mp hf).2

/-- One function. -/
lemma Analysed.step {done : List Fn} {s : CallAnalysisState Fn} (h : M.Analysed done s) {F : Fn}
    (hF : F ∈ M.functions) :
    ∃ s', M.analyseFunction s F = some s' ∧ M.Analysed (done ++ [F]) s' := by
  obtain ⟨b, clean', hrun, hclean', htrue, hfalse⟩ := hasSideEffects_spec h.memoOk List.nodup_nil
    (fun f hf => absurd hf List.not_mem_nil) hF (Nat.lt_succ_self _)
  rw [SimplePaths.simplyReaches_nil] at hfalse
  refine ⟨_, by rw [analyseFunction, hrun, Option.map_some], ?_, ?_, ?_⟩
  · intro f
    have hmem : f ∈ (if b then clean' else insert F clean') ↔
        f ∈ s.clean ∨ (b = false ∧ f = F) := by
      obtain rfl | ⟨-, rfl, rfl⟩ := hclean'
      · cases b <;> simp [or_comm]
      · simp [or_comm]
    rw [List.mem_append, List.mem_singleton, or_and_right]
    refine hmem.trans (or_congr (h.clean f) ?_)
    cases b with
    | true => exact iff_of_false (fun h => nomatch h.1) fun h => h.2 (h.1 ▸ htrue rfl)
    | false => exact ⟨fun h => ⟨h.2, h.2 ▸ hfalse rfl⟩, fun h => ⟨rfl, h.1⟩⟩
  · intro f
    have hmem : f ∈ (if b then insert F s.dirty else s.dirty) ↔
        f ∈ s.dirty ∨ (b = true ∧ f = F) := by
      cases b <;> simp [or_comm]
    rw [List.mem_append, List.mem_singleton, or_and_right]
    refine hmem.trans (or_congr (h.dirty f) ?_)
    cases b with
    | true => exact ⟨fun h => ⟨h.2, h.2 ▸ htrue rfl⟩, fun h => ⟨rfl, h.1⟩⟩
    | false => exact iff_of_false (fun h => nomatch h.1) fun h => hfalse rfl (h.1 ▸ h.2)
  · intro f
    have hmem : f ∈ (if M.isAllocating F then insert F s.alloc else s.alloc) ↔
        f ∈ s.alloc ∨ (f = F ∧ M.isAllocating f = true) := by
      by_cases hF : M.isAllocating F
      · simp only [hF, if_true, Finset.mem_insert]
        grind
      · simp only [hF]
        grind
    rw [List.mem_append, List.mem_singleton, or_and_right]
    exact hmem.trans (or_congr (h.alloc f) Iff.rfl)

/-- The analysis ends, and its set is the one of the functions without obstacles. -/
lemma exists_callAnalysis (M : LLVMModule Fn) :
    ∃ s, M.callAnalysis = some s ∧ M.Analysed M.functions s := by
  have hstart : M.Analysed [] ⟨∅, ∅, ∅⟩ := by
    constructor <;> exact fun f => iff_of_false (Finset.notMem_empty f) fun h => nomatch h.1
  exact PartialRun.foldlM_total M.functions M.Analysed
    (fun done F rest hvisit s hs => hs.step
      (hvisit ▸ List.mem_append_right done List.mem_cons_self)) hstart

/-- The module with its functions in another order. -/
def reorder (M : LLVMModule Fn) {functions : List Fn} (h : functions.Perm M.functions) :
    LLVMModule Fn where
  functions := functions
  name := M.name
  body := M.body
  returnsPointer := M.returnsPointer
  closed f hf i hi g hg := h.mem_iff.mpr (M.closed f (h.mem_iff.mp hf) i hi g hg)

/-- Everything with side effects in a function is a call of the function itself or of functions
without obstacles. -/
def ObstructedBySelfOnly (M : LLVMModule Fn) (f : Fn) : Prop :=
  M.body f ≠ [] ∧ ∀ i ∈ M.body f, M.instHasSideEffects i = true →
    ∃ g, i.calledFunction = some g ∧ (g = f ∨ ¬M.Obstructed g)

/-- A function is no obstacle to itself: a path of calls that leaves it enters functions without
obstacles. -/
lemma ObstructedBySelfOnly.not_obstructed {f : Fn} (h : M.ObstructedBySelfOnly f) :
    ¬M.Obstructed f := by
  rintro ⟨x, hreach, hx⟩
  have hpath : x = f ∨ ¬M.Obstructed x := by
    clear hx
    induction hreach with
    | refl => exact Or.inl rfl
    | tail _ hcall ih =>
      obtain rfl | hclean := ih
      · obtain ⟨i, hi, heffect, hg⟩ := hcall
        obtain ⟨g, hg', hself⟩ := h.2 i hi heffect
        obtain rfl := Option.some.inj (hg.symm.trans hg')
        exact hself
      · exact Or.inr fun ⟨y, hy, hobstacle⟩ => hclean ⟨y, .head hcall hy, hobstacle⟩
  obtain rfl | hclean := hpath
  · obtain ⟨hnil, -⟩ | ⟨i, hi, heffect, hnone⟩ := hx
    · exact h.1 hnil
    · obtain ⟨g, hg, -⟩ := h.2 i hi heffect
      rw [hnone] at hg
      cases hg
  · exact hclean ⟨x, .refl, hx⟩

/-- **Clean functions.**  The analysis finds exactly the functions from which no obstacle can be
reached through calls that may have side effects.  It finds the same ones in every order, and a
function that is only obstructed by its own recursion is one of them. -/
theorem callAnalysis_exact (M : LLVMModule Fn) :
    ∃ s, M.callAnalysis = some s ∧
      (∀ f, f ∈ s.clean ↔ f ∈ M.functions ∧ ¬M.Obstructed f) ∧
      (∀ (functions : List Fn) (h : functions.Perm M.functions),
        ∃ s', (M.reorder h).callAnalysis = some s' ∧ s'.clean = s.clean) ∧
      ∀ f ∈ M.functions, M.ObstructedBySelfOnly f → f ∈ s.clean := by
  obtain ⟨s, hs, hanalysed⟩ := M.exists_callAnalysis
  refine ⟨s, hs, hanalysed.clean, fun functions h => ?_, fun f hf hself => ?_⟩
  · obtain ⟨s', hs', hanalysed'⟩ := (M.reorder h).exists_callAnalysis
    refine ⟨s', hs', Finset.ext fun f => ?_⟩
    rw [hanalysed.clean, hanalysed'.clean]
    exact and_congr_left fun _ => h.mem_iff
  · exact (hanalysed.clean f).mpr ⟨hf, hself.not_obstructed⟩

/-! ## Calls that are not followed -/

/-- A call of a function, with or without side effects. -/
def CallsAny (M : LLVMModule Fn) (f g : Fn) : Prop :=
  ∃ i ∈ M.body f, i.calledFunction = some g

/-- A side effect that is no call, an indirect call, or an external function that is no clean
internal one. -/
def ObstacleAny (M : LLVMModule Fn) (f : Fn) : Prop :=
  (M.body f = [] ∧ isCleanInternalFunction (M.name f) = false) ∨
    ∃ i ∈ M.body f, i.calledFunction = none ∧
      (M.instHasSideEffects i = true ∨ ∃ callee b, i = .call callee b)

/-- A function that calls an external function which does not write memory. -/
def pureCallModule : LLVMModule (Fin 2) where
  functions := [0, 1]
  name f := if f = 0 then "length" else "strlen"
  body f := if f = 0 then [.call (.direct 1) false, .ret none] else []
  returnsPointer _ := false
  closed := by decide

/-- The external function is reached through a call, and its caller is clean all the same. -/
theorem pureCallModule_clean :
    (∃ s, pureCallModule.callAnalysis = some s ∧ 0 ∈ s.clean) ∧
      ∃ g, Relation.ReflTransGen pureCallModule.CallsAny 0 g ∧ pureCallModule.ObstacleAny g := by
  refine ⟨⟨_, rfl, by decide⟩, 1, .single ⟨_, List.mem_cons_self, rfl⟩, Or.inl (by decide)⟩

end LLVMModule

end GenMC
