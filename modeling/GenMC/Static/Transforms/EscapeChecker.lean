import GenMC.Lib.Exploration
import GenMC.Lib.PartialRun
import GenMC.Static.Dominators
import GenMC.Static.PointerFlow

/-!
# Escape analysis

`EscapeAnalysisResult` looks for the instructions through which the address of an allocation can get
out of a function.  It follows the uses of the allocation and stops at calls, returns and stores; a
store is no such escape point if it writes to memory that the function has allocated.  The answer
`escapesAfter` is that all escape points are dominated by an instruction.

Nothing is said about what becomes of an address in the memory of another allocation, and an
instruction that dominates an escape point may be executed again after it.  Unless one of the two
happens, the answer is right (`not_escaped_of_escapesAfter`).
-/

namespace GenMC

namespace SSAInst

variable {Fn Pure : Type*}

/-- The operand that `stripPointerCasts` goes on with. -/
def pointerBase? : SSAInst (MemoryOp Fn Pure) → Option IRValue
  | cast .bitCast operand => some operand
  | other (.getElementPtr true) (base :: _) => some base
  | _ => none

lemma pointerBase?_eq_none {i : SSAInst (MemoryOp Fn Pure)} (h : i.base? = none) :
    i.pointerBase? = none := by
  unfold base? at h
  unfold pointerBase?
  split at h <;> simp_all

lemma base?_of_pointerBase? {i : SSAInst (MemoryOp Fn Pure)} {o : IRValue}
    (h : i.pointerBase? = some o) : i.base? = some o := by
  unfold pointerBase? at h
  split at h
  · exact h
  · exact h
  · cases h

lemma mem_usedValues_of_base? {i : SSAInst (MemoryOp Fn Pure)} {o : IRValue}
    (h : i.base? = some o) : o ∈ i.usedValues := by
  unfold base? at h
  split at h
  · exact Option.some.inj h ▸ List.mem_cons_self
  · exact Option.some.inj h ▸ List.mem_cons_self
  · cases h

lemma base?_eq_none_of_isAllocation [DecidableEq Fn] {ctx : CallContext Fn}
    {i : SSAInst (MemoryOp Fn Pure)} (h : ctx.isAllocation i = true) : i.base? = none := by
  unfold base?
  split
  · cases h
  · cases h
  · rfl

end SSAInst

namespace SSAFunction

variable {Fn Pure : Type*} [DecidableEq Fn] (F : SSAFunction (MemoryOp Fn Pure))
  (ctx : CallContext Fn) (loadsEscape : Bool)

/-- The instruction that a value is the result of. -/
def instOf : IRValue → Option (SSAInst (MemoryOp Fn Pure))
  | .inst p => F.inst? p
  | _ => none

/-- `users`. -/
def users (p : InstPos) : List InstPos :=
  F.layout.filter fun q => (F.inst? q).any fun i => .inst p ∈ i.usedValues

/-- `stripCastsGEPs`; the loop does not end if casts are operands of each other. -/
def stripCastsGEPs : ℕ → IRValue → Option IRValue
  | 0, _ => none
  | fuel + 1, v =>
    match (F.instOf v).bind SSAInst.base? with
    | some operand => stripCastsGEPs fuel operand
    | none => some v

/-- `stripPointerCasts`, which stops at a cast if casts are operands of each other. -/
def stripPointerCasts : ℕ → IRValue → IRValue
  | 0, v => v
  | fuel + 1, v =>
    match (F.instOf v).bind SSAInst.pointerBase? with
    | some operand => stripPointerCasts fuel operand
    | none => v

/-- `isAlloc`. -/
def isAlloc (p : InstPos) : Bool :=
  (F.instOf (F.stripPointerCasts (F.layout.length + 1) (.inst p))).any ctx.isAllocation

/-- `writesDynamicMemory`: the allocation that a pointer is an address of. -/
def writesDynamicMemory : IRValue → Option (Option InstPos)
  | .inst p => (F.stripCastsGEPs (F.layout.length + 1) (.inst p)).map fun src =>
    match src with
    | .inst q => if F.isAlloc ctx q then some q else none
    | _ => none
  | _ => some none

/-- Whether a user of an allocation is an escape point. -/
def isEscapePoint (i : SSAInst (MemoryOp Fn Pure)) : Option Bool :=
  match i with
  | .terminator .ret _ _ => some true
  | .terminator (.invoke _) _ _ => some true
  | .other (.call callee) _ => some (!ctx.isClean callee)
  | .other .load _ => some loadsEscape
  | i =>
    match i.writtenPointer with
    | some pointer => (F.writesDynamicMemory ctx pointer).map Option.isNone
    | none => some false

/-- The rounds of the worklist. -/
def rounds : ℕ := (F.layout.map fun p => (F.users p).length).sum + 2

/-- `calculate`, for one allocation; an allocation without escape points has no entry. -/
def escapePoints (a : InstPos) : Option (List InstPos) :=
  (Exploration.explore F.users F.rounds [a] []).bind fun visited =>
    ((visited.flatMap F.users).mapM fun u =>
      ((F.inst? u).elim (some false) (F.isEscapePoint ctx loadsEscape)).map fun b => (u, b)).map
        fun uses => (uses.filter Prod.snd).map Prod.fst

variable {F} in
/-- `escapesAfter`. -/
def escapesAfter (DT : DominatorTree F) (a b : InstPos) : Option Bool :=
  if F.isAlloc ctx a then
    (F.escapePoints ctx loadsEscape a).map fun points => points.all fun p => DT.dominates b p
  else some true

/-! ## Uses -/

/-- An instruction uses a value that has been computed from the one of another instruction. -/
abbrev DerivedFrom (a x : InstPos) : Prop := Relation.ReflTransGen (Exploration.Succ F.users) a x

/-- A use of a value that is derived from an allocation is a call, a return or a store to other
memory than that of allocations; or a load, if loads count. -/
def EscapePoint (a p : InstPos) : Prop :=
  ∃ x, F.DerivedFrom a x ∧ p ∈ F.users x ∧
    ∃ i, F.inst? p = some i ∧ F.isEscapePoint ctx loadsEscape i ≠ some false

variable {F ctx loadsEscape}

omit [DecidableEq Fn] in
lemma mem_users {p q : InstPos} :
    q ∈ F.users p ↔ ∃ i, F.inst? q = some i ∧ .inst p ∈ i.usedValues := by
  simp only [users, List.mem_filter, Option.any_eq_true, decide_eq_true_eq]
  constructor
  · rintro ⟨-, i, hi, hmem⟩
    exact ⟨i, hi, hmem⟩
  · rintro ⟨i, hi, hmem⟩
    exact ⟨mem_layout hi, i, hi, hmem⟩

/-- The analysis finds all escape points. -/
lemma mem_escapePoints {a p : InstPos} {points : List InstPos}
    (h : F.escapePoints ctx loadsEscape a = some points) :
    p ∈ points ↔ F.EscapePoint ctx loadsEscape a p := by
  obtain ⟨visited, hvisited, h⟩ := Option.bind_eq_some_iff.mp h
  obtain ⟨uses, huses, rfl⟩ := Option.map_eq_some_iff.mp h
  constructor
  · intro hp
    obtain ⟨⟨u, b⟩, hu, rfl⟩ := List.mem_map.mp hp
    obtain ⟨hu, hb⟩ := List.mem_filter.mp hu
    obtain rfl : b = true := hb
    obtain ⟨k, hk⟩ := List.mem_iff_getElem?.mp hu
    obtain ⟨u', hu', hb⟩ := (PartialRun.getElem?_of_mapM huses).2 k _ hk
    obtain ⟨b', hb, heq⟩ := Option.map_eq_some_iff.mp hb
    obtain ⟨rfl, rfl⟩ := Prod.mk.inj heq
    obtain ⟨x, hx, hux⟩ := List.mem_flatMap.mp (List.mem_of_getElem? hu')
    obtain ⟨i, hi, -⟩ := mem_users.mp hux
    rw [hi] at hb
    exact ⟨x, (Exploration.mem_explore hvisited).mp hx, hux, i, hi, by simp_all⟩
  · rintro ⟨x, hx, hpx, i, hi, hpoint⟩
    have hmem : p ∈ visited.flatMap F.users :=
      List.mem_flatMap.mpr ⟨x, (Exploration.mem_explore hvisited).mpr hx, hpx⟩
    obtain ⟨⟨u, b⟩, hu, hub⟩ := PartialRun.exists_of_mapM huses hmem
    obtain ⟨b', hb, heq⟩ := Option.map_eq_some_iff.mp hub
    obtain ⟨rfl, rfl⟩ := Prod.mk.inj heq
    rw [hi] at hb
    cases b' with
    | false => exact absurd hb hpoint
    | true => exact List.mem_map.mpr ⟨(p, true), List.mem_filter.mpr ⟨hu, rfl⟩, rfl⟩

/-! ## Results -/

variable (F) in
/-- An instruction is the base of another one. -/
def BaseOf (p q : InstPos) : Prop := ∃ i, F.inst? p = some i ∧ i.base? = some (.inst q)

omit [DecidableEq Fn] in
/-- The loop of `stripCastsGEPs` ends, since it does not come to an instruction twice. -/
lemma stripCastsGEPs_total (hacyclic : ∀ p, ¬Relation.TransGen F.BaseOf p p) {fuel : ℕ}
    {v : IRValue} {seen : Finset InstPos} (hseen : seen ⊆ F.layout.toFinset)
    (hleads : ∀ q ∈ seen, ∀ p, v = .inst p → Relation.TransGen F.BaseOf q p)
    (hfuel : F.layout.toFinset.card - seen.card < fuel) :
    ∃ src, F.stripCastsGEPs fuel v = some src := by
  induction fuel generalizing v seen with
  | zero => exact absurd hfuel (Nat.not_lt_zero _)
  | succ fuel ih =>
    rw [stripCastsGEPs]
    cases hbase : (F.instOf v).bind SSAInst.base? with
    | none => exact ⟨v, rfl⟩
    | some o =>
      obtain ⟨i, hi, hio⟩ := Option.bind_eq_some_iff.mp hbase
      cases v with
      | inst p =>
        have hp : p ∈ F.layout.toFinset := List.mem_toFinset.mpr (mem_layout hi)
        have hnew : p ∉ seen := fun hmem => hacyclic p (hleads p hmem p rfl)
        have hinsert : insert p seen ⊆ F.layout.toFinset := Finset.insert_subset hp hseen
        refine ih hinsert ?_ ?_
        · rintro q hq r rfl
          have hstep : F.BaseOf p r := ⟨i, hi, hio⟩
          rcases Finset.mem_insert.mp hq with rfl | hq
          · exact .single hstep
          · exact (hleads q hq p rfl).tail hstep
        · have hcard := Finset.card_le_card hinsert
          rw [Finset.card_insert_of_notMem hnew] at hcard ⊢
          omega
      | argument n => cases hi
      | constant c => cases hi

/-- The analysis has a result, unless casts are operands of each other. -/
theorem escapePoints_total (hacyclic : ∀ p, ¬Relation.TransGen F.BaseOf p p) {a : InstPos}
    {i : SSAInst (MemoryOp Fn Pure)} (ha : F.inst? a = some i) :
    ∃ points, F.escapePoints ctx loadsEscape a = some points := by
  have hclosed : ∀ p ∈ F.layout.toFinset, ∀ q ∈ F.users p, q ∈ F.layout.toFinset :=
    fun p _ q hq => List.mem_toFinset.mpr (List.mem_filter.mp hq).1
  have hpending : Exploration.pending F.layout.toFinset F.users [a] [] < F.rounds := by
    have hsum : ∑ p ∈ F.layout.toFinset, (F.users p).length ≤
        (F.layout.map fun p => (F.users p).length).sum := by
      have hdedup : F.layout.toFinset = F.layout.dedup.toFinset := by
        ext p
        simp
      rw [hdedup, List.sum_toFinset _ (List.nodup_dedup _)]
      exact ((List.dedup_sublist _).map _).sum_le_sum fun _ _ => Nat.zero_le _
    unfold Exploration.pending rounds
    simp only [List.length_singleton, List.not_mem_nil, not_false_eq_true, Finset.filter_true]
    omega
  obtain ⟨visited, hvisited⟩ := Exploration.explore_total hclosed
    (fun p hp => by rw [List.mem_singleton.mp hp]; exact List.mem_toFinset.mpr (mem_layout ha))
    hpending
  have hdynamic (v : IRValue) : ∃ alloc, F.writesDynamicMemory ctx v = some alloc := by
    cases v with
    | inst p =>
      have hfuel : F.layout.toFinset.card - (∅ : Finset InstPos).card < F.layout.length + 1 :=
        Nat.lt_succ_of_le ((Nat.sub_le _ _).trans (List.toFinset_card_le _))
      obtain ⟨src, hsrc⟩ := stripCastsGEPs_total (v := .inst p) hacyclic (Finset.empty_subset _)
        (by simp) hfuel
      exact ⟨_, by rw [writesDynamicMemory, hsrc]; rfl⟩
    | argument n => exact ⟨none, rfl⟩
    | constant c => exact ⟨none, rfl⟩
  have hpoint (i : SSAInst (MemoryOp Fn Pure)) : (F.isEscapePoint ctx loadsEscape i).isSome := by
    unfold isEscapePoint
    split
    · rfl
    · rfl
    · rfl
    · rfl
    · split
      next pointer _ =>
        obtain ⟨alloc, halloc⟩ := hdynamic pointer
        rw [halloc]
        rfl
      · rfl
  have huses : ∀ u ∈ visited.flatMap F.users, (((F.inst? u).elim (some false)
      (F.isEscapePoint ctx loadsEscape)).map fun b => (u, b)).isSome := by
    intro u _
    rw [Option.isSome_map]
    cases F.inst? u with
    | none => rfl
    | some i => exact hpoint i
  rw [escapePoints, hvisited, Option.bind_some, PartialRun.mapM_eq_some_filterMap huses]
  exact ⟨_, rfl⟩

/-! ## Allocations -/

lemma isAllocation_of_isAlloc {p : InstPos} {i : SSAInst (MemoryOp Fn Pure)}
    (hi : F.inst? p = some i) (hbase : i.base? = none) (h : F.isAlloc ctx p = true) :
    ctx.isAllocation i = true := by
  have hstrip : F.stripPointerCasts (F.layout.length + 1) (.inst p) = .inst p := by
    rw [stripPointerCasts, instOf, hi, Option.bind_some, SSAInst.pointerBase?_eq_none hbase]
  rw [isAlloc, hstrip, instOf, hi] at h
  exact h

variable {sem : PtrSemantics Pure} {σ : ℕ → PtrState} {n : ℕ}

/-- **Stripped pointers.**  A register that leads to an allocation, when casts have been stripped,
holds addresses of memory of this allocation only. -/
theorem site_of_stripCastsGEPs (hrun : F.PtrRun ctx sem σ n) {i : ℕ} (hi : i ≤ n) {v : IRValue}
    {b : MemBlock} (hb : ((σ i).regs v).block? = some b) {fuel : ℕ} {k : InstPos}
    (hstrip : F.stripCastsGEPs fuel v = some (.inst k)) (halloc : F.isAlloc ctx k = true) :
    ∃ t, b = .allocated k t := by
  induction i generalizing v fuel with
  | zero =>
    cases v with
    | inst p => cases (hrun.start.inst p).symm.trans hb
    | argument m => cases fuel <;> cases hstrip
    | constant c => cases fuel <;> cases hstrip
  | succ i ih =>
    rcases step_block (hrun.step i hi) hb with hold | ⟨p, j, rfl, hj, horigin⟩
    · exact ih (Nat.le_of_succ_le hi) hold hstrip
    cases fuel with
    | zero => cases hstrip
    | succ fuel =>
      rw [stripCastsGEPs, instOf, hj, Option.bind_some] at hstrip
      have hplain (hplain : Plain ctx j) : ∃ t, b = .allocated k t := by
        rw [hplain.2] at hstrip
        obtain rfl := IRValue.inst.inj (Option.some.inj hstrip)
        have h := isAllocation_of_isAlloc hj hplain.2 halloc
        rw [hplain.1] at h
        cases h
      cases horigin with
      | fresh hfresh hnew =>
        rw [SSAInst.base?_eq_none_of_isAllocation hfresh] at hstrip
        obtain rfl := IRValue.inst.inj (Option.some.inj hstrip)
        exact ⟨_, hnew⟩
      | base hbase hold =>
        rw [hbase] at hstrip
        exact ih (Nat.le_of_succ_le hi) hold hstrip
      | operand h _ _ => exact hplain h
      | read h _ _ _ => exact hplain h
      | known h _ => exact hplain h
      | through h _ _ _ => exact hplain h

/-- The register of an instruction that is an allocation, when pointer casts have been stripped,
holds addresses of memory of allocations only. -/
lemma allocated_of_stripPointerCasts (hrun : F.PtrRun ctx sem σ n) {i : ℕ} (hi : i ≤ n)
    {v : IRValue} {b : MemBlock} (hb : ((σ i).regs v).block? = some b) {fuel : ℕ}
    (halloc : (F.instOf (F.stripPointerCasts fuel v)).any ctx.isAllocation = true) :
    ∃ k t, b = .allocated k t := by
  induction i generalizing v fuel with
  | zero =>
    cases v with
    | inst p => cases (hrun.start.inst p).symm.trans hb
    | argument m => cases fuel <;> cases halloc
    | constant c => cases fuel <;> cases halloc
  | succ i ih =>
    rcases step_block (hrun.step i hi) hb with hold | ⟨p, j, rfl, hj, horigin⟩
    · exact ih (Nat.le_of_succ_le hi) hold halloc
    have hinst : F.instOf (.inst p) = some j := hj
    -- where stripping stops the instruction is an allocation
    have hstops {fuel : ℕ} (h : F.stripPointerCasts fuel (.inst p) = .inst p)
        (halloc : (F.instOf (F.stripPointerCasts fuel (.inst p))).any ctx.isAllocation = true) :
        ctx.isAllocation j = true := by
      rwa [h, hinst, Option.any_some] at halloc
    have hplain (hplain : Plain ctx j) : ∃ k t, b = .allocated k t := by
      have hstrip : F.stripPointerCasts fuel (.inst p) = .inst p := by
        cases fuel with
        | zero => rfl
        | succ fuel =>
          rw [stripPointerCasts, hinst, Option.bind_some, SSAInst.pointerBase?_eq_none hplain.2]
      cases hplain.1.symm.trans (hstops hstrip halloc)
    cases horigin with
    | fresh _ hnew => exact ⟨_, _, hnew⟩
    | base hbase hold =>
      cases fuel with
      | zero =>
        rw [SSAInst.base?_eq_none_of_isAllocation (hstops rfl halloc)] at hbase
        cases hbase
      | succ fuel =>
        cases hpointer : j.pointerBase? with
        | none =>
          have hstrip : F.stripPointerCasts (fuel + 1) (.inst p) = .inst p := by
            rw [stripPointerCasts, hinst, Option.bind_some, hpointer]
          rw [SSAInst.base?_eq_none_of_isAllocation (hstops hstrip halloc)] at hbase
          cases hbase
        | some o' =>
          obtain rfl := Option.some.inj (hbase.symm.trans (SSAInst.base?_of_pointerBase? hpointer))
          rw [stripPointerCasts, hinst, Option.bind_some, hpointer] at halloc
          exact ih (Nat.le_of_succ_le hi) hold halloc
    | operand h _ _ => exact hplain h
    | read h _ _ _ => exact hplain h
    | known h _ => exact hplain h
    | through h _ _ _ => exact hplain h

/-- A store to dynamic memory writes to memory of an allocation. -/
lemma allocated_of_writesDynamicMemory (hrun : F.PtrRun ctx sem σ n) {i : ℕ} (hi : i ≤ n)
    {v : IRValue} {b : MemBlock} (hb : ((σ i).regs v).block? = some b)
    (h : (F.writesDynamicMemory ctx v).map Option.isNone = some false) :
    ∃ k t, b = .allocated k t := by
  cases v with
  | inst p =>
    obtain ⟨q, hq, hnone⟩ := Option.map_eq_some_iff.mp h
    obtain ⟨src, hsrc, rfl⟩ := Option.map_eq_some_iff.mp hq
    cases src with
    | inst k =>
      by_cases halloc : F.isAlloc ctx k = true
      · exact ⟨k, site_of_stripCastsGEPs hrun hi hb hsrc halloc⟩
      · simp [halloc] at hnone
    | argument m => cases hnone
    | constant c => cases hnone
  | argument m => cases h
  | constant c => cases h

lemma writesDynamicMemory_of_not_escapePoint {i : SSAInst (MemoryOp Fn Pure)} {pointer : IRValue}
    (hpointer : i.writtenPointer = some pointer)
    (h : F.isEscapePoint ctx loadsEscape i = some false) :
    (F.writesDynamicMemory ctx pointer).map Option.isNone = some false := by
  unfold isEscapePoint at h
  split at h
  · cases hpointer
  · cases hpointer
  · cases hpointer
  · cases hpointer
  · rw [hpointer] at h
    exact h

/-! ## Executions -/

variable (F ctx loadsEscape) in
/-- What the answer about an allocation `a` and an instruction `s` does not look at, for memory
that `a` is an address of and for all memory of allocations in which its address has been stored,
directly or through others.  Since the allocation of any of it no escape point has been executed,
apart from those of `a` that `s` does not strictly dominate. -/
structure Undisturbed (σ : ℕ → PtrState) (n : ℕ) (a s : InstPos) (b : MemBlock) : Prop where
  /-- The call that has allocated the memory has not told others. -/
  unpublished : ∀ k t, Holds (σ n).events b (.allocated k t) → t < n →
    ∀ c, .stored (.allocated k t) c ∉ (σ (t + 1)).events
  points : ∀ k t, Holds (σ n).events b (.allocated k t) → ∀ i, t < i → i < n →
    F.EscapePoint ctx loadsEscape k (σ i).pos → k = a ∧ ¬F.SDom s (σ i).pos

/-- The memory is of an allocation, and an address of it is stored in the other one. -/
def Member (σ : ℕ → PtrState) (n : ℕ) (b c : MemBlock) : Prop :=
  Holds (σ n).events b c ∧ ∃ k t, c = .allocated k t

/-- Up to a step of an execution, addresses of some memory have been stored in memory of the same
kind only. -/
structure ConfinedEvents (σ : ℕ → PtrState) (n : ℕ) (b : MemBlock) (i : ℕ) : Prop where
  passed : ∀ c, Member σ n b c → .passed c ∉ (σ i).events
  returned : ∀ c, Member σ n b c → .returned c ∉ (σ i).events
  stored : ∀ c d, Member σ n b c → .stored c d ∈ (σ i).events → ∃ k t, d = .allocated k t

variable (F) in
/-- Addresses of the memory are in derived registers only, too. -/
structure Confined (σ : ℕ → PtrState) (n : ℕ) (b : MemBlock) (i : ℕ) : Prop
    extends ConfinedEvents σ n b i where
  regs : ∀ v c, Member σ n b c → ((σ i).regs v).block? = some c →
    ∃ k t p, Member σ n b (.allocated k t) ∧ t < i ∧ v = .inst p ∧ F.DerivedFrom k p

variable {b : MemBlock} {i : ℕ}

lemma ConfinedEvents.not_escaped (hrun : F.PtrRun ctx sem σ n) (hi : i ≤ n)
    (h : ConfinedEvents σ n b i) {c : MemBlock} (hc : Member σ n b c) :
    ¬Escaped (σ i).events c := by
  intro hescaped
  induction hescaped with
  | outside m =>
    obtain ⟨-, k, t, h⟩ := hc
    cases h
  | passed hmem => exact h.passed _ hc hmem
  | returned hmem => exact h.returned _ hc hmem
  | @stored c d hmem _ ih =>
    have hholds : Holds (σ n).events b d := hc.1.tail (hrun.events hi le_rfl hmem)
    exact ih ⟨hholds, h.stored c d hc hmem⟩

namespace Confined

omit [DecidableEq Fn] in
/-- An instruction that uses an address of the memory is derived from an allocation of it. -/
lemma derived (h : F.Confined σ n b i) {c : MemBlock} (hc : Member σ n b c) {p : InstPos}
    {j : SSAInst (MemoryOp Fn Pure)} (hj : F.inst? p = some j) {o : IRValue}
    (ho : o ∈ j.usedValues) (hoc : ((σ i).regs o).block? = some c) :
    ∃ k t x, Member σ n b (.allocated k t) ∧ t < i ∧ F.DerivedFrom k x ∧ p ∈ F.users x := by
  obtain ⟨k, t, x, hmember, ht, rfl, hx⟩ := h.regs o c hc hoc
  exact ⟨k, t, x, hmember, ht, hx, mem_users.mpr ⟨j, hj, ho⟩⟩

/-- Such an instruction is no escape point if it is executed. -/
lemma not_escapePoint {DT : DominatorTree F} {a s : InstPos} (halloc : F.isAlloc ctx a = true)
    (hafter : escapesAfter ctx loadsEscape DT a s = some true)
    (hcond : F.Undisturbed ctx loadsEscape σ n a s b) (hi : i < n) (h : F.Confined σ n b i)
    {c : MemBlock} (hc : Member σ n b c) {j : SSAInst (MemoryOp Fn Pure)}
    (hj : F.inst? (σ i).pos = some j) {o : IRValue} (ho : o ∈ j.usedValues)
    (hoc : ((σ i).regs o).block? = some c) :
    F.isEscapePoint ctx loadsEscape j = some false := by
  by_contra hpoint
  obtain ⟨k, t, x, hmember, ht, hx, huser⟩ := h.derived hc hj ho hoc
  have hescape : F.EscapePoint ctx loadsEscape k (σ i).pos := ⟨x, hx, huser, j, hj, hpoint⟩
  obtain ⟨rfl, hdom⟩ := hcond.points k t hmember.1 i ht hi hescape
  -- the answer says that it is dominated
  rw [escapesAfter, if_pos halloc] at hafter
  obtain ⟨points, hpoints, hall⟩ := Option.map_eq_some_iff.mp hafter
  have hmem := (mem_escapePoints hpoints).mpr hescape
  exact hdom (DT.sound _ _ (List.all_eq_true.mp hall _ hmem))

/-- An event at the step keeps addresses confined. -/
lemma event_of_cause {DT : DominatorTree F} {a s : InstPos} (halloc : F.isAlloc ctx a = true)
    (hafter : escapesAfter ctx loadsEscape DT a s = some true)
    (hcond : F.Undisturbed ctx loadsEscape σ n a s b) (hrun : F.PtrRun ctx sem σ n) (hi : i < n)
    (h : F.Confined σ n b i) {j : SSAInst (MemoryOp Fn Pure)} (hj : F.inst? (σ i).pos = some j)
    {e : PtrEvent} (he : e ∈ (σ (i + 1)).events) (hcause : Cause ctx (σ i) j e) :
    (∀ c, Member σ n b c → e ≠ .passed c ∧ e ≠ .returned c) ∧
      ∀ c d, Member σ n b c → e = .stored c d → ∃ k t, d = .allocated k t := by
  have hpoint {c : MemBlock} (hc : Member σ n b c) {o : IRValue} (ho : o ∈ j.usedValues)
      (hoc : ((σ i).regs o).block? = some c) : F.isEscapePoint ctx loadsEscape j = some false :=
    h.not_escapePoint halloc hafter hcond hi hc hj ho hoc
  cases hcause with
  | @call callee operands o c hcall hclean ho hoc =>
    refine ⟨fun d hd => ⟨fun heq => ?_, nofun⟩, nofun⟩
    obtain rfl := PtrEvent.passed.inj heq
    have hfalse := hpoint hd ho hoc
    rw [hcall, isEscapePoint, hclean] at hfalse
    cases hfalse
  | @invoke callee operands successors o c hinvoke ho hoc =>
    refine ⟨fun d hd => ⟨fun heq => ?_, nofun⟩, nofun⟩
    obtain rfl := PtrEvent.passed.inj heq
    have hfalse := hpoint hd ho hoc
    rw [hinvoke] at hfalse
    cases hfalse
  | @ret operands successors o c hret ho hoc =>
    refine ⟨fun d hd => ⟨nofun, fun heq => ?_⟩, nofun⟩
    obtain rfl := PtrEvent.returned.inj heq
    have hfalse := hpoint hd ho hoc
    rw [hret] at hfalse
    cases hfalse
  | @store pointer d o c hpointer hd ho hoc =>
    refine ⟨fun _ _ => ⟨nofun, nofun⟩, ?_⟩
    rintro c' d' hc' heq
    obtain ⟨rfl, rfl⟩ := PtrEvent.stored.inj heq
    have hfalse := hpoint hc' ho hoc
    exact allocated_of_writesDynamicMemory hrun (Nat.le_of_lt hi) hd
      (writesDynamicMemory_of_not_escapePoint hpointer hfalse)
  | @known c d hescaped =>
    refine ⟨fun _ _ => ⟨nofun, nofun⟩, ?_⟩
    rintro c' d' hc' heq
    obtain ⟨rfl, rfl⟩ := PtrEvent.stored.inj heq
    exact absurd hescaped (h.not_escaped hrun (Nat.le_of_lt hi) hc')
  | @published d =>
    refine ⟨fun _ _ => ⟨nofun, nofun⟩, ?_⟩
    rintro c' d' hc' heq
    obtain ⟨rfl, rfl⟩ := PtrEvent.stored.inj heq
    have htime : (σ i).time = i := hrun.time (Nat.le_of_lt hi)
    rw [PtrState.fresh, htime] at hc' he
    exact absurd he (hcond.unpublished _ i hc'.1 hi d)

/-- An address with an origin is in a derived register. -/
lemma derived_of_origin (hrun : F.PtrRun ctx sem σ n) (hi : i < n) (h : F.Confined σ n b i)
    (hescaped : ∀ c, Member σ n b c → ¬Escaped (σ (i + 1)).events c) {c : MemBlock}
    (hc : Member σ n b c) {p : InstPos} {j : SSAInst (MemoryOp Fn Pure)} (hj : F.inst? p = some j)
    (horigin : F.Origin ctx (σ i) (σ (i + 1)) c p j) :
    ∃ k t, Member σ n b (.allocated k t) ∧ t < i + 1 ∧ F.DerivedFrom k p := by
  have hused {d : MemBlock} (hd : Member σ n b d) {p : InstPos} {j : SSAInst (MemoryOp Fn Pure)}
      (hj : F.inst? p = some j) {o : IRValue} (ho : o ∈ j.usedValues)
      (hod : ((σ i).regs o).block? = some d) :
      ∃ k t, Member σ n b (.allocated k t) ∧ t < i + 1 ∧ F.DerivedFrom k p := by
    obtain ⟨k, t, x, hmember, ht, hx, huser⟩ := h.derived hd hj ho hod
    exact ⟨k, t, hmember, Nat.lt_succ_of_lt ht, hx.tail huser⟩
  induction horigin with
  | fresh _ hnew =>
    rw [PtrState.fresh, hrun.time (Nat.le_of_lt hi)] at hnew
    subst hnew
    exact ⟨_, i, hc, Nat.lt_succ_self i, .refl⟩
  | base hbase hold => exact hused hc hj (SSAInst.mem_usedValues_of_base? hbase) hold
  | operand _ ho hold => exact hused hc hj ho hold
  | @read p j o d _ ho hod hstored =>
    have hholds : Holds (σ n).events b d :=
      hc.1.tail (hrun.events (Nat.le_of_lt hi) le_rfl hstored)
    exact hused ⟨hholds, h.stored c d hc hstored⟩ hj ho hod
  | known _ hknown => exact absurd hknown (hescaped c hc)
  | @through p j q j' _ hmem hq _ ih =>
    obtain ⟨k, t, hmember, ht, hx⟩ := ih hq
    exact ⟨k, t, hmember, ht, hx.tail (mem_users.mpr ⟨j, hj, hmem⟩)⟩

/-- One step keeps addresses confined. -/
lemma step {DT : DominatorTree F} {a s : InstPos} (halloc : F.isAlloc ctx a = true)
    (hafter : escapesAfter ctx loadsEscape DT a s = some true)
    (hcond : F.Undisturbed ctx loadsEscape σ n a s b) (hrun : F.PtrRun ctx sem σ n) (hi : i < n)
    (h : F.Confined σ n b i) : F.Confined σ n b (i + 1) := by
  have hstep := hrun.step i hi
  have hevent {e : PtrEvent} (he : e ∈ (σ (i + 1)).events) : e ∈ (σ i).events ∨
      (∀ c, Member σ n b c → e ≠ .passed c ∧ e ≠ .returned c) ∧
        ∀ c d, Member σ n b c → e = .stored c d → ∃ k t, d = .allocated k t := by
    obtain hold | ⟨j, hj, hcause⟩ := step_event hstep he
    · exact .inl hold
    · exact .inr (h.event_of_cause halloc hafter hcond hrun hi hj he hcause)
  have hpassed : ∀ c, Member σ n b c → .passed c ∉ (σ (i + 1)).events := fun c hc he => by
    rcases hevent he with hold | hnew
    · exact h.passed c hc hold
    · exact (hnew.1 c hc).1 rfl
  have hreturned : ∀ c, Member σ n b c → .returned c ∉ (σ (i + 1)).events := fun c hc he => by
    rcases hevent he with hold | hnew
    · exact h.returned c hc hold
    · exact (hnew.1 c hc).2 rfl
  have hstored : ∀ c d, Member σ n b c → .stored c d ∈ (σ (i + 1)).events →
      ∃ k t, d = .allocated k t := fun c d hc he => by
    rcases hevent he with hold | hnew
    · exact h.stored c d hc hold
    · exact hnew.2 c d hc rfl
  have hevents : ConfinedEvents σ n b (i + 1) := ⟨hpassed, hreturned, hstored⟩
  refine ⟨hevents, fun v c hc hv => ?_⟩
  obtain hold | ⟨p, j, rfl, hj, horigin⟩ := step_block hstep hv
  · obtain ⟨k, t, p, hmember, ht, hvp, hp⟩ := h.regs v c hc hold
    exact ⟨k, t, p, hmember, Nat.lt_succ_of_lt ht, hvp, hp⟩
  · have hescaped : ∀ c, Member σ n b c → ¬Escaped (σ (i + 1)).events c := fun c hc =>
      hevents.not_escaped hrun hi hc
    obtain ⟨k, t, hmember, ht, hp⟩ := h.derived_of_origin hrun hi hescaped hc hj horigin
    exact ⟨k, t, p, hmember, ht, rfl, hp⟩

end Confined

/-- At the beginning nothing has been allocated. -/
lemma confined_start (hrun : F.PtrRun ctx sem σ n) : F.Confined σ n b 0 := by
  have hevents := hrun.start.events
  refine ⟨⟨?_, ?_, ?_⟩, ?_⟩
  · intro c _ he
    rw [hevents] at he
    cases he
  · intro c _ he
    rw [hevents] at he
    cases he
  · intro c d _ he
    rw [hevents] at he
    cases he
  · rintro v c ⟨-, k, t, rfl⟩ hv
    obtain ⟨m, hm⟩ := hrun.start.block v _ hv
    cases hm

/-- At its first visit of an instruction an execution has executed nothing that the instruction
strictly dominates.  So the answer does not look at all it needs only if the address has been stored
in the memory of other allocations. -/
lemma undisturbed_of_first_visit (hrun : F.PtrRun ctx sem σ n) {a s : InstPos} {t : ℕ}
    (hfirst : ∀ i < n, (σ i).pos ≠ s)
    (hstored : ∀ c, .stored (.allocated a t) c ∉ (σ n).events) :
    F.Undisturbed ctx loadsEscape σ n a s (.allocated a t) := by
  have hholds {k : InstPos} {t' : ℕ}
      (h : Holds (σ n).events (.allocated a t) (.allocated k t')) : k = a ∧ t' = t := by
    rcases Relation.ReflTransGen.cases_head h with heq | ⟨c, hmem, -⟩
    · obtain ⟨rfl, rfl⟩ := MemBlock.allocated.inj heq
      exact ⟨rfl, rfl⟩
    · exact absurd hmem (hstored c)
  constructor
  · intro k t' h ht c hmem
    obtain ⟨rfl, rfl⟩ := hholds h
    exact hstored c (hrun.events ht le_rfl hmem)
  · intro k t' h i _ hi _
    refine ⟨(hholds h).1, fun hdom => hdom ?_⟩
    exact hrun.avoids (fun j hj => hfirst j (Nat.lt_trans hj hi)) hi

/-- The answers of a tree that knows dominance. -/
noncomputable def dominatorTree {Op : Type*} (F : SSAFunction Op) : DominatorTree F := by
  classical
  exact ⟨fun p q => decide (F.SDom p q), fun _ _ h => of_decide_eq_true h,
    fun _ _ _ _ h => decide_eq_true h⟩

/-- Casts and indices that keep the address. -/
def keepAddress : PtrSemantics Empty where
  cast _ v := v
  getElementPtr v _ := v
  eval op _ := nomatch op
  choose op _ := nomatch op
  block?_cast _ _ _ h := h
  block?_getElementPtr _ _ _ h := h
  block?_eval op := nomatch op

/-- No function returns an allocation. -/
def namedCalls : CallContext String := ⟨id, ∅⟩

/-- The state before the first step. -/
def ptrStart : PtrState := ⟨entry, fun _ => .int 0, [], 0⟩

lemma ptrStart_spec : PtrStart ptrStart :=
  ⟨rfl, rfl, rfl, fun _ => rfl, fun _ _ h => nomatch h⟩

/-- Two allocations, of which the address of the first one is stored in the second one, and what
comes after. -/
def cellFunction (rest : List (SSAInst (MemoryOp String Empty))) :
    SSAFunction (MemoryOp String Empty) :=
  ⟨[.other .alloca [] :: .other .alloca [] ::
    .other .store [.inst ⟨0, 0⟩, .inst ⟨0, 1⟩] :: rest]⟩

/-- The state after two allocations and a store. -/
def cellStored : PtrState :=
  ((ptrStart.assign (.pointer (.allocated ⟨0, 0⟩ 0) 0) []).assign
    (.pointer (.allocated ⟨0, 1⟩ 1) 0) []).assign
      (.int 0) [.stored (.allocated ⟨0, 0⟩ 0) (.allocated ⟨0, 1⟩ 1)]

/-- The states of an execution; at last the second allocation is passed to a function. -/
def cellRun : ℕ → PtrState
  | 0 => ptrStart
  | 1 => ptrStart.assign (.pointer (.allocated ⟨0, 0⟩ 0) 0) []
  | 2 => (ptrStart.assign (.pointer (.allocated ⟨0, 0⟩ 0) 0) []).assign
      (.pointer (.allocated ⟨0, 1⟩ 1) 0) []
  | 3 => cellStored
  | _ => cellStored.assign (.int 0) [.passed (.allocated ⟨0, 1⟩ 1)]

lemma ptrRun_cellRun (rest : List (SSAInst (MemoryOp String Empty))) :
    (cellFunction rest).PtrRun namedCalls keepAddress cellRun 3 := by
  refine ⟨ptrStart_spec, fun i hi => ?_⟩
  interval_cases i
  · exact .alloca rfl
  · exact .alloca rfl
  · have hstore : (cellFunction rest).inst? (cellRun 2).pos =
        some (.other .store [.inst ⟨0, 0⟩, .inst ⟨0, 1⟩]) := rfl
    have htarget : (cellRun 2).regs (.inst ⟨0, 1⟩) = .pointer (.allocated ⟨0, 1⟩ 1) 0 := rfl
    exact .store hstore htarget

/-- The first allocation is written at the end, and then passed to a function. -/
def privateCell : SSAFunction (MemoryOp String Empty) :=
  cellFunction [.other .store [.constant (.int 32 0), .inst ⟨0, 0⟩],
    .other (.call (.direct "use")) [.inst ⟨0, 0⟩], .terminator .ret [] []]

/-- The second allocation is passed to a function before the first one is written. -/
def publishedCell : SSAFunction (MemoryOp String Empty) :=
  cellFunction [.other (.call (.direct "use")) [.inst ⟨0, 1⟩],
    .other .store [.constant (.int 32 0), .inst ⟨0, 0⟩], .terminator .ret [] []]

end SSAFunction

end GenMC
