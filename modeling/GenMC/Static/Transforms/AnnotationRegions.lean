import GenMC.Static.Transforms.EliminateAnnotations

/-!
# Nested regions

The calls of annotations are properly nested: on every path, each end is the one of the innermost
open region.  A beginning is matched with its own end exactly if no other end comes before it on all
paths, as the end of a region inside of it does (`findMatchingEnd_eq_iff`); and an instruction in a
loop inside of a region is on no back path if the loop is left at its header.

The pass does what it is for exactly if no region lies on all paths through another one, and what is
executed in a region only on paths that enter a block twice gets its value from other regions
(`eliminateAnnotations_iff`).
-/

namespace GenMC

/-! ## Unions of values -/

/-- The bitwise or of the values of some annotations, and nothing if there are none. -/
def IsUnion (values : InstPos → ℕ) (R : InstPos → Prop) : Option ℕ → Prop
  | none => ∀ b, ¬R b
  | some v => (∃ b, R b) ∧ ∀ k, v.testBit k = true ↔ ∃ b, R b ∧ (values b).testBit k = true

namespace IsUnion

variable {values : InstPos → ℕ} {R R' : InstPos → Prop} {md : Option ℕ}

lemma congr (h : IsUnion values R md) (hR : ∀ b, R b ↔ R' b) : IsUnion values R' md := by
  obtain rfl : R = R' := funext fun b => propext (hR b)
  exact h

/-- One more annotation. -/
lemma accumulate (h : IsUnion values R md) (b : InstPos) :
    IsUnion values (fun b' => R b' ∨ b' = b) (accumulateAttr md (values b)) := by
  refine ⟨⟨b, .inr rfl⟩, fun k => ?_⟩
  have hold : (md.getD 0).testBit k = true ↔ ∃ b, R b ∧ (values b).testBit k = true := by
    cases md with
    | none =>
      rw [Option.getD_none, Nat.zero_testBit]
      exact ⟨nofun, fun ⟨b, hb, _⟩ => absurd hb (h b)⟩
    | some v => exact h.2 k
  rw [Nat.testBit_or, Bool.or_eq_true, hold]
  constructor
  · rintro (hb | ⟨b', hb', hbit⟩)
    · exact ⟨b, .inr rfl, hb⟩
    · exact ⟨b', .inl hb', hbit⟩
  · rintro ⟨b', hb' | rfl, hbit⟩
    · exact .inr ⟨b', hb', hbit⟩
    · exact .inl hbit

/-- More annotations have the same union exactly if they add neither the first one nor a bit. -/
lemma iff_of_subset (h : IsUnion values R md) (hR : ∀ b, R b → R' b) :
    IsUnion values R' md ↔ ∀ b, R' b → (∃ b', R b') ∧
      ∀ k, (values b).testBit k = true → ∃ b', R b' ∧ (values b').testBit k = true := by
  cases md with
  | none =>
    constructor
    · exact fun h' b hb => absurd hb (h' b)
    · intro h' b hb
      obtain ⟨⟨b', hb'⟩, -⟩ := h' b hb
      exact h b' hb'
  | some v =>
    constructor
    · exact fun h' b hb => ⟨h.1, fun k hk => (h.2 k).mp ((h'.2 k).mpr ⟨b, hb, hk⟩)⟩
    · intro h'
      obtain ⟨b, hb⟩ := h.1
      refine ⟨⟨b, hR b hb⟩, fun k => (h.2 k).trans ⟨?_, ?_⟩⟩
      · rintro ⟨b', hb', hk⟩
        exact ⟨b', hR b' hb', hk⟩
      · rintro ⟨b', hb', hk⟩
        exact (h' b' hb').2 k hk

end IsUnion

/-! ## Regions -/

namespace SSAFunction

variable {Op : Type*} (F : SSAFunction (AnnotationOp Op))

/-- The beginning of an annotation. -/
def IsBegin (p : InstPos) : Prop := ∃ i, F.inst? p = some i ∧ i.isAnnotationBegin = true

/-- The end of an annotation. -/
def IsEnd (p : InstPos) : Prop := ∃ i, F.inst? p = some i ∧ i.isAnnotationEnd = true

/-- The regions that are open on some path to an instruction, the innermost one first. -/
inductive OpenRegions : InstPos → List InstPos → Prop
  | entry : OpenRegions entry []
  | step {p q st i} : OpenRegions p st → F.inst? p = some i → F.Edge p q →
      OpenRegions q (if i.isAnnotationBegin then p :: st else if i.isAnnotationEnd then st.tail
        else st)

/-- The calls are properly nested: `own` is the end of each beginning. -/
structure ProperlyAnnotated (T : PostDominatorTree F) (own : InstPos → InstPos) : Prop where
  isEnd : ∀ b, F.IsBegin b → F.IsEnd (own b)
  injective : ∀ b b', F.IsBegin b → F.IsBegin b' → own b = own b' → b = b'
  surjective : ∀ e, F.IsEnd e → ∃ b, F.IsBegin b ∧ own b = e
  -- both calls have the value of the region
  value : ∀ b, F.IsBegin b → ∃ v, F.annotationValue b = some v ∧ F.annotationValue (own b) = some v
  dominated : ∀ b, F.IsBegin b → F.SDom b (own b)
  postDominated : ∀ b, F.IsBegin b → ∀ q, F.IsExit T.roots q →
    Dominance.StrictlyDominates F.Edge b (own b) q
  nested : ∀ p st, F.OpenRegions p st → F.IsEnd p → ∃ b st', st = b :: st' ∧ own b = p
  opcodes : ∀ b, F.IsBegin b → ∀ p q c d, F.Between b (own b) p → F.Between b (own b) q →
    F.markedOpcode p = some c → F.markedOpcode q = some d → c = d

/-- The value of the annotation that begins at a position. -/
def valueAt (b : InstPos) : ℕ := (F.annotationValue b).getD 0

/-- The regions that an atomic instruction can be executed in. -/
def Encloses (own : InstPos → InstPos) (p b : InstPos) : Prop :=
  F.IsBegin b ∧ F.Between b (own b) p ∧ (F.markedOpcode p).isSome

/-- The regions that an atomic instruction lies in on a path that enters no block twice. -/
def SimplyEncloses (own : InstPos → InstPos) (p b : InstPos) : Prop :=
  F.IsBegin b ∧ F.SimplyBetween b (own b) p ∧ (F.markedOpcode p).isSome

/-- The function without the calls, with attributes. -/
def withoutAnnotations (attrs : InstPos → Option ℕ) :
    List (List (SSAInst (AnnotationOp Op) × Option ℕ)) :=
  F.blocks.zipIdx.map fun block =>
    (block.1.zipIdx.filter fun i => !i.1.isAnnotationBegin && !i.1.isAnnotationEnd).map fun i =>
      (i.1, attrs ⟨block.2, i.2⟩)

variable {F}

/-- What the pass is for: beginnings are matched with their own ends, and the function is left
without the calls and with the values of the enclosing regions. -/
structure EliminatesAnnotations (preds : ℕ → List ℕ) (DT : DominatorTree F)
    (T : PostDominatorTree F) (own : InstPos → InstPos) : Prop where
  matched : ∀ b, F.IsBegin b → findMatchingEnd DT T b F.ends = some (own b)
  marked : ∃ changed attrs,
    eliminateAnnotations preds DT T = some (changed, F.withoutAnnotations attrs) ∧
      ∀ p, IsUnion F.valueAt (F.Encloses own p) (attrs p)

/-- No region is entered on all paths through another one. -/
def RegionsApart (T : PostDominatorTree F) (own : InstPos → InstPos) : Prop :=
  ∀ b, F.IsBegin b → ∀ e, F.IsEnd e → e ≠ own b → F.SDom b e →
    T.dominates e.block b.block = true → ¬F.SDom e (own b)

/-- The regions that enclose an instruction only on paths that enter a block twice add nothing to
its mark. -/
def MarkedOnSimplePaths (F : SSAFunction (AnnotationOp Op)) (own : InstPos → InstPos) : Prop :=
  ∀ p b, F.Encloses own p b → (∃ b', F.SimplyEncloses own p b') ∧
    ∀ k, (F.valueAt b).testBit k = true →
      ∃ b', F.SimplyEncloses own p b' ∧ (F.valueAt b').testBit k = true

lemma mem_begins {p : InstPos} : p ∈ F.begins ↔ F.IsBegin p := by
  simp only [begins, List.mem_filter, Option.any_eq_true]
  exact ⟨fun h => h.2, fun h => ⟨mem_layout h.choose_spec.1, h⟩⟩

lemma mem_ends {p : InstPos} : p ∈ F.ends ↔ F.IsEnd p := by
  simp only [ends, List.mem_filter, Option.any_eq_true]
  exact ⟨fun h => h.2, fun h => ⟨mem_layout h.choose_spec.1, h⟩⟩

/-- No call is a beginning and an end. -/
lemma IsBegin.ne_end {b e : InstPos} (hb : F.IsBegin b) (he : F.IsEnd e) : b ≠ e := by
  rintro rfl
  obtain ⟨i, hi, hbegin⟩ := hb
  obtain ⟨j, hj, hend⟩ := he
  obtain rfl := Option.some.inj (hi.symm.trans hj)
  unfold SSAInst.isAnnotationBegin SSAInst.callsInternal at hbegin
  unfold SSAInst.isAnnotationEnd SSAInst.callsInternal at hend
  split at hbegin
  next name _ =>
    have h := of_decide_eq_true hbegin
    rw [of_decide_eq_true hend] at h
    cases h
  next => cases hbegin

/-! ## Matching -/

section Matching

variable {DT : DominatorTree F} {T : PostDominatorTree F} {own : InstPos → InstPos}

/-- The dominator tree agrees on the calls. -/
lemma dominates_iff {p q : InstPos} (hp : F.IsBegin p ∨ F.IsEnd p) (hq : F.IsEnd q) :
    DT.dominates p q = true ↔ F.SDom p q := by
  refine ⟨DT.sound p q, DT.complete p q (fun i hi => ?_) fun i hi => ?_⟩
  · obtain ⟨j, hj, hcalls⟩ | ⟨j, hj, hcalls⟩ := hp
    · obtain rfl := Option.some.inj (hj.symm.trans hi)
      exact (SSAInst.callsInternal_cases hcalls).1
    · obtain rfl := Option.some.inj (hj.symm.trans hi)
      exact (SSAInst.callsInternal_cases hcalls).1
  · obtain ⟨j, hj, hcalls⟩ := hq
    obtain rfl := Option.some.inj (hj.symm.trans hi)
    exact (SSAInst.callsInternal_cases hcalls).2.1

/-- The condition on an end that does not ask for its value. -/
lemma isCandidate_iff {b e : InstPos} (hb : F.IsBegin b) (he : F.IsEnd e) :
    isCandidate DT T b e = true ↔ F.SDom b e ∧ T.dominates e.block b.block = true := by
  rw [isCandidate, Bool.and_eq_true, dominates_iff (.inl hb) he]

/-- The test of `findMatchingEnd`. -/
lemma isMatchingEnd_spec (DT : DominatorTree F) (hR : F.ProperlyAnnotated T own) {b e : InstPos}
    (hb : F.IsBegin b) (he : F.IsEnd e) : ∃ found, isMatchingEnd DT T b F.ends e = some found ∧
      (found = true ↔ F.annotationValue b = F.annotationValue e ∧
        (F.SDom b e ∧ T.dominates e.block b.block = true) ∧
        ∀ e', F.IsEnd e' → e' ≠ e → F.SDom b e' → T.dominates e'.block b.block = true →
          ¬F.SDom e' e) := by
  obtain ⟨v, hv, -⟩ := hR.value b hb
  obtain ⟨b', hb', rfl⟩ := hR.surjective e he
  obtain ⟨v', -, hv'⟩ := hR.value b' hb'
  refine ⟨_, by rw [isMatchingEnd, hv, Option.bind_some, hv', Option.map_some], ?_⟩
  rw [Bool.and_eq_true, Bool.and_eq_true, decide_eq_true_iff, isCandidate_iff hb he,
    Bool.not_eq_true', List.any_eq_false, hv, hv', Option.some.injEq, and_assoc]
  refine and_congr_right fun _ => and_congr_right fun _ => ?_
  constructor
  · intro h e' he' hne hdom hpdom hdom'
    refine h e' (mem_ends.mpr he') ?_
    rw [Bool.and_eq_true, Bool.and_eq_true, decide_eq_true_iff, isCandidate_iff hb he',
      dominates_iff (.inr he') he]
    exact ⟨⟨hne.symm, hdom, hpdom⟩, hdom'⟩
  · intro h e' he' hbool
    rw [Bool.and_eq_true, Bool.and_eq_true, decide_eq_true_iff,
      isCandidate_iff hb (mem_ends.mp he'), dominates_iff (.inr (mem_ends.mp he')) he] at hbool
    exact h e' (mem_ends.mp he') hbool.1.1.symm hbool.1.2.1 hbool.1.2.2 hbool.2

/-- What a search finds passes its test. -/
lemma test_of_findIf {α : Type*} {test : α → Option Bool} {l : List α} {a : α}
    (h : findIf test l = some a) : a ∈ l ∧ test a = some true := by
  induction l with
  | nil => cases h
  | cons x l ih =>
    obtain ⟨found, hfound, h⟩ := Option.bind_eq_some_iff.mp h
    cases found with
    | true =>
      obtain rfl := Option.some.inj h
      exact ⟨List.mem_cons_self, hfound⟩
    | false => exact (ih h).imp_left fun hl => List.mem_cons_of_mem x hl

/-- A search whose test is no bug finds the only element that passes it. -/
lemma findIf_of_unique {α : Type*} {test : α → Option Bool} {l : List α} {a : α} (ha : a ∈ l)
    (htest : ∀ x ∈ l, ∃ found, test x = some found ∧ (found = true ↔ x = a)) :
    findIf test l = some a := by
  induction l with
  | nil => cases ha
  | cons x l ih =>
    obtain ⟨found, hfound, hP⟩ := htest x List.mem_cons_self
    rw [findIf, hfound, Option.bind_some]
    by_cases hx : x = a
    · rw [if_pos (hP.mpr hx), hx]
    · rw [if_neg fun h => hx (hP.mp h)]
      exact ih ((List.mem_cons.mp ha).resolve_left (Ne.symm hx))
        fun y hy => htest y (List.mem_cons_of_mem x hy)

/-- The end of a region is one of the candidates. -/
lemma ProperlyAnnotated.candidate (hR : F.ProperlyAnnotated T own) (hF : F.Terminated)
    {b : InstPos} (hb : F.IsBegin b) :
    F.SDom b (own b) ∧ T.dominates (own b).block b.block = true := by
  obtain ⟨i, hi, -⟩ := id hb
  exact ⟨hR.dominated b hb, hF.postDominates_of_inst T hi (hR.postDominated b hb)⟩

/-- What cannot be reached is dominated. -/
lemma sDom_of_not_reached {p q : InstPos} (h : ¬F.Reached q) : F.SDom p q :=
  fun havoids => h havoids.reachable

/-- Of two candidates one dominates the other. -/
lemma ProperlyAnnotated.total (hR : F.ProperlyAnnotated T own) (hF : F.Terminated) {b e : InstPos}
    (hb : F.IsBegin b) (he : F.IsEnd e) (hne : e ≠ own b) (hdom : F.SDom b e)
    (hpdom : T.dominates e.block b.block = true) : F.SDom (own b) e ∨ F.SDom e (own b) := by
  by_cases hreached : F.Reached e
  · obtain ⟨i, hi, hcalls⟩ := he
    obtain ⟨j, hj, -⟩ := hR.isEnd b hb
    exact (hR.dominated b hb).total hdom (hR.postDominated b hb)
      (fun q hq => hF.strictlyDominates_of_postDominates T hdom hreached hi
        (SSAInst.callsInternal_cases hcalls).1 hpdom hq) hne.symm (hF.exists_exit T hj)
  · exact .inl (sDom_of_not_reached hreached)

/-- **Matching.**  A beginning is matched with its own end exactly if no other candidate comes
before. -/
theorem findMatchingEnd_eq_iff (hR : F.ProperlyAnnotated T own) (hF : F.Terminated) {b : InstPos}
    (hb : F.IsBegin b) : findMatchingEnd DT T b F.ends = some (own b) ↔
      ∀ e, F.IsEnd e → e ≠ own b → F.SDom b e → T.dominates e.block b.block = true →
        ¬F.SDom e (own b) := by
  have hown := hR.isEnd b hb
  constructor
  · intro h
    obtain ⟨found, hfound, hspec⟩ := isMatchingEnd_spec DT hR hb hown
    obtain rfl := Option.some.inj (hfound.symm.trans (test_of_findIf h).2)
    exact (hspec.mp rfl).2.2
  · intro h
    refine findIf_of_unique (mem_ends.mpr hown) fun e he => ?_
    obtain ⟨found, hfound, hspec⟩ := isMatchingEnd_spec DT hR hb (mem_ends.mp he)
    refine ⟨found, hfound, hspec.trans ⟨?_, ?_⟩⟩
    · rintro ⟨-, ⟨hdom, hpdom⟩, hfirst⟩
      by_contra hne
      obtain hbefore | hbefore := hR.total hF hb (mem_ends.mp he) hne hdom hpdom
      · obtain ⟨hdom', hpdom'⟩ := hR.candidate hF hb
        exact hfirst (own b) hown (Ne.symm hne) hdom' hpdom' hbefore
      · exact h e (mem_ends.mp he) hne hdom hpdom hbefore
    · rintro rfl
      obtain ⟨v, hv, hv'⟩ := hR.value b hb
      exact ⟨hv.trans hv'.symm, hR.candidate hF hb, h⟩

end Matching

/-! ## Marks -/

section Marks

variable {DT : DominatorTree F} {T : PostDominatorTree F} {own : InstPos → InstPos}
  {preds : ℕ → List ℕ}

/-- In one block the end comes after the beginning. -/
lemma ProperlyAnnotated.index_lt (hR : F.ProperlyAnnotated T own) (hF : F.Terminated) {b : InstPos}
    (hb : F.IsBegin b) (hblock : b.block = (own b).block) : b.index < (own b).index := by
  have hne := hb.ne_end (hR.isEnd b hb)
  obtain ⟨i, hi, hcalls⟩ := id hb
  have hterm := (SSAInst.callsInternal_cases hcalls).1
  by_contra hle
  -- on the way to an exit, the walk after its last visit of the end passes the beginning
  obtain ⟨q, hq, hwalk⟩ := hF.exists_exit T hi
  obtain havoids | havoids := Dominance.Avoids.last hne hwalk
  · exact hR.postDominated b hb q hq havoids
  · have hstays : ∀ p, Dominance.Avoids F.Edge (own b) b p →
        p.block = b.block ∧ p.index ≤ b.index := by
      intro p hp
      induction hp with
      | root => exact ⟨hblock.symm, not_lt.mp hle⟩
      | @step p p' _ hne hedge ih =>
        obtain ⟨block, index⟩ := p
        obtain ⟨hp, hindex⟩ := ih
        obtain rfl : block = b.block := hp
        have hlt : index < b.index := lt_of_le_of_ne hindex fun heq => hne (heq ▸ rfl)
        obtain ⟨j, hj, hnext⟩ := hedge
        rw [hF.isTerminator_eq_false hj hi hlt, if_neg Bool.false_ne_true] at hnext
        subst hnext
        exact ⟨rfl, hlt⟩
    obtain ⟨hqb, hindex⟩ := hstays q havoids
    obtain ⟨-, j, hj, hterm'⟩ := hq
    exact absurd hindex (not_le.mpr (hF.index_lt hi hterm hj hterm' hqb))

/-- A call of an internal function is not marked. -/
lemma markedOpcode_of_calls {p : InstPos} {i : SSAInst (AnnotationOp Op)} {f : InternalFunctions}
    (hi : F.inst? p = some i) (h : i.callsInternal f = true) : F.markedOpcode p = none := by
  rw [markedOpcode, hi, Option.bind_some, (SSAInst.callsInternal_cases h).2.2]
  rfl

/-- A region that encloses an instruction on a path that enters no block twice encloses it. -/
lemma SimplyEncloses.encloses (hF : F.Terminated) {p b : InstPos}
    (h : F.SimplyEncloses own p b) : F.Encloses own p b := by
  obtain ⟨hb, hbetween, hsome⟩ := h
  obtain ⟨i, hi, -⟩ := id hb
  obtain ⟨j, hj⟩ := Option.isSome_iff_exists.mp (isSome_of_markedOpcode hsome)
  exact ⟨hb, hbetween.between hF hi hj, hsome⟩

/-- The elements of the blocks are the instructions. -/
lemma inst?_of_mem_zipIdx {block : List (SSAInst (AnnotationOp Op)) × ℕ}
    (hblock : block ∈ F.blocks.zipIdx) {i : SSAInst (AnnotationOp Op) × ℕ}
    (hi : i ∈ block.1.zipIdx) : F.inst? ⟨block.2, i.2⟩ = some i.1 :=
  Option.bind_eq_some_iff.mpr ⟨block.1, List.mem_zipIdx_iff_getElem?.mp hblock,
    List.mem_zipIdx_iff_getElem?.mp hi⟩

/-- What is left if the calls are erased. -/
lemma eraseInsts_eq {toDelete : List InstPos} {attrs : InstPos → Option ℕ}
    (h : ∀ p i, F.inst? p = some i →
      (p ∈ toDelete ↔ i.isAnnotationBegin = true ∨ i.isAnnotationEnd = true)) :
    F.eraseInsts toDelete attrs = F.withoutAnnotations attrs := by
  refine List.map_congr_left fun block hblock => congrArg _ (List.filter_congr fun i hi => ?_)
  have hmem := h _ _ (inst?_of_mem_zipIdx hblock hi)
  rw [Bool.eq_iff_iff, decide_eq_true_iff, hmem, Bool.and_eq_true, Bool.not_eq_true',
    Bool.not_eq_true', not_or, Bool.not_eq_true, Bool.not_eq_true]

/-- The attributes can be read off the function that is left. -/
lemma attrs_eq_of_withoutAnnotations {attrs attrs' : InstPos → Option ℕ}
    (h : F.withoutAnnotations attrs = F.withoutAnnotations attrs') {p : InstPos}
    {i : SSAInst (AnnotationOp Op)} (hi : F.inst? p = some i) (hbegin : i.isAnnotationBegin = false)
    (hend : i.isAnnotationEnd = false) : attrs p = attrs' p := by
  obtain ⟨block, index⟩ := p
  obtain ⟨is, his, hi⟩ := Option.bind_eq_some_iff.mp hi
  have hblock := List.map_inj_left.mp h (is, block) (List.mem_zipIdx_iff_getElem?.mpr his)
  have hmem : (i, index) ∈ is.zipIdx.filter
      fun i => !i.1.isAnnotationBegin && !i.1.isAnnotationEnd := by
    rw [List.mem_filter, hbegin, hend]
    exact ⟨List.mem_zipIdx_iff_getElem?.mpr hi, rfl⟩
  exact (Prod.mk.inj (List.map_inj_left.mp hblock (i, index) hmem)).2

/-- **The loop over the beginnings**: if they are matched, the pass ends, and it marks what lies
inside of the regions on paths that enter no block twice. -/
lemma eliminateAnnotations_of_matched (hR : F.ProperlyAnnotated T own) (hF : F.Terminated)
    (hpreds : F.ListsPredecessors preds)
    (hmatched : ∀ b, F.IsBegin b → findMatchingEnd DT T b F.ends = some (own b)) :
    ∃ changed attrs,
      eliminateAnnotations preds DT T = some (changed, F.withoutAnnotations attrs) ∧
        ∀ p, IsUnion F.valueAt (F.SimplyEncloses own p) (attrs p) := by
  obtain ⟨s, hfold, hunion, hdelete⟩ := PartialRun.foldlM_total
    (f := eliminateStep preds DT T) F.begins
    (fun done s => (∀ p, IsUnion F.valueAt (fun b => b ∈ done ∧ F.SimplyEncloses own p b) (s.1 p)) ∧
      ∀ p, p ∈ s.2 ↔ ∃ b ∈ done, p = b ∨ p = own b)
    (fun done b rest hbegins s hs => by
      have hb : F.IsBegin b := mem_begins.mp (by simp [hbegins])
      obtain ⟨i, hi, hcalls⟩ := id hb
      obtain ⟨j, hj, -⟩ := hR.isEnd b hb
      obtain ⟨v, hv, -⟩ := hR.value b hb
      have hvalue : F.valueAt b = v := by rw [valueAt, hv, Option.getD_some]
      obtain ⟨code, hcode⟩ : ∃ code, ∀ p, F.SimplyBetween b (own b) p →
          ∀ c, F.markedOpcode p = some c → c = code := by
        have hbetween : ∀ p c, F.SimplyBetween b (own b) p → F.markedOpcode p = some c →
            F.Between b (own b) p := by
          intro p c hp hc
          obtain ⟨k, hk⟩ := Option.isSome_iff_exists.mp
            (isSome_of_markedOpcode (Option.isSome_iff_exists.mpr ⟨c, hc⟩))
          exact hp.between hF hi hk
        by_cases hex : ∃ p c, F.SimplyBetween b (own b) p ∧ F.markedOpcode p = some c
        · obtain ⟨p, c, hp, hc⟩ := hex
          exact ⟨c, fun q hq d hd =>
            hR.opcodes b hb q p d c (hbetween q d hq hd) (hbetween p c hp hc) hd hc⟩
        · exact ⟨.load, fun p hp c hc => absurd ⟨p, c, hp, hc⟩ hex⟩
      obtain ⟨attrs, hattrs, hmarked⟩ := annotateInstructions_spec hpreds (by rw [hi]; rfl)
        (by rw [hj]; rfl) (hR.index_lt hF hb) (markedOpcode_of_calls hi hcalls) hv hcode s.1
      refine ⟨(attrs, s.2 ++ [b, own b]), ?_, fun p => ?_, fun p => ?_⟩
      · rw [eliminateStep, hmatched b hb, Option.bind_some, hattrs, Option.map_some]
      · by_cases hp : F.SimplyBetween b (own b) p ∧ (F.markedOpcode p).isSome
        · change IsUnion _ _ (attrs p)
          rw [(hmarked p).1 hp, ← hvalue]
          refine ((hs.1 p).accumulate b).congr fun b' => ?_
          rw [List.mem_append, List.mem_singleton]
          constructor
          · rintro (⟨hdone, hencl⟩ | rfl)
            · exact ⟨.inl hdone, hencl⟩
            · exact ⟨.inr rfl, hb, hp⟩
          · rintro ⟨hdone | rfl, hencl⟩
            · exact .inl ⟨hdone, hencl⟩
            · exact .inr rfl
        · change IsUnion _ _ (attrs p)
          rw [(hmarked p).2 hp]
          refine (hs.1 p).congr fun b' => ?_
          rw [List.mem_append, List.mem_singleton]
          constructor
          · rintro ⟨hdone, hencl⟩
            exact ⟨.inl hdone, hencl⟩
          · rintro ⟨hdone | rfl, hencl⟩
            · exact ⟨hdone, hencl⟩
            · exact absurd hencl.2 hp
      · change p ∈ s.2 ++ [b, own b] ↔ _
        simp only [List.mem_append, hs.2, List.mem_cons, List.not_mem_nil, or_false, or_and_right,
          exists_or, exists_eq_left])
    (s := (fun _ => none, [])) ⟨fun p b hb => List.not_mem_nil hb.1, by simp⟩
  have herase : F.eraseInsts s.2 s.1 = F.withoutAnnotations s.1 := by
    refine eraseInsts_eq fun p i hi => ?_
    rw [hdelete]
    constructor
    · rintro ⟨b, hb, rfl | rfl⟩
      · obtain ⟨j, hj, hcalls⟩ := mem_begins.mp hb
        exact .inl (Option.some.inj (hj.symm.trans hi) ▸ hcalls)
      · obtain ⟨j, hj, hcalls⟩ := hR.isEnd b (mem_begins.mp hb)
        exact .inr (Option.some.inj (hj.symm.trans hi) ▸ hcalls)
    · rintro (hcalls | hcalls)
      · exact ⟨p, mem_begins.mpr ⟨i, hi, hcalls⟩, .inl rfl⟩
      · obtain ⟨b, hb, rfl⟩ := hR.surjective p ⟨i, hi, hcalls⟩
        exact ⟨b, mem_begins.mpr hb, .inr rfl⟩
  refine ⟨decide (F.begins ≠ []), s.1, ?_, fun p => (hunion p).congr fun b =>
    ⟨fun h => h.2, fun h => ⟨mem_begins.mpr h.1, h⟩⟩⟩
  rw [eliminateAnnotations, hfold, Option.map_some, herase]

end Marks

/-- **The elimination of annotations** does what it is for exactly if regions are not nested in each
other on all paths, and what is executed in a region only on paths that enter a block twice gets its
value from other regions. -/
theorem eliminateAnnotations_iff {DT : DominatorTree F} {T : PostDominatorTree F}
    {own : InstPos → InstPos} {preds : ℕ → List ℕ} (hR : F.ProperlyAnnotated T own)
    (hF : F.Terminated) (hpreds : F.ListsPredecessors preds) :
    EliminatesAnnotations preds DT T own ↔ RegionsApart T own ∧ MarkedOnSimplePaths F own := by
  have hsubset : ∀ p b, F.SimplyEncloses own p b → F.Encloses own p b :=
    fun p b h => h.encloses hF
  constructor
  · rintro ⟨hmatched, changed, attrs, hrun, hunion⟩
    refine ⟨fun b hb => (findMatchingEnd_eq_iff hR hF hb).mp (hmatched b hb), fun p b hb => ?_⟩
    obtain ⟨changed', attrs', hrun', hunion'⟩ :=
      eliminateAnnotations_of_matched hR hF hpreds hmatched
    -- the two functions that are left have the same attributes
    have hattrs : attrs p = attrs' p := by
      obtain ⟨i, hi⟩ := Option.isSome_iff_exists.mp (isSome_of_markedOpcode hb.2.2)
      have hcalls : ∀ f, i.callsInternal f = false := by
        intro f
        by_contra hcalls
        have hnone := markedOpcode_of_calls hi (Bool.not_eq_false _ ▸ hcalls)
        have hsome := hb.2.2
        rw [hnone] at hsome
        cases hsome
      exact attrs_eq_of_withoutAnnotations
        (Prod.mk.inj (Option.some.inj (hrun.symm.trans hrun'))).2 hi (hcalls _) (hcalls _)
    exact ((hunion' p).iff_of_subset (hsubset p)).mp (hattrs ▸ hunion p) b hb
  · rintro ⟨hapart, hsimple⟩
    have hmatched : ∀ b, F.IsBegin b → findMatchingEnd DT T b F.ends = some (own b) :=
      fun b hb => (findMatchingEnd_eq_iff hR hF hb).mpr (hapart b hb)
    obtain ⟨changed, attrs, hrun, hunion⟩ :=
      eliminateAnnotations_of_matched hR hF hpreds hmatched
    exact ⟨hmatched, changed, attrs, hrun, fun p =>
      ((hunion p).iff_of_subset (hsubset p)).mpr (hsimple p)⟩

/-! ## Functions of one block -/

/-- A function of one block that returns. -/
def oneBlock (is : List (SSAInst (AnnotationOp Unit))) : SSAFunction (AnnotationOp Unit) :=
  ⟨[is ++ [.terminator (.rest ()) [] []]]⟩

/-- No instruction before the return is a terminator. -/
abbrev Straight (is : List (SSAInst (AnnotationOp Unit))) : Prop := ∀ i ∈ is, i.isTerminator = false

section OneBlock

variable {is : List (SSAInst (AnnotationOp Unit))}

lemma inst?_oneBlock {p : InstPos} {i : SSAInst (AnnotationOp Unit)}
    (h : (oneBlock is).inst? p = some i) :
    p.block = 0 ∧ (p.index < is.length ∧ i ∈ is ∨
      p.index = is.length ∧ i = .terminator (.rest ()) [] []) := by
  obtain ⟨block, index⟩ := p
  obtain _ | block := block
  · have hget : (is ++ [SSAInst.terminator (.rest ()) [] []])[index]? = some i := h
    refine ⟨rfl, ?_⟩
    obtain hlt | heq | hgt := Nat.lt_trichotomy index is.length
    · rw [List.getElem?_append_left hlt] at hget
      exact .inl ⟨hlt, List.mem_of_getElem? hget⟩
    · subst heq
      rw [List.getElem?_concat_length] at hget
      exact .inr ⟨rfl, (Option.some.inj hget).symm⟩
    · rw [List.getElem?_eq_none (by simp; omega)] at hget
      cases hget
  · cases h

lemma inst?_oneBlock_length :
    (oneBlock is).inst? ⟨0, is.length⟩ = some (.terminator (.rest ()) [] []) :=
  List.getElem?_concat_length

lemma oneBlock_edge (his : Straight is) {p q : InstPos} (h : (oneBlock is).Edge p q) :
    p.block = 0 ∧ p.index < is.length ∧ q = p.next := by
  obtain ⟨i, hi, hnext⟩ := h
  obtain ⟨hblock, ⟨hlt, hmem⟩ | ⟨-, rfl⟩⟩ := inst?_oneBlock hi
  · rw [his i hmem, if_neg Bool.false_ne_true] at hnext
    exact ⟨hblock, hlt, hnext⟩
  · obtain ⟨t, ht, -⟩ := hnext
    cases ht

lemma oneBlock_blockEdge (his : Straight is) {a b : ℕ} : ¬(oneBlock is).BlockEdge a b := by
  rintro ⟨j, i, hi, hterm, hb⟩
  obtain ⟨-, ⟨-, hmem⟩ | ⟨-, rfl⟩⟩ := inst?_oneBlock hi
  · rw [his i hmem] at hterm
    cases hterm
  · cases hb

lemma oneBlock_terminated (his : Straight is) : (oneBlock is).Terminated where
  terminator b hb := by
    obtain rfl : b = 0 := Nat.lt_one_iff.mp hb
    exact ⟨_, _, inst?_oneBlock_length, rfl⟩
  last b j i hi hterm k hk := by
    obtain ⟨hb, ⟨-, hmem⟩ | ⟨hj, -⟩⟩ := inst?_oneBlock hi
    · rw [his i hmem] at hterm
      cases hterm
    · obtain rfl : b = 0 := hb
      obtain rfl : j = is.length := hj
      exact List.getElem?_eq_none (by simp; omega)
  targets p i hi t ht := by
    obtain ⟨-, ⟨-, hmem⟩ | ⟨-, rfl⟩⟩ := inst?_oneBlock hi
    · have hterm := his i hmem
      cases i with
      | br _ => cases hterm
      | condBr _ _ _ => cases hterm
      | terminator _ _ _ => cases hterm
      | _ => cases ht
    · cases ht

lemma oneBlock_lists (his : Straight is) : (oneBlock is).ListsPredecessors fun _ => [] :=
  fun _ _ => iff_of_false List.not_mem_nil fun h => oneBlock_blockEdge his h

/-- A walk that avoids a later instruction stays before it. -/
lemma oneBlock_avoids (his : Straight is) {j k : ℕ} (hjk : j ≤ k) {p : InstPos}
    (h : Dominance.Avoids (oneBlock is).Edge ⟨0, j⟩ ⟨0, k⟩ p) : p.block = 0 ∧ p.index ≤ k := by
  induction h with
  | root => exact ⟨rfl, hjk⟩
  | @step p q _ hne hedge ih =>
    obtain ⟨hblock, -, rfl⟩ := oneBlock_edge his hedge
    refine ⟨hblock, Nat.lt_of_le_of_ne ih.2 fun heq => hne ?_⟩
    obtain ⟨block, index⟩ := p
    obtain rfl : block = 0 := hblock
    exact heq ▸ rfl

lemma oneBlock_reached (his : Straight is) {p : InstPos} (h : (oneBlock is).Reached p) :
    p.block = 0 ∧ p.index ≤ is.length := by
  induction h with
  | refl => exact ⟨rfl, Nat.zero_le _⟩
  | tail _ hedge _ =>
    obtain ⟨hblock, hlt, rfl⟩ := oneBlock_edge his hedge
    exact ⟨hblock, hlt⟩

/-- The dominator tree of a block. -/
def oneBlockDT (his : Straight is) : DominatorTree (oneBlock is) where
  dominates p q :=
    !(decide (q.block = 0) && decide (q.index ≤ is.length)) ||
      decide (p.block = 0) && decide (p.index < q.index)
  sound p q h := by
    obtain ⟨block, index⟩ := q
    obtain ⟨block', index'⟩ := p
    simp only [Bool.or_eq_true, Bool.not_eq_true', Bool.and_eq_false_iff, decide_eq_false_iff_not,
      Bool.and_eq_true, decide_eq_true_eq] at h
    by_cases hreached : (oneBlock is).Reached ⟨block, index⟩
    · obtain ⟨rfl, hle⟩ := oneBlock_reached his hreached
      obtain h | ⟨rfl, hlt⟩ := h
      · exact absurd (h.resolve_left fun hne => hne rfl) (not_not.mpr hle)
      · exact sDom_of_lt hlt
    · exact sDom_of_not_reached hreached
  complete p q _ _ h := by
    obtain ⟨block, index⟩ := q
    obtain ⟨block', index'⟩ := p
    simp only [Bool.or_eq_true, Bool.not_eq_true', Bool.and_eq_false_iff, decide_eq_false_iff_not,
      Bool.and_eq_true, decide_eq_true_eq]
    by_contra hcon
    simp only [not_or, not_not, not_and] at hcon
    obtain ⟨⟨rfl, hle⟩, hnot⟩ := hcon
    obtain ⟨i, hi⟩ : ∃ i, (oneBlock is).inst? ⟨0, index⟩ = some i :=
      exists_inst_of_le inst?_oneBlock_length hle
    exact h ((oneBlock_terminated his).avoids_of_le hi (Nat.zero_le index) fun l _ hlt heq => by
      obtain ⟨rfl, rfl⟩ := InstPos.mk.inj heq
      exact hnot rfl hlt)

/-- Its postdominator tree. -/
def oneBlockPDT (his : Straight is) : PostDominatorTree (oneBlock is) where
  roots := {0}
  dominates a b := decide (a = 0) || decide (b ≠ 0)
  exits p i hi _ _ := (inst?_oneBlock hi).1
  reaches b hb := ⟨0, rfl, Nat.zero_lt_one, Nat.lt_one_iff.mp hb ▸ .refl⟩
  dominates_iff a b := by
    simp only [Bool.or_eq_true, decide_eq_true_eq, Set.mem_singleton_iff, forall_eq]
    refine or_congr eq_comm ⟨fun hb havoids => ?_, fun h hb => h (hb ▸ .root)⟩
    cases havoids with
    | root => exact hb rfl
    | step _ _ hedge => exact oneBlock_blockEdge his hedge

/-- A later instruction postdominates an earlier one. -/
lemma oneBlock_postDominated (his : Straight is) {j k : ℕ} (hjk : j ≤ k) (hk : k < is.length)
    (q : InstPos) (hq : (oneBlock is).IsExit (oneBlockPDT his).roots q) :
    Dominance.StrictlyDominates (oneBlock is).Edge ⟨0, j⟩ ⟨0, k⟩ q := by
  intro h
  obtain ⟨-, hle⟩ := oneBlock_avoids his hjk h
  obtain ⟨-, i, hi, hterm⟩ := hq
  obtain ⟨-, ⟨-, hmem⟩ | ⟨heq, -⟩⟩ := inst?_oneBlock hi
  · rw [his i hmem] at hterm
    cases hterm
  · omega

/-- The calls of a block are properly nested: the index of the end of each beginning, and the
beginnings that are open before each instruction. -/
structure NestedIn (is : List (SSAInst (AnnotationOp Unit))) (own : ℕ → ℕ)
    (opens : ℕ → List ℕ) : Prop where
  ends : ∀ j : Fin is.length, is[j].isAnnotationBegin = true → j < own j ∧
    ∃ e : Fin is.length, e.val = own j ∧ is[e].isAnnotationEnd = true ∧
      is[j].getAnnotationValue.isSome ∧ is[e].getAnnotationValue = is[j].getAnnotationValue
  injective : ∀ j k : Fin is.length, is[j].isAnnotationBegin = true →
    is[k].isAnnotationBegin = true → own j = own k → j = k
  surjective : ∀ e : Fin is.length, is[e].isAnnotationEnd = true →
    ∃ j : Fin is.length, is[j].isAnnotationBegin = true ∧ own j = e
  start : opens 0 = []
  step : ∀ j : Fin is.length, opens (j + 1) =
    if is[j].isAnnotationBegin then j.val :: opens j
    else if is[j].isAnnotationEnd then (opens j).tail else opens j
  pops : ∀ e : Fin is.length, is[e].isAnnotationEnd = true → (opens e).head?.map own = some ↑e
  opcodes : ∀ j : Fin is.length, is[j].atomicOpcode ∈ [none, some .store]

/-- An instruction before the return. -/
lemma inst?_oneBlock_fin (j : Fin is.length) : (oneBlock is).inst? ⟨0, j⟩ = some is[j] := by
  change (is ++ [SSAInst.terminator (.rest ()) [] []])[j.val]? = some is[j]
  rw [List.getElem?_append_left j.isLt, List.getElem?_eq_getElem j.isLt]
  rfl

/-- An instruction that is no return. -/
lemma exists_fin_of_inst {p : InstPos} {i : SSAInst (AnnotationOp Unit)}
    (hi : (oneBlock is).inst? p = some i) (hterm : i.isTerminator = false) :
    ∃ j : Fin is.length, p = ⟨0, j⟩ ∧ i = is[j] := by
  obtain ⟨hblock, ⟨hlt, -⟩ | ⟨-, rfl⟩⟩ := inst?_oneBlock hi
  · obtain ⟨block, index⟩ := p
    obtain rfl : block = 0 := hblock
    exact ⟨⟨index, hlt⟩, rfl, Option.some.inj (hi.symm.trans (inst?_oneBlock_fin ⟨index, hlt⟩))⟩
  · cases hterm

lemma isBegin_oneBlock {b : InstPos} (h : (oneBlock is).IsBegin b) :
    ∃ j : Fin is.length, b = ⟨0, j⟩ ∧ is[j].isAnnotationBegin = true := by
  obtain ⟨i, hi, hcalls⟩ := h
  obtain ⟨j, rfl, rfl⟩ := exists_fin_of_inst hi (SSAInst.callsInternal_cases hcalls).1
  exact ⟨j, rfl, hcalls⟩

lemma isEnd_oneBlock {e : InstPos} (h : (oneBlock is).IsEnd e) :
    ∃ j : Fin is.length, e = ⟨0, j⟩ ∧ is[j].isAnnotationEnd = true := by
  obtain ⟨i, hi, hcalls⟩ := h
  obtain ⟨j, rfl, rfl⟩ := exists_fin_of_inst hi (SSAInst.callsInternal_cases hcalls).1
  exact ⟨j, rfl, hcalls⟩

/-- The open regions on the way through the block. -/
lemma NestedIn.openRegions {own : ℕ → ℕ} {opens : ℕ → List ℕ} (h : NestedIn is own opens)
    (his : Straight is) {p : InstPos} {st : List InstPos} (hst : (oneBlock is).OpenRegions p st) :
    p.block = 0 ∧ st = (opens p.index).map (⟨0, ·⟩) := by
  induction hst with
  | entry => exact ⟨rfl, by rw [entry, h.start]; rfl⟩
  | @step p q st i _ hi hedge ih =>
    obtain ⟨hblock, hlt, rfl⟩ := oneBlock_edge his hedge
    obtain ⟨block, index⟩ := p
    obtain rfl : block = 0 := hblock
    obtain rfl := Option.some.inj (hi.symm.trans (inst?_oneBlock_fin ⟨index, hlt⟩))
    refine ⟨rfl, ?_⟩
    have hstep : opens (index + 1) = _ := h.step ⟨index, hlt⟩
    rw [ih.2]
    change _ = (opens (index + 1)).map _
    rw [hstep]
    split
    · rfl
    · split
      · rw [List.map_tail]
      · rfl

/-- The calls are properly nested. -/
lemma NestedIn.properlyAnnotated {own : ℕ → ℕ} {opens : ℕ → List ℕ} (h : NestedIn is own opens)
    (his : Straight is) :
    (oneBlock is).ProperlyAnnotated (oneBlockPDT his) fun p => ⟨p.block, own p.index⟩ where
  isEnd b hb := by
    obtain ⟨j, rfl, hbegin⟩ := isBegin_oneBlock hb
    obtain ⟨-, e, he, hend, -⟩ := h.ends j hbegin
    have hown : (oneBlock is).inst? ⟨0, own j⟩ = (oneBlock is).inst? ⟨0, e⟩ := by rw [he]
    exact ⟨is[e], hown.trans (inst?_oneBlock_fin e), hend⟩
  injective b b' hb hb' heq := by
    obtain ⟨j, rfl, hbegin⟩ := isBegin_oneBlock hb
    obtain ⟨k, rfl, hbegin'⟩ := isBegin_oneBlock hb'
    rw [h.injective j k hbegin hbegin' (InstPos.mk.inj heq).2]
  surjective e he := by
    obtain ⟨e, rfl, hend⟩ := isEnd_oneBlock he
    obtain ⟨j, hbegin, hj⟩ := h.surjective e hend
    exact ⟨⟨0, j⟩, ⟨is[j], inst?_oneBlock_fin j, hbegin⟩, by rw [hj]⟩
  value b hb := by
    obtain ⟨j, rfl, hbegin⟩ := isBegin_oneBlock hb
    obtain ⟨-, e, he, -, hsome, hvalue⟩ := h.ends j hbegin
    obtain ⟨v, hv⟩ := Option.isSome_iff_exists.mp hsome
    refine ⟨v, ?_, ?_⟩
    · rw [annotationValue, inst?_oneBlock_fin, Option.bind_some, hv]
    · rw [← he, annotationValue, inst?_oneBlock_fin, Option.bind_some, hvalue, hv]
  dominated b hb := by
    obtain ⟨j, rfl, hbegin⟩ := isBegin_oneBlock hb
    exact sDom_of_lt (h.ends j hbegin).1
  postDominated b hb := by
    obtain ⟨j, rfl, hbegin⟩ := isBegin_oneBlock hb
    obtain ⟨hlt, e, he, -⟩ := h.ends j hbegin
    exact oneBlock_postDominated his hlt.le (he ▸ e.isLt)
  nested p st hst hp := by
    obtain ⟨e, rfl, hend⟩ := isEnd_oneBlock hp
    obtain ⟨-, rfl⟩ := h.openRegions his hst
    obtain ⟨b, hb, hown⟩ := Option.map_eq_some_iff.mp (h.pops e hend)
    obtain ⟨rest, hrest⟩ := List.head?_eq_some_iff.mp hb
    exact ⟨⟨0, b⟩, rest.map (⟨0, ·⟩), by simp only [hrest, List.map_cons], by rw [hown]⟩
  opcodes b _ p q c d _ _ hc hd := by
    have hstore : ∀ p c, (oneBlock is).markedOpcode p = some c → c = .store := by
      intro p c hc
      obtain ⟨hc, -⟩ := Option.filter_eq_some_iff.mp hc
      obtain ⟨i, hi, hcode⟩ := Option.bind_eq_some_iff.mp hc
      obtain ⟨-, ⟨-, hmem⟩ | ⟨-, rfl⟩⟩ := inst?_oneBlock hi
      · obtain ⟨j, hj, rfl⟩ := List.mem_iff_getElem.mp hmem
        have hopcode := h.opcodes ⟨j, hj⟩
        simp only [Fin.getElem_fin, hcode, List.mem_cons, Option.some.injEq, List.not_mem_nil,
          or_false, reduceCtorEq, false_or] at hopcode
        exact hopcode
      · cases hcode
    rw [hstore p c hc, hstore q d hd]

end OneBlock

/-- The calls of the annotations, and an atomic store. -/
def annotateBegin (value : ℕ) : SSAInst (AnnotationOp Unit) :=
  .other (.call "__VERIFIER_annotate_begin") [.constant (.int 32 value)]

def annotateEnd (value : ℕ) : SSAInst (AnnotationOp Unit) :=
  .other (.call "__VERIFIER_annotate_end") [.constant (.int 32 value)]

def atomicStore : SSAInst (AnnotationOp Unit) := .other (.store true) [.argument 0, .argument 1]

/-- One region. -/
abbrev oneRegion : List (SSAInst (AnnotationOp Unit)) :=
  [annotateBegin 1, atomicStore, annotateEnd 1]

lemma oneRegion_straight : Straight oneRegion := by decide

lemma oneRegion_nestedIn :
    NestedIn oneRegion (fun _ => 2) fun j => if j = 1 ∨ j = 2 then [0] else [] where
  ends := by decide
  injective := by decide
  surjective := by decide
  start := rfl
  step := by decide
  pops := by decide
  opcodes := by decide

/-- Two nested regions. -/
abbrev nestedRegions : List (SSAInst (AnnotationOp Unit)) :=
  [annotateBegin 1, annotateBegin 2, atomicStore, annotateEnd 2, annotateEnd 1]

lemma nestedRegions_straight : Straight nestedRegions := by decide

lemma nestedRegions_nestedIn : NestedIn nestedRegions (fun j => 4 - j)
    fun j => if j = 1 ∨ j = 4 then [0] else if j = 2 ∨ j = 3 then [1, 0] else [] where
  ends := by decide
  injective := by decide
  surjective := by decide
  start := rfl
  step := by decide
  pops := by decide
  opcodes := by decide

/-- One region is eliminated. -/
theorem eliminateAnnotations_oneRegion :
    EliminatesAnnotations (fun _ => []) (oneBlockDT oneRegion_straight)
      (oneBlockPDT oneRegion_straight) fun p => ⟨p.block, 2⟩ := by
  refine (eliminateAnnotations_iff (oneRegion_nestedIn.properlyAnnotated oneRegion_straight)
    (oneBlock_terminated oneRegion_straight) (oneBlock_lists oneRegion_straight)).mpr ⟨?_, ?_⟩
  · intro b hb e he hne
    obtain ⟨j, rfl, -⟩ := isBegin_oneBlock hb
    obtain ⟨k, rfl, hend⟩ := isEnd_oneBlock he
    have hk : ∀ k : Fin oneRegion.length, oneRegion[k].isAnnotationEnd = true → k.val = 2 := by
      decide
    exact absurd (by rw [hk k hend]) hne
  · rintro p b ⟨hb, -, hmarked⟩
    -- the store is on the only path
    have hsimple : (oneBlock oneRegion).SimplyEncloses (fun p => ⟨p.block, 2⟩) p b := by
      obtain ⟨i, hi⟩ := Option.isSome_iff_exists.mp (isSome_of_markedOpcode hmarked)
      obtain ⟨j, rfl, hbegin⟩ := isBegin_oneBlock hb
      have hj : ∀ j : Fin oneRegion.length, oneRegion[j].isAnnotationBegin = true → j.val = 0 := by
        decide
      have hp : p = ⟨0, 1⟩ := by
        obtain ⟨block, index⟩ := p
        match block, index with
        | 0, 0 | 0, 2 | 0, 3 => cases hmarked
        | 0, 1 => rfl
        | 0, index + 4 | block + 1, index => cases hi
      subst hp
      refine ⟨hb, ⟨[0], List.isChain_singleton _, rfl, rfl, List.nodup_singleton 0,
        List.mem_singleton_self 0, fun _ => ?_, fun _ => Nat.one_lt_two⟩, hmarked⟩
      change j.val < 1
      rw [hj j hbegin]
      exact Nat.zero_lt_one
    exact ⟨⟨b, hsimple⟩, fun k hk => ⟨b, hsimple, hk⟩⟩

/-- The end of the inner region comes first, and it has another value than the beginning of the
outer one. -/
theorem eliminateAnnotations_nestedRegions :
    (oneBlock nestedRegions).ProperlyAnnotated (oneBlockPDT nestedRegions_straight)
        (fun p => ⟨p.block, 4 - p.index⟩) ∧
      (oneBlock nestedRegions).Terminated ∧
      (oneBlock nestedRegions).ListsPredecessors (fun _ => []) ∧
      eliminateAnnotations (fun _ => []) (oneBlockDT nestedRegions_straight)
        (oneBlockPDT nestedRegions_straight) = none :=
  ⟨nestedRegions_nestedIn.properlyAnnotated nestedRegions_straight,
    oneBlock_terminated nestedRegions_straight, oneBlock_lists nestedRegions_straight, rfl⟩

end SSAFunction

end GenMC
