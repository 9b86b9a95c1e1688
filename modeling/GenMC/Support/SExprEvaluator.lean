import GenMC.Support.SExpr

/-!
# The evaluator on the logical fragment

`classical` is the meaning of an expression where a negation is a negation.  The evaluator looks
at the pointer to the kid of a negation and not at its value, so that every negation is 0.  The
two agree on an expression whose negated subexpressions are all true, and on no other
(`evaluatesClassically_iff`).  On these expressions an assume does not succeed for a value that
falsifies its annotation.
-/

namespace GenMC

/-- The logical negation of a value. -/
def SVal.lnot (v : SVal) : SVal := SVal.ofBool !v.getBool

namespace SExpr

variable {T U : Type*}

/-! ## Classical meaning -/

mutual

/-- The value of an expression if a negation has the negated value of its kid. -/
def classical (m : T → SVal) : SExpr T → Option SVal
  | concrete _ v => some v
  | register _ r => some (m r)
  | select _ c t f =>
    (classical m c).bind fun b => if b.getBool then classical m t else classical m f
  | logical .conjunction kids => (classicalAll m kids).map SVal.ofBool
  | logical .disjunction kids => (classicalAny m kids).map SVal.ofBool
  | not e => (classical m e).map SVal.lnot
  | cast _ _ e => classical m e
  | binary k _ l r =>
    (classical m l).bind fun v => (classical m r).bind fun w => k.apply v w
  | cmp k l r =>
    (classical m l).bind fun v => (classical m r).map fun w => SVal.ofBool (k.apply v w)

/-- Whether all kids are true. -/
def classicalAll (m : T → SVal) : List (SExpr T) → Option Bool
  | [] => some true
  | e :: kids =>
    (classical m e).bind fun v => if v.getBool then classicalAll m kids else some false

/-- Whether one of the kids is true. -/
def classicalAny (m : T → SVal) : List (SExpr T) → Option Bool
  | [] => some false
  | e :: kids =>
    (classical m e).bind fun v => if v.getBool then some true else classicalAny m kids

end

mutual

/-- The subexpressions that are negated somewhere in an expression. -/
def negated : SExpr T → List (SExpr T)
  | concrete _ _ => []
  | register _ _ => []
  | select _ c t f => c.negated ++ t.negated ++ f.negated
  | logical _ kids => negatedKids kids
  | not e => e :: e.negated
  | cast _ _ e => e.negated
  | binary _ _ l r => l.negated ++ r.negated
  | cmp _ l r => l.negated ++ r.negated

/-- The subexpressions that are negated somewhere in a list of kids. -/
def negatedKids : List (SExpr T) → List (SExpr T)
  | [] => []
  | e :: kids => e.negated ++ negatedKids kids

end

/-- All negated subexpressions are true. -/
def NegatesOnlyTrue (m : T → SVal) (e : SExpr T) : Prop :=
  ∀ e' ∈ e.negated, ∃ v, classical m e' = some v ∧ v ≠ 0

/-- What is negated in a list of kids is negated in one of them. -/
lemma negatedKids_eq_flatMap (kids : List (SExpr T)) : negatedKids kids = kids.flatMap negated := by
  induction kids with
  | nil => rfl
  | cons e kids ih => rw [negatedKids, ih, List.flatMap_cons]

/-- Kids that have their classical values are all true classically. -/
lemma allOf_eq_classicalAll {m : T → SVal} {kids : List (SExpr T)}
    (h : ∀ e ∈ kids, visit m e = classical m e) : allOf m kids = classicalAll m kids := by
  induction kids with
  | nil => rfl
  | cons e kids ih =>
    rw [allOf, classicalAll, h e List.mem_cons_self,
      ih fun k hk => h k (List.mem_cons_of_mem e hk)]

/-- Kids that have their classical values are true for one of them classically. -/
lemma anyOf_eq_classicalAny {m : T → SVal} {kids : List (SExpr T)}
    (h : ∀ e ∈ kids, visit m e = classical m e) : anyOf m kids = classicalAny m kids := by
  induction kids with
  | nil => rfl
  | cons e kids ih =>
    rw [anyOf, classicalAny, h e List.mem_cons_self,
      ih fun k hk => h k (List.mem_cons_of_mem e hk)]

/-- The negation of a true value is the one value that the evaluator gives. -/
lemma map_lnot_eq_some_zero {o : Option SVal} :
    o.map SVal.lnot = some (SVal.ofBool false) ↔ ∃ v, o = some v ∧ v ≠ 0 := by
  have hlnot (v : SVal) : v.lnot = SVal.ofBool false ↔ v ≠ 0 := by
    unfold SVal.lnot SVal.getBool
    by_cases hv : v = 0 <;> simp [hv, SVal.ofBool]
  rw [Option.map_eq_some_iff]
  simp only [hlnot]

/-- **An expression whose negated subexpressions are all true has its classical value.** -/
lemma visit_eq_classical {m : T → SVal} {e : SExpr T} (h : e.NegatesOnlyTrue m) :
    visit m e = classical m e := by
  unfold NegatesOnlyTrue at h
  induction e with
  | concrete w v => rfl
  | register w r => rfl
  | select w c t f hc ht hf =>
    simp only [negated, List.mem_append] at h
    rw [visit, classical, hc fun e he => h e (Or.inl (Or.inl he)),
      ht fun e he => h e (Or.inl (Or.inr he)), hf fun e he => h e (Or.inr he)]
  | logical k kids ih =>
    have hkids : ∀ e ∈ kids, visit m e = classical m e :=
      fun e he => ih e he fun e' he' => h e' (by
        rw [negated, negatedKids_eq_flatMap]
        exact List.mem_flatMap_of_mem he he')
    cases k
    · rw [visit, classical, allOf_eq_classicalAll hkids]
    · rw [visit, classical, anyOf_eq_classicalAny hkids]
  | not e ih =>
    rw [visit, classical]
    exact (map_lnot_eq_some_zero.mpr (h e List.mem_cons_self)).symm
  | cast k w e ih =>
    rw [visit, classical]
    exact ih h
  | binary k w l r hl hr =>
    simp only [negated, List.mem_append] at h
    rw [visit, classical, hl fun e he => h e (Or.inl he), hr fun e he => h e (Or.inr he)]
  | cmp k l r hl hr =>
    simp only [negated, List.mem_append] at h
    rw [visit, classical, hl fun e he => h e (Or.inl he), hr fun e he => h e (Or.inr he)]

/-- What is negated inside of a negated subexpression is negated in the expression. -/
lemma negated_trans {e e' e'' : SExpr T} (he' : e' ∈ e.negated) (he'' : e'' ∈ e'.negated) :
    e'' ∈ e.negated := by
  induction e with
  | concrete w v => exact absurd he' List.not_mem_nil
  | register w r => exact absurd he' List.not_mem_nil
  | select w c t f hc ht hf =>
    simp only [negated, List.mem_append] at he' ⊢
    exact he'.imp (Or.imp hc ht) hf
  | logical k kids ih =>
    simp only [negated, negatedKids_eq_flatMap, List.mem_flatMap] at he' ⊢
    obtain ⟨kid, hkid, he'⟩ := he'
    exact ⟨kid, hkid, ih kid hkid he'⟩
  | not e ih =>
    obtain rfl | he' := List.mem_cons.mp he'
    · exact List.mem_cons_of_mem e' he''
    · exact List.mem_cons_of_mem e (ih he')
  | cast k w e ih => exact ih he'
  | binary k w l r hl hr =>
    simp only [negated, List.mem_append] at he' ⊢
    exact he'.imp hl hr
  | cmp k l r hl hr =>
    simp only [negated, List.mem_append] at he' ⊢
    exact he'.imp hl hr

/-- If the evaluator gives all negated subexpressions a true value, their classical values are
true.  By induction: inside a negated subexpression all negated subexpressions are true, so its
own value is the classical one. -/
lemma negatesOnlyTrue_of_visit {m : T → SVal} {e : SExpr T}
    (h : ∀ e' ∈ e.negated, ∃ v, visit m e' = some v ∧ v ≠ 0) : e.NegatesOnlyTrue m := by
  unfold NegatesOnlyTrue
  induction e with
  | concrete w v => exact fun e' he' => absurd he' List.not_mem_nil
  | register w r => exact fun e' he' => absurd he' List.not_mem_nil
  | select w c t f hc ht hf =>
    simp only [negated, List.mem_append] at h ⊢
    rintro e' ((he' | he') | he')
    · exact hc (fun e he => h e (Or.inl (Or.inl he))) e' he'
    · exact ht (fun e he => h e (Or.inl (Or.inr he))) e' he'
    · exact hf (fun e he => h e (Or.inr he)) e' he'
  | logical k kids ih =>
    simp only [negated, negatedKids_eq_flatMap, List.mem_flatMap] at h ⊢
    rintro e' ⟨kid, hkid, he'⟩
    exact ih kid hkid (fun e he => h e ⟨kid, hkid, he⟩) e' he'
  | not e ih =>
    have hin : e.NegatesOnlyTrue m := ih fun e' he' => h e' (List.mem_cons_of_mem e he')
    rintro e' he'
    obtain rfl | he' := List.mem_cons.mp he'
    · rw [← visit_eq_classical hin]
      exact h e' List.mem_cons_self
    · exact hin e' he'
  | cast k w e ih => exact ih h
  | binary k w l r hl hr =>
    simp only [negated, List.mem_append] at h ⊢
    rintro e' (he' | he')
    · exact hl (fun e he => h e (Or.inl he)) e' he'
    · exact hr (fun e he => h e (Or.inr he)) e' he'
  | cmp k l r hl hr =>
    simp only [negated, List.mem_append] at h ⊢
    rintro e' (he' | he')
    · exact hl (fun e he => h e (Or.inl he)) e' he'
    · exact hr (fun e he => h e (Or.inr he)) e' he'

/-! ## Assumes -/

/-- `ReadLabel::valueMakesAssumeSucceed`: whether the annotation of a read is true for a value. -/
def valueMakesAssumeSucceed (annot : Option (SExpr T)) (val : SVal) : Option Bool :=
  match annot with
  | none => some false
  | some e => (evaluate e val).map SVal.getBool

/-- The evaluator treats the connectives of an expression as classical logic does, and an assume
with this annotation does not succeed for a value that falsifies it.  What is said of the negation
of `e` as a whole is the instance at `not e`.  The source builds no connective without kids. -/
structure EvaluatesClassically (m : T → SVal) (e : SExpr T) : Prop where
  /-- A negation is 1 if its kid is 0, and 0 otherwise. -/
  not_eq : ∀ e' ∈ e.negated, visit m (not e') = (visit m e').map SVal.lnot
  /-- De Morgan's law for a negated conjunction. -/
  not_conjunction : ∀ kids : List (SExpr T), visit m (not (logical .conjunction kids)) =
    visit m (logical .disjunction (kids.map not))
  /-- De Morgan's law for a negated disjunction. -/
  not_disjunction : ∀ kids : List (SExpr T), kids ≠ [] →
    visit m (not (logical .disjunction kids)) = visit m (logical .conjunction (kids.map not))
  /-- An assume that succeeds has a true annotation. -/
  assume_sound : ∀ val : SVal, m = (fun _ => val) →
    valueMakesAssumeSucceed (some e) val = some true → classical m e ≠ some 0

/-- No disjunction of negations is true. -/
lemma anyOf_map_not (m : T → SVal) (kids : List (SExpr T)) :
    anyOf m (kids.map not) = some false := by
  induction kids with
  | nil => rfl
  | cons e kids ih =>
    rw [List.map_cons, anyOf, visit]
    exact ih

/-- No conjunction of at least one negation is true. -/
lemma allOf_map_not (m : T → SVal) {kids : List (SExpr T)} (h : kids ≠ []) :
    allOf m (kids.map not) = some false := by
  obtain ⟨e, kids, rfl⟩ := List.exists_cons_of_ne_nil h
  rw [List.map_cons, allOf, visit]
  rfl

/-- **The evaluator follows classical logic on the expressions whose negated subexpressions are
all true, and on no others.** -/
theorem evaluatesClassically_iff (m : T → SVal) (e : SExpr T) :
    EvaluatesClassically m e ↔ e.NegatesOnlyTrue m := by
  constructor
  · intro h
    refine negatesOnlyTrue_of_visit fun e' he' => map_lnot_eq_some_zero.mp ?_
    rw [← h.not_eq e' he', visit]
  · intro h
    refine ⟨?_, ?_, ?_, ?_⟩
    · intro e' he'
      obtain ⟨v, hv, hv0⟩ := h e' he'
      have hin : e'.NegatesOnlyTrue m := fun e'' he'' => h e'' (negated_trans he' he'')
      rw [visit, map_lnot_eq_some_zero.mpr ⟨v, (visit_eq_classical hin).trans hv, hv0⟩]
    · intro kids
      rw [visit, visit, anyOf_map_not, Option.map_some]
    · intro kids hkids
      rw [visit, visit, allOf_map_not m hkids, Option.map_some]
    · rintro val rfl hval hzero
      rw [← visit_eq_classical h] at hzero
      simp only [valueMakesAssumeSucceed, evaluate, hzero, Option.map_some] at hval
      exact absurd hval (by decide)

/-- The annotation "the negated value is 0" lets an assume succeed for the value 0, although the
negation of 0 is 1. -/
theorem not_evaluatesClassically :
    ¬ EvaluatesClassically (fun _ : Unit => (0 : SVal))
        (cmp .eq (not (register 32 ())) (concrete 32 0)) ∧
      valueMakesAssumeSucceed (some (cmp .eq (not (register 32 ())) (concrete 32 0))) 0 =
        some true ∧
      classical (fun _ : Unit => (0 : SVal)) (cmp .eq (not (register 32 ())) (concrete 32 0)) =
        some 0 := by
  refine ⟨fun h => ?_, by decide, by decide⟩
  exact h.assume_sound 0 rfl (by decide) (by decide)

end SExpr

end GenMC
