import GenMC.Support.SExpr

/-!
# Rewriting of symbolic expressions

Three visitors build a new expression from a given one.  The substitutor and the concretizer copy
it and then replace registers in the copy, the one by an expression and the other by constants;
both are `visitReplacing` with their own replacement.  A replacement is not visited again.  The
transformer renames the registers and rebuilds the nodes one by one.

The value of the result is always the value of the original in the environment that the rewriting
stands for (`substitute_visit`, `concretize_visit`, `transform_visit`).  The shape is not always
kept: a copied arithmetic node has the width of its left operand, and the transformer drops casts.
-/

namespace GenMC

namespace SExpr

variable {T U : Type*}

/-! ## Replacing registers in place -/

/-- What takes the place of a kid: a register that is to be replaced is. -/
def replaceKid (σ : T → Option (SExpr T)) (kid : SExpr T) : SExpr T :=
  match kid with
  | register w r => (σ r).getD (register w r)
  | kid => kid

mutual

/-- `visitSExpr` of the substitutor and of the concretizer: visits every kid and then replaces it
if it is a register. -/
def visitReplacing (σ : T → Option (SExpr T)) : SExpr T → SExpr T
  | concrete w v => concrete w v
  | register w r => register w r
  | select w c t f => select w (replaceKid σ (visitReplacing σ c))
      (replaceKid σ (visitReplacing σ t)) (replaceKid σ (visitReplacing σ f))
  | logical k kids => logical k (visitReplacingKids σ kids)
  | not e => not (replaceKid σ (visitReplacing σ e))
  | cast k w e => cast k w (replaceKid σ (visitReplacing σ e))
  | binary k w l r => binary k w (replaceKid σ (visitReplacing σ l))
      (replaceKid σ (visitReplacing σ r))
  | cmp k l r => cmp k (replaceKid σ (visitReplacing σ l)) (replaceKid σ (visitReplacing σ r))

/-- The loop over the kids of a connective. -/
def visitReplacingKids (σ : T → Option (SExpr T)) : List (SExpr T) → List (SExpr T)
  | [] => []
  | e :: kids => replaceKid σ (visitReplacing σ e) :: visitReplacingKids σ kids

end

/-- The kids are visited and replaced one by one. -/
lemma visitReplacingKids_eq_map (σ : T → Option (SExpr T)) (kids : List (SExpr T)) :
    visitReplacingKids σ kids = kids.map fun e => replaceKid σ (visitReplacing σ e) := by
  induction kids with
  | nil => rfl
  | cons e kids ih => rw [visitReplacingKids, ih, List.map_cons]

/-- An expression with its registers replaced: `visitReplacing` replaces the registers below the
root, `replaceKid` the root. -/
def replaceRegs (σ : T → Option (SExpr T)) (e : SExpr T) : SExpr T :=
  replaceKid σ (visitReplacing σ e)

section Nodes

variable (σ : T → Option (SExpr T))

@[simp] lemma replaceRegs_concrete (w : ℕ) (v : SVal) :
    replaceRegs σ (concrete w v) = concrete w v := rfl

@[simp] lemma replaceRegs_register (w : ℕ) (r : T) :
    replaceRegs σ (register w r) = (σ r).getD (register w r) := rfl

@[simp] lemma replaceRegs_select (w : ℕ) (c t f : SExpr T) :
    replaceRegs σ (select w c t f) =
      select w (replaceRegs σ c) (replaceRegs σ t) (replaceRegs σ f) := rfl

@[simp] lemma replaceRegs_logical (k : LogicalKind) (kids : List (SExpr T)) :
    replaceRegs σ (logical k kids) = logical k (kids.map (replaceRegs σ)) :=
  congrArg (logical k) (visitReplacingKids_eq_map σ kids)

@[simp] lemma replaceRegs_not (e : SExpr T) : replaceRegs σ (not e) = not (replaceRegs σ e) := rfl

@[simp] lemma replaceRegs_cast (k : CastKind) (w : ℕ) (e : SExpr T) :
    replaceRegs σ (cast k w e) = cast k w (replaceRegs σ e) := rfl

@[simp] lemma replaceRegs_binary (k : ArithmeticKind) (w : ℕ) (l r : SExpr T) :
    replaceRegs σ (binary k w l r) = binary k w (replaceRegs σ l) (replaceRegs σ r) := rfl

@[simp] lemma replaceRegs_cmp (k : CmpKind) (l r : SExpr T) :
    replaceRegs σ (cmp k l r) = cmp k (replaceRegs σ l) (replaceRegs σ r) := rfl

end Nodes

/-- The second environment gives a replaced register the value of its replacement, and any other
register the value that it has. -/
def ReplacedEnv (σ : T → Option (SExpr T)) (m m' : T → SVal) : Prop :=
  ∀ w r, visit m ((σ r).getD (register w r)) = some (m' r)

/-- **Replacing registers evaluates to the value of the original in the environment that gives the
registers the values of their replacements.** -/
lemma visit_replaceRegs {σ : T → Option (SExpr T)} {m m' : T → SVal} (h : ReplacedEnv σ m m')
    (e : SExpr T) : visit m (replaceRegs σ e) = visit m' e := by
  induction e with
  | concrete w v => rfl
  | register w r => exact h w r
  | select w c t f hc ht hf => simp only [replaceRegs_select, visit, hc, ht, hf]
  | logical k kids ih => rw [replaceRegs_logical, visit_logical_map k ih]
  | not e _ => rfl
  | cast k w e ih => simpa only [replaceRegs_cast, visit] using ih
  | binary k w l r hl hr => simp only [replaceRegs_binary, visit, hl, hr]
  | cmp k l r hl hr => simp only [replaceRegs_cmp, visit, hl, hr]

/-- The value that the result has is the one that the original has where the replaced registers
have the values of their replacements, if these have values. -/
lemma visit_of_replaceRegs {σ : T → Option (SExpr T)} {m m' : T → SVal}
    (h : ∀ w r x, visit m ((σ r).getD (register w r)) = some x → x = m' r) (e : SExpr T) {v : SVal}
    (hv : visit m (replaceRegs σ e) = some v) : visit m' e = some v := by
  induction e generalizing v with
  | concrete w x => exact hv
  | register w r => exact congrArg some (h w r v hv).symm
  | select w c t f hc ht hf =>
    rw [replaceRegs_select, visit] at hv
    obtain ⟨b, hb, hv⟩ := Option.bind_eq_some_iff.mp hv
    rw [visit, hc hb, Option.bind_some]
    split at hv
    next htrue => rw [if_pos htrue, ht hv]
    next hfalse => rw [if_neg hfalse, hf hv]
  | logical k kids ih =>
    rw [replaceRegs_logical] at hv
    cases k with
    | conjunction =>
      rw [visit] at hv ⊢
      obtain ⟨b, hb, rfl⟩ := Option.map_eq_some_iff.mp hv
      rw [allOf_of_map (fun e he v => ih e he) hb, Option.map_some]
    | disjunction =>
      rw [visit] at hv ⊢
      obtain ⟨b, hb, rfl⟩ := Option.map_eq_some_iff.mp hv
      rw [anyOf_of_map (fun e he v => ih e he) hb, Option.map_some]
  | not e _ => exact hv
  | cast k w e ih => exact ih hv
  | binary k w l r hl hr =>
    rw [replaceRegs_binary, visit] at hv
    obtain ⟨x, hx, hv⟩ := Option.bind_eq_some_iff.mp hv
    obtain ⟨y, hy, hv⟩ := Option.bind_eq_some_iff.mp hv
    rw [visit, hl hx, hr hy, Option.bind_some, Option.bind_some, hv]
  | cmp k l r hl hr =>
    rw [replaceRegs_cmp, visit] at hv
    obtain ⟨x, hx, hv⟩ := Option.bind_eq_some_iff.mp hv
    obtain ⟨y, hy, rfl⟩ := Option.map_eq_some_iff.mp hv
    rw [visit, hl hx, hr hy, Option.bind_some, Option.map_some]

/-! ## The substitutor -/

section Substitutor

variable [DecidableEq T]

/-- What `getRegToReplace` and `getReplaceExpr` replace. -/
def substitution (reg : T) (r : SExpr T) (x : T) : Option (SExpr T) :=
  if x = reg then some r.clone else none

/-- `SExprRegSubstitutor::substitute`: replaces a register by an expression. -/
def substitute (orig : SExpr T) (reg : T) (r : SExpr T) : SExpr T :=
  match orig.clone with
  | register w re =>
    if re = reg then r.clone else visitReplacing (substitution reg r) (register w re)
  | e => visitReplacing (substitution reg r) e

/-- The root is treated as a kid is. -/
lemma substitute_eq (orig : SExpr T) (reg : T) (r : SExpr T) :
    substitute orig reg r = replaceRegs (substitution reg r) orig.clone := by
  cases orig with
  | register w re =>
    by_cases h : re = reg <;> simp [substitute, substitution, clone, visitReplacing, h]
  | _ => rfl

/-- The value of a substitution is the one where the register has the value of the expression. -/
lemma visit_substitute (e : SExpr T) (r : T) (e' : SExpr T) (m : T → SVal) {v : SVal}
    (hv : visit m e' = some v) :
    visit m (substitute e r e') = visit (Function.update m r v) e := by
  have henv : ReplacedEnv (substitution r e') m (Function.update m r v) := by
    intro w x
    unfold substitution
    by_cases hx : x = r
    · subst hx
      simpa [visit_clone] using hv
    · simp [hx, visit]
  rw [substitute_eq, visit_replaceRegs henv, visit_clone]

/-- The value of a substitution is the one where the register has the value of the expression, if
it has one. -/
lemma visit_of_substitute {e : SExpr T} {r : T} {e' : SExpr T} {m : T → SVal} {v : SVal}
    (hv : visit m (substitute e r e') = some v) (default : SVal) :
    visit (Function.update m r ((visit m e').getD default)) e = some v := by
  rw [substitute_eq] at hv
  rw [← visit_clone]
  refine visit_of_replaceRegs (fun w x y hy => ?_) e.clone hv
  unfold substitution at hy
  by_cases hx : x = r
  · subst hx
    rw [if_pos rfl, Option.getD_some, visit_clone] at hy
    rw [Function.update_self, hy, Option.getD_some]
  · rw [if_neg hx, Option.getD_none, visit] at hy
    rw [Function.update_of_ne hx]
    exact (Option.some.inj hy).symm

/-- **Substitution.**  Substituting an expression for a register evaluates to the value of the
original where the register has the value of the expression. -/
theorem substitute_visit (e : SExpr T) (r : T) (e' : SExpr T) (m : T → SVal) {v : SVal}
    (hv : visit m e' = some v) :
    visit m (substitute e r e') = visit (Function.update m r v) e :=
  visit_substitute e r e' m hv

/-- Replacing `x` by `x + 1` in `x = 4`. -/
theorem substitute_visit_successor :
    visit (fun _ : Unit => (3 : SVal))
        (substitute (cmp .eq (register 32 ()) (concrete 32 4)) ()
          (binary .add 32 (register 32 ()) (concrete 32 1))) =
      visit (Function.update (fun _ : Unit => (3 : SVal)) () 4)
        (cmp .eq (register 32 ()) (concrete 32 4)) :=
  substitute_visit _ () _ _ rfl

end Substitutor

/-! ## The concretizer -/

/-- `ReplaceMap`: the values and the sizes of registers. -/
abbrev ReplaceMap (T : Type*) := T → Option (SVal × ℕ)

/-- The constant that takes the place of a register. -/
def concretization (rMap : ReplaceMap T) (r : T) : Option (SExpr T) :=
  (rMap r).map fun p => concrete p.2 p.1

/-- `SExprConcretizer::concretize`: replaces the registers of a mapping by their values. -/
def concretize (orig : SExpr T) (rMap : ReplaceMap T) : SExpr T :=
  match orig.clone with
  | register w re =>
    match concretization rMap re with
    | some c => c
    | none => visitReplacing (concretization rMap) (register w re)
  | e => visitReplacing (concretization rMap) e

/-- The root is treated as a kid is. -/
lemma concretize_eq (orig : SExpr T) (rMap : ReplaceMap T) :
    concretize orig rMap = replaceRegs (concretization rMap) orig.clone := by
  cases orig with
  | register w re =>
    cases h : concretization rMap re <;> simp [concretize, clone, visitReplacing, h]
  | _ => rfl

/-- The environment that uses a mapping for the registers it defines. -/
def ReplaceMap.env (rMap : ReplaceMap T) (m : T → SVal) (r : T) : SVal :=
  ((rMap r).map Prod.fst).getD (m r)

/-- The concretized expression has the value of the original where the registers of the mapping
have their values. -/
lemma visit_concretize (e : SExpr T) (rMap : ReplaceMap T) (m : T → SVal) :
    visit m (concretize e rMap) = visit (ReplaceMap.env rMap m) e := by
  have henv : ReplacedEnv (concretization rMap) m (ReplaceMap.env rMap m) := by
    intro w r
    unfold concretization ReplaceMap.env
    cases rMap r with
    | none => rfl
    | some p => rfl
  rw [concretize_eq, visit_replaceRegs henv, visit_clone]

/-- The second expression has the kinds, widths and leaves of the first outside of the registers
`D`, in whose place anything may be. -/
inductive SameOutside (D : T → Prop) : SExpr T → SExpr T → Prop where
  | replaced {w r e} : D r → SameOutside D (register w r) e
  | concrete w v : SameOutside D (concrete w v) (concrete w v)
  | register w r : SameOutside D (register w r) (register w r)
  | select {w c t f c' t' f'} : SameOutside D c c' → SameOutside D t t' → SameOutside D f f' →
      SameOutside D (select w c t f) (select w c' t' f')
  | logical {k kids kids'} : List.Forall₂ (SameOutside D) kids kids' →
      SameOutside D (logical k kids) (logical k kids')
  | not {e e'} : SameOutside D e e' → SameOutside D (not e) (not e')
  | cast {k w e e'} : SameOutside D e e' → SameOutside D (cast k w e) (cast k w e')
  | binary {k w l r l' r'} : SameOutside D l l' → SameOutside D r r' →
      SameOutside D (binary k w l r) (binary k w l' r')
  | cmp {k l r l' r'} : SameOutside D l l' → SameOutside D r r' →
      SameOutside D (cmp k l r) (cmp k l' r')

mutual

/-- Every arithmetic node has the width of its left operand. -/
def InheritsWidths : SExpr T → Prop
  | concrete _ _ => True
  | register _ _ => True
  | select _ c t f => c.InheritsWidths ∧ t.InheritsWidths ∧ f.InheritsWidths
  | logical _ kids => InheritsWidthsKids kids
  | not e => e.InheritsWidths
  | cast _ _ e => e.InheritsWidths
  | binary _ w l r => w = l.getWidth ∧ l.InheritsWidths ∧ r.InheritsWidths
  | cmp _ l r => l.InheritsWidths ∧ r.InheritsWidths

/-- Every arithmetic node in the kids has the width of its left operand. -/
def InheritsWidthsKids : List (SExpr T) → Prop
  | [] => True
  | e :: kids => e.InheritsWidths ∧ InheritsWidthsKids kids

end

/-- The kids inherit widths one by one. -/
lemma inheritsWidthsKids_iff (kids : List (SExpr T)) :
    InheritsWidthsKids kids ↔ ∀ e ∈ kids, e.InheritsWidths := by
  induction kids with
  | nil => simp [InheritsWidthsKids]
  | cons e kids ih => rw [InheritsWidthsKids, ih, List.forall_mem_cons]

/-- The copy of an expression that inherits its widths has the width of the original. -/
lemma getWidth_clone {e : SExpr T} (h : e.InheritsWidths) : e.clone.getWidth = e.getWidth := by
  induction e with
  | binary k w l r hl hr =>
    rw [InheritsWidths] at h
    rw [clone, getWidth, getWidth, hl h.2.1]
    exact h.1.symm
  | _ => rfl

/-- **The copy keeps the structure of exactly the expressions that inherit their widths.** -/
lemma sameOutside_replaceRegs_clone_iff {σ : T → Option (SExpr T)} (e : SExpr T) :
    SameOutside (fun r => (σ r).isSome) e (replaceRegs σ e.clone) ↔ e.InheritsWidths := by
  induction e with
  | concrete w v => exact iff_of_true (.concrete w v) trivial
  | register w r =>
    refine iff_of_true ?_ trivial
    cases h : σ r with
    | none =>
      simp only [clone, replaceRegs_register, h, Option.getD_none]
      exact .register w r
    | some e => exact .replaced (by rw [h]; rfl)
  | select w c t f hc ht hf =>
    simp only [clone, replaceRegs_select, InheritsWidths, ← hc, ← ht, ← hf]
    constructor
    · rintro (_ | _ | _ | ⟨hc, ht, hf⟩)
      exact ⟨hc, ht, hf⟩
    · rintro ⟨hc, ht, hf⟩
      exact .select hc ht hf
  | logical k kids ih =>
    simp only [clone, cloneKids_eq_map, replaceRegs_logical, InheritsWidths,
      inheritsWidthsKids_iff, List.map_map]
    constructor
    · rintro (_ | _ | _ | _ | h)
      rw [List.forall₂_map_right_iff, List.forall₂_same] at h
      exact fun e he => (ih e he).mp (h e he)
    · intro h
      refine .logical ?_
      rw [List.forall₂_map_right_iff, List.forall₂_same]
      exact fun e he => (ih e he).mpr (h e he)
  | not e ih =>
    simp only [clone, replaceRegs_not, InheritsWidths, ← ih]
    constructor
    · rintro (_ | _ | _ | _ | _ | h)
      exact h
    · exact .not
  | cast k w e ih =>
    simp only [clone, replaceRegs_cast, InheritsWidths, ← ih]
    constructor
    · rintro (_ | _ | _ | _ | _ | _ | h)
      exact h
    · exact .cast
  | binary k w l r hl hr =>
    simp only [clone, replaceRegs_binary, InheritsWidths]
    constructor
    · intro h
      have hw : w = l.clone.getWidth := by
        cases h
        rfl
      have hlr : l.InheritsWidths ∧ r.InheritsWidths := by
        cases h with
        | binary hl' hr' => exact ⟨hl.mp hl', hr.mp hr'⟩
      exact ⟨hw.trans (getWidth_clone hlr.1), hlr⟩
    · rintro ⟨hw, hl', hr'⟩
      rw [getWidth_clone hl', ← hw]
      exact .binary (hl.mpr hl') (hr.mpr hr')
  | cmp k l r hl hr =>
    simp only [clone, replaceRegs_cmp, InheritsWidths, ← hl, ← hr]
    constructor
    · rintro (_ | _ | _ | _ | _ | _ | _ | _ | ⟨hl, hr⟩)
      exact ⟨hl, hr⟩
    · rintro ⟨hl, hr⟩
      exact .cmp hl hr

/-- **Concretization.**  The concretized expression has the value of the original where the
registers of the mapping have their values.  It has the structure of the original outside of the
replaced registers if and only if every arithmetic node has the width of its left operand. -/
theorem concretize_correct_iff (e : SExpr T) (rMap : ReplaceMap T) (m : T → SVal) :
    visit m (concretize e rMap) = visit (ReplaceMap.env rMap m) e ∧
      (SameOutside (fun r => (rMap r).isSome) e (concretize e rMap) ↔ e.InheritsWidths) := by
  refine ⟨visit_concretize e rMap m, ?_⟩
  have hsome : (fun r => (rMap r).isSome = true) =
      fun r => (concretization rMap r).isSome = true := by
    funext r
    rw [concretization, Option.isSome_map]
  rw [hsome, concretize_eq]
  exact sameOutside_replaceRegs_clone_iff e

/-- The conjunction of two truth values in registers of 8 bits gets the width 8, even if no
register is replaced. -/
theorem concretize_changes_width :
    ¬ SameOutside (fun r : Bool => ((fun _ => none : ReplaceMap Bool) r).isSome)
      (binary .and 1 (register 8 true) (register 8 false))
      (concretize (binary .and 1 (register 8 true) (register 8 false)) fun _ => none) := by
  rintro ⟨⟩

/-! ## The transformer -/

mutual

/-- `SExprTransformer::transform`: renames the registers.  The visitors of the casts visit the kid
and return what they get, without a cast around it. -/
def transform (fn : T → U) : SExpr T → SExpr U
  | concrete w v => concrete w v
  | register w r => register w (fn r)
  | select w c t f => select w (transform fn c) (transform fn t) (transform fn f)
  | logical k kids => logical k (transformKids fn kids)
  | not e => not (transform fn e)
  | cast _ _ e => transform fn e
  | binary k w l r => binary k w (transform fn l) (transform fn r)
  | cmp k l r => cmp k (transform fn l) (transform fn r)

/-- The loop over the kids of a connective. -/
def transformKids (fn : T → U) : List (SExpr T) → List (SExpr U)
  | [] => []
  | e :: kids => transform fn e :: transformKids fn kids

end

/-- The kids are transformed one by one. -/
@[simp] lemma transformKids_eq_map (fn : T → U) (kids : List (SExpr T)) :
    transformKids fn kids = kids.map (transform fn) := by
  induction kids with
  | nil => rfl
  | cons e kids ih => rw [transformKids, ih, List.map_cons]

/-- The transformed expression has the value of the original where every register has the value of
its new name. -/
lemma visit_transform (e : SExpr T) (fn : T → U) (m : U → SVal) :
    visit m (transform fn e) = visit (m ∘ fn) e := by
  induction e with
  | concrete w v => rfl
  | register w r => rfl
  | select w c t f hc ht hf => simp only [transform, visit, hc, ht, hf]
  | logical k kids ih => rw [transform, transformKids_eq_map, visit_logical_map k ih]
  | not e _ => rfl
  | cast k w e ih => simpa only [transform, visit] using ih
  | binary k w l r hl hr => simp only [transform, visit, hl, hr]
  | cmp k l r hl hr => simp only [transform, visit, hl, hr]

mutual

/-- An expression without the names of its registers: its kinds, widths and constants. -/
def shape : SExpr T → SExpr Unit
  | concrete w v => concrete w v
  | register w _ => register w ()
  | select w c t f => select w c.shape t.shape f.shape
  | logical k kids => logical k (shapeKids kids)
  | not e => not e.shape
  | cast k w e => cast k w e.shape
  | binary k w l r => binary k w l.shape r.shape
  | cmp k l r => cmp k l.shape r.shape

/-- The kids without the names of their registers. -/
def shapeKids : List (SExpr T) → List (SExpr Unit)
  | [] => []
  | e :: kids => e.shape :: shapeKids kids

end

mutual

/-- The number of casts in an expression. -/
def casts : SExpr T → ℕ
  | concrete _ _ => 0
  | register _ _ => 0
  | select _ c t f => c.casts + t.casts + f.casts
  | logical _ kids => castsKids kids
  | not e => e.casts
  | cast _ _ e => e.casts + 1
  | binary _ _ l r => l.casts + r.casts
  | cmp _ l r => l.casts + r.casts

/-- The number of casts in the kids. -/
def castsKids : List (SExpr T) → ℕ
  | [] => 0
  | e :: kids => e.casts + castsKids kids

end

/-- The kids lose the names of their registers one by one. -/
@[simp] lemma shapeKids_eq_map (kids : List (SExpr T)) : shapeKids kids = kids.map shape := by
  induction kids with
  | nil => rfl
  | cons e kids ih => rw [shapeKids, ih, List.map_cons]

/-- The casts in the kids are counted one by one. -/
@[simp] lemma castsKids_eq_sum (kids : List (SExpr T)) :
    castsKids kids = (kids.map casts).sum := by
  induction kids with
  | nil => rfl
  | cons e kids ih => rw [castsKids, ih, List.map_cons, List.sum_cons]

/-- The shape has the casts of the expression. -/
lemma casts_shape (e : SExpr T) : e.shape.casts = e.casts := by
  induction e with
  | concrete w v => rfl
  | register w r => rfl
  | select w c t f hc ht hf => simp only [shape, casts, hc, ht, hf]
  | logical k kids ih =>
    rw [shape, casts, casts, shapeKids_eq_map, castsKids_eq_sum, castsKids_eq_sum, List.map_map]
    exact congrArg List.sum (List.map_congr_left ih)
  | not e ih => simpa only [shape, casts] using ih
  | cast k w e ih => simp only [shape, casts, ih]
  | binary k w l r hl hr => simp only [shape, casts, hl, hr]
  | cmp k l r hl hr => simp only [shape, casts, hl, hr]

/-- No cast is transformed to a cast. -/
lemma casts_transform (e : SExpr T) (fn : T → U) : (transform fn e).casts = 0 := by
  induction e with
  | concrete w v => rfl
  | register w r => rfl
  | select w c t f hc ht hf => simp only [transform, casts, hc, ht, hf]
  | logical k kids ih =>
    rw [transform, casts, transformKids_eq_map, castsKids_eq_sum, List.map_map, List.sum_eq_zero]
    intro n hn
    obtain ⟨e, he, rfl⟩ := List.mem_map.mp hn
    exact ih e he
  | not e ih => simpa only [transform, casts] using ih
  | cast k w e ih => simpa only [transform] using ih
  | binary k w l r hl hr => simp only [transform, casts, hl, hr]
  | cmp k l r hl hr => simp only [transform, casts, hl, hr]

/-- Without casts the transformed expression has the shape of the original. -/
lemma shape_transform {e : SExpr T} (fn : T → U) (h : e.casts = 0) :
    (transform fn e).shape = e.shape := by
  induction e with
  | concrete w v => rfl
  | register w r => rfl
  | select w c t f hc ht hf =>
    simp only [casts, Nat.add_eq_zero_iff] at h
    simp only [transform, shape, hc h.1.1, ht h.1.2, hf h.2]
  | logical k kids ih =>
    rw [casts, castsKids_eq_sum, List.sum_eq_zero_iff] at h
    rw [transform, shape, shape, transformKids_eq_map, shapeKids_eq_map, shapeKids_eq_map,
      List.map_map]
    exact congrArg (logical k)
      (List.map_congr_left fun e he => ih e he (h _ (List.mem_map_of_mem he)))
  | not e ih => simp only [transform, shape, ih h]
  | cast k w e ih => exact absurd h (Nat.succ_ne_zero _)
  | binary k w l r hl hr =>
    simp only [casts, Nat.add_eq_zero_iff] at h
    simp only [transform, shape, hl h.1, hr h.2]
  | cmp k l r hl hr =>
    simp only [casts, Nat.add_eq_zero_iff] at h
    simp only [transform, shape, hl h.1, hr h.2]

/-- **Transformation.**  The transformed expression has the value of the original where every
register has the value of its new name.  It has the shape and the widths of the original if and
only if the original has no casts. -/
theorem transform_correct_iff (e : SExpr T) (fn : T → U) (m : U → SVal) :
    visit m (transform fn e) = visit (m ∘ fn) e ∧
      ((transform fn e).shape = e.shape ↔ e.casts = 0) := by
  refine ⟨visit_transform e fn m, ?_, shape_transform fn⟩
  intro h
  rw [← casts_shape, ← h, casts_shape, casts_transform]

/-- The zero extension of a register from 8 to 32 bits is transformed to the register. -/
theorem transform_drops_cast :
    (transform (fun r : Bool => r) (cast .zext 32 (register 8 true))).shape ≠
      (cast .zext 32 (register 8 true) : SExpr Bool).shape := by
  intro h
  cases h

end SExpr

end GenMC
