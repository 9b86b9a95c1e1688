import GenMC.Support.SVal

/-!
# Symbolic expressions

Assume annotations are expressions over the registers of the program (`SExpr`).  An expression is
a tree: constants and registers are its leaves, the logical connectives take any number of kids,
and all other nodes have a fixed number of them.  Every node has a width in bits; the logical
nodes and the comparisons have width 1, so only the other nodes store one.

`clone` copies an expression and `visit` is the evaluator.  The evaluator is given the values of
the registers by an environment: the brute-force evaluation uses one value for all registers, the
other one a mapping with a default.  C++ leaves a division by zero and a shift by 64 or more
undefined, and there the evaluator returns nothing.
-/

namespace GenMC

/-- `SExpr::BoolWidth`. -/
def boolWidth : ℕ := 1

/-- The connectives with any number of kids. -/
inductive LogicalKind where
  | conjunction | disjunction
  deriving DecidableEq, Repr

/-- `CastKindFirst … CastKindLast`. -/
inductive CastKind where
  | zext | sext | trunc
  deriving DecidableEq, Repr

/-- The binary kinds that are not comparisons: arithmetic and bit operators. -/
inductive ArithmeticKind where
  | add | sub | mul | udiv | sdiv | urem | srem | and | or | xor | shl | lshr | ashr
  deriving DecidableEq, Repr

/-- `CmpKindFirst … CmpKindLast`. -/
inductive CmpKind where
  | eq | ne | ult | ule | ugt | uge | slt | sle | sgt | sge
  deriving DecidableEq, Repr

/-! ## The operators of the evaluator -/

/-- `SVal::SVal.getBool`. -/
def SVal.getBool (v : SVal) : Bool := v != 0

/-- The value of a truth value. -/
def SVal.ofBool (b : Bool) : SVal := if b then 1 else 0

/-- `SVal::operator/`: the division of `uint64_t`. -/
def SVal.div (v w : SVal) : Option SVal := if w = 0 then none else some (v / w)

/-- `SVal::operator<<`. -/
def SVal.shl (v w : SVal) : Option SVal := if w.toNat < 64 then some (v <<< w.toNat) else none

/-- `SVal::operator>>`: the shift of `uint64_t`. -/
def SVal.shr (v w : SVal) : Option SVal := if w.toNat < 64 then some (v >>> w.toNat) else none

/-- The operator that the evaluator applies to the operands of an arithmetic node.  Both
remainders are evaluated with `/`, and both right shifts with `>>`. -/
def ArithmeticKind.apply : ArithmeticKind → SVal → SVal → Option SVal
  | .add, v, w => some (v + w)
  | .sub, v, w => some (v - w)
  | .mul, v, w => some (v * w)
  | .udiv, v, w => SVal.div v w
  | .sdiv, v, w => SVal.div v w
  | .urem, v, w => SVal.div v w
  | .srem, v, w => SVal.div v w
  | .and, v, w => some (v &&& w)
  | .or, v, w => some (v ||| w)
  | .xor, v, w => some (v ^^^ w)
  | .shl, v, w => SVal.shl v w
  | .lshr, v, w => SVal.shr v w
  | .ashr, v, w => SVal.shr v w

/-- The comparison that the evaluator applies to the operands of a comparison node. -/
def CmpKind.apply : CmpKind → SVal → SVal → Bool
  | .eq, v, w => v == w
  | .ne, v, w => v != w
  | .ult, v, w => v.ult w
  | .ule, v, w => BitVec.ule v w
  | .ugt, v, w => SVal.ugt v w
  | .uge, v, w => !v.ult w
  | .slt, v, w => v.slt w
  | .sle, v, w => BitVec.sle v w
  | .sgt, v, w => SVal.sgt v w
  | .sge, v, w => !v.slt w

/-! ## Expressions -/

/-- `SExpr`: an expression over registers of type `T`. -/
inductive SExpr (T : Type*) where
  | concrete (width : ℕ) (value : SVal)
  | register (width : ℕ) (reg : T)
  | select (width : ℕ) (cond ifTrue ifFalse : SExpr T)
  | logical (kind : LogicalKind) (kids : List (SExpr T))
  | not (kid : SExpr T)
  | cast (kind : CastKind) (width : ℕ) (kid : SExpr T)
  | binary (kind : ArithmeticKind) (width : ℕ) (left right : SExpr T)
  | cmp (kind : CmpKind) (left right : SExpr T)

namespace SExpr

variable {T U : Type*}

/-- Structural induction: in the case of a connective the statement may be assumed for every
kid. -/
@[elab_as_elim, induction_eliminator]
theorem inductionOn {motive : SExpr T → Prop}
    (concrete : ∀ width value, motive (concrete width value))
    (register : ∀ width reg, motive (register width reg))
    (select : ∀ width cond ifTrue ifFalse, motive cond → motive ifTrue → motive ifFalse →
      motive (select width cond ifTrue ifFalse))
    (logical : ∀ kind kids, (∀ kid ∈ kids, motive kid) → motive (logical kind kids))
    (not : ∀ kid, motive kid → motive (not kid))
    (cast : ∀ kind width kid, motive kid → motive (cast kind width kid))
    (binary : ∀ kind width left right, motive left → motive right →
      motive (binary kind width left right))
    (cmp : ∀ kind left right, motive left → motive right → motive (cmp kind left right))
    (e : SExpr T) : motive e := by
  refine @SExpr.rec T motive (fun kids => ∀ kid ∈ kids, motive kid)
    concrete register select logical not cast binary cmp ?_ ?_ e
  · exact fun kid hkid => absurd hkid List.not_mem_nil
  · intro kid kids hkid hkids k hk
    obtain rfl | hk := List.mem_cons.mp hk
    · exact hkid
    · exact hkids k hk

/-- The width of an expression in bits. -/
def getWidth : SExpr T → ℕ
  | concrete w _ => w
  | register w _ => w
  | select w _ _ _ => w
  | logical _ _ => boolWidth
  | not _ => boolWidth
  | cast _ w _ => w
  | binary _ w _ _ => w
  | cmp _ _ _ => boolWidth

/-! ## Copies -/

mutual

/-- `clone`: a copy of an expression.  The copy of an arithmetic node is created without its
width and gets the width of its left operand. -/
def clone : SExpr T → SExpr T
  | concrete w v => concrete w v
  | register w r => register w r
  | select w c t f => select w c.clone t.clone f.clone
  | logical k kids => logical k (cloneKids kids)
  | not e => not e.clone
  | cast k w e => cast k w e.clone
  | binary k _ l r => binary k l.clone.getWidth l.clone r.clone
  | cmp k l r => cmp k l.clone r.clone

/-- The copies of a node's kids. -/
def cloneKids : List (SExpr T) → List (SExpr T)
  | [] => []
  | e :: kids => e.clone :: cloneKids kids

end

/-- The kids are copied one by one. -/
@[simp] lemma cloneKids_eq_map (kids : List (SExpr T)) : cloneKids kids = kids.map clone := by
  induction kids with
  | nil => rfl
  | cons e kids ih => rw [cloneKids, ih, List.map_cons]

/-! ## The evaluator -/

mutual

/-- `SExprEvaluator::visit`: the value of an expression where the registers have the values that
the environment gives.  Casts are dropped, and the negation is that of the pointer to the kid,
which is never null. -/
def visit (m : T → SVal) : SExpr T → Option SVal
  | concrete _ v => some v
  | register _ r => some (m r)
  | select _ c t f =>
    (visit m c).bind fun b => if b.getBool then visit m t else visit m f
  | logical .conjunction kids => (allOf m kids).map SVal.ofBool
  | logical .disjunction kids => (anyOf m kids).map SVal.ofBool
  | not _ => some (SVal.ofBool false)
  | cast _ _ e => visit m e
  | binary k _ l r =>
    (visit m l).bind fun v => (visit m r).bind fun w => k.apply v w
  | cmp k l r =>
    (visit m l).bind fun v => (visit m r).map fun w => SVal.ofBool (k.apply v w)

/-- `std::all_of` over the kids: stops at the first one that is false. -/
def allOf (m : T → SVal) : List (SExpr T) → Option Bool
  | [] => some true
  | e :: kids =>
    (visit m e).bind fun v => if v.getBool then allOf m kids else some false

/-- `std::any_of` over the kids: stops at the first one that is true. -/
def anyOf (m : T → SVal) : List (SExpr T) → Option Bool
  | [] => some false
  | e :: kids =>
    (visit m e).bind fun v => if v.getBool then some true else anyOf m kids

end

/-- `evaluate` (BFE): the value where all registers have the value `v`. -/
def evaluate (e : SExpr T) (v : SVal) : Option SVal := visit (fun _ => v) e

/-- `getMappingFor`: the value of a register under a mapping. -/
def getMappingFor (valueMapping : T → Option SVal) (r : T) : SVal := (valueMapping r).getD 42

/-- `evaluate` (NBFE): the value under a mapping of the registers. -/
def evaluateMap (e : SExpr T) (valueMapping : T → Option SVal) : Option SVal :=
  visit (getMappingFor valueMapping) e

/-- Kids with the same values are all true together. -/
lemma allOf_map {m : T → SVal} {m' : U → SVal} {f : SExpr T → SExpr U} {kids : List (SExpr T)}
    (h : ∀ e ∈ kids, visit m' (f e) = visit m e) : allOf m' (kids.map f) = allOf m kids := by
  induction kids with
  | nil => rfl
  | cons e kids ih =>
    rw [List.map_cons, allOf, allOf, h e List.mem_cons_self,
      ih fun k hk => h k (List.mem_cons_of_mem e hk)]

/-- Kids with the same values are true for one of them together. -/
lemma anyOf_map {m : T → SVal} {m' : U → SVal} {f : SExpr T → SExpr U} {kids : List (SExpr T)}
    (h : ∀ e ∈ kids, visit m' (f e) = visit m e) : anyOf m' (kids.map f) = anyOf m kids := by
  induction kids with
  | nil => rfl
  | cons e kids ih =>
    rw [List.map_cons, anyOf, anyOf, h e List.mem_cons_self,
      ih fun k hk => h k (List.mem_cons_of_mem e hk)]

/-- Kids with the values that their images have decide a conjunction as these do. -/
lemma allOf_of_map {m : T → SVal} {m' : U → SVal} {f : SExpr T → SExpr U} {kids : List (SExpr T)}
    (h : ∀ e ∈ kids, ∀ v, visit m' (f e) = some v → visit m e = some v) {b : Bool}
    (hb : allOf m' (kids.map f) = some b) : allOf m kids = some b := by
  induction kids with
  | nil => exact hb
  | cons e kids ih =>
    rw [List.map_cons, allOf] at hb
    obtain ⟨v, hv, hb⟩ := Option.bind_eq_some_iff.mp hb
    rw [allOf, h e List.mem_cons_self v hv, Option.bind_some]
    split at hb
    next htrue => rw [if_pos htrue, ih (fun k hk => h k (List.mem_cons_of_mem e hk)) hb]
    next hfalse => rw [if_neg hfalse, hb]

/-- Kids with the values that their images have decide a disjunction as these do. -/
lemma anyOf_of_map {m : T → SVal} {m' : U → SVal} {f : SExpr T → SExpr U} {kids : List (SExpr T)}
    (h : ∀ e ∈ kids, ∀ v, visit m' (f e) = some v → visit m e = some v) {b : Bool}
    (hb : anyOf m' (kids.map f) = some b) : anyOf m kids = some b := by
  induction kids with
  | nil => exact hb
  | cons e kids ih =>
    rw [List.map_cons, anyOf] at hb
    obtain ⟨v, hv, hb⟩ := Option.bind_eq_some_iff.mp hb
    rw [anyOf, h e List.mem_cons_self v hv, Option.bind_some]
    split at hb
    next htrue => rw [if_pos htrue, hb]
    next hfalse => rw [if_neg hfalse, ih (fun k hk => h k (List.mem_cons_of_mem e hk)) hb]

/-- A connective has the value of the one whose kids have the same values. -/
lemma visit_logical_map {m : T → SVal} {m' : U → SVal} {f : SExpr T → SExpr U}
    {kids : List (SExpr T)} (k : LogicalKind) (h : ∀ e ∈ kids, visit m' (f e) = visit m e) :
    visit m' (logical k (kids.map f)) = visit m (logical k kids) := by
  cases k
  · rw [visit, visit, allOf_map h]
  · rw [visit, visit, anyOf_map h]

/-- **A copy has the value of the original.** -/
lemma visit_clone (m : T → SVal) (e : SExpr T) : visit m e.clone = visit m e := by
  induction e with
  | concrete w v => rfl
  | register w r => rfl
  | select w c t f hc ht hf => simp only [clone, visit, hc, ht, hf]
  | logical k kids ih => rw [clone, cloneKids_eq_map, visit_logical_map k ih]
  | not e _ => rfl
  | cast k w e ih => simpa only [clone, visit] using ih
  | binary k w l r hl hr => simp only [clone, visit, hl, hr]
  | cmp k l r hl hr => simp only [clone, visit, hl, hr]

end SExpr

end GenMC
