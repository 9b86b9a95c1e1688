import GenMC.Support.SExpr
import Mathlib.Data.Finset.Card

/-!
# Evaluation with unknown registers

The other evaluation (NBFE) has a mapping that may leave registers out.  Such a register gets a
default value and goes into a set, whose size is what the callers look at: a count of zero is their
proof that the result does not depend on the registers that have been left out.

The set is a part of the evaluator and is not cleared between two evaluations with mappings.  A
connective stops at the kid that decides it and a select visits one of its kids, so that a register
behind them is not counted.
-/

namespace GenMC

namespace SExprEvaluator

variable {T : Type*} [DecidableEq T]

mutual

/-- `SExprEvaluator::visit` for a mapping: the value, and the set `unknown` after the visit. -/
def visit (map : T → Option SVal) : SExpr T → Finset T → Option (SVal × Finset T)
  | .concrete _ v, unknown => some (v, unknown)
  | .register _ r, unknown =>
    some (SExpr.getMappingFor map r, if (map r).isSome then unknown else insert r unknown)
  | .select _ c t f, unknown =>
    (visit map c unknown).bind fun b =>
      if b.1.getBool then visit map t b.2 else visit map f b.2
  | .logical .conjunction kids, unknown =>
    (allOf map kids unknown).map fun b => (SVal.ofBool b.1, b.2)
  | .logical .disjunction kids, unknown =>
    (anyOf map kids unknown).map fun b => (SVal.ofBool b.1, b.2)
  -- the pointer to the kid is tested, and the kid is not visited
  | .not _, unknown => some (SVal.ofBool false, unknown)
  | .cast _ _ e, unknown => visit map e unknown
  | .binary k _ l r, unknown =>
    (visit map l unknown).bind fun v => (visit map r v.2).bind fun w =>
      (k.apply v.1 w.1).map fun x => (x, w.2)
  | .cmp k l r, unknown =>
    (visit map l unknown).bind fun v => (visit map r v.2).map fun w =>
      (SVal.ofBool (k.apply v.1 w.1), w.2)

/-- `std::all_of` over the kids. -/
def allOf (map : T → Option SVal) : List (SExpr T) → Finset T → Option (Bool × Finset T)
  | [], unknown => some (true, unknown)
  | e :: kids, unknown =>
    (visit map e unknown).bind fun v =>
      if v.1.getBool then allOf map kids v.2 else some (false, v.2)

/-- `std::any_of` over the kids. -/
def anyOf (map : T → Option SVal) : List (SExpr T) → Finset T → Option (Bool × Finset T)
  | [], unknown => some (false, unknown)
  | e :: kids, unknown =>
    (visit map e unknown).bind fun v =>
      if v.1.getBool then some (true, v.2) else anyOf map kids v.2

end

/-- The result of an evaluation. -/
structure Evaluation (T : Type*) where
  /-- The value of the expression. -/
  value : SVal
  /-- The set `unknown` of the evaluator after the evaluation. -/
  unknown : Finset T

/-- `numUnknown`. -/
def Evaluation.numUnknown (r : Evaluation T) : ℕ := r.unknown.card

/-- `evaluate` (NBFE), by an evaluator whose set is `unknown`. -/
def evaluate (e : SExpr T) (map : T → Option SVal) (unknown : Finset T) : Option (Evaluation T) :=
  (visit map e unknown).map fun r => ⟨r.1, r.2⟩

/-! ## The value of an evaluation -/

variable {map : T → Option SVal}

/-- What a result with a set says about an evaluation without one. -/
def Yields {α : Type*} (o : Option (α × Finset T)) (p : Option α) : Prop := o.map Prod.fst = p

lemma allOf_yields {kids : List (SExpr T)}
    (h : ∀ e ∈ kids, ∀ unknown,
      Yields (visit map e unknown) (SExpr.visit (SExpr.getMappingFor map) e))
    (unknown : Finset T) :
    Yields (allOf map kids unknown) (SExpr.allOf (SExpr.getMappingFor map) kids) := by
  induction kids generalizing unknown with
  | nil => rfl
  | cons e kids ih =>
    have he := h e List.mem_cons_self unknown
    have hkids := ih fun k hk => h k (List.mem_cons_of_mem e hk)
    unfold Yields at he hkids ⊢
    rw [allOf, SExpr.allOf, ← he, Option.map_bind, Option.bind_map]
    refine Option.bind_congr fun v _ => ?_
    rw [Function.comp_apply, Function.comp_apply, apply_ite (Option.map Prod.fst), hkids]
    rfl

lemma anyOf_yields {kids : List (SExpr T)}
    (h : ∀ e ∈ kids, ∀ unknown,
      Yields (visit map e unknown) (SExpr.visit (SExpr.getMappingFor map) e))
    (unknown : Finset T) :
    Yields (anyOf map kids unknown) (SExpr.anyOf (SExpr.getMappingFor map) kids) := by
  induction kids generalizing unknown with
  | nil => rfl
  | cons e kids ih =>
    have he := h e List.mem_cons_self unknown
    have hkids := ih fun k hk => h k (List.mem_cons_of_mem e hk)
    unfold Yields at he hkids ⊢
    rw [anyOf, SExpr.anyOf, ← he, Option.map_bind, Option.bind_map]
    refine Option.bind_congr fun v _ => ?_
    rw [Function.comp_apply, Function.comp_apply, apply_ite (Option.map Prod.fst), hkids]
    rfl

/-- The set does not change the value: it is the one with the default for unknown registers. -/
lemma visit_yields (map : T → Option SVal) (e : SExpr T) (unknown : Finset T) :
    Yields (visit map e unknown) (SExpr.visit (SExpr.getMappingFor map) e) := by
  induction e generalizing unknown with
  | concrete w v => rfl
  | register w r => rfl
  | select w c t f hc ht hf =>
    unfold Yields at hc ht hf ⊢
    rw [visit, SExpr.visit, ← hc unknown, Option.map_bind, Option.bind_map]
    refine Option.bind_congr fun b _ => ?_
    rw [Function.comp_apply, Function.comp_apply, apply_ite (Option.map Prod.fst), ht, hf]
  | logical k kids ih =>
    cases k with
    | conjunction =>
      have hkids := allOf_yields ih unknown
      unfold Yields at hkids ⊢
      rw [visit, SExpr.visit, ← hkids, Option.map_map, Option.map_map]
      rfl
    | disjunction =>
      have hkids := anyOf_yields ih unknown
      unfold Yields at hkids ⊢
      rw [visit, SExpr.visit, ← hkids, Option.map_map, Option.map_map]
      rfl
  | not e _ => rfl
  | cast k w e ih => exact ih unknown
  | binary k w l r hl hr =>
    unfold Yields at hl hr ⊢
    rw [visit, SExpr.visit, ← hl unknown, Option.map_bind, Option.bind_map]
    refine Option.bind_congr fun v _ => ?_
    rw [Function.comp_apply, Function.comp_apply, ← hr v.2, Option.map_bind, Option.bind_map]
    refine Option.bind_congr fun x _ => ?_
    rw [Function.comp_apply, Option.map_map]
    exact congrFun Option.map_id _
  | cmp k l r hl hr =>
    unfold Yields at hl hr ⊢
    rw [visit, SExpr.visit, ← hl unknown, Option.map_bind, Option.bind_map]
    refine Option.bind_congr fun v _ => ?_
    rw [Function.comp_apply, Function.comp_apply, ← hr v.2, Option.map_map, Option.map_map]
    rfl

/-! ## Unknown registers -/

/-- An environment gives the registers of the mapping their values, and the unknown registers of a
set the default value. -/
def AgreesOn (map : T → Option SVal) (unknown : Finset T) (env : T → SVal) : Prop :=
  ∀ r, (map r).isSome ∨ r ∈ unknown → env r = SExpr.getMappingFor map r

/-- The set only grows, and a value depends on the registers of the mapping and of the set only. -/
def Accounts {α : Type*} (map : T → Option SVal) (unknown : Finset T) (o : Option (α × Finset T))
    (value : (T → SVal) → Option α) : Prop :=
  ∀ v unknown', o = some (v, unknown') →
    unknown ⊆ unknown' ∧ ∀ env, AgreesOn map unknown' env → value env = some v

omit [DecidableEq T] in
lemma AgreesOn.mono {unknown unknown' : Finset T} {env : T → SVal}
    (h : AgreesOn map unknown' env) (hsub : unknown ⊆ unknown') : AgreesOn map unknown env :=
  fun r hr => h r (hr.imp_right (hsub ·))

omit [DecidableEq T] in
/-- A visit after another one. -/
lemma Accounts.bind {α β : Type*} {unknown : Finset T} {o : Option (α × Finset T)}
    {value : (T → SVal) → Option α} {f : α × Finset T → Option (β × Finset T)}
    {g : (T → SVal) → α → Option β} (ho : Accounts map unknown o value)
    (hf : ∀ v unknown', Accounts map unknown' (f (v, unknown')) fun env => g env v) :
    Accounts map unknown (o.bind f) fun env => (value env).bind (g env) := by
  intro w unknown'' h
  obtain ⟨⟨v, unknown'⟩, hv, hw⟩ := Option.bind_eq_some_iff.mp h
  obtain ⟨hsub, hvalue⟩ := ho v unknown' hv
  obtain ⟨hsub', hnext⟩ := hf v unknown' w unknown'' hw
  refine ⟨hsub.trans hsub', fun env henv => ?_⟩
  change (value env).bind (g env) = some w
  rw [hvalue env (henv.mono hsub'), Option.bind_some]
  exact hnext env henv

omit [DecidableEq T] in
/-- The value of a visit is put into another one. -/
lemma Accounts.mapValue {α β : Type*} {unknown : Finset T} {o : Option (α × Finset T)}
    {value : (T → SVal) → Option α} (ho : Accounts map unknown o value) (f : α → β) :
    Accounts map unknown (o.map fun v => (f v.1, v.2)) fun env => (value env).map f := by
  intro w unknown' h
  obtain ⟨⟨v, unknown''⟩, hv, hw⟩ := Option.map_eq_some_iff.mp h
  obtain ⟨rfl, rfl⟩ := Prod.mk.inj hw
  obtain ⟨hsub, hvalue⟩ := ho v unknown'' hv
  refine ⟨hsub, fun env henv => ?_⟩
  change (value env).map f = some (f v)
  rw [hvalue env henv, Option.map_some]

omit [DecidableEq T] in
/-- A value that is not computed from registers. -/
lemma accounts_some {α : Type*} (v : α) (unknown : Finset T) :
    Accounts map unknown (some (v, unknown)) fun _ => some v := by
  rintro w unknown' h
  obtain ⟨rfl, rfl⟩ := Prod.mk.inj (Option.some.inj h)
  exact ⟨Finset.Subset.refl _, fun _ _ => rfl⟩

lemma allOf_accounts {kids : List (SExpr T)}
    (h : ∀ e ∈ kids, ∀ unknown,
      Accounts map unknown (visit map e unknown) fun env => SExpr.visit env e)
    (unknown : Finset T) :
    Accounts map unknown (allOf map kids unknown) fun env => SExpr.allOf env kids := by
  induction kids generalizing unknown with
  | nil => exact accounts_some true unknown
  | cons e kids ih =>
    simp only [allOf, SExpr.allOf]
    refine (h e List.mem_cons_self unknown).bind fun v unknown' => ?_
    -- a kid that is false decides the conjunction
    by_cases hv : v.getBool
    · simp only [hv, if_true]
      exact ih (fun k hk => h k (List.mem_cons_of_mem e hk)) unknown'
    · simp only [hv]
      exact accounts_some false unknown'

lemma anyOf_accounts {kids : List (SExpr T)}
    (h : ∀ e ∈ kids, ∀ unknown,
      Accounts map unknown (visit map e unknown) fun env => SExpr.visit env e)
    (unknown : Finset T) :
    Accounts map unknown (anyOf map kids unknown) fun env => SExpr.anyOf env kids := by
  induction kids generalizing unknown with
  | nil => exact accounts_some false unknown
  | cons e kids ih =>
    simp only [anyOf, SExpr.anyOf]
    refine (h e List.mem_cons_self unknown).bind fun v unknown' => ?_
    -- a kid that is true decides the disjunction
    by_cases hv : v.getBool
    · simp only [hv, if_true]
      exact accounts_some true unknown'
    · simp only [hv]
      exact ih (fun k hk => h k (List.mem_cons_of_mem e hk)) unknown'

/-- **Every register that has influenced the value is in the mapping or in the set.**  By induction
on the expression; a kid that is not visited has no influence. -/
lemma visit_accounts (map : T → Option SVal) (e : SExpr T) (unknown : Finset T) :
    Accounts map unknown (visit map e unknown) fun env => SExpr.visit env e := by
  induction e generalizing unknown with
  | concrete w v => exact accounts_some v unknown
  | register w r =>
    rintro v unknown' h
    obtain ⟨rfl, rfl⟩ := Prod.mk.inj (Option.some.inj h)
    split
    next hr => exact ⟨Finset.Subset.refl _, fun env henv => congrArg some (henv r (Or.inl hr))⟩
    next =>
      exact ⟨Finset.subset_insert r unknown,
        fun env henv => congrArg some (henv r (Or.inr (Finset.mem_insert_self r unknown)))⟩
  | select w c t f hc ht hf =>
    simp only [visit, SExpr.visit]
    refine (hc unknown).bind fun b unknown' => ?_
    by_cases hb : b.getBool
    · simp only [hb, if_true]
      exact ht unknown'
    · simp only [hb]
      exact hf unknown'
  | logical k kids ih =>
    cases k with
    | conjunction => exact (allOf_accounts ih unknown).mapValue SVal.ofBool
    | disjunction => exact (anyOf_accounts ih unknown).mapValue SVal.ofBool
  | not e _ => exact accounts_some (SVal.ofBool false) unknown
  | cast k w e ih => exact ih unknown
  | binary k w l r hl hr =>
    simp only [visit, SExpr.visit]
    refine (hl unknown).bind fun v unknown' => (hr unknown').bind fun x unknown'' => ?_
    rintro y _ h
    obtain ⟨z, hz, hy⟩ := Option.map_eq_some_iff.mp h
    obtain ⟨rfl, rfl⟩ := Prod.mk.inj hy
    exact ⟨Finset.Subset.refl _, fun _ _ => hz⟩
  | cmp k l r hl hr =>
    simp only [visit, SExpr.visit]
    exact (hl unknown).bind fun v unknown' =>
      (hr unknown').mapValue fun x => SVal.ofBool (k.apply v x)

/-- The registers of a mapping have their values in an environment. -/
def Extends (map : T → Option SVal) (env : T → SVal) : Prop :=
  ∀ r v, map r = some v → env r = v

/-- If no register is in the set at the end, the expression has the value in all environments that
extend the mapping. -/
lemma visit_of_unknown_eq_empty {e : SExpr T} {unknown : Finset T} {v : SVal}
    (h : visit map e unknown = some (v, ∅)) {env : T → SVal} (henv : Extends map env) :
    SExpr.visit env e = some v := by
  refine (visit_accounts map e unknown v ∅ h).2 env fun reg hreg => ?_
  obtain ⟨w, hw⟩ := Option.isSome_iff_exists.mp (hreg.resolve_right (Finset.notMem_empty reg))
  rw [henv reg w hw, SExpr.getMappingFor, hw, Option.getD_some]

/-- A count of zero: the expression has the value in all environments that extend the mapping. -/
lemma visit_of_numUnknown_eq_zero {e : SExpr T} {unknown : Finset T} {r : Evaluation T}
    (h : evaluate e map unknown = some r) (hr : r.numUnknown = 0) {env : T → SVal}
    (henv : Extends map env) : SExpr.visit env e = some r.value := by
  obtain ⟨⟨v, unknown'⟩, hv, rfl⟩ := Option.map_eq_some_iff.mp h
  obtain rfl : unknown' = ∅ := Finset.card_eq_zero.mp hr
  exact visit_of_unknown_eq_empty hv henv

/-- A conjunction that is false has a kid that is false and has been visited. -/
lemma exists_kid_of_allOf {kids : List (SExpr T)} {unknown unknown' : Finset T}
    (h : allOf map kids unknown = some (false, unknown')) :
    ∃ e ∈ kids, ∃ seen v seen', visit map e seen = some (v, seen') ∧ v.getBool = false ∧
      seen' ⊆ unknown' := by
  induction kids generalizing unknown with
  | nil => cases h
  | cons e kids ih =>
    obtain ⟨⟨v, seen'⟩, hv, h⟩ := Option.bind_eq_some_iff.mp h
    split at h
    next =>
      obtain ⟨e', he', hrest⟩ := ih h
      exact ⟨e', List.mem_cons_of_mem e he', hrest⟩
    next hfalse =>
      obtain rfl := (Prod.mk.inj (Option.some.inj h)).2
      exact ⟨e, List.mem_cons_self, unknown, v, seen', hv, Bool.eq_false_of_not_eq_true hfalse,
        Finset.Subset.refl _⟩

/-- A count of zero for a conjunction that is false: one kid is false in all environments that
extend the mapping. -/
lemma exists_kid_of_numUnknown_eq_zero {kids : List (SExpr T)} {unknown : Finset T}
    {r : Evaluation T} (h : evaluate (.logical .conjunction kids) map unknown = some r)
    (hr : r.numUnknown = 0) (hfalse : r.value.getBool = false) :
    ∃ e ∈ kids, ∃ v : SVal, v.getBool = false ∧
      ∀ env, Extends map env → SExpr.visit env e = some v := by
  obtain ⟨⟨v, unknown'⟩, hv, rfl⟩ := Option.map_eq_some_iff.mp h
  obtain rfl : unknown' = ∅ := Finset.card_eq_zero.mp hr
  obtain ⟨⟨b, seen⟩, hb, heq⟩ := Option.map_eq_some_iff.mp hv
  obtain ⟨rfl, rfl⟩ := Prod.mk.inj heq
  obtain rfl : b = false := by
    cases b with
    | false => rfl
    | true => cases hfalse
  obtain ⟨e, he, seen, w, seen', hw, hwfalse, hsub⟩ := exists_kid_of_allOf hb
  obtain rfl := Finset.subset_empty.mp hsub
  exact ⟨e, he, w, hwfalse, fun env henv => visit_of_unknown_eq_empty hw henv⟩

/-- **Partial evaluation is sound.**  If no register is reported as unknown, the value is the same
under every mapping that has the given registers. -/
theorem evaluate_of_numUnknown_eq_zero (e : SExpr T) (map map' : T → Option SVal)
    (unknown unknown' : Finset T) (r : Evaluation T) (h : evaluate e map unknown = some r)
    (hr : r.numUnknown = 0) (hmap : ∀ reg v, map reg = some v → map' reg = some v) :
    (evaluate e map' unknown').map Evaluation.value = some r.value := by
  have henv : Extends map (SExpr.getMappingFor map') := by
    intro reg v hv
    rw [SExpr.getMappingFor, hmap reg v hv, Option.getD_some]
  have hvalue : SExpr.visit (SExpr.getMappingFor map') e = some r.value :=
    visit_of_numUnknown_eq_zero h hr henv
  rw [evaluate, Option.map_map, ← hvalue]
  exact visit_yields map' e unknown'

/-- A disjunction that its first kid decides does not depend on the other one. -/
theorem evaluate_of_numUnknown_eq_zero_disjunction :
    (evaluate (.logical .disjunction
        [.cmp .eq (.register 32 0) (.concrete 32 1), .register 1 1] : SExpr ℕ)
      (fun reg => if reg < 2 then some (BitVec.ofNat 64 (reg + 1)) else none) ∅).map
        Evaluation.value = some 1 := by
  let map (reg : ℕ) : Option SVal := if reg = 0 then some 1 else none
  have hmap : ∀ reg v, map reg = some v →
      (if reg < 2 then some (BitVec.ofNat 64 (reg + 1)) else none) = some v := by
    intro reg v hv
    by_cases h : reg = 0
    · subst h
      exact hv
    · simp only [map, h, if_false] at hv
      exact nomatch hv
  exact evaluate_of_numUnknown_eq_zero _ map _ ∅ ∅ ⟨1, ∅⟩ (by rfl) rfl hmap

end SExprEvaluator

end GenMC
