import GenMC.Static.SSAFunction

/-!
# Other operands

Transformations replace a register by another value in all instructions.  A step whose operands have
the same values is the same step.  So the runs of a well-formed function do not change if the two
values are the same wherever the replaced register may be used, which is where its definition
strictly dominates (`run_replaceAllUsesWith`).
-/

namespace GenMC

namespace SSAInst

variable {Op : Type*}

/-- The instruction with other operands. -/
def mapOperands (f : IRValue → IRValue) : SSAInst Op → SSAInst Op
  | phi incoming => phi (incoming.map fun o => (o.1, f o.2))
  | cast op operand => cast op (f operand)
  | cmpXchg pointer compareOperand newValue =>
    cmpXchg (f pointer) (f compareOperand) (f newValue)
  | extractCAS cas index => extractCAS (f cas) index
  | other op operands => other op (operands.map f)
  | br dest => br dest
  | condBr cond ifTrue ifFalse => condBr (f cond) ifTrue ifFalse
  | terminator op operands successors => terminator op (operands.map f) successors

variable {f : IRValue → IRValue} {i : SSAInst Op}

@[simp] lemma isTerminator_mapOperands : (i.mapOperands f).isTerminator = i.isTerminator := by
  cases i <;> rfl

@[simp] lemma targets_mapOperands : (i.mapOperands f).targets = i.targets := by
  cases i <;> rfl

@[simp] lemma operands_mapOperands : (i.mapOperands f).operands = i.operands.map f := by
  cases i <;> rfl

end SSAInst

namespace SSAFunction

variable {Op μ : Type*} {DL : DataLayout} {typ : IRValue → LLVMType}

/-- The function with other operands. -/
def mapOperands (F : SSAFunction Op) (f : IRValue → IRValue) : SSAFunction Op :=
  ⟨F.blocks.map fun b => b.map fun i => i.mapOperands f⟩

/-- An operand after the replacement of a register. -/
def replaceValue (p : InstPos) (w v : IRValue) : IRValue := if v = .inst p then w else v

/-- `replaceAllUsesWith`. -/
def replaceAllUsesWith (F : SSAFunction Op) (p : InstPos) (w : IRValue) : SSAFunction Op :=
  F.mapOperands (replaceValue p w)

variable {F : SSAFunction Op} {f : IRValue → IRValue}

@[simp] lemma inst?_mapOperands {p : InstPos} :
    (F.mapOperands f).inst? p = (F.inst? p).map (·.mapOperands f) := by
  unfold inst? mapOperands
  rw [List.getElem?_map]
  cases F.blocks[p.block]? with
  | none => rfl
  | some b => exact List.getElem?_map

/-- The control flow does not depend on operands. -/
lemma edge_mapOperands : (F.mapOperands f).Edge = F.Edge := by
  funext p q
  refine propext ⟨?_, ?_⟩
  · rintro ⟨i, hi, h⟩
    rw [inst?_mapOperands] at hi
    obtain ⟨j, hj, rfl⟩ := Option.map_eq_some_iff.mp hi
    exact ⟨j, hj, by simpa using h⟩
  · rintro ⟨i, hi, h⟩
    exact ⟨i.mapOperands f, by rw [inst?_mapOperands, hi]; rfl, by simpa using h⟩

/-! ## Runs with other operands -/

section Congruence

variable {sem : Semantics Op μ} {s : SSAState DL typ μ}

/-- Another value has the same bits. -/
def SameValue (f : IRValue → IRValue) (regs : Registers DL typ) (o : IRValue) : Prop :=
  typ (f o) = typ o ∧ (regs (f o)).toNat = (regs o).toNat

lemma SameValue.setWidth {regs : Registers DL typ} {o : IRValue} (h : SameValue f regs o)
    (width : ℕ) : (regs (f o)).setWidth width = (regs o).setWidth width :=
  BitVec.eq_of_toNat_eq (by rw [BitVec.toNat_setWidth, BitVec.toNat_setWidth, h.2])

/-- A function of a typed value. -/
lemma SameValue.congr {α : Type*} {regs : Registers DL typ} {o : IRValue}
    (h : SameValue f regs o) (g : (t : LLVMType) → BitVec (DL.getTypeSizeInBits t) → α) :
    g (typ (f o)) (regs (f o)) = g (typ o) (regs o) := by
  have hg : ∀ (t t' : LLVMType) (v : BitVec (DL.getTypeSizeInBits t))
      (v' : BitVec (DL.getTypeSizeInBits t')), t = t' → v.toNat = v'.toNat → g t v = g t' v' := by
    rintro t _ v v' rfl hv
    rw [BitVec.eq_of_toNat_eq hv]
  exact hg _ _ _ _ h.1 h.2

lemma values_map {regs : Registers DL typ} {operands : List IRValue}
    (h : ∀ o ∈ operands, SameValue f regs o) :
    values regs (operands.map f) = values regs operands := by
  unfold values
  rw [List.map_map]
  exact List.map_congr_left fun o ho => (h o ho).2

omit DL typ in
lemma lookup_map_snd (f : IRValue → IRValue) (phi : List (ℕ × IRValue)) (block : ℕ) :
    (phi.map fun o => (o.1, f o.2)).lookup block = (phi.lookup block).map f := by
  induction phi with
  | nil => rfl
  | cons o phi ih =>
    rw [List.map_cons, List.lookup_cons, List.lookup_cons, ih]
    split <;> rfl

/-- The phi nodes get the same values. -/
lemma setPhis_mapOperands {block dest : ℕ}
    (h : ∀ k phi, F.inst? ⟨dest, k⟩ = some (.phi phi) → ∀ o, phi.lookup block = some o →
      SameValue f s.regs o) :
    (F.mapOperands f).setPhis s.regs block dest = F.setPhis s.regs block dest := by
  funext v
  cases v with
  | inst q =>
    simp only [setPhis, inst?_mapOperands]
    split
    next hq =>
      obtain ⟨b, k⟩ := q
      obtain rfl : b = dest := hq
      cases hi : F.inst? ⟨b, k⟩ with
      | none => rfl
      | some i =>
        cases i with
        | phi phi =>
          simp only [Option.map_some, SSAInst.mapOperands, lookup_map_snd]
          cases ho : phi.lookup block with
          | none => rfl
          | some o => exact (h k phi hi o ho).setWidth _
        | _ => rfl
    next => rfl
  | argument n => rfl
  | constant c => rfl

/-- A step whose operands have the same values is the same step. -/
lemma step_mapOperands (hvalues : ∀ i, F.inst? s.pos = some i → ∀ o ∈ i.operands,
      SameValue f s.regs o)
    (hphis : ∀ i, F.inst? s.pos = some i → ∀ t ∈ i.targets, ∀ k phi,
      F.inst? ⟨t, k⟩ = some (.phi phi) → ∀ o, phi.lookup s.pos.block = some o →
        SameValue f s.regs o) :
    (F.mapOperands f).step sem s = F.step sem s := by
  have henter (i : SSAInst Op) (hi : F.inst? s.pos = some i) (t : ℕ) (ht : t ∈ i.targets) (m : μ) :
      (F.mapOperands f).enter s t m = F.enter s t m := by
    rw [enter, enter, setPhis_mapOperands (hphis i hi t ht)]
  unfold step
  rw [inst?_mapOperands]
  cases hi : F.inst? s.pos with
  | none => rfl
  | some i =>
    have hops := hvalues i hi
    rw [Option.map_some, Option.bind_some, Option.bind_some]
    cases i with
    | phi phi => rfl
    | cast op o =>
      have ho := hops o List.mem_cons_self
      exact congrArg some (congrArg (assign s · s.mem)
        (ho.congr fun t v => op.apply DL t (typ (.inst s.pos)) v))
    | cmpXchg pointer compareOperand newValue =>
      have hpointer := hops pointer (by simp [SSAInst.operands])
      have hcompare := hops compareOperand (by simp [SSAInst.operands])
      have hnew := hops newValue (by simp [SSAInst.operands])
      simp only [SSAInst.mapOperands]
      rw [hpointer.2]
      refine (hcompare.congr fun t v => (sem.cmpXchg (s.regs pointer).toNat _ v
        ((s.regs (f newValue)).setWidth _) s.mem).map fun r =>
          assign s ((r.1.concat r.2.1).setWidth _) r.2.2).trans ?_
      rw [hnew.setWidth]
    | extractCAS cas index =>
      have hcas := hops cas List.mem_cons_self
      exact congrArg some (congrArg (assign s · s.mem)
        (hcas.congr fun t v => extract v index _))
    | other op operands =>
      have hvals : values s.regs (operands.map f) = values s.regs operands := values_map hops
      simp only [SSAInst.mapOperands, hvals]
    | br dest => exact congrArg some (henter _ hi dest (List.mem_singleton_self dest) _)
    | condBr cond ifTrue ifFalse =>
      simp only [SSAInst.mapOperands]
      rw [(hops cond List.mem_cons_self).2]
      exact congrArg some (henter _ hi _ (by split <;> simp [SSAInst.targets]) _)
    | terminator op operands successors =>
      have hvals : values s.regs (operands.map f) = values s.regs operands := values_map hops
      simp only [SSAInst.mapOperands, hvals]
      refine Option.bind_congr fun r _ => ?_
      cases hdest : successors[r.1]? with
      | none => rfl
      | some dest => exact congrArg some (henter _ hi dest (List.mem_of_getElem? hdest) _)

end Congruence

/-! ## Replacing a register -/

section Replace

variable {p : InstPos} {w : IRValue}

@[simp] lemma sDom_mapOperands {q q' : InstPos} : (F.mapOperands f).SDom q q' ↔ F.SDom q q' := by
  unfold SDom
  rw [edge_mapOperands]

/-- The replacing value may stand wherever the register may: it has the same type and is defined
before. -/
structure Replaces (typ : IRValue → LLVMType) (F : SSAFunction Op) (p : InstPos) (w : IRValue) :
    Prop where
  /-- The types are the same. -/
  typ : typ w = typ (.inst p)
  /-- A replacing register is defined before the replaced one. -/
  before : ∀ q, w = .inst q → F.SDom q p

/-- A definition that dominates is replaced by one that dominates. -/
lemma Replaces.sDom (h : F.Replaces typ p w) {o : IRValue} {q x : InstPos}
    (hq : replaceValue p w o = .inst q) (ho : ∀ q, o = .inst q → F.SDom q x) :
    F.SDom q x := by
  unfold replaceValue at hq
  split at hq
  next hop => exact (h.before q hq).trans (ho p hop)
  next => exact ho q hq

/-- The function stays well-formed. -/
lemma WellFormed.replaceAllUsesWith (hF : F.WellFormed typ) (h : F.Replaces typ p w) :
    (F.replaceAllUsesWith p w).WellFormed typ := by
  have htyp (o : IRValue) : typ (replaceValue p w o) = typ o := by
    unfold replaceValue
    split
    next hop => rw [hop, h.typ]
    next => rfl
  constructor
  · intro x i hi q hq
    rw [SSAFunction.replaceAllUsesWith, inst?_mapOperands] at hi
    obtain ⟨j, hj, rfl⟩ := Option.map_eq_some_iff.mp hi
    rw [SSAInst.operands_mapOperands] at hq
    obtain ⟨o, ho, hoq⟩ := List.mem_map.mp hq
    exact sDom_mapOperands.mpr (h.sDom hoq fun q' hq' => hF.dominated x j hj q' (hq' ▸ ho))
  · intro x i hi t ht k phi hphi q hq
    rw [SSAFunction.replaceAllUsesWith, inst?_mapOperands] at hi hphi
    obtain ⟨j, hj, rfl⟩ := Option.map_eq_some_iff.mp hi
    obtain ⟨j', hj', hphi⟩ := Option.map_eq_some_iff.mp hphi
    rw [SSAInst.targets_mapOperands] at ht
    cases j' with
    | phi phi' =>
      obtain rfl := SSAInst.phi.inj hphi
      rw [lookup_map_snd] at hq
      obtain ⟨o, ho, hoq⟩ := Option.map_eq_some_iff.mp hq
      exact sDom_mapOperands.mpr
        (h.sDom hoq fun q' hq' => hF.incoming x j hj t ht k phi' hj' q' (hq' ▸ ho))
    | _ => cases hphi
  · intro x op o hi
    rw [SSAFunction.replaceAllUsesWith, inst?_mapOperands] at hi
    obtain ⟨j, hj, hi⟩ := Option.map_eq_some_iff.mp hi
    cases j with
    | cast op' o' =>
      obtain ⟨rfl, rfl⟩ := SSAInst.cast.inj hi
      rw [htyp]
      exact hF.casts x op' o' hj
    | _ => cases hi

/-- **Replacing a register changes no run**, if the other value is the same wherever the register
dominates. -/
theorem run_replaceAllUsesWith {sem : Semantics Op μ} (hF : F.WellFormed typ)
    (h : F.Replaces typ p w) {s₀ : SSAState DL typ μ}
    (hvalue : ∀ n s, F.run sem n s₀ = some s → F.SDom p s.pos →
      (s.regs w).toNat = (s.regs (.inst p)).toNat) (n : ℕ) :
    (F.replaceAllUsesWith p w).run sem n s₀ = F.run sem n s₀ := by
  induction n with
  | zero => rfl
  | succ n ih =>
    rw [run, run, ih]
    refine Option.bind_congr fun s hs => ?_
    -- the operands that are replaced here are dominated by the register
    have hsame (o : IRValue) (ho : ∀ q, o = .inst q → F.SDom q s.pos) :
        SameValue (replaceValue p w) s.regs o := by
      unfold SameValue
      by_cases hop : o = .inst p
      · have hreplaced : replaceValue p w o = w := if_pos hop
        rw [hreplaced, hop]
        exact ⟨h.typ, hvalue n s hs (ho p hop)⟩
      · have hkept : replaceValue p w o = o := if_neg hop
        rw [hkept]
        exact ⟨rfl, rfl⟩
    exact step_mapOperands
      (fun i hi o ho => hsame o fun q hq => hF.dominated s.pos i hi q (hq ▸ ho))
      (fun i hi t ht k phi hphi o ho => hsame o fun q hq =>
        hF.incoming s.pos i hi t ht k phi hphi q (hq ▸ ho))

end Replace

end SSAFunction

end GenMC
