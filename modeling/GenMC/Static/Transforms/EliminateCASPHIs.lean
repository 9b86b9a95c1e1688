import GenMC.Static.OperandReplacement

/-!
# Phi nodes of compare-exchanges

A phi node that has the value read by a compare-exchange on one way and the expected value on the
other one is replaced by the value read (`tryEliminateCASPHI`).  The expected value has to come from
the block of the compare-exchange, which is meant to be the way on which it was successful.  It is
not tested that this is so, nor that the extract of the value is computed on this way.

If the extract dominates the block of the phi node, the two values are the same exactly on the runs
that go from the compare-exchange to the phi node only after the expected value was read
(`phi_eq_extract_iff`), and then the replacement changes no run (`run_tryEliminateCASPHI`).
-/

namespace GenMC

namespace SSAFunction

variable {Op μ : Type*} {DL : DataLayout} {typ : IRValue → LLVMType} (F : SSAFunction Op)

/-- `hasPHIIncomingExtract`; extracts from other aggregates are not told apart. -/
def hasPHIIncomingExtract (incoming : List (ℕ × IRValue)) : Option InstPos :=
  incoming.findSome? fun o =>
    match o.2 with
    | .inst q =>
      match F.inst? q with
      | some (.extractCAS _ _) => some q
      | _ => none
    | _ => none

/-- The phi nodes among the users of a register. -/
def phiUsers (p : InstPos) : List InstPos :=
  F.layout.filter fun q =>
    match F.inst? q with
    | some (.phi incoming) => incoming.any fun o => o.2 = .inst p
    | _ => false

/-- The incoming value `otherId`, with its block. -/
def otherIncoming (in₀ in₁ : ℕ × IRValue) (e : InstPos) : ℕ × IRValue :=
  if in₀.2 = .inst e then in₁ else in₀

/-- The tests of `tryEliminateCASPHI`: the extract that replaces the phi node.  `dominates` is the
dominator tree. -/
def tryEliminateCASPHI (dominates : InstPos → InstPos → Bool) (phi : InstPos) : Option InstPos :=
  match F.inst? phi with
  | some (.phi [in₀, in₁]) =>
    match F.hasPHIIncomingExtract [in₀, in₁] with
    | some e =>
      match F.inst? e with
      | some (.extractCAS (.inst cas) _) =>
        match F.inst? cas with
        | some (.cmpXchg _ compareOperand _) =>
          if compareOperand ≠ (otherIncoming in₀ in₁ e).2 then none
          -- when we are coming from the block of the compare-exchange
          else if (otherIncoming in₀ in₁ e).1 ≠ cas.block then none
          else if (F.phiUsers phi).any (dominates · phi) then none
          else some e
        | _ => none
      | _ => none
    | none => none
  | _ => none

/-- What the verifier of LLVM checks besides dominance. -/
structure Verified (typ : IRValue → LLVMType) (F : SSAFunction Op) : Prop
    extends WellFormed typ F where
  /-- Nothing follows a terminator. -/
  last : ∀ p i, F.inst? p = some i → i.isTerminator = true → F.inst? p.next = none
  /-- A phi node has a value for every branch to its block. -/
  covered : ∀ p i, F.inst? p = some i → ∀ t ∈ i.targets, ∀ k phi,
    F.inst? ⟨t, k⟩ = some (.phi phi) → (phi.lookup p.block).isSome
  /-- A phi node has one value for a block. -/
  single : ∀ p phi, F.inst? p = some (.phi phi) → ∀ o ∈ phi, ∀ o' ∈ phi, o.1 = o'.1 → o.2 = o'.2
  /-- The incoming values have the type of the phi node. -/
  phis : ∀ p phi, F.inst? p = some (.phi phi) → ∀ o ∈ phi, typ o.2 = typ (.inst p)
  /-- Extracts take parts of results of compare-exchanges. -/
  extracts : ∀ p a index, F.inst? p = some (.extractCAS a index) →
    ∃ t, typ a = .casResult t ∧ typ (.inst p) = if index = 0 then t else .integer 1
  /-- A compare-exchange works on whole bytes. -/
  cmpXchgs : ∀ p pointer compareOperand newValue,
    F.inst? p = some (.cmpXchg pointer compareOperand newValue) →
      typ (.inst p) = .casResult (typ compareOperand) ∧ typ compareOperand ≠ .integer 1

/-- What the tests of the pass say about a phi node. -/
structure CASPhi (F : SSAFunction Op) (p e cas : InstPos) (compareOperand : IRValue) : Prop where
  /-- The phi node has the extract and the expected value as incoming values, the latter from the
  block of the compare-exchange. -/
  phi : ∃ o : ℕ × IRValue, o.2 = .inst e ∧
    (F.inst? p = some (.phi [(cas.block, compareOperand), o]) ∨
      F.inst? p = some (.phi [o, (cas.block, compareOperand)]))
  /-- The extract is one from the compare-exchange. -/
  isExtract : ∃ index, F.inst? e = some (.extractCAS (.inst cas) index)
  /-- The compare-exchange expects the other value. -/
  isCmpXchg : ∃ pointer newValue, F.inst? cas = some (.cmpXchg pointer compareOperand newValue)

variable {F}

lemma casPhi_of_tryEliminateCASPHI {dominates : InstPos → InstPos → Bool} {p e : InstPos}
    (h : F.tryEliminateCASPHI dominates p = some e) :
    ∃ cas compareOperand, F.CASPhi p e cas compareOperand := by
  unfold tryEliminateCASPHI at h
  split at h
  case h_2 => cases h
  next in₀ in₁ hphi =>
  split at h
  case h_2 => cases h
  next e' hextract =>
  split at h
  case h_2 => cases h
  next cas index he =>
  split at h
  case h_2 => cases h
  next pointer compareOperand newValue hcas =>
  simp only [ne_eq, ite_not] at h
  split at h
  case isFalse => cases h
  next hcompare =>
  split at h
  case isFalse => cases h
  next hblock =>
  split at h
  case isTrue => cases h
  obtain rfl := Option.some.inj h
  -- the extract is one of the two incoming values
  obtain ⟨o, ho, hoe⟩ := List.exists_of_findSome?_eq_some hextract
  have hoe : o.2 = .inst e' := by
    split at hoe
    case h_2 => cases hoe
    next q hq =>
      split at hoe
      case h_2 => cases hoe
      exact hq.trans (congrArg IRValue.inst (Option.some.inj hoe))
  refine ⟨cas, compareOperand, ?_, ⟨index, he⟩, pointer, newValue, hcas⟩
  unfold otherIncoming at hcompare hblock
  by_cases h₀ : in₀.2 = .inst e'
  · rw [if_pos h₀] at hcompare hblock
    refine ⟨in₀, h₀, Or.inr ?_⟩
    rw [hphi, ← hblock, hcompare]
  · rw [if_neg h₀] at hcompare hblock
    obtain rfl | ho := List.mem_cons.mp ho
    · exact absurd hoe h₀
    · obtain rfl := List.mem_singleton.mp ho
      refine ⟨o, hoe, Or.inl ?_⟩
      rw [hphi, ← hblock, hcompare]

/-! ## The values on the two ways -/

/-- The compare-exchange has read the value that it expects. -/
def ReadsExpected (cas : InstPos) (compareOperand : IRValue) (regs : Registers DL typ) : Prop :=
  (extract (regs (.inst cas)) 0 (DL.getTypeSizeInBits (typ compareOperand))).toNat =
    (regs compareOperand).toNat

section Values

variable {sem : Semantics Op μ} {p e cas : InstPos} {compareOperand : IRValue}

/-- The incoming values of the phi node. -/
lemma CASPhi.exists_mem (h : F.CASPhi p e cas compareOperand) :
    ∃ incoming block, F.inst? p = some (.phi incoming) ∧ (cas.block, compareOperand) ∈ incoming ∧
      (block, .inst e) ∈ incoming ∧
      ∀ o ∈ incoming, o = (cas.block, compareOperand) ∨ o = (block, .inst e) := by
  obtain ⟨⟨block, o⟩, rfl, hphi | hphi⟩ := h.phi
  · exact ⟨_, block, hphi, by simp, by simp, by simp⟩
  · exact ⟨_, block, hphi, by simp, by simp, by simp [or_comm]⟩

lemma mem_of_lookup {incoming : List (ℕ × IRValue)} {block : ℕ} {o : IRValue}
    (h : incoming.lookup block = some o) : (block, o) ∈ incoming := by
  obtain ⟨l₁, l₂, rfl, -⟩ := List.lookup_eq_some_iff.mp h
  exact List.mem_append_right l₁ List.mem_cons_self

/-- The incoming value of the phi node for a block. -/
lemma CASPhi.lookup (h : F.CASPhi p e cas compareOperand) (hF : F.Verified typ)
    {incoming : List (ℕ × IRValue)} (hp : F.inst? p = some (.phi incoming)) {block : ℕ}
    {o : IRValue} (ho : incoming.lookup block = some o) :
    (block = cas.block ∧ o = compareOperand) ∨ (block ≠ cas.block ∧ o = .inst e) := by
  obtain ⟨incoming', block', hphi, hcompare, -, hall⟩ := h.exists_mem
  obtain rfl := SSAInst.phi.inj (Option.some.inj (hp.symm.trans hphi))
  have hmem := mem_of_lookup ho
  by_cases hblock : block = cas.block
  · -- the phi node has one value for the block
    exact Or.inl ⟨hblock, hF.single p _ hp _ hmem _ hcompare hblock⟩
  · obtain heq | heq := hall _ hmem
    · exact absurd (congrArg Prod.fst heq) hblock
    · exact Or.inr ⟨hblock, congrArg Prod.snd heq⟩

/-- The phi node, the extract and the expected value have one type; the extract takes the value and
not the bit, which no compare-exchange works on. -/
lemma CASPhi.types (h : F.CASPhi p e cas compareOperand) (hF : F.Verified typ) :
    typ (.inst e) = typ (.inst p) ∧ typ compareOperand = typ (.inst p) ∧
      F.inst? e = some (.extractCAS (.inst cas) 0) := by
  obtain ⟨incoming, block, hphi, hcompare, hextract, -⟩ := h.exists_mem
  obtain ⟨index, he⟩ := h.isExtract
  obtain ⟨pointer, newValue, hcas⟩ := h.isCmpXchg
  have hte : typ (.inst e) = typ (.inst p) := hF.phis p _ hphi _ hextract
  have htc : typ compareOperand = typ (.inst p) := hF.phis p _ hphi _ hcompare
  obtain ⟨t, -, htype⟩ := hF.extracts e _ index he
  obtain ⟨-, hbit⟩ := hF.cmpXchgs cas _ _ _ hcas
  obtain rfl : index = 0 := by
    by_contra hindex
    rw [if_neg hindex] at htype
    exact hbit (htc.trans (hte.symm.trans htype))
  exact ⟨hte, htc, he⟩

variable {s s' : SSAState DL typ μ}

/-- The branch to the block of a phi node: the phi node gets one of its incoming values, and no
other instruction changes its register. -/
lemma enter_phi (hF : F.Verified typ) {incoming : List (ℕ × IRValue)}
    (hp : F.inst? p = some (.phi incoming)) (hstep : F.step sem s = some s')
    (hpos : s'.pos = ⟨p.block, 0⟩) :
    ∃ o, incoming.lookup s.pos.block = some o ∧
      (s'.regs (.inst p)).toNat = (s.regs o).toNat ∧
      ∀ q i, F.inst? q = some i → i.isPhi = false → s'.regs (.inst q) = s.regs (.inst q) := by
  obtain ⟨i, hi, ⟨-, t, ht, m, rfl⟩ | ⟨-, -, hnext, -⟩⟩ := step_cases hstep
  · obtain rfl : t = p.block := congrArg InstPos.block hpos
    obtain ⟨o, ho⟩ := Option.isSome_iff_exists.mp (hF.covered s.pos i hi p.block ht p.index _ hp)
    refine ⟨o, ho, ?_, fun q j hq hj => ?_⟩
    · have htyp : typ o = typ (.inst p) := hF.phis p _ hp _ (mem_of_lookup ho)
      have hregs : (F.enter s p.block m).regs (.inst p) = (s.regs o).setWidth _ := by
        simp only [enter, setPhis, hp, ho, if_true]
      rw [hregs, BitVec.toNat_setWidth, ← htyp, Nat.mod_eq_of_lt (s.regs o).isLt]
    · refine regs_enter_of_not_phi fun k phi hk hphi => ?_
      obtain rfl := IRValue.inst.inj hk
      obtain rfl := Option.some.inj (hq.symm.trans hphi)
      cases hj
  · rw [hpos] at hnext
    exact absurd (congrArg InstPos.index hnext) (Nat.succ_ne_zero _).symm

/-- The extract has the value that the compare-exchange has read. -/
lemma CASPhi.toNat_extract (h : F.CASPhi p e cas compareOperand) (hF : F.Verified typ)
    {s₀ : SSAState DL typ μ} (hs₀ : s₀.pos = entry) {n : ℕ} (hs : F.run sem n s₀ = some s)
    (hdom : F.SDom e s.pos) :
    (s.regs (.inst e)).toNat =
      (extract (s.regs (.inst cas)) 0 (DL.getTypeSizeInBits (typ compareOperand))).toNat := by
  obtain ⟨hte, htc, he⟩ := h.types hF
  rw [extract_of_dominated hF.toWellFormed he hs₀ hs hdom, hte, htc]

/-- **The phi node and the extract.**  The extract dominates the block of the phi node.  A run gives
both the same value at every evaluation of the phi node if and only if it goes there from the block
of the compare-exchange only after the expected value was read. -/
lemma phi_eq_extract_iff (hF : F.Verified typ) (h : F.CASPhi p e cas compareOperand)
    (hdom : F.SDom e ⟨p.block, 0⟩) {s₀ : SSAState DL typ μ} (hs₀ : s₀.pos = entry) {n : ℕ}
    (hs : F.run sem n s₀ = some s) (hstep : F.step sem s = some s')
    (hpos : s'.pos = ⟨p.block, 0⟩) :
    (s'.regs (.inst p)).toNat = (s'.regs (.inst e)).toNat ↔
      (s.pos.block = cas.block → ReadsExpected cas compareOperand s.regs) := by
  obtain ⟨incoming, -, hp, -⟩ := h.exists_mem
  obtain ⟨-, -, he⟩ := h.types hF
  obtain ⟨o, ho, hvalue, hkeep⟩ := enter_phi hF hp hstep hpos
  rw [hvalue, hkeep e _ he rfl]
  have hedge : F.Edge s.pos ⟨p.block, 0⟩ := hpos ▸ edge_of_step hstep
  obtain ⟨hblock, rfl⟩ | ⟨hblock, rfl⟩ := h.lookup hF hp ho
  · have hne : s.pos ≠ e := by
      -- the step is one of a terminator
      rintro rfl
      obtain ⟨i, hi, hedge⟩ := hedge
      obtain rfl := Option.some.inj (he.symm.trans hi)
      exact absurd (congrArg InstPos.index hedge) (Nat.succ_ne_zero _).symm
    rw [h.toNat_extract hF hs₀ hs (hdom.of_edge hedge hne)]
    exact ⟨fun heq _ => heq.symm, fun heq => (heq hblock).symm⟩
  · exact iff_of_true rfl fun hcas => absurd hcas hblock

/-- After a compare-exchange: if the bit is set, the value is the expected one. -/
lemma readsExpected_of_success (hF : F.Verified typ) {pointer newValue : IRValue}
    (hcas : F.inst? cas = some (.cmpXchg pointer compareOperand newValue))
    {s₀ : SSAState DL typ μ} (hs₀ : s₀.pos = entry) {n : ℕ} (hs : F.run sem n s₀ = some s)
    (hdom : F.SDom cas s.pos) (hbit : (s.regs (.inst cas)).getLsbD 0 = true) :
    ReadsExpected cas compareOperand s.regs := by
  refine holds_of_dominated (Q := fun regs => (regs (.inst cas)).getLsbD 0 = true →
    ReadsExpected cas compareOperand regs) hF.toWellFormed hcas rfl ?_ ?_ hs₀ hs hdom hbit
  · intro regs regs' hb hops hQ hbit
    have hcompare : regs' compareOperand = regs compareOperand :=
      hops _ (by simp [SSAInst.operands])
    rw [hb] at hbit
    have := hQ hbit
    unfold ReadsExpected at this ⊢
    rw [hb, hcompare, this]
  · rintro s s' rfl hreached hstep hbit
    rw [step, hcas, Option.bind_some] at hstep
    obtain ⟨⟨v, b, m⟩, hxchg, rfl⟩ := Option.map_eq_some_iff.mp hstep
    have hwidth : DL.getTypeSizeInBits (typ (.inst s.pos)) =
        DL.getTypeSizeInBits (typ compareOperand) + 1 := by
      rw [(hF.cmpXchgs s.pos _ _ _ hcas).1]
      rfl
    rw [regs_assign, BitVec.getLsbD_setWidth, hwidth, BitVec.getLsbD_concat_zero] at hbit
    obtain rfl : b = true := (Bool.and_eq_true_iff.mp hbit).2
    obtain rfl := sem.eq_of_success hxchg
    unfold ReadsExpected
    rw [regs_assign, regs_assign_operand hF.toWellFormed hcas hreached (by simp [SSAInst.operands])]
    refine congrArg BitVec.toNat (BitVec.eq_of_getLsbD_eq fun i hi => ?_)
    simp only [extract, if_true, BitVec.getLsbD_setWidth, BitVec.getLsbD_ushiftRight, hwidth, hi,
      decide_true, Bool.true_and, Nat.add_comm 1 i, BitVec.getLsbD_concat_succ]
    simp [hi]

/-- The way from the compare-exchange to the phi node is the one on which it was successful: the
block of the compare-exchange ends with a branch on the bit that goes to the block of the phi node
if the bit is set, and elsewhere otherwise. -/
lemma readsExpected_of_condBr (hF : F.Verified typ) (h : F.CASPhi p e cas compareOperand)
    {t x : InstPos} {ifFalse : ℕ} (hx : F.inst? x = some (.extractCAS (.inst cas) 1))
    (ht : F.inst? t = some (.condBr (.inst x) p.block ifFalse)) (hne : ifFalse ≠ p.block)
    {s₀ : SSAState DL typ μ} (hs₀ : s₀.pos = entry) {n : ℕ} (hs : F.run sem n s₀ = some s)
    (hst : s.pos = t) (hstep : F.step sem s = some s') (hpos : s'.pos = ⟨p.block, 0⟩) :
    ReadsExpected cas compareOperand s.regs := by
  subst hst
  obtain ⟨pointer, newValue, hcas⟩ := h.isCmpXchg
  have hdomx : F.SDom x s.pos := hF.dominated s.pos _ ht x List.mem_cons_self
  have hdom : F.SDom cas s.pos := (hF.dominated x _ hx cas List.mem_cons_self).trans hdomx
  refine readsExpected_of_success hF hcas hs₀ hs hdom ?_
  rw [step, ht, Option.bind_some] at hstep
  obtain rfl := Option.some.inj hstep
  have htaken : (s.regs (.inst x)).toNat = 1 := by
    by_contra hzero
    rw [if_neg hzero] at hpos
    exact hne (congrArg InstPos.block hpos)
  obtain ⟨c, -, htx⟩ := hF.extracts x _ 1 hx
  rw [extract_of_dominated hF.toWellFormed hx hs₀ hs hdomx] at htaken
  have hlow := congrArg (Nat.testBit · 0) htaken
  simp only [BitVec.testBit_toNat, extract, one_ne_zero, if_false, BitVec.getLsbD_setWidth] at hlow
  simp only [Nat.testBit_zero, Nat.one_mod, decide_true, Bool.and_eq_true] at hlow
  exact hlow.2.2

end Values

/-! ## Runs of the new function -/

section Runs

variable {sem : Semantics Op μ} {p e : InstPos} {s₀ : SSAState DL typ μ}

/-- Every evaluation of the phi node in a run gives it the value of the extract. -/
def EvaluatesToExtract (F : SSAFunction Op) (sem : Semantics Op μ) (s₀ : SSAState DL typ μ)
    (p e : InstPos) : Prop :=
  ∀ n s s', F.run sem n s₀ = some s → F.step sem s = some s' → s'.pos = ⟨p.block, 0⟩ →
    (s'.regs (.inst p)).toNat = (s'.regs (.inst e)).toNat

/-- A run goes from the block of the compare-exchange to the one of the phi node only after the
expected value was read. -/
def ExpectedOnEdge (F : SSAFunction Op) (sem : Semantics Op μ) (s₀ : SSAState DL typ μ)
    (p e : InstPos) : Prop :=
  ∀ n s s', F.run sem n s₀ = some s → F.step sem s = some s' → s'.pos = ⟨p.block, 0⟩ →
    ∀ cas compareOperand, F.CASPhi p e cas compareOperand → s.pos.block = cas.block →
      ReadsExpected cas compareOperand s.regs

/-- A block is entered at its beginning by terminators only, and the extract is not one. -/
lemma EvaluatesToExtract.eq_of_dominated {incoming : List (ℕ × IRValue)}
    (hp : F.inst? p = some (.phi incoming)) {i : SSAInst Op}
    (he : F.inst? e = some i) (hi : i.isPhi = false) (hdom : F.SDom e ⟨p.block, 0⟩)
    (hs₀ : s₀.pos = entry) (h : F.EvaluatesToExtract sem s₀ p e) {n : ℕ} {s : SSAState DL typ μ}
    (hs : F.run sem n s₀ = some s)
    (hafter : s.pos = ⟨p.block, 0⟩ ∨ F.SDom ⟨p.block, 0⟩ s.pos) :
    (s.regs (.inst p)).toNat = (s.regs (.inst e)).toNat := by
  induction n generalizing s with
  | zero =>
    obtain rfl := Option.some.inj hs
    rw [hs₀] at hafter
    obtain hafter | hafter := hafter
    · exact absurd (hafter ▸ .root) hdom
    · exact absurd .root hafter
  | succ n ih =>
    have hreached := reached_of_run hs₀ hs
    obtain ⟨s₁, h₁, hstep⟩ := Option.bind_eq_some_iff.mp hs
    have hreached₁ := reached_of_run hs₀ h₁
    by_cases hfirst : s.pos = ⟨p.block, 0⟩
    · exact h n s₁ s h₁ hstep hfirst
    · have hdom' : F.SDom ⟨p.block, 0⟩ s.pos := hafter.resolve_left hfirst
      have hafter₁ : s₁.pos = ⟨p.block, 0⟩ ∨ F.SDom ⟨p.block, 0⟩ s₁.pos :=
        or_iff_not_imp_left.mpr fun hne => hdom'.of_edge (edge_of_step hstep) hne
      -- neither of the two registers changes in this step
      have hkeep : s.regs (.inst p) = s₁.regs (.inst p) ∧ s.regs (.inst e) = s₁.regs (.inst e) := by
        obtain ⟨j, hj, ⟨-, t, -, m, rfl⟩ | ⟨-, hphi, -, hregs⟩⟩ := step_cases hstep
        · constructor
          · refine regs_enter_of_not_phi fun k phi hk hphi => ?_
            obtain rfl := IRValue.inst.inj hk
            exact hfirst rfl
          · refine regs_enter_of_not_phi fun k phi hk hphi => ?_
            obtain rfl := IRValue.inst.inj hk
            obtain rfl := Option.some.inj (he.symm.trans hphi)
            cases hi
        · constructor
          · by_cases hpos : s₁.pos = p
            · rw [hpos, hp] at hj
              obtain rfl := Option.some.inj hj
              rw [hphi rfl]
            · exact hregs _ fun h => hpos (IRValue.inst.inj h).symm
          · refine hregs _ fun h => ?_
            obtain rfl := IRValue.inst.inj h
            obtain heq | hdome := hafter₁
            · rw [← heq] at hdom
              exact Dominance.not_strictlyDominates_self hreached₁ hdom
            · exact hdome.asymm hdom hreached₁ hdome
      rw [hkeep.1, hkeep.2]
      exact ih h₁ hafter₁

/-- The extract may stand for the phi node. -/
lemma CASPhi.replaces {cas : InstPos} {compareOperand : IRValue}
    (h : F.CASPhi p e cas compareOperand) (hF : F.Verified typ) (hdom : F.SDom e ⟨p.block, 0⟩) :
    F.Replaces typ p (.inst e) := by
  refine ⟨(h.types hF).1, fun q hq => ?_⟩
  obtain rfl := IRValue.inst.inj hq
  exact SDom.of_first hdom p.index

/-- **Phi nodes of compare-exchanges.**  The pass replaces a phi node by an extract that dominates
its block.  A run gives them the same value at every evaluation of the phi node if and only if it
goes from the block of the compare-exchange to the phi node only after the expected value was read;
and then it is a run of the new function, too. -/
theorem tryEliminateCASPHI_preserves_iff (F : SSAFunction Op) (hF : F.Verified typ)
    (dominates : InstPos → InstPos → Bool) (p e : InstPos)
    (h : F.tryEliminateCASPHI dominates p = some e) (hdom : F.SDom e ⟨p.block, 0⟩)
    (sem : Semantics Op μ) (s₀ : SSAState DL typ μ) (hs₀ : s₀.pos = entry) :
    (F.EvaluatesToExtract sem s₀ p e ↔ F.ExpectedOnEdge sem s₀ p e) ∧
      (F.ExpectedOnEdge sem s₀ p e →
        ∀ n, (F.replaceAllUsesWith p (.inst e)).run sem n s₀ = F.run sem n s₀) := by
  obtain ⟨cas, compareOperand, hcas⟩ := casPhi_of_tryEliminateCASPHI h
  have hiff : F.EvaluatesToExtract sem s₀ p e ↔ F.ExpectedOnEdge sem s₀ p e := by
    constructor
    · intro heval n s s' hs hstep hpos cas' compareOperand' hcas'
      exact (phi_eq_extract_iff hF hcas' hdom hs₀ hs hstep hpos).mp (heval n s s' hs hstep hpos)
    · intro hedge n s s' hs hstep hpos
      exact (phi_eq_extract_iff hF hcas hdom hs₀ hs hstep hpos).mpr
        (hedge n s s' hs hstep hpos cas compareOperand hcas)
  refine ⟨hiff, fun hedge n => ?_⟩
  obtain ⟨incoming, -, hp, -⟩ := hcas.exists_mem
  obtain ⟨-, -, he⟩ := hcas.types hF
  refine run_replaceAllUsesWith hF.toWellFormed (hcas.replaces hF hdom) (fun n s hs hdomp => ?_) n
  have hafter : s.pos = ⟨p.block, 0⟩ ∨ F.SDom ⟨p.block, 0⟩ s.pos := by
    obtain hindex | hindex := Nat.eq_zero_or_pos p.index
    · have hp : p = ⟨p.block, 0⟩ := congrArg (InstPos.mk p.block) hindex
      exact Or.inr (by rwa [hp] at hdomp)
    · exact Or.inr ((sDom_of_lt hindex).trans hdomp)
  exact ((hiff.mpr hedge).eq_of_dominated hp he rfl hdom hs₀ hs hafter).symm

end Runs

/-! ## A compare-exchange and two ways -/

/-- A compare-exchange of bytes and a branch on its success; block 1 joins the ways. -/
def casJoin (ifTrue ifFalse : ℕ) : SSAFunction Unit :=
  ⟨[[.cmpXchg (.argument 0) (.argument 1) (.argument 2), .extractCAS (.inst ⟨0, 0⟩) 0,
      .extractCAS (.inst ⟨0, 0⟩) 1, .condBr (.inst ⟨0, 2⟩) ifTrue ifFalse],
    [.phi [(0, .argument 1), (2, .inst ⟨0, 1⟩)], .terminator () [.inst ⟨1, 0⟩] []],
    [.br 1]]⟩

/-- The types of `casJoin`. -/
def casJoinTypes : IRValue → LLVMType
  | .inst ⟨0, 0⟩ => .casResult (.integer 8)
  | .inst ⟨0, 2⟩ => .integer 1
  | .argument 0 => .pointer
  | _ => .integer 8

lemma inst?_casJoin {ifTrue ifFalse : ℕ} {p : InstPos} {i : SSAInst Unit}
    (h : (casJoin ifTrue ifFalse).inst? p = some i) :
    (p, i) ∈ [((⟨0, 0⟩ : InstPos), SSAInst.cmpXchg (.argument 0) (.argument 1) (.argument 2)),
      (⟨0, 1⟩, .extractCAS (.inst ⟨0, 0⟩) 0), (⟨0, 2⟩, .extractCAS (.inst ⟨0, 0⟩) 1),
      (⟨0, 3⟩, .condBr (.inst ⟨0, 2⟩) ifTrue ifFalse),
      (⟨1, 0⟩, .phi [(0, .argument 1), (2, .inst ⟨0, 1⟩)]),
      (⟨1, 1⟩, .terminator () [.inst ⟨1, 0⟩] []), (⟨2, 0⟩, .br 1)] := by
  obtain ⟨b, k⟩ := p
  match b, k with
  | 0, 0 | 0, 1 | 0, 2 | 0, 3 | 1, 0 | 1, 1 | 2, 0 =>
    obtain rfl := Option.some.inj h
    simp
  | 0, k + 4 | 1, k + 2 | 2, k + 1 | b + 3, k => cases h

lemma sDom_casJoin {ifTrue ifFalse k : ℕ} {q : InstPos} (hk : k ≤ 3) (hq : q.block ≠ 0) :
    (casJoin ifTrue ifFalse).SDom ⟨0, k⟩ q := by
  refine sDom_of_entry hq fun j hj i hi => ?_
  have hmem := inst?_casJoin hi
  simp only [List.mem_cons, Prod.mk.injEq, InstPos.mk.injEq, List.not_mem_nil, or_false] at hmem
  obtain ⟨-, rfl⟩ | ⟨-, rfl⟩ | ⟨-, rfl⟩ | ⟨⟨-, rfl⟩, -⟩ | ⟨⟨h, -⟩, -⟩ | ⟨⟨h, -⟩, -⟩ | ⟨⟨h, -⟩, -⟩ :=
    hmem
  · rfl
  · rfl
  · rfl
  · omega
  · cases h
  · cases h
  · cases h

lemma casJoin_phi {ifTrue ifFalse : ℕ} {p : InstPos} {phi : List (ℕ × IRValue)}
    (h : (casJoin ifTrue ifFalse).inst? p = some (.phi phi)) :
    p = ⟨1, 0⟩ ∧ phi = [(0, .argument 1), (2, .inst ⟨0, 1⟩)] := by
  simpa using inst?_casJoin h

lemma casJoin_target {ifTrue ifFalse : ℕ} {p : InstPos} {i : SSAInst Unit}
    (h : (casJoin ifTrue ifFalse).inst? p = some i) {t : ℕ} (ht : t ∈ i.targets) :
    p = ⟨0, 3⟩ ∨ p = ⟨2, 0⟩ := by
  have hcases := inst?_casJoin h
  simp only [List.mem_cons, Prod.mk.injEq, List.not_mem_nil, or_false] at hcases
  obtain ⟨rfl, rfl⟩ | ⟨rfl, rfl⟩ | ⟨rfl, rfl⟩ | ⟨rfl, rfl⟩ | ⟨rfl, rfl⟩ | ⟨rfl, rfl⟩ | ⟨rfl, rfl⟩ :=
    hcases
  · cases ht
  · cases ht
  · cases ht
  · exact Or.inl rfl
  · cases ht
  · cases ht
  · exact Or.inr rfl

/-- The function passes the verifier. -/
lemma casJoin_verified (ifTrue ifFalse : ℕ) :
    (casJoin ifTrue ifFalse).Verified casJoinTypes where
  dominated p i hi q hq := by
    have hcases := inst?_casJoin hi
    simp only [List.mem_cons, Prod.mk.injEq, List.not_mem_nil, or_false] at hcases
    obtain ⟨rfl, rfl⟩ | ⟨rfl, rfl⟩ | ⟨rfl, rfl⟩ | ⟨rfl, rfl⟩ | ⟨rfl, rfl⟩ | ⟨rfl, rfl⟩ |
      ⟨rfl, rfl⟩ := hcases <;> simp [SSAInst.operands] at hq <;> subst hq <;>
      exact sDom_of_lt (by decide)
  incoming p i hi t ht k phi hphi q hq := by
    obtain ⟨-, rfl⟩ := casJoin_phi hphi
    obtain rfl | rfl := casJoin_target hi ht
    · cases hq
    · obtain rfl := IRValue.inst.inj (Option.some.inj hq)
      exact sDom_casJoin (by decide) (by decide)
  casts p op o hi := by simpa using inst?_casJoin hi
  last p i hi hterm := by
    have hcases := inst?_casJoin hi
    simp only [List.mem_cons, Prod.mk.injEq, List.not_mem_nil, or_false] at hcases
    obtain ⟨rfl, rfl⟩ | ⟨rfl, rfl⟩ | ⟨rfl, rfl⟩ | ⟨rfl, rfl⟩ | ⟨rfl, rfl⟩ | ⟨rfl, rfl⟩ |
      ⟨rfl, rfl⟩ := hcases <;> first | rfl | cases hterm
  covered p i hi t ht k phi hphi := by
    obtain ⟨-, rfl⟩ := casJoin_phi hphi
    obtain rfl | rfl := casJoin_target hi ht <;> rfl
  single p phi hphi := by
    obtain ⟨-, rfl⟩ := casJoin_phi hphi
    decide
  phis p phi hphi := by
    obtain ⟨rfl, rfl⟩ := casJoin_phi hphi
    decide
  extracts p a index hi := by
    have hcases := inst?_casJoin hi
    simp only [List.mem_cons, Prod.mk.injEq, List.not_mem_nil, or_false] at hcases
    obtain ⟨-, h⟩ | ⟨rfl, h⟩ | ⟨rfl, h⟩ | ⟨-, h⟩ | ⟨-, h⟩ | ⟨-, h⟩ | ⟨-, h⟩ := hcases <;> cases h
    · exact ⟨.integer 8, rfl, rfl⟩
    · exact ⟨.integer 8, rfl, rfl⟩
  cmpXchgs p pointer compareOperand newValue hi := by
    have hcases := inst?_casJoin hi
    simp only [List.mem_cons, Prod.mk.injEq, List.not_mem_nil, or_false] at hcases
    obtain ⟨rfl, h⟩ | ⟨-, h⟩ | ⟨-, h⟩ | ⟨-, h⟩ | ⟨-, h⟩ | ⟨-, h⟩ | ⟨-, h⟩ := hcases <;> cases h
    exact ⟨rfl, by decide⟩

/-- A compare-exchange of the byte in the memory. -/
def byteSemantics : Semantics Unit ℕ where
  exec _ _ m := some (0, m)
  choose _ _ _ := none
  cmpXchg _ width compareOperand newValue m :=
    let v := BitVec.ofNat width m
    some (v, v == compareOperand, if v == compareOperand then newValue.toNat else m)
  eq_of_success h := by
    simp only [Option.some.injEq, Prod.mk.injEq] at h
    obtain ⟨rfl, hsuccess, -⟩ := h
    exact eq_of_beq hsuccess

/-- A thread at the beginning of `casJoin` that expects 3 and finds 7. -/
def casJoinStart : SSAState .unpadded casJoinTypes ℕ :=
  ⟨⟨0, 0⟩, fun v => if v = .argument 1 then BitVec.ofNat _ 3 else 0#_, 7⟩

/-- The branch goes to the join if the compare-exchange was successful. -/
lemma casJoin_expectedOnEdge :
    (casJoin 1 2).ExpectedOnEdge byteSemantics casJoinStart ⟨1, 0⟩ ⟨0, 1⟩ := by
  intro n s s' hs hstep hpos cas compareOperand hcas hblock
  obtain ⟨index, hextract⟩ := hcas.isExtract
  obtain ⟨rfl, -⟩ : cas = ⟨0, 0⟩ ∧ index = 0 := by simpa using inst?_casJoin hextract
  have ht : s.pos = ⟨0, 3⟩ := by
    obtain ⟨i, hi, ⟨-, t, ht, -⟩ | ⟨-, -, hnext, -⟩⟩ := step_cases hstep
    · exact (casJoin_target hi ht).resolve_right fun h => by
        rw [h] at hblock
        cases hblock
    · rw [hpos] at hnext
      exact absurd (congrArg InstPos.index hnext) (Nat.succ_ne_zero _).symm
  have hx : (casJoin 1 2).inst? ⟨0, 2⟩ = some (.extractCAS (.inst ⟨0, 0⟩) 1) := rfl
  exact readsExpected_of_condBr (casJoin_verified 1 2) hcas hx rfl (by decide) rfl hs ht hstep hpos

/-- Every evaluation of the phi node gives the value that was read. -/
theorem tryEliminateCASPHI_preserves_casJoin :
    (casJoin 1 2).EvaluatesToExtract byteSemantics casJoinStart ⟨1, 0⟩ ⟨0, 1⟩ :=
  (tryEliminateCASPHI_preserves_iff (casJoin 1 2) (casJoin_verified 1 2) (fun _ _ => false)
    ⟨1, 0⟩ ⟨0, 1⟩ (by decide) (sDom_casJoin (by decide) (by decide)) byteSemantics casJoinStart
    rfl).1.mpr casJoin_expectedOnEdge

/-- The branch goes to the join if the compare-exchange has failed: the phi node gets the expected
value 3, and the extract has the value 7 that was read. -/
theorem tryEliminateCASPHI_failedEdge :
    (casJoin 2 1).tryEliminateCASPHI (fun _ _ => false) ⟨1, 0⟩ = some ⟨0, 1⟩ ∧
      ((casJoin 2 1).run byteSemantics 4 casJoinStart).map (fun s =>
        ((s.regs (.inst ⟨1, 0⟩)).toNat, (s.regs (.inst ⟨0, 1⟩)).toNat)) = some (3, 7) ∧
      ¬(casJoin 2 1).EvaluatesToExtract byteSemantics casJoinStart ⟨1, 0⟩ ⟨0, 1⟩ := by
  refine ⟨by decide, by decide, fun h => ?_⟩
  have hvalues : (3 : ℕ) = 7 := h 3 _ _ rfl rfl rfl
  cases hvalues

end SSAFunction

end GenMC
