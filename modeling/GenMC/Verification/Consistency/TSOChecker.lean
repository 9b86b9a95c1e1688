import GenMC.ExecutionGraph.PendingRMW
import GenMC.Verification.Consistency.SCChecker

/-!
# The consistency check for total store order

`TSOChecker::isConsistent` searches for cycles with an automaton of four states.  In state 3 it is
at a label of the order; the other states walk down a thread from there, until they are at a label
that is ordered after it: any label in state 0, where the walk started at a label like a read or a
fence; a write, a fence, a create or the end of the thread in state 1; and a sequentially consistent
read in state 2, where the walk started at a sequentially consistent write.

`TSOChecker.isConsistent_iff_not_tsoCycle` reads the order off the automaton.  Reads from the own
thread and program order from a write to a later read are not part of it, so that the check passes
wherever the one for sequential consistency does, from every label but the initializer.
-/

namespace GenMC

open ExecutionGraph

/-- `isa<FenceLabel>`. -/
def LabelBody.isFence (b : LabelBody) : Bool := decide (b = .plain .fence)

namespace TSOChecker

section Definitions

variable (g : ExecutionGraph) (sc : Event → Bool)

/-- The labels before which a visit in state 1 stops. -/
def storeTargets : List (LabelBody → Bool) :=
  [LabelBody.isWrite, LabelBody.isFence, LabelBody.isThreadCreate, LabelBody.isThreadFinish]

/-- The labels that are ordered before all later ones of their threads. -/
def loadSources : List (LabelBody → Bool) :=
  [LabelBody.isRMWWrite, LabelBody.isRead, LabelBody.isFence, LabelBody.isThreadJoin,
    LabelBody.isThreadStart]

/-- Whether a label is a sequentially consistent write. -/
def isSCWrite (e : Event) : Bool := sc e && g.isa LabelBody.isWrite e

/-- Whether a label is a sequentially consistent read. -/
def isSCRead (e : Event) : Bool := sc e && g.isa LabelBody.isRead e

/-- The visitor `visitConsAcyclic1`; `sc` says which labels are sequentially consistent (`isSC`). -/
def visitConsAcyclic1 : Visitor where
  table :=
    [[{ step := .po, state := 0 }, { step := .po, state := 3 }],
      { step := .po, state := 1 } ::
        storeTargets.map fun p => { step := .po, target := g.isa p, state := 3 },
      [{ step := .po, state := 2 }, { step := .po, target := isSCRead g sc, state := 3 }],
      { step := .po, state := 1 } ::
        (loadSources.map fun p => { step := .po, source := g.isa p, state := 0 }) ++
        [{ step := .po, source := isSCWrite g sc, state := 2 }, { step := .co, state := 3 },
          { step := .fr, state := 3 }, { step := .rfe, state := 3 }] ++
        (storeTargets.map fun p => { step := .po, target := g.isa p, state := 3 }) ++
        { step := .po, source := isSCWrite g sc, target := isSCRead g sc, state := 3 } ::
        loadSources.map fun p => { step := .po, source := g.isa p, state := 3 }]
  accepting q := decide (q = 3)

/-- `TSOChecker::isConsistent`. -/
def isConsistent (e : Event) : Option Bool := (visitConsAcyclic1 g sc).visit g 3 e

end Definitions

variable {g : ExecutionGraph} {sc : Event → Bool}

/-- The visitor only follows program order until it is at a label of the order. -/
lemma proper_visitConsAcyclic1 : (visitConsAcyclic1 g sc).Proper := by
  constructor
  · simp [visitConsAcyclic1, storeTargets, loadSources]
  · simp [visitConsAcyclic1, storeTargets, loadSources]

/-- A label of one of the classes. -/
def InClass (g : ExecutionGraph) (ps : List (LabelBody → Bool)) (e : Event) : Prop :=
  ∃ p ∈ ps, g.isa p e

/-- Whether a visit in a state may have come from a label. -/
def Source (g : ExecutionGraph) (sc : Event → Bool) (e : Event) : ℕ → Prop
  | 0 => InClass g loadSources e
  | 1 => True
  | 2 => isSCWrite g sc e
  | _ => False

/-- Whether a visit in a state may stop at a label. -/
def Target (g : ExecutionGraph) (sc : Event → Bool) (e : Event) : ℕ → Prop
  | 0 => True
  | 1 => InClass g storeTargets e
  | 2 => isSCRead g sc e
  | _ => False

/-- Program order that total store order preserves. -/
def Ppo (g : ExecutionGraph) (sc : Event → Bool) (p e : Event) : Prop :=
  g.Po p e ∧ ∃ q, Source g sc p q ∧ Target g sc e q

/-- The order of total store order. -/
def TSOBefore (g : ExecutionGraph) (sc : Event → Bool) (p e : Event) : Prop :=
  Ppo g sc p e ∨ g.Co p e ∨ g.Fr p e ∨ g.IsNeighbour p e .rfe

/-- A step of the visitor between labels of the order. -/
def Jumps (g : ExecutionGraph) (sc : Event → Bool) (p e : Event) : Prop :=
  g.IsNeighbour p e .co ∨ g.IsNeighbour p e .fr ∨ g.IsNeighbour p e .rfe ∨
    g.IsNeighbour p e .po ∧ ∃ q, Source g sc p q ∧ Target g sc e q

/-- The states in which a visit may come from a label. -/
lemma source_iff {e : Event} {q : ℕ} : Source g sc e q ↔
    q = 0 ∧ InClass g loadSources e ∨ q = 1 ∨ q = 2 ∧ isSCWrite g sc e := by
  rcases q with _ | _ | _ | q <;> simp [Source]

/-- The pairs of labels of a thread that are ordered. -/
lemma exists_source_target_iff {p e : Event} : (∃ q, Source g sc p q ∧ Target g sc e q) ↔
    InClass g loadSources p ∨ InClass g storeTargets e ∨ isSCWrite g sc p ∧ isSCRead g sc e := by
  simp only [source_iff]
  constructor
  · rintro ⟨q, ⟨rfl, h⟩ | rfl | ⟨rfl, h⟩, ht⟩
    · exact .inl h
    · exact .inr (.inl ht)
    · exact .inr (.inr ⟨h, ht⟩)
  · rintro (h | h | ⟨h, ht⟩)
    · exact ⟨0, .inl ⟨rfl, h⟩, trivial⟩
    · exact ⟨1, .inr (.inl rfl), h⟩
    · exact ⟨2, .inr (.inr ⟨rfl, h⟩), ht⟩

/-- The steps of the visitor. -/
lemma goes_iff {n n' : ℕ × Event} : (visitConsAcyclic1 g sc).Goes g n n' ↔
    (n.1 = 3 ∧ n'.1 = 3 ∧ Jumps g sc n.2 n'.2) ∨
    (n.1 = 3 ∧ g.IsNeighbour n.2 n'.2 .po ∧ Source g sc n.2 n'.1) ∨
    (n.1 < 3 ∧ n'.1 = n.1 ∧ g.IsNeighbour n.2 n'.2 .po) ∨
    (n.1 < 3 ∧ n'.1 = 3 ∧ g.IsNeighbour n.2 n'.2 .po ∧ Target g sc n'.2 n.1) := by
  obtain ⟨q, e⟩ := n
  obtain ⟨q', e'⟩ := n'
  rcases q with _ | _ | _ | _ | q
  · simp [Visitor.Goes, visitConsAcyclic1, Target]
    grind
  · simp [Visitor.Goes, visitConsAcyclic1, Target, InClass]
    grind
  · simp [Visitor.Goes, visitConsAcyclic1, Target]
    grind
  · simp only [Jumps, exists_source_target_iff]
    simp only [source_iff, InClass]
    simp [Visitor.Goes, visitConsAcyclic1, or_and_right, exists_or]
    grind
  · simp [Visitor.Goes, visitConsAcyclic1]

/-! ## From the steps to the order -/

section Order

variable (hg : Navigable g)
include hg

/-- What the visitor jumps to is ordered after the label. -/
lemma Jumps.tsoBefore {p e : Event} (h : Jumps g sc p e) : TSOBefore g sc p e := by
  obtain h | h | h | ⟨⟨rfl, hpos⟩, hppo⟩ := h
  · exact .inr (.inl (CoImm.co hg.wellFormed.readerLists hg.wellFormed.stores h))
  · exact .inr (.inr (.inl (FrImm.fr hg h)))
  · exact .inr (.inr (.inr h))
  · exact .inl ⟨⟨rfl, Nat.lt_succ_self _, hpos⟩, hppo⟩

/-- Where the visitor is after some steps: at a label of the order, or on its way from one. -/
lemma of_transGen_goes {e : Event} {n : ℕ × Event}
    (h : Relation.TransGen ((visitConsAcyclic1 g sc).Goes g) (3, e) n) :
    (n.1 = 3 ∧ Relation.TransGen (TSOBefore g sc) e n.2) ∨
      (n.1 < 3 ∧ ∃ c, Relation.ReflTransGen (TSOBefore g sc) e c ∧ Source g sc c n.1 ∧
        g.Po c n.2) := by
  have hsource : ∀ {c q}, Source g sc c q → q < 3 := by
    intro c q hc
    obtain ⟨rfl, -⟩ | rfl | ⟨rfl, -⟩ := source_iff.mp hc <;> omega
  have hpo : ∀ {p e}, g.IsNeighbour p e .po → g.Po p e := by
    rintro p e ⟨rfl, hpos⟩
    exact ⟨rfl, Nat.lt_succ_self _, hpos⟩
  -- one more step, from a label of the order or on the way from one
  have hjump : ∀ {c n'}, Relation.ReflTransGen (TSOBefore g sc) e c →
      (visitConsAcyclic1 g sc).Goes g (3, c) n' →
      (n'.1 = 3 ∧ Relation.TransGen (TSOBefore g sc) e n'.2) ∨
        (n'.1 < 3 ∧ ∃ c, Relation.ReflTransGen (TSOBefore g sc) e c ∧ Source g sc c n'.1 ∧
          g.Po c n'.2) := by
    intro c n' hec hstep
    obtain ⟨-, hq, hjump⟩ | ⟨-, hnext, hsrc⟩ | ⟨hlt, -⟩ | ⟨hlt, -⟩ := goes_iff.mp hstep
    · exact .inl ⟨hq, Relation.TransGen.tail' hec (hjump.tsoBefore hg)⟩
    · exact .inr ⟨hsource hsrc, c, hec, hsrc, hpo hnext⟩
    · exact absurd hlt (lt_irrefl _)
    · exact absurd hlt (lt_irrefl _)
  induction h with
  | single hstep => exact hjump .refl hstep
  | @tail n n' _ hstep ih =>
    obtain ⟨hq, hec⟩ | ⟨hq, c, hec, hsrc, hcn⟩ := ih
    · have heq : n = (3, n.2) := Prod.ext hq rfl
      rw [heq] at hstep
      exact hjump hec.to_reflTransGen hstep
    · have hlater : ∀ {e}, g.IsNeighbour n.2 e .po → g.Po c e := by
        intro e hnext
        obtain ⟨ht, hlt, hpos⟩ := hpo hnext
        exact ⟨hcn.1.trans ht, hcn.2.1.trans hlt, hpos⟩
      obtain ⟨hthree, -⟩ | ⟨hthree, -⟩ | ⟨-, heq, hnext⟩ | ⟨-, hthree, hnext, htarget⟩ :=
        goes_iff.mp hstep
      · omega
      · omega
      · exact .inr ⟨heq ▸ hq, c, hec, heq ▸ hsrc, hlater hnext⟩
      · exact .inl ⟨hthree, Relation.TransGen.tail' hec (.inl ⟨hlater hnext, n.1, hsrc, htarget⟩)⟩

/-- The visitor reaches what is ordered after a label. -/
lemma transGen_goes {p e : Event} (h : TSOBefore g sc p e) :
    Relation.TransGen ((visitConsAcyclic1 g sc).Goes g) (3, p) (3, e) := by
  have hjumps : ∀ {k : Neighbour}, (∀ {p e}, g.IsNeighbour p e k → Jumps g sc p e) → ∀ {p e},
      Relation.TransGen (fun p e => g.IsNeighbour p e k) p e →
        Relation.TransGen ((visitConsAcyclic1 g sc).Goes g) (3, p) (3, e) := by
    intro k hk p e hpe
    induction hpe with
    | single hstep => exact .single (goes_iff.mpr (.inl ⟨rfl, rfl, hk hstep⟩))
    | tail _ hstep ih => exact ih.tail (goes_iff.mpr (.inl ⟨rfl, rfl, hk hstep⟩))
  obtain ⟨hpo, q, hsrc, htarget⟩ | hco | hfr | hrfe := h
  · have hq : q < 3 := by
      obtain ⟨rfl, -⟩ | rfl | ⟨rfl, -⟩ := source_iff.mp hsrc <;> omega
    -- the walk down the thread
    obtain ⟨b, hreach, hbe⟩ := Relation.TransGen.tail'_iff.mp (transGen_po hpo)
    obtain rfl | hpb := Relation.reflTransGen_iff_eq_or_transGen.mp hreach
    · exact .single (goes_iff.mpr (.inl ⟨rfl, rfl, .inr (.inr (.inr ⟨hbe, q, hsrc, htarget⟩))⟩))
    · refine Relation.TransGen.tail (b := (q, b)) ?_
        (goes_iff.mpr (.inr (.inr (.inr ⟨hq, rfl, hbe, htarget⟩))))
      clear hbe hreach
      induction hpb with
      | single hstep => exact .single (goes_iff.mpr (.inr (.inl ⟨rfl, hstep, hsrc⟩)))
      | tail _ hstep ih => exact ih.tail (goes_iff.mpr (.inr (.inr (.inl ⟨hq, rfl, hstep⟩))))
  · exact hjumps (k := .co) .inl (transGen_coImm hco)
  · obtain ⟨s, hs, hafter⟩ := exists_frImm hg hfr
    have himm : g.IsNeighbour p s .fr := hs
    obtain rfl | hafter := hafter
    · exact .single (goes_iff.mpr (.inl ⟨rfl, rfl, .inr (.inl himm)⟩))
    · exact .head (goes_iff.mpr (.inl ⟨rfl, rfl, .inr (.inl himm)⟩))
        (hjumps (k := .co) .inl (transGen_coImm hafter))
  · exact .single (goes_iff.mpr (.inl ⟨rfl, rfl, .inr (.inr (.inl hrfe))⟩))

/-- The labels of the order that the visitor reaches. -/
lemma transGen_goes_iff {p e : Event} :
    Relation.TransGen ((visitConsAcyclic1 g sc).Goes g) (3, p) (3, e) ↔
      Relation.TransGen (TSOBefore g sc) p e := by
  constructor
  · intro h
    obtain ⟨-, h⟩ | ⟨hlt, -⟩ := of_transGen_goes hg h
    · exact h
    · exact absurd hlt (lt_irrefl _)
  · intro h
    induction h with
    | single hstep => exact transGen_goes hg hstep
    | tail _ hstep ih => exact ih.trans (transGen_goes hg hstep)

end Order

/-- The cycles of the search are the cycles of the order. -/
lemma exists_cycle_iff (hg : Navigable g) {e : Event} :
    (∃ n : ℕ × Event, (visitConsAcyclic1 g sc).accepting n.1 = true ∧
      Relation.ReflTransGen ((visitConsAcyclic1 g sc).Goes g) (3, e) n ∧
      Relation.TransGen ((visitConsAcyclic1 g sc).Goes g) n n) ↔
    ∃ a, Relation.ReflTransGen (TSOBefore g sc) e a ∧ Relation.TransGen (TSOBefore g sc) a a := by
  have hreach : ∀ a, Relation.ReflTransGen ((visitConsAcyclic1 g sc).Goes g) (3, e) (3, a) ↔
      Relation.ReflTransGen (TSOBefore g sc) e a := by
    intro a
    rw [Relation.reflTransGen_iff_eq_or_transGen, Relation.reflTransGen_iff_eq_or_transGen,
      transGen_goes_iff hg, Prod.mk.injEq]
    simp
  constructor
  · rintro ⟨⟨q, a⟩, hq, hea, hcycle⟩
    obtain rfl : q = 3 := of_decide_eq_true hq
    exact ⟨a, (hreach a).mp hea, (transGen_goes_iff hg).mp hcycle⟩
  · rintro ⟨a, hea, hcycle⟩
    exact ⟨(3, a), rfl, (hreach a).mpr hea, (transGen_goes_iff hg).mpr hcycle⟩

/-- **The check for total store order decides** whether the label leads to a cycle of the preserved
program order, coherence, from-read and reads-from between threads. -/
theorem isConsistent_iff_not_tsoCycle (hg : Navigable g) {e : Event} (he : g.containsPos e) :
    ∃ b, isConsistent g sc e = some b ∧ (b = true ↔ ∀ a,
      Relation.ReflTransGen (TSOBefore g sc) e a → ¬Relation.TransGen (TSOBefore g sc) a a) := by
  obtain ⟨b, hb, hiff⟩ := Visitor.visit_spec hg proper_visitConsAcyclic1 (q := 3)
    (by simp [visitConsAcyclic1]) he
  refine ⟨b, hb, hiff.trans ?_⟩
  rw [exists_cycle_iff hg]
  simp only [not_exists, not_and]

/-- Store buffering passes the check for total store order. -/
theorem storeBuffering_not_tsoCycle :
    ∃ b, isConsistent storeBuffering (fun _ => false) ⟨1, 2⟩ = some b ∧ (b = true ↔
      ∀ a, Relation.ReflTransGen (TSOBefore storeBuffering fun _ => false) ⟨1, 2⟩ a →
        ¬Relation.TransGen (TSOBefore storeBuffering fun _ => false) a a) :=
  isConsistent_iff_not_tsoCycle navigable_storeBuffering.1 (by decide +kernel)

example : isConsistent storeBuffering (fun _ => false) ⟨1, 2⟩ = some true := by decide +kernel

example : isConsistent storeBuffering (fun _ => true) ⟨1, 2⟩ = some false := by decide +kernel

/-- Total store order is a part of the order of sequential consistency. -/
lemma TSOBefore.scBefore {p e : Event} (h : TSOBefore g sc p e) : g.SCBefore p e := by
  obtain ⟨hpo, -⟩ | hco | hfr | hrfe := h
  · exact .inl hpo
  · exact .inr (.inr (.inl hco))
  · exact .inr (.inr (.inr (.inl hfr)))
  · exact .inr (.inl hrfe.1)

/-- **Total store order is weaker than sequential consistency**: what passes the check for the
latter passes the check for the former, whichever labels are sequentially consistent. -/
theorem isConsistent_of_sc (hg : Navigable g) (ht : Threaded g) {e : Event} (he : g.containsPos e)
    (hinit : e ≠ .init) (h : SCChecker.isConsistent g e = some true) (sc : Event → Bool) :
    isConsistent g sc e = some true := by
  obtain ⟨b, hb, hiff⟩ := Visitor.visit_spec hg (proper_visitConsAcyclic1 (g := g)) (q := 3)
    (by simp [visitConsAcyclic1]) he
  refine hb.trans (congrArg some (hiff.mpr fun hcycle => ?_))
  obtain ⟨a, hea, hcycle⟩ := (exists_cycle_iff hg).mp hcycle
  exact SCChecker.not_cycle_of_isConsistent hg ht he hinit h
    (Relation.ReflTransGen.mono (fun _ _ => TSOBefore.scBefore) _ _ hea)
    (Relation.TransGen.mono (fun _ _ => TSOBefore.scBefore) _ _ hcycle)

/-- The sample graph passes both checks. -/
theorem sampleGraph_isConsistent : SCChecker.isConsistent sampleGraph ⟨1, 2⟩ = some true ∧
    isConsistent sampleGraph (fun _ => true) ⟨1, 2⟩ = some true := by
  have hsc : SCChecker.isConsistent sampleGraph ⟨1, 2⟩ = some true := by decide +kernel
  have hg := navigable_of_check wellFormed_sampleGraph (by decide +kernel)
  exact ⟨hsc, isConsistent_of_sc hg.1 hg.2 (by decide +kernel) (by decide) hsc _⟩

end TSOChecker

end GenMC
