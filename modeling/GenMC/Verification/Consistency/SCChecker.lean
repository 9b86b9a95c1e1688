import GenMC.Verification.PrefixViews
import GenMC.Verification.Consistency.SCOrder
import GenMC.Verification.Consistency.Visitor

/-!
# The consistency check for sequential consistency

`SCChecker::isConsistent` visits the labels that come after a label, along the immediate steps of
program order, thread creation and joining, reads-from, coherence and from-read, and fails if it
gets back to a label that it has not left yet.  From every label but the initializer it answers
whether a cycle of the full relations can be reached (`SCChecker.isConsistent_iff_not_scCycle`).
-/

namespace GenMC

open ExecutionGraph

namespace SCChecker

/-- The visitor `visitConsAcyclic1`. -/
def visitConsAcyclic1 : Visitor where
  table := [[{ step := .tc, state := 0 }, { step := .tj, state := 0 }, { step := .rf, state := 0 },
    { step := .co, state := 0 }, { step := .fr, state := 0 }, { step := .po, state := 0 }]]
  accepting _ := true

/-- `SCChecker::isConsistent`. -/
def isConsistent (g : ExecutionGraph) (e : Event) : Option Bool := visitConsAcyclic1.visit g 0 e

/-- All steps of the visitor count. -/
lemma proper_visitConsAcyclic1 : visitConsAcyclic1.Proper :=
  ⟨by simp [visitConsAcyclic1], by simp [visitConsAcyclic1]⟩

/-- The relations that the visitor follows. -/
def relations : List Neighbour := [.tc, .tj, .rf, .co, .fr, .po]

/-- A step of the visitor. -/
def Step (g : ExecutionGraph) (e e' : Event) : Prop := ∃ k ∈ relations, g.IsNeighbour e e' k

/-- The steps of the visitor. -/
lemma goes_iff {g : ExecutionGraph} {n n' : ℕ × Event} :
    visitConsAcyclic1.Goes g n n' ↔ n.1 = 0 ∧ n'.1 = 0 ∧ Step g n.2 n'.2 := by
  unfold Visitor.Goes Step
  cases hn : n.1 with
  | succ q => simp [visitConsAcyclic1]
  | zero =>
    simp [visitConsAcyclic1, relations, eq_comm (a := (0 : ℕ))]
    tauto

end SCChecker

namespace ExecutionGraph

/-- The links between threads fit together. -/
structure Threaded (g : ExecutionGraph) : Prop where
  /-- Begin labels start threads. -/
  begins : ∀ e, g.isa LabelBody.isThreadStart e → e.index = 0
  /-- The end of a thread is its last label. -/
  terminators : ∀ e, g.isa LabelBody.isTerminator e → ¬g.containsPos e.next
  /-- A created thread points to its create. -/
  creates : ∀ c t, g.createdOf c = some t → g.parentCreateOf ⟨t, 0⟩ = some c
  /-- The create that a thread points to has created the thread. -/
  created : ∀ c t, g.parentCreateOf ⟨t, 0⟩ = some c → g.isa LabelBody.isThreadCreate c →
    g.createdOf c = some t
  /-- A thread that has been joined has ended, and its end points to the join. -/
  joins : ∀ j t, g.joinedOf j = some t → g.parentJoinOf (g.lastPos t) = some j
  /-- The end of a thread points to a join of the thread. -/
  finishes : ∀ f j, g.parentJoinOf f = some j → g.joinedOf j = some f.thread

variable {g : ExecutionGraph}

/-- A label with a join pointer ends its thread. -/
lemma isThreadFinish_of_parentJoinOf {f j : Event} (h : g.parentJoinOf f = some j) :
    g.isa LabelBody.isThreadFinish f := by
  obtain ⟨lab, hlab, hjoin⟩ := Option.bind_eq_some_iff.mp h
  refine isa_iff.mpr ⟨lab, hlab, ?_⟩
  cases hb : lab.body with
  | threadFinish => rfl
  | _ =>
    rw [hb] at hjoin
    cases hjoin

/-- A label that creates a thread is a create. -/
lemma isThreadCreate_of_createdOf {c : Event} {t : ℕ} (h : g.createdOf c = some t) :
    g.isa LabelBody.isThreadCreate c := by
  obtain ⟨lab, hlab, hcreated⟩ := Option.bind_eq_some_iff.mp h
  refine isa_iff.mpr ⟨lab, hlab, ?_⟩
  cases hb : lab.body with
  | plain k =>
    cases k with
    | threadCreate => rfl
    | _ =>
      rw [hb] at hcreated
      cases hcreated
  | _ =>
    rw [hb] at hcreated
    cases hcreated

/-- Ends of threads are terminators. -/
lemma isTerminator_of_isThreadFinish {f : Event} (h : g.isa LabelBody.isThreadFinish f) :
    g.isa LabelBody.isTerminator f := by
  obtain ⟨lab, hlab, hfinish⟩ := isa_iff.mp h
  refine isa_iff.mpr ⟨lab, hlab, ?_⟩
  unfold LabelBody.isTerminator
  rw [hfinish, Bool.or_true, Bool.true_or]

/-! ## Immediate steps and the full relations -/

section Steps

/-- A label is after those before it in its thread. -/
lemma transGen_po {p e : Event} (h : g.Po p e) :
    Relation.TransGen (fun e e' => g.IsNeighbour e e' .po) p e := by
  obtain ⟨t, i⟩ := p
  obtain ⟨t', j⟩ := e
  obtain ⟨rfl, hlt, hpos⟩ : t = t' ∧ i < j ∧ g.containsPos ⟨t', j⟩ := h
  induction j with
  | zero => omega
  | succ j ih =>
    have hstep : g.IsNeighbour ⟨t, j⟩ ⟨t, j + 1⟩ .po := ⟨rfl, hpos⟩
    obtain hij | rfl := Nat.lt_succ_iff_lt_or_eq.mp hlt
    · refine (ih hij ?_).tail hstep
      exact containsPos_iff_lt.mpr ((Nat.lt_succ_self j).trans (containsPos_iff_lt.mp hpos))
    · exact .single hstep

variable (hg : Navigable g) (ht : Threaded g)
include hg

/-- The writes that overwrite what a read has read come after the first one of them. -/
lemma exists_frImm {r w' : Event} (h : g.Fr r w') :
    ∃ s, g.FrImm r s ∧ (s = w' ∨ g.Co s w') := by
  have hr := hg.wellFormed.readerLists
  have hs := hg.wellFormed.stores
  obtain ⟨w, hw, hco | ⟨rfl, a, ha, hmem⟩⟩ := h
  · obtain ⟨a, haddr, x, y, hsplit, hin⟩ := co_iff_split.mp hco
    have hwrite : g.isa LabelBody.isWrite w :=
      (hs.stores a w (hsplit ▸ List.mem_append_left _ hin)).1
    obtain ⟨s, hsucc, hs'⟩ := Relation.TransGen.head'_iff.mp (transGen_coImm hco)
    refine ⟨s, ⟨w, hw, .inl ⟨hwrite, hsucc⟩⟩, ?_⟩
    obtain ⟨b, u, v, hco'⟩ := hsucc
    have hmem : w' ∈ s :: v := (co_iff_mem hr hs hco').mp hco
    obtain rfl | hmem := List.mem_cons.mp hmem
    · exact .inl rfl
    · exact .inr (co_of_split hr hs (s := u ++ [w]) (by rw [hco', List.append_assoc]; rfl) hmem)
  · have hnot : g.isa LabelBody.isWrite .init = false := hg.isa_init_eq_false rfl
    obtain ⟨s, t, hco⟩ : ∃ s t, g.co a = s :: t := List.exists_cons_of_ne_nil
      (List.ne_nil_of_mem hmem)
    refine ⟨s, ⟨.init, hw, .inr ⟨hnot, a, ha, by rw [hco, List.head?_cons]⟩⟩, ?_⟩
    rw [hco] at hmem
    obtain rfl | hmem := List.mem_cons.mp hmem
    · exact .inl rfl
    · exact .inr (co_of_split hr hs (s := []) hco hmem)

/-- The first write that overwrites what a read has read is one of them. -/
lemma FrImm.fr {r w' : Event} (h : g.FrImm r w') : g.Fr r w' := by
  obtain ⟨w, hw, ⟨-, hco⟩ | ⟨hnot, a, ha, hhead⟩⟩ := h
  · exact ⟨w, hw, .inl (hco.co hg.wellFormed.readerLists hg.wellFormed.stores)⟩
  · have hinit := (hg.wellFormed.readerLists.sources r w hw).resolve_left
      (by rw [hnot]; exact Bool.false_ne_true)
    have heq := (hg.wellFormed.readerLists.positioned.initOnly w).mp hinit
    exact ⟨w, hw, .inr ⟨heq, a, ha, List.mem_of_mem_head? hhead⟩⟩

/-- Nothing comes before the initializer. -/
lemma not_scBefore_init {p : Event} : ¬g.SCBefore p .init := by
  obtain ⟨lab, hlab, hinit⟩ := isa_iff.mp hg.wellFormed.isa_init
  rintro (⟨-, hlt, -⟩ | hrf | ⟨a, -, hco⟩ | ⟨w, -, ⟨a, -, hco⟩ | ⟨-, a, -, hmem⟩⟩ |
    ⟨hc, -, hparent⟩ | ⟨-, t, hjoined, -⟩)
  · exact absurd hlt (Nat.not_lt_zero _)
  · have hread := isa_isRead_of_rfOf hrf
    rw [hg.isa_init_eq_false rfl] at hread
    cases hread
  · exact hg.init_notMem_co a (hco.subset (List.mem_cons_of_mem p List.mem_cons_self))
  · exact hg.init_notMem_co a (hco.subset (List.mem_cons_of_mem w List.mem_cons_self))
  · exact hg.init_notMem_co a hmem
  · -- the initializer counts as its own create, but it is none
    rw [show (⟨Event.init.thread, 0⟩ : Event) = .init from rfl, hlab, Option.bind_some] at hparent
    have hself : lab.body.parentCreate = some .init := by
      cases hb : lab.body <;> rw [hb] at hinit <;> first | rfl | cases hinit
    obtain rfl := Option.some.inj (hparent.symm.trans hself)
    rw [hg.isa_init_eq_false rfl] at hc
    cases hc
  · rw [hlab, Option.bind_some] at hjoined
    cases hb : lab.body <;> rw [hb] at hinit hjoined <;> first | cases hjoined | cases hinit

/-- What comes after a label other than the initializer is no initializer. -/
lemma ne_init_of_reflTransGen {e a : Event} (he : e ≠ .init)
    (h : Relation.ReflTransGen g.SCBefore e a) : a ≠ .init := by
  induction h with
  | refl => exact he
  | tail _ hstep _ =>
    rintro rfl
    exact not_scBefore_init hg hstep

include ht

/-- The visitor only follows the order of sequential consistency. -/
lemma scBefore_of_step {e e' : Event} (h : SCChecker.Step g e e') : g.SCBefore e e' := by
  obtain ⟨k, hk, h⟩ := h
  cases k with
  | tc =>
    refine .inr (.inr (.inr (.inr (.inl ⟨isThreadCreate_of_createdOf h.1,
      hg.containsPos_of_isNeighbour (k := .tc) h, ht.creates e _ h.1⟩))))
  | tj =>
    have hfinish := isThreadFinish_of_parentJoinOf h
    refine .inr (.inr (.inr (.inr (.inr ⟨hfinish, e.thread, ht.finishes e e' h, ?_⟩))))
    exact (lastPos_eq (containsPos_of_isa hfinish) (Bool.eq_false_iff.mpr
      (ht.terminators e (isTerminator_of_isThreadFinish hfinish)))).symm
  | rf => exact .inr (.inl h.1)
  | rfe => simp [SCChecker.relations] at hk
  | co => exact .inr (.inr (.inl (CoImm.co hg.wellFormed.readerLists hg.wellFormed.stores h)))
  | fr => exact .inr (.inr (.inr (.inl (FrImm.fr hg h))))
  | po =>
    obtain ⟨rfl, hpos⟩ := h
    exact .inl ⟨rfl, Nat.lt_succ_self _, hpos⟩

/-- The visitor follows the whole order, but for the reads from the initializer. -/
lemma transGen_step {p e : Event} (h : g.SCBefore p e) (hp : p ≠ .init) :
    Relation.TransGen (SCChecker.Step g) p e := by
  have hsteps : ∀ {k}, k ∈ SCChecker.relations → ∀ {p e},
      Relation.TransGen (fun e e' => g.IsNeighbour e e' k) p e →
        Relation.TransGen (SCChecker.Step g) p e :=
    fun hk _ _ h => Relation.TransGen.mono (fun _ _ h => ⟨_, hk, h⟩) _ _ h
  have hpo : ∀ {p e}, g.Po p e → Relation.TransGen (SCChecker.Step g) p e :=
    fun h => hsteps (k := .po) (by decide) (transGen_po h)
  have hco : ∀ {p e}, g.Co p e → Relation.TransGen (SCChecker.Step g) p e :=
    fun h => hsteps (k := .co) (by decide) (transGen_coImm h)
  obtain h | h | h | h | h | h := h
  · exact hpo h
  · have hwrite := (hg.wellFormed.readerLists.sources e p h).resolve_right fun hinit =>
      hp ((hg.wellFormed.readerLists.positioned.initOnly p).mp hinit)
    exact .single ⟨.rf, by decide, h, hwrite⟩
  · exact hco h
  · obtain ⟨s, hfr, heq | hafter⟩ := exists_frImm hg h
    · exact .single ⟨.fr, by decide, heq ▸ hfr⟩
    · exact .head ⟨.fr, by decide, hfr⟩ (hco hafter)
  · obtain ⟨hc, hpos, hparent⟩ := h
    have hbegin : SCChecker.Step g p ⟨e.thread, 0⟩ :=
      ⟨.tc, by decide, ht.created p e.thread hparent hc, rfl⟩
    obtain hzero | hlt := Nat.eq_zero_or_pos e.index
    · rw [← hzero] at hbegin
      exact .single hbegin
    · exact .head hbegin (hpo ⟨rfl, hlt, hpos⟩)
  · obtain ⟨-, t, hjoined, rfl⟩ := h
    exact .single ⟨.tj, by decide, ht.joins e t hjoined⟩

/-- **The visitor reaches what comes after a label.** -/
lemma reflTransGen_step_iff {e a : Event} (he : e ≠ .init) :
    Relation.ReflTransGen (SCChecker.Step g) e a ↔ Relation.ReflTransGen g.SCBefore e a := by
  constructor
  · exact Relation.ReflTransGen.mono (fun _ _ => scBefore_of_step hg ht) _ _
  · intro h
    induction h with
    | refl => exact .refl
    | tail hpath hstep ih =>
      exact ih.trans (transGen_step hg ht hstep
        (ne_init_of_reflTransGen hg he hpath)).to_reflTransGen

/-- The visitor finds the cycles. -/
lemma transGen_step_self_iff {a : Event} :
    Relation.TransGen (SCChecker.Step g) a a ↔ Relation.TransGen g.SCBefore a a := by
  constructor
  · exact Relation.TransGen.mono (fun _ _ => scBefore_of_step hg ht) _ _
  · intro h
    obtain ⟨b, hab, hba⟩ := Relation.TransGen.head'_iff.mp h
    -- no cycle goes through the initializer
    have hb : b ≠ .init := fun heq => not_scBefore_init hg (heq ▸ hab)
    have ha := ne_init_of_reflTransGen hg hb hba
    exact (transGen_step hg ht hab ha).trans_left ((reflTransGen_step_iff hg ht hb).mpr hba)

end Steps

end ExecutionGraph

namespace SCChecker

variable {g : ExecutionGraph}

/-- What the visitor reaches. -/
lemma reflTransGen_goes_iff {e : Event} {n : ℕ × Event} :
    Relation.ReflTransGen (visitConsAcyclic1.Goes g) (0, e) n ↔
      n.1 = 0 ∧ Relation.ReflTransGen (Step g) e n.2 := by
  constructor
  · intro h
    induction h with
    | refl => exact ⟨rfl, .refl⟩
    | tail _ hstep ih =>
      obtain ⟨-, hstate, hstep⟩ := goes_iff.mp hstep
      exact ⟨hstate, ih.2.tail hstep⟩
  · rintro ⟨hzero, h⟩
    obtain ⟨q, a⟩ := n
    obtain rfl : q = 0 := hzero
    change Relation.ReflTransGen (Step g) e a at h
    induction h with
    | refl => exact .refl
    | tail _ hstep ih => exact ih.tail (goes_iff.mpr ⟨rfl, rfl, hstep⟩)

/-- The cycles of the search are the cycles of the order. -/
lemma exists_cycle_iff (hg : Navigable g) (ht : Threaded g) {e : Event} (hinit : e ≠ .init) :
    (∃ n : ℕ × Event, visitConsAcyclic1.accepting n.1 = true ∧
      Relation.ReflTransGen (visitConsAcyclic1.Goes g) (0, e) n ∧
      Relation.TransGen (visitConsAcyclic1.Goes g) n n) ↔
    ∃ a, Relation.ReflTransGen g.SCBefore e a ∧ Relation.TransGen g.SCBefore a a := by
  constructor
  · rintro ⟨⟨q, a⟩, -, hreach, hcycle⟩
    obtain ⟨hzero, hreach⟩ := reflTransGen_goes_iff.mp hreach
    obtain rfl : q = 0 := hzero
    obtain ⟨⟨q', c⟩, hac, hca⟩ := Relation.TransGen.head'_iff.mp hcycle
    obtain ⟨-, hstate, hstep⟩ := goes_iff.mp hac
    obtain rfl : q' = 0 := hstate
    exact ⟨a, (reflTransGen_step_iff hg ht hinit).mp hreach, (transGen_step_self_iff hg ht).mp
      (Relation.TransGen.head' hstep (reflTransGen_goes_iff.mp hca).2)⟩
  · rintro ⟨a, hea, hcycle⟩
    obtain ⟨c, hac, hca⟩ :=
      Relation.TransGen.head'_iff.mp ((transGen_step_self_iff hg ht).mpr hcycle)
    exact ⟨(0, a), rfl,
      reflTransGen_goes_iff.mpr ⟨rfl, (reflTransGen_step_iff hg ht hinit).mpr hea⟩,
      Relation.TransGen.head' (goes_iff.mpr ⟨rfl, rfl, hac⟩)
        (reflTransGen_goes_iff (n := (0, a)).mpr ⟨rfl, hca⟩)⟩

/-- What passes the check does not lead to a cycle. -/
lemma not_cycle_of_isConsistent (hg : Navigable g) (ht : Threaded g) {e a : Event}
    (he : g.containsPos e) (hinit : e ≠ .init) (h : isConsistent g e = some true)
    (hea : Relation.ReflTransGen g.SCBefore e a) : ¬Relation.TransGen g.SCBefore a a := by
  intro hcycle
  obtain ⟨b, hb, hiff⟩ := Visitor.visit_spec hg proper_visitConsAcyclic1 (q := 0)
    (by simp [visitConsAcyclic1]) he
  have htrue : b = true := Option.some.inj (hb.symm.trans h)
  exact hiff.mp htrue ((exists_cycle_iff hg ht hinit).mpr ⟨a, hea, hcycle⟩)

/-- **The check for sequential consistency decides** whether the label leads to a cycle of program
order, thread creation and joining, reads-from, coherence and from-read. -/
theorem isConsistent_iff_not_scCycle (hg : Navigable g) (ht : Threaded g) {e : Event}
    (he : g.containsPos e) (hinit : e ≠ .init) : ∃ b, isConsistent g e = some b ∧ (b = true ↔
      ∀ a, Relation.ReflTransGen g.SCBefore e a → ¬Relation.TransGen g.SCBefore a a) := by
  obtain ⟨b, hb, hiff⟩ := Visitor.visit_spec hg proper_visitConsAcyclic1 (q := 0)
    (by simp [visitConsAcyclic1]) he
  refine ⟨b, hb, hiff.trans ?_⟩
  rw [exists_cycle_iff hg ht hinit]
  simp only [not_exists, not_and]

end SCChecker

/-! ## Checking a concrete graph -/

namespace ExecutionGraph

variable {g : ExecutionGraph}

/-- What is checked of a label. -/
def NavigationCheck (g : ExecutionGraph) (e : Event) : Prop :=
  (g.isa LabelBody.isRead e → (g.rfOf e).isSome) ∧
    (∀ w ∈ g.rfOf e, g.isa LabelBody.isWrite w → g.addrOf w = g.addrOf e) ∧
    (∀ t ∈ g.createdOf e, g.containsPos ⟨t, 0⟩ ∧ g.parentCreateOf ⟨t, 0⟩ = some e) ∧
    (g.isa LabelBody.isThreadStart e → e.index = 0) ∧
    (g.isa LabelBody.isTerminator e → ¬g.containsPos e.next) ∧
    (e.index = 0 → ∀ c ∈ g.parentCreateOf e, g.isa LabelBody.isThreadCreate c →
      g.createdOf c = some e.thread) ∧
    (∀ t ∈ g.joinedOf e, g.parentJoinOf (g.lastPos t) = some e) ∧
    ∀ j ∈ g.parentJoinOf e, g.joinedOf j = some e.thread

instance (g : ExecutionGraph) : DecidablePred (NavigationCheck g) := fun e => by
  unfold NavigationCheck
  infer_instance

/-- A well-formed graph whose labels pass the check can be navigated, and its threads are linked. -/
lemma navigable_of_check (hg : WellFormed g) (h : ∀ e ∈ g.positions, NavigationCheck g e) :
    Navigable g ∧ Threaded g := by
  have hlabel : ∀ {e lab}, g.getEventLabel e = some lab → NavigationCheck g e :=
    fun {e lab} hlab => h e (mem_positions.mpr (containsPos_iff.mpr ⟨lab, hlab⟩))
  have hisa : ∀ {p e}, g.isa p e → NavigationCheck g e := by
    intro p e he
    obtain ⟨lab, hlab, -⟩ := isa_iff.mp he
    exact hlabel hlab
  have hbind : ∀ {α : Type} {f : EventLabel → Option α} {e : Event} {a : α},
      (g.getEventLabel e).bind f = some a → NavigationCheck g e := by
    intro α f e a he
    obtain ⟨lab, hlab, -⟩ := Option.bind_eq_some_iff.mp he
    exact hlabel hlab
  refine ⟨⟨hg, fun r hr => (hisa hr).1 hr, fun r w hrf hw => (hbind hrf).2.1 w hrf hw,
    fun c t hc => ((hbind hc).2.2.1 t hc).1⟩, ⟨fun e he => (hisa he).2.2.2.1 he,
    fun e he => (hisa he).2.2.2.2.1 he, fun c t hc => ((hbind hc).2.2.1 t hc).2,
    fun c t hc hcreate => (hbind hc).2.2.2.2.2.1 rfl c hc hcreate,
    fun j t hj => (hbind hj).2.2.2.2.2.2.1 t hj, fun f j hf => (hbind hf).2.2.2.2.2.2.2 j hf⟩⟩

/-- Two threads that write to a location and then read the other one, both before the write of the
other thread. -/
def storeBuffering : ExecutionGraph :=
  (PartialRun.exec Mutation.apply initial
    [.addLabelToGraph { pos := ⟨0, 1⟩, body := .plain (.threadCreate 1) },
      .addNewThread,
      .addLabelToGraph { pos := ⟨1, 0⟩, body := .threadStart ⟨0, 1⟩ },
      .addLabelToGraph { pos := ⟨0, 2⟩, body := .write .write { addr := ⟨8⟩ } [] },
      .addStoreToCOAfter ⟨0, 2⟩ .init,
      .addLabelToGraph { pos := ⟨0, 3⟩, body := .read .read { addr := ⟨16⟩ } none false },
      .setRf ⟨0, 3⟩ (some .init),
      .addLabelToGraph { pos := ⟨1, 1⟩, body := .write .write { addr := ⟨16⟩ } [] },
      .addStoreToCOAfter ⟨1, 1⟩ .init,
      .addLabelToGraph { pos := ⟨1, 2⟩, body := .read .read { addr := ⟨8⟩ } none false },
      .setRf ⟨1, 2⟩ (some .init)]).getD initial

/-- The graph can be navigated. -/
lemma navigable_storeBuffering : Navigable storeBuffering ∧ Threaded storeBuffering :=
  navigable_of_check (WellFormed.of_check (by decide +kernel)) (by decide +kernel)

end ExecutionGraph

/-- The check finds the cycle of the two threads. -/
theorem SCChecker.storeBuffering_not_scCycle :
    ∃ b, SCChecker.isConsistent storeBuffering ⟨1, 2⟩ = some b ∧ (b = true ↔
      ∀ a, Relation.ReflTransGen storeBuffering.SCBefore ⟨1, 2⟩ a →
        ¬Relation.TransGen storeBuffering.SCBefore a a) :=
  SCChecker.isConsistent_iff_not_scCycle navigable_storeBuffering.1 navigable_storeBuffering.2
    (by decide +kernel) (by decide)

example : SCChecker.isConsistent storeBuffering ⟨1, 2⟩ = some false := by decide +kernel

end GenMC
