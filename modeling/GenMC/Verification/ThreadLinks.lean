import GenMC.Verification.DriverRuns
import GenMC.Verification.Consistency.SCChecker

/-!
# Links between threads

The checkers step from a create to the thread it has created and from the end of a thread to the
join that waited for it.  `ThreadLinks` says that these steps lead to the right labels.  It is kept
where labels are taken away together with those that follow them (`KeepsThreads`), and where a label
is added that neither creates nor joins.
-/

namespace GenMC

/-- The create of a thread. -/
def LabelBody.isCreateOf (t : ℕ) (b : LabelBody) : Bool := decide (b.createdThread = some t)

/-- The begin of a thread that a create has started. -/
def LabelBody.isBegunBy (c : Event) (b : LabelBody) : Bool := decide (b.parentCreate = some c)

instance (t : ℕ) : ClassTest (LabelBody.isCreateOf t) := ⟨fun m b => by cases b <;> rfl⟩

instance (c : Event) : ClassTest (LabelBody.isBegunBy c) := ⟨fun m b => by cases b <;> rfl⟩

instance : ClassTest LabelBody.isTerminator := ⟨fun m b => by
  cases b <;> simp [LabelBody.isTerminator, LabelBody.mapFields, LabelBody.isBlock,
    LabelBody.isThreadFinish]⟩

namespace ExecutionGraph

variable {g g' : ExecutionGraph}

/-- A pointer of the label at a position, as a class of labels. -/
lemma bind_eq_some_iff_isa {α : Type*} [DecidableEq α] {f : LabelBody → Option α} {e : Event}
    {x : α} : ((g.getEventLabel e).bind fun lab => f lab.body) = some x ↔
      g.isa (fun b => decide (f b = some x)) e := by
  rw [Option.bind_eq_some_iff, isa_iff]
  simp only [decide_eq_true_eq]

/-- The creates of a thread. -/
lemma createdOf_eq_some_iff {c : Event} {t : ℕ} :
    g.createdOf c = some t ↔ g.isa (LabelBody.isCreateOf t) c := bind_eq_some_iff_isa

/-- The begins of the thread that a create has started. -/
lemma parentCreateOf_eq_some_iff {b c : Event} :
    g.parentCreateOf b = some c ↔ g.isa (LabelBody.isBegunBy c) b := bind_eq_some_iff_isa

/-- The joins of a thread. -/
lemma joinedOf_eq_some_iff {j : Event} {t : ℕ} :
    g.joinedOf j = some t ↔ g.isa (LabelBody.isJoinOf t) j := bind_eq_some_iff_isa

/-- The links between threads. -/
structure ThreadLinks (g : ExecutionGraph) : Prop extends Threaded g where
  /-- Created threads have labels. -/
  threads : ∀ c t, g.createdOf c = some t → g.containsPos ⟨t, 0⟩
  /-- Threads have been started by different creates. -/
  parents : ∀ t t' c, g.parentCreateOf ⟨t, 0⟩ = some c → g.parentCreateOf ⟨t', 0⟩ = some c → t = t'

/-! ## The pointers to joins -/

/-- The ends of the threads point to the same joins. -/
def SameJoins (g g' : ExecutionGraph) : Prop := ∀ f, g'.parentJoinOf f = g.parentJoinOf f

namespace SameJoins

lemma refl (g : ExecutionGraph) : SameJoins g g := fun _ => rfl

lemma trans {g'' : ExecutionGraph} (h : SameJoins g g') (h' : SameJoins g' g'') :
    SameJoins g g'' := fun f => (h' f).trans (h f)

/-- Labels with the same pointers. -/
lemma of_map (h : ∀ e, (g'.getEventLabel e).map (fun lab => lab.body.parentJoin) =
    (g.getEventLabel e).map fun lab => lab.body.parentJoin) : SameJoins g g' := by
  intro f
  have hmap := h f
  unfold parentJoinOf
  cases hlab : g.getEventLabel f <;> cases hlab' : g'.getEventLabel f <;>
    simp_all

/-- Labels with the same links. -/
lemma of_links (h : ∀ e, (g'.getEventLabel e).map (fun lab => lab.body.links) =
    (g.getEventLabel e).map fun lab => lab.body.links) : SameJoins g g' := by
  refine of_map fun e => ?_
  have hmap := congrArg (Option.map fun l : Option Event × List Event × Option Event ×
    Option Event × Option Event => l.2.2.2.2) (h e)
  rwa [Option.map_map, Option.map_map] at hmap

/-- Changing other fields of a label. -/
lemma updateLabel {m : FieldMap} (hm : m.parentJoin = id) (e : Event) :
    SameJoins g (g.updateLabel e (EventLabel.mapFields m)) :=
  of_map (map_getEventLabel_updateLabel (fun lab => by
    cases hb : lab.body <;> simp [EventLabel.mapFields, LabelBody.mapFields, LabelBody.parentJoin,
      hm, hb]) e)

/-- Changing what is not in the bodies. -/
lemma sameBodies (h : SameBodies g g') : SameJoins g g' := of_map (h.map_eq LabelBody.parentJoin)

/-- Changing coherence orders. -/
lemma turnsCO (h : TurnsCO g g') : SameJoins g g' := by
  intro f
  rw [h.eq]
  rfl

/-- Turning the source of a read. -/
lemma setRf {r : Event} {rf : Option Event} (h : g.setRf r rf = some g') : SameJoins g g' :=
  of_links (setRf_turnsReads h).links

/-- Listing an access at its allocation. -/
lemma addAlloc {aLab : Option Event} {m : Event} (h : g.addAlloc aLab m = some g') :
    SameJoins g g' := by
  unfold ExecutionGraph.addAlloc at h
  split at h
  · exact Option.some.inj h ▸ refl g
  · split at h
    · cases h
    · exact Option.some.inj h ▸ (updateLabel rfl m).trans (updateLabel rfl _)

/-- Repairing. -/
lemma repairDanglingReads (h : g.repairDanglingReads = some g') : SameJoins g g' := by
  have hstep : ∀ s t s', SameJoins g s → s.repairLast t = some s' → SameJoins g s' := ?_
  · exact PartialRun.foldlM_invariant (fun s t _ s' hs h => hstep s t s' hs h) (refl g) h
  intro s t s' hs hstep
  obtain ⟨lab, -, hstep⟩ := Option.bind_eq_some_iff.mp hstep
  split at hstep
  · obtain ⟨a, -, hstep⟩ := Option.bind_eq_some_iff.mp hstep
    obtain ⟨w, -, hstep⟩ := Option.bind_eq_some_iff.mp hstep
    obtain ⟨s₁, hset, hstep⟩ := Option.bind_eq_some_iff.mp hstep
    obtain rfl := Option.some.inj hstep
    exact ((hs.trans (setRf hset)).trans (updateLabel rfl _)).trans (updateLabel rfl _)
  · exact Option.some.inj hstep ▸ hs

end SameJoins

/-- Adding a label. -/
lemma parentJoinOf_addLabelToGraph {lab : EventLabel} (hnew : New lab)
    (h : g.addLabelToGraph lab = some g') (f : Event) :
    g'.parentJoinOf f = if f = lab.pos then none else g.parentJoinOf f := by
  unfold parentJoinOf
  rw [(addLabelToGraph_spec h).getEventLabel]
  split
  · rw [Option.bind_some, body_stamped]
    exact congrArg (fun l => l.2.2.2.2) hnew.links
  · rfl

/-- Adding a label with its view and its allocation. -/
lemma parentJoinOf_addLabelWithViews {lab : EventLabel} (hnew : New lab)
    (h : g.addLabelWithViews lab = some g') (f : Event) :
    g'.parentJoinOf f = if f = lab.pos then none else g.parentJoinOf f := by
  obtain ⟨g₁, hadd, h⟩ := Option.bind_eq_some_iff.mp h
  obtain ⟨v, -, h⟩ := Option.bind_eq_some_iff.mp h
  have hview : SameJoins g₁ (g₁.updateLabel lab.pos (EventLabel.setPrefixView (.view v))) :=
    .sameBodies (sameBodies_updateLabel (f := EventLabel.setPrefixView (.view v))
      (fun _ => ⟨rfl, rfl⟩) _)
  have hsame : SameJoins g₁ g' := by
    cases haddr : lab.body.addr with
    | none =>
      rw [haddr] at h
      exact Option.some.inj h ▸ hview
    | some a =>
      rw [haddr] at h
      exact hview.trans (.addAlloc h)
  rw [hsame f]
  exact parentJoinOf_addLabelToGraph hnew hadd f

/-- Taking back a label. -/
lemma TakesBack.parentJoinOf {t : ℕ} (h : TakesBack g t g') (f : Event) :
    g'.parentJoinOf f = if f = g.lastPos t then none else g.parentJoinOf f := by
  have hmap := congrArg (Option.map fun l : Option Event × List Event × Option Event ×
    Option Event × Option Event => l.2.2.2.2) (h.links f)
  unfold ExecutionGraph.parentJoinOf
  split
  next heq =>
    rw [if_pos heq] at hmap
    cases hlab : g'.getEventLabel f with
    | none => rfl
    | some lab =>
      rw [hlab] at hmap
      cases hmap
  next hne =>
    rw [if_neg hne, Option.map_map, Option.map_map] at hmap
    cases hlab : g.getEventLabel f <;> cases hlab' : g'.getEventLabel f <;>
      simp_all [LabelBody.links, LabelBody.linksWithout]

/-- Restricting to a view. -/
lemma Restricts.parentJoinOf {v : View} (h : Restricts g v g') (hg : Positioned g) (f j : Event) :
    g'.parentJoinOf f = some j ↔ v.contains f ∧ v.contains j ∧ g.parentJoinOf f = some j := by
  unfold ExecutionGraph.parentJoinOf
  rw [Option.bind_eq_some_iff, Option.bind_eq_some_iff]
  constructor
  · rintro ⟨lab', hlab', hjoin⟩
    obtain ⟨hf, lab, hlab, -, -, hbody⟩ := h.label_cases hg hlab'
    rw [hbody] at hjoin
    cases hb : lab.body with
    | threadFinish j' =>
      rw [hb] at hjoin
      obtain ⟨hj', hc⟩ := Option.filter_eq_some_iff.mp hjoin
      exact ⟨hf, hc, lab, hlab, by rw [hb]; exact hj'⟩
    | _ =>
      rw [hb] at hjoin
      cases hjoin
  · rintro ⟨hf, hc, lab, hlab, hjoin⟩
    obtain ⟨lab', hlab', -, -, hbody⟩ := h.getEventLabel hg hf hlab
    refine ⟨lab', hlab', ?_⟩
    rw [hbody]
    cases hb : lab.body with
    | threadFinish j' =>
      rw [hb] at hjoin
      exact Option.filter_eq_some_iff.mpr ⟨hjoin, hc⟩
    | _ =>
      rw [hb] at hjoin
      cases hjoin

/-! ## Parts of a graph -/

/-- The labels of `g'` are those of `g` in a set that contains the begins of the threads and, with
every join, the end of the thread that is joined. -/
structure KeepsThreads (K : Set Event) (g g' : ExecutionGraph) : Prop where
  /-- The positions. -/
  containsPos : ∀ e, g'.containsPos e ↔ e ∈ K ∧ g.containsPos e
  /-- The classes. -/
  isa : ∀ (p : LabelBody → Bool) [ClassTest p] e, g'.isa p e ↔ e ∈ K ∧ g.isa p e
  /-- The pointers to joins. -/
  parentJoinOf : ∀ f j, g'.parentJoinOf f = some j ↔ f ∈ K ∧ j ∈ K ∧ g.parentJoinOf f = some j
  /-- The begins. -/
  begins : ∀ t, ⟨t, 0⟩ ∈ K
  /-- The ends of the threads that are joined. -/
  joins : ∀ j t, g.isa (LabelBody.isJoinOf t) j → j ∈ K → g.lastPos t ∈ K

namespace KeepsThreads

variable {K : Set Event}

/-- Changing nothing but other links. -/
lemma of_relinks (h : Relinks g g') (hjoins : SameJoins g g') :
    KeepsThreads Set.univ g g' := by
  refine ⟨fun e => ?_, fun p _ e => ?_, fun f j => ?_, fun _ => trivial, fun _ _ _ _ => trivial⟩
  · rw [h.containsPos]
    simp
  · rw [h.isa]
    simp
  · rw [hjoins f]
    simp

/-- Taking back a block label or a read. -/
lemma of_takesBack {t : ℕ} (h : TakesBack g t g') (hlinks : ThreadLinks g)
    (hstart : g.isa LabelBody.isThreadStart (g.lastPos t) = false)
    (hjoin : g.isa LabelBody.isThreadJoin (g.lastPos t) = false)
    (hfinish : g.isa LabelBody.isThreadFinish (g.lastPos t) = false) (hg : Positioned g)
    (hclosed : PrefixClosed g) : KeepsThreads {e | e ≠ g.lastPos t} g g' := by
  refine ⟨fun e => h.containsPos_iff e, fun p _ e => ?_, fun f j => ?_, fun t' heq => ?_,
    fun j t' hj _ heq => ?_⟩
  · rw [h.isa, Set.mem_ofPred_eq]
    split <;> simp [*]
  · rw [h.parentJoinOf, Set.mem_ofPred_eq, Set.mem_ofPred_eq]
    split
    next heq => simp [heq]
    next hne =>
      refine ⟨fun hf => ⟨hne, ?_, hf⟩, fun hf => hf.2.2⟩
      rintro rfl
      have hjoined := joinedOf_eq_some_iff.mp (hlinks.finishes f _ hf)
      obtain ⟨lab, hlab, hbody⟩ := isa_iff.mp hjoined
      rw [isa_of_getEventLabel hlab, LabelBody.isThreadJoin_of_isJoinOf hbody] at hjoin
      cases hjoin
  · obtain ⟨lab, hlab⟩ := containsPos_iff.mp h.containsPos
    rw [isa_of_getEventLabel hlab,
      hg.starts _ lab hlab (congrArg Event.index heq).symm] at hstart
    cases hstart
  · rw [← heq, (hclosed.joins j t' hj).1] at hfinish
    cases hfinish

/-- Restricting to a closed view. -/
lemma of_restricts {v : View} (h : Restricts g v g') (hg : Positioned g) (hv : Closed g v) :
    KeepsThreads {e | v.contains e} g g' := by
  refine ⟨fun e => ?_, fun p _ e => ?_, h.parentJoinOf hg,
    fun t => contains_of_index_eq_zero v rfl, hv.joins⟩
  · rw [h.containsPos hg, Bool.and_eq_true]
    rfl
  · rw [h.isa hg p, Bool.and_eq_true]
    rfl

variable (h : KeepsThreads K g g')
include h

/-- The creates of the threads. -/
lemma createdOf {c : Event} {t : ℕ} :
    g'.createdOf c = some t ↔ c ∈ K ∧ g.createdOf c = some t := by
  rw [createdOf_eq_some_iff, createdOf_eq_some_iff]
  exact h.isa _ c

/-- The pointers to creates. -/
lemma parentCreateOf {t : ℕ} {c : Event} :
    g'.parentCreateOf ⟨t, 0⟩ = some c ↔ g.parentCreateOf ⟨t, 0⟩ = some c := by
  rw [parentCreateOf_eq_some_iff, parentCreateOf_eq_some_iff, h.isa _ ⟨t, 0⟩]
  exact and_iff_right (h.begins t)

/-- The joins of the threads. -/
lemma joinedOf {j : Event} {t : ℕ} :
    g'.joinedOf j = some t ↔ j ∈ K ∧ g.joinedOf j = some t := by
  rw [joinedOf_eq_some_iff, joinedOf_eq_some_iff]
  exact h.isa _ j

/-- The ends of the threads that are joined stay. -/
lemma lastPos (hg : PrefixClosed g) {j : Event} {t : ℕ} (hj : g.joinedOf j = some t)
    (hK : j ∈ K) : g'.lastPos t = g.lastPos t := by
  rw [joinedOf_eq_some_iff] at hj
  have hc : g'.containsPos (g.lastPos t) :=
    (h.containsPos _).mpr ⟨h.joins j t hj hK, containsPos_of_isa (hg.joins j t hj).1⟩
  refine lastPos_eq (e := g.lastPos t) hc (Bool.eq_false_iff.mpr fun hnext => ?_)
  have hnext' := ((h.containsPos _).mp hnext).2
  rw [containsPos_next_lastPos] at hnext'
  cases hnext'

/-- Changing nothing of the bodies afterwards. -/
lemma trans_sameBodies {g'' : ExecutionGraph} (h' : SameBodies g' g'') :
    KeepsThreads K g g'' := by
  refine ⟨fun e => ?_, fun p _ e => ?_, fun f j => ?_, h.begins, h.joins⟩
  · rw [h'.containsPos]
    exact h.containsPos e
  · rw [h'.isa]
    exact h.isa p e
  · rw [SameJoins.sameBodies h' f]
    exact h.parentJoinOf f j

/-- **Parts of a graph** have the right links. -/
lemma threadLinks (hg : PrefixClosed g) (hlinks : ThreadLinks g) : ThreadLinks g' := by
  refine ⟨⟨fun e he => ?_, fun e he hnext => ?_, fun c t hc => ?_, fun c t hp hc => ?_,
    fun j t hj => ?_, fun f j hf => ?_⟩, fun c t hc => ?_, fun t t' c ht ht' => ?_⟩
  · exact hlinks.begins e ((h.isa _ e).mp he).2
  · exact hlinks.terminators e ((h.isa _ e).mp he).2 ((h.containsPos _).mp hnext).2
  · exact h.parentCreateOf.mpr (hlinks.creates c t (h.createdOf.mp hc).2)
  · obtain ⟨hK, hc⟩ := (h.isa _ c).mp hc
    exact h.createdOf.mpr ⟨hK, hlinks.created c t (h.parentCreateOf.mp hp) hc⟩
  · obtain ⟨hK, hj⟩ := h.joinedOf.mp hj
    rw [h.lastPos hg hj hK]
    exact (h.parentJoinOf _ _).mpr
      ⟨h.joins j t (joinedOf_eq_some_iff.mp hj) hK, hK, hlinks.joins j t hj⟩
  · obtain ⟨-, hK, hf⟩ := (h.parentJoinOf f j).mp hf
    exact h.joinedOf.mpr ⟨hK, hlinks.finishes f j hf⟩
  · exact (h.containsPos _).mpr ⟨h.begins t, hlinks.threads c t (h.createdOf.mp hc).2⟩
  · exact hlinks.parents t t' c (h.parentCreateOf.mp ht) (h.parentCreateOf.mp ht')

end KeepsThreads

/-! ## Adding labels -/

/-- A label behind the last one of a thread that runs. -/
structure RunsOn (g : ExecutionGraph) (lab : EventLabel) : Prop where
  /-- The position is the next one. -/
  index : lab.pos.index = g.getThreadSize lab.pos.thread
  /-- It is not the first one. -/
  notFirst : lab.pos.index ≠ 0
  /-- The thread has not ended. -/
  running : g.isa LabelBody.isTerminator (g.lastPos lab.pos.thread) = false

/-- A thread that has been joined is not the one of the new label. -/
lemma RunsOn.thread_ne {lab : EventLabel} (hlab : RunsOn g lab) (hg : PrefixClosed g) {j : Event}
    {t : ℕ} (hj : g.joinedOf j = some t) : t ≠ lab.pos.thread := by
  rintro rfl
  have hunjoined := hg.unjoined (isThreadFinish_eq_false hlab.running) j
  rw [joinedOf_eq_some_iff.mp hj] at hunjoined
  cases hunjoined

namespace GrowsBy

variable {lab : EventLabel} (h : GrowsBy g lab g') (hlab : RunsOn g lab)
include h

/-- The creates of the threads. -/
lemma createdOf (hcreate : lab.body.createdThread = none) {c : Event} {t : ℕ} :
    g'.createdOf c = some t ↔ g.createdOf c = some t := by
  rw [createdOf_eq_some_iff, createdOf_eq_some_iff, h.isa]
  split
  next heq =>
    rw [heq]
    refine ⟨fun hc => ?_, fun hc => ?_⟩
    · have hsome := of_decide_eq_true hc
      rw [hcreate] at hsome
      cases hsome
    · have hc := containsPos_of_isa hc
      rw [h.fresh] at hc
      cases hc
  next => rfl

/-- The joins of the threads. -/
lemma joinedOf {j : Event} {t : ℕ} : g'.joinedOf j = some t ↔
    j = lab.pos ∧ lab.body.joinedThread = some t ∨ g.joinedOf j = some t := by
  rw [joinedOf_eq_some_iff, joinedOf_eq_some_iff, h.isa]
  split
  next heq =>
    rw [heq]
    refine ⟨fun hj => .inl ⟨rfl, of_decide_eq_true hj⟩, fun hj => ?_⟩
    obtain ⟨-, hj⟩ | hj := hj
    · exact decide_eq_true hj
    · have hc := containsPos_of_isa hj
      rw [h.fresh] at hc
      cases hc
  next hne => simp [hne]

include hlab

/-- The first labels of the threads are those of the graph before. -/
lemma parentCreateOf {t : ℕ} {c : Event} :
    g'.parentCreateOf ⟨t, 0⟩ = some c ↔ g.parentCreateOf ⟨t, 0⟩ = some c := by
  rw [parentCreateOf_eq_some_iff, parentCreateOf_eq_some_iff, h.isa, if_neg]
  exact fun heq => hlab.notFirst (congrArg Event.index heq).symm

/-- The links of the other threads stay right. -/
lemma threadLinks_of_joins (hlinks : ThreadLinks g) (hstart : lab.body.isThreadStart = false)
    (hcreate : lab.body.createdThread = none)
    (hjoins : ∀ j t, g'.joinedOf j = some t → g'.parentJoinOf (g'.lastPos t) = some j)
    (hfinishes : ∀ f j, g'.parentJoinOf f = some j → g'.joinedOf j = some f.thread) :
    ThreadLinks g' := by
  refine ⟨⟨fun e he => ?_, fun e he hnext => ?_, fun c t hc => ?_, fun c t hp hc => ?_, hjoins,
    hfinishes⟩, fun c t hc => ?_, fun t t' c ht ht' => ?_⟩
  · rw [h.isa] at he
    split at he
    · rw [hstart] at he
      cases he
    · exact hlinks.begins e he
  · obtain heq | hnext := (h.containsPos _).mp hnext
    · -- the label before the new one does not end the thread
      have hne : e ≠ lab.pos := by
        rintro rfl
        exact absurd (congrArg Event.index heq) (Nat.succ_ne_self _)
      have hlast : e = g.lastPos lab.pos.thread := by
        have hthread : e.next.thread = lab.pos.thread := congrArg Event.thread heq
        have hindex : e.next.index = lab.pos.index := congrArg Event.index heq
        change e.index + 1 = lab.pos.index at hindex
        rw [hlab.index] at hindex
        exact Event.ext hthread (show e.index = g.getThreadSize lab.pos.thread - 1 by omega)
      rw [h.isa, if_neg hne, hlast, hlab.running] at he
      cases he
    · rw [h.isa] at he
      split at he
      next heq =>
        rw [heq] at hnext
        have hlt : lab.pos.index + 1 < g.getThreadSize lab.pos.thread := containsPos_iff_lt.mp hnext
        have hindex := hlab.index
        omega
      next => exact hlinks.terminators e he hnext
  · exact (h.parentCreateOf hlab).mpr (hlinks.creates c t ((h.createdOf hcreate).mp hc))
  · rw [h.isa] at hc
    split at hc
    · exfalso
      cases hb : lab.body with
      | plain k =>
        cases k with
        | threadCreate =>
          rw [hb] at hcreate
          cases hcreate
        | _ =>
          rw [hb] at hc
          cases hc
      | _ =>
        rw [hb] at hc
        cases hc
    · exact (h.createdOf hcreate).mpr (hlinks.created c t ((h.parentCreateOf hlab).mp hp) hc)
  · exact (h.containsPos _).mpr (.inr (hlinks.threads c t ((h.createdOf hcreate).mp hc)))
  · exact hlinks.parents t t' c ((h.parentCreateOf hlab).mp ht) ((h.parentCreateOf hlab).mp ht')

/-- **Adding a label** that neither creates nor joins. -/
lemma threadLinks (hg : PrefixClosed g) (hlinks : ThreadLinks g)
    (hstart : lab.body.isThreadStart = false) (hcreate : lab.body.createdThread = none)
    (hjoin : lab.body.joinedThread = none)
    (hpj : ∀ f, g'.parentJoinOf f = if f = lab.pos then none else g.parentJoinOf f) :
    ThreadLinks g' := by
  have hjoined : ∀ {j t}, g'.joinedOf j = some t ↔ g.joinedOf j = some t := by
    intro j t
    rw [h.joinedOf, hjoin]
    simp
  refine h.threadLinks_of_joins hlab hlinks hstart hcreate (fun j t hj => ?_) fun f j hf => ?_
  · rw [hjoined] at hj
    have hne := hlab.thread_ne hg hj
    have hlast := hlinks.joins j t hj
    rw [lastPos_of_added_of_ne h.containsPos hne, hpj, if_neg]
    · exact hlast
    · exact fun heq => hne (congrArg Event.thread heq)
  · rw [hpj] at hf
    split at hf
    · cases hf
    · exact hjoined.mpr (hlinks.finishes f j hf)

/-- **Adding a join.** -/
lemma threadLinks_join (hg : PrefixClosed g) (hlinks : ThreadLinks g) {t : ℕ}
    (hbody : lab.body = .plain (.threadJoin t)) (hne : t ≠ lab.pos.thread)
    (hunjoined : ∀ j, g.joinedOf j ≠ some t)
    (hpj : ∀ f, g'.parentJoinOf f = if f = g.lastPos t then some lab.pos
      else if f = lab.pos then none else g.parentJoinOf f) : ThreadLinks g' := by
  have hlastPos : ∀ {t'}, t' ≠ lab.pos.thread → g'.lastPos t' = g.lastPos t' :=
    lastPos_of_added_of_ne h.containsPos
  refine h.threadLinks_of_joins hlab hlinks (by rw [hbody]; rfl) (by rw [hbody]; rfl)
    (fun j t' hj => ?_) fun f j hf => ?_
  · obtain ⟨rfl, ht'⟩ | hj := h.joinedOf.mp hj
    · rw [hbody] at ht'
      obtain rfl : t = t' := Option.some.inj ht'
      rw [hlastPos hne, hpj, if_pos rfl]
    · have hne' := hlab.thread_ne hg hj
      rw [hlastPos hne', hpj, if_neg, if_neg]
      · exact hlinks.joins j t' hj
      · exact fun heq => hne' (congrArg Event.thread heq)
      · intro heq
        obtain rfl : t' = t := congrArg Event.thread heq
        exact hunjoined j hj
  · rw [hpj] at hf
    split at hf
    next heq =>
      obtain rfl := Option.some.inj hf
      refine h.joinedOf.mpr (.inl ⟨rfl, ?_⟩)
      rw [hbody, heq]
      rfl
    next =>
      split at hf
      · cases hf
      · exact h.joinedOf.mpr (.inr (hlinks.finishes f j hf))

end GrowsBy

end ExecutionGraph

end GenMC
