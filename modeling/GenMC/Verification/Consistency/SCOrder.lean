import GenMC.Lib.Precedence
import GenMC.ExecutionGraph.GraphIterators
import GenMC.ExecutionGraph.SubGraph

/-!
# Sequentially consistent graphs

The relations that a sequentially consistent execution respects, and the graphs on which their
union is acyclic.  The functions that navigate the graph step through these relations: the
coherence successor of a write is the first write after it, and the reads that a write overwrites
are those of its coherence predecessor.
-/

namespace GenMC

namespace ExecutionGraph

/-! ## The relations -/

section Relations

variable (g : ExecutionGraph)

/-- Program order. -/
def Po (p e : Event) : Prop := p.thread = e.thread ∧ p.index < e.index ∧ g.containsPos e

/-- Reads-from. -/
def Rf (w r : Event) : Prop := g.rfOf r = some w

/-- From-read: a read comes before the writes that overwrite what it has read. -/
def Fr (r w' : Event) : Prop :=
  ∃ w ∈ g.rfOf r, g.Co w w' ∨ (w = .init ∧ ∃ a ∈ g.addrOf r, w' ∈ g.co a)

/-- The create of a thread comes before its events. -/
def Creates (c e : Event) : Prop :=
  g.isa LabelBody.isThreadCreate c ∧ g.containsPos e ∧
    ((g.getEventLabel ⟨e.thread, 0⟩).bind fun lab => lab.body.parentCreate) = some c

/-- The end of a thread comes before the joins that wait for it. -/
def Joins (f j : Event) : Prop :=
  g.isa LabelBody.isThreadFinish f ∧
    ∃ child ∈ (g.getEventLabel j).bind fun lab => lab.body.joinedThread, f = g.lastPos child

/-- The order that a sequentially consistent execution respects. -/
def SCBefore (p e : Event) : Prop :=
  g.Po p e ∨ g.Rf p e ∨ g.Co p e ∨ g.Fr p e ∨ g.Creates p e ∨ g.Joins p e

instance (p e : Event) : Decidable (g.Po p e) := by unfold Po; infer_instance

instance (p e : Event) : Decidable (g.Rf p e) := by unfold Rf; infer_instance

instance (p e : Event) : Decidable (g.Fr p e) := by unfold Fr; infer_instance

instance (p e : Event) : Decidable (g.Creates p e) := by unfold Creates; infer_instance

instance (p e : Event) : Decidable (g.Joins p e) := by unfold Joins; infer_instance

instance (p e : Event) : Decidable (g.SCBefore p e) := by unfold SCBefore; infer_instance

/-- A sequentially consistent execution graph. -/
structure SCConsistent : Prop where
  /-- Reads and reader lists are mutually inverse. -/
  readerLists : ReaderLists g
  /-- The coherence order of a location lists writes of the location. -/
  stores : Stores g
  /-- It lists all of them. -/
  allStores : ∀ w a, g.isa LabelBody.isWrite w → g.addrOf w = some a → w ∈ g.co a
  /-- No label has a stamp beyond the next one. -/
  stamps : ∀ e, g.containsPos e → g.stampOf e ≤ g.timestamp
  /-- Begin labels start threads. -/
  begins : ∀ e, g.isa LabelBody.isThreadStart e → e.index = 0
  /-- Every read has a source. -/
  reads : ∀ r, g.isa LabelBody.isRead r → (g.rfOf r).isSome
  /-- A read reads from a write of its location. -/
  locations : ∀ w r, g.Rf w r → g.isa LabelBody.isWrite w → g.addrOf w = g.addrOf r
  /-- The end of a thread is its last label. -/
  terminators : ∀ e, g.isa LabelBody.isTerminator e → ¬g.containsPos e.next
  /-- A thread with events points to its create. -/
  creates : ∀ c t, ((g.getEventLabel c).bind fun lab => lab.body.createdThread) = some t →
    g.containsPos ⟨t, 1⟩ →
    ((g.getEventLabel ⟨t, 0⟩).bind fun lab => lab.body.parentCreate) = some c
  /-- The create that a thread with events points to has created the thread. -/
  created : ∀ c e, g.Creates c e → 0 < e.index →
    ((g.getEventLabel c).bind fun lab => lab.body.createdThread) = some e.thread
  /-- A thread that has been joined has ended, and its end points to the join. -/
  joins : ∀ j t, ((g.getEventLabel j).bind fun lab => lab.body.joinedThread) = some t →
    ((g.getEventLabel (g.lastPos t)).bind fun lab => lab.body.parentJoin) = some j
  /-- The end of a thread points to a join of the thread. -/
  finishes : ∀ f j, ((g.getEventLabel f).bind fun lab => lab.body.parentJoin) = some j →
    ((g.getEventLabel j).bind fun lab => lab.body.joinedThread) = some f.thread
  /-- A thread decrements a barrier before it waits there. -/
  barriers : ∀ r, g.isa LabelBody.isBWaitRead r → ∃ w : Event, w.thread = r.thread ∧
    w.index < r.index ∧ g.isa LabelBody.isWrite w ∧ g.addrOf w = g.addrOf r
  /-- The order has no cycles. -/
  acyclic : Acyclic g.SCBefore

end Relations

variable {g : ExecutionGraph}

/-! ## Neighbours -/

/-- The navigation functions find the neighbours of a write in the coherence order. -/
lemma SCConsistent.neighbours (hg : g.SCConsistent) {w : Event} {a : SAddr} {s t : List Event}
    (hco : g.co a = s ++ w :: t) : g.addrOf w = some a ∧ g.coherence.find? a = some (s ++ w :: t) ∧
      g.coImmSucc w = some t.head? ∧ g.coImmPred w = some s.getLast? :=
  coNeighbours hg.readerLists hg.stores hco

/-- Labels that are no writes have no neighbours in coherence order. -/
lemma SCConsistent.neighbours_eq_none (hg : g.SCConsistent) {e : Event}
    (h : g.isa LabelBody.isWrite e = false) : g.coImmSucc e = none ∧ g.coImmPred e = none := by
  cases ha : g.addrOf e with
  | none => simp only [coImmSucc, coImmPred, ha, Option.bind_eq_bind, Option.bind_none, and_self]
  | some a =>
    obtain ⟨ws, hws⟩ := KeyedList.mem_keys_iff.mp (hg.readerLists.tracked e a ha)
    have hmem : e ∉ ws := by
      intro hin
      have hco : g.co a = ws := by
        unfold co
        rw [hws, Option.getD_some]
      rw [(hg.stores.stores a e (hco ▸ hin)).1] at h
      cases h
    simp only [coImmSucc, coImmPred, ha, hws, Option.bind_eq_bind, Option.bind_some]
    exact ⟨nextIn_eq_none hmem, nextIn_eq_none (List.mem_reverse.not.mpr hmem)⟩

/-- A write splits the coherence order of its location. -/
lemma SCConsistent.exists_split (hg : g.SCConsistent) {w : Event}
    (hw : g.isa LabelBody.isWrite w) : ∃ a s t, g.co a = s ++ w :: t := by
  obtain ⟨lab, hlab, hwrite⟩ := isa_iff.mp hw
  obtain ⟨a, ha⟩ : ∃ a, g.addrOf w = some a := by
    rw [← Option.isSome_iff_exists, addrOf_of_getEventLabel hlab, LabelBody.addr_isSome, hwrite,
      Bool.or_true]
  obtain ⟨s, t, hst⟩ := List.append_of_mem (hg.allStores w a hw ha)
  exact ⟨a, s, t, hst⟩

/-- Members of a split coherence order are related. -/
lemma SCConsistent.co_of_split (hg : g.SCConsistent) {a : SAddr} {s t : List Event} {w w' : Event}
    (hco : g.co a = s ++ w :: t) (hw' : w' ∈ t) : g.Co w w' := by
  refine ⟨a, (hg.neighbours hco).1, ?_⟩
  rw [hco]
  exact (List.Sublist.cons_cons w (List.singleton_sublist.mpr hw')).trans
    (List.sublist_append_right s _)

/-- The coherence successor of a write comes after it. -/
lemma SCConsistent.co_of_coImmSucc (hg : g.SCConsistent) {w w' : Event}
    (h : g.coImmSucc w = some (some w')) : g.Co w w' := by
  have hw : g.isa LabelBody.isWrite w := by
    by_contra hnot
    rw [(hg.neighbours_eq_none (Bool.eq_false_iff.mpr hnot)).1] at h
    cases h
  obtain ⟨a, s, t, hco⟩ := hg.exists_split hw
  have hhead : t.head? = some w' := Option.some.inj ((hg.neighbours hco).2.2.1.symm.trans h)
  exact hg.co_of_split hco (List.mem_of_head? hhead)

/-- A write that is followed by another one has a coherence successor, which is not after that. -/
lemma SCConsistent.exists_coImmSucc (hg : g.SCConsistent) {w w' : Event} (h : g.Co w w') :
    ∃ s, g.coImmSucc w = some (some s) ∧ (s = w' ∨ g.Co s w') := by
  obtain ⟨a, ha, hsub⟩ := h
  have hw := hg.stores.stores a w (hsub.subset List.mem_cons_self)
  obtain ⟨r, r', hco, hr, hw'⟩ := List.cons_sublist_iff.mp hsub
  obtain ⟨x, y, rfl⟩ := List.append_of_mem hr
  have hsplit : g.co a = x ++ w :: (y ++ r') := by rw [hco, List.append_assoc]; rfl
  have hmem : w' ∈ y ++ r' := List.mem_append_right y (List.singleton_sublist.mp hw')
  have hsucc := (hg.neighbours hsplit).2.2.1
  generalize y ++ r' = t at hsplit hmem hsucc
  cases t with
  | nil => exact absurd hmem List.not_mem_nil
  | cons s t =>
    refine ⟨s, hsucc, ?_⟩
    rcases List.mem_cons.mp hmem with heq | hmem
    · exact .inl heq.symm
    · exact .inr (hg.co_of_split (s := x ++ [w]) (by rw [hsplit, List.append_assoc]; rfl) hmem)

/-- The first store of a location is not after any other one. -/
lemma SCConsistent.exists_head (hg : g.SCConsistent) {a : SAddr} {w : Event} (h : w ∈ g.co a) :
    ∃ s, (g.co a).head? = some s ∧ (s = w ∨ g.Co s w) := by
  cases hco : g.co a with
  | nil =>
    rw [hco] at h
    exact absurd h List.not_mem_nil
  | cons s t =>
    rw [hco] at h
    refine ⟨s, rfl, ?_⟩
    rcases List.mem_cons.mp h with heq | hmem
    · exact .inl heq.symm
    · exact .inr (hg.co_of_split (s := []) hco hmem)

/-- The reads that a write directly overwrites are those of its coherence predecessor, or of the
initializer. -/
lemma SCConsistent.frImmPreds_eq (hg : g.SCConsistent) {w : Event} {a : SAddr} {s t : List Event}
    (hco : g.co a = s ++ w :: t) : ∃ rs, g.frImmPreds w = some rs ∧
      ∀ r, r ∈ rs ↔ match s.getLast? with
        | some p => g.rfOf r = some p
        | none => g.rfOf r = some .init ∧ g.addrOf r = some a := by
  obtain ⟨ha, -, -, hpred⟩ := hg.neighbours hco
  cases hlast : s.getLast? with
  | none =>
    obtain ⟨rs, hrs⟩ := KeyedList.mem_keys_iff.mp
      (hg.readerLists.keys ▸ hg.readerLists.tracked w a ha)
    refine ⟨rs, by simp only [frImmPreds, hpred, hlast, ha, hrs, Option.bind_eq_bind,
      Option.bind_some], fun r => ?_⟩
    have hinit : g.initReaders a = rs := by
      unfold initReaders
      rw [hrs, Option.getD_some]
    rw [← hinit, ← List.count_pos_iff, hg.readerLists.count_initReaders]
    split <;> simp_all
  | some p =>
    have hmem : p ∈ g.co a := hco ▸ List.mem_append_left _ (List.mem_of_getLast? hlast)
    have hp := (hg.stores.stores a p hmem).1
    obtain ⟨lab, hlab, -⟩ := isa_iff.mp hp
    refine ⟨lab.body.readers, by simp only [frImmPreds, hpred, hlast, hlab, Option.bind_eq_bind,
      Option.bind_some, Option.map_some], fun r => ?_⟩
    rw [← readersOf_of_getEventLabel hlab]
    exact mem_readersOf_iff hg.readerLists hp

/-! ## Members of the relations -/

/-- The first labels of the threads are neither accesses nor creates nor joins. -/
lemma SCConsistent.index_pos (hg : g.SCConsistent) {e : Event} {lab : EventLabel}
    (hlab : g.getEventLabel e = some lab) (hstart : lab.body.isThreadStart = false) :
    0 < e.index := by
  refine Nat.pos_of_ne_zero fun h => ?_
  rw [hg.readerLists.positioned.starts e lab hlab h] at hstart
  cases hstart

/-- The label of a class without begin labels is not the first one of its thread. -/
lemma SCConsistent.index_pos_of_isa (hg : g.SCConsistent) {q : LabelBody → Bool}
    (hq : ∀ b, q b → b.isThreadStart = false) {e : Event} (h : g.isa q e) : 0 < e.index := by
  obtain ⟨lab, hlab, hlq⟩ := isa_iff.mp h
  exact hg.index_pos hlab (hq lab.body hlq)

/-- Reads are not the first labels of their threads. -/
lemma SCConsistent.index_pos_of_read (hg : g.SCConsistent) {e : Event}
    (h : g.isa LabelBody.isRead e) : 0 < e.index :=
  hg.index_pos_of_isa (fun b hb => by cases b <;> first | rfl | cases hb) h

/-- Writes are not the first labels of their threads. -/
lemma SCConsistent.index_pos_of_write (hg : g.SCConsistent) {e : Event}
    (h : g.isa LabelBody.isWrite e) : 0 < e.index :=
  hg.index_pos_of_isa (fun b hb => by cases b <;> first | rfl | cases hb) h

/-- Ends are not the first labels of their threads. -/
lemma SCConsistent.index_pos_of_finish (hg : g.SCConsistent) {e : Event}
    (h : g.isa LabelBody.isThreadFinish e) : 0 < e.index :=
  hg.index_pos_of_isa (fun b hb => by cases b <;> first | rfl | cases hb) h

/-- Joins are not the first labels of their threads. -/
lemma SCConsistent.index_pos_of_joins (hg : g.SCConsistent) {f j : Event} (h : g.Joins f j) :
    0 < j.index := by
  obtain ⟨-, child, hchild, -⟩ := h
  obtain ⟨lab, hlab, hc⟩ := Option.bind_eq_some_iff.mp hchild
  refine hg.index_pos hlab ?_
  cases hb : lab.body <;> rw [hb] at hc <;> first | rfl | cases hc

/-- Members of a coherence order are writes of the location. -/
lemma SCConsistent.of_mem_co (hg : g.SCConsistent) {w : Event} {a : SAddr} (h : w ∈ g.co a) :
    g.isa LabelBody.isWrite w ∧ g.addrOf w = some a :=
  hg.stores.stores a w h

/-- What comes before an event is in the graph, and so is the event. -/
lemma containsPos_of_scBefore (hr : ReaderLists g) (hs : Stores g) {p e : Event}
    (h : g.SCBefore p e) : g.containsPos p ∧ g.containsPos e := by
  have hstore : ∀ {a w}, w ∈ g.co a → g.containsPos w := fun {a w} hw =>
    containsPos_of_isa (hs.stores a w hw).1
  rcases h with ⟨ht, hlt, he⟩ | hrf | ⟨a, -, hco⟩ | ⟨w, hw, hfr⟩ | ⟨hc, he, -⟩ | ⟨hf, c, hc, -⟩
  · refine ⟨containsPos_iff_lt.mpr ?_, he⟩
    rw [ht]
    exact hlt.trans (containsPos_iff_lt.mp he)
  · exact ⟨(hr.sources e p hrf).elim containsPos_of_isa containsPos_of_isa,
      containsPos_of_isa (isa_isRead_of_rfOf hrf)⟩
  · exact ⟨hstore (hco.subset List.mem_cons_self),
      hstore (hco.subset (List.mem_cons_of_mem p List.mem_cons_self))⟩
  · refine ⟨containsPos_of_isa (isa_isRead_of_rfOf hw), ?_⟩
    rcases hfr with ⟨a, -, hco⟩ | ⟨-, a, -, hco⟩
    · exact hstore (hco.subset (List.mem_cons_of_mem w List.mem_cons_self))
    · exact hstore hco
  · exact ⟨containsPos_of_isa hc, he⟩
  · obtain ⟨lab, hlab, -⟩ := Option.bind_eq_some_iff.mp hc
    exact ⟨containsPos_of_isa hf, containsPos_iff.mpr ⟨lab, hlab⟩⟩

/-- What comes before an event is in the graph, and so is the event. -/
lemma SCConsistent.containsPos (hg : g.SCConsistent) {p e : Event} (h : g.SCBefore p e) :
    g.containsPos p ∧ g.containsPos e :=
  containsPos_of_scBefore hg.readerLists hg.stores h

/-- The events of the graph are finitely many. -/
lemma finite_containsPos (g : ExecutionGraph) : {e | g.containsPos e}.Finite := by
  refine (List.finite_toSet g.positions).subset fun e he => ?_
  exact mem_positions.mpr he

/-! ## The view of the whole graph -/

/-- The view that the bound deciders start from. -/
def full (g : ExecutionGraph) : View := g.getViewFromStamp g.timestamp

/-- The events of the graph are those up to the maxima of the full view. -/
lemma SCConsistent.containsPos_iff_full (hg : g.SCConsistent) {e : Event} (he : 0 < e.index) :
    g.containsPos e ↔ e.index ≤ g.full.getMax e.thread := by
  constructor
  · intro hpos
    obtain ⟨lab, hlab⟩ := containsPos_iff.mp hpos
    have hst := hg.stamps e hpos
    rw [stampOf_of_getEventLabel hlab] at hst
    exact of_decide_eq_true (contains_getViewFromStamp hlab hst)
  · intro hle
    have := getMax_getViewFromStamp_le g g.timestamp e.thread
    refine containsPos_iff_lt.mpr ?_
    unfold full at hle
    omega

/-- Threads with events are threads of the graph. -/
lemma thread_lt_of_getMax_full {t : ℕ} (h : 0 < g.full.getMax t) : t < g.getNumThreads := by
  by_contra hle
  have := getMax_getViewFromStamp_le g g.timestamp t
  rw [getThreadSize_eq_zero (not_lt.mp hle)] at this
  unfold full at h
  omega

/-! ## Checking a concrete graph -/

/-- What is checked of a label. -/
structure SCLabelCheck (g : ExecutionGraph) (e : Event) (lab : EventLabel) : Prop where
  begins : lab.body.isThreadStart → e.index = 0
  reads : lab.body.isRead → lab.body.rf.isSome
  locations : ∀ w ∈ lab.body.rf, g.isa LabelBody.isWrite w → g.addrOf w = g.addrOf e
  terminators : lab.body.isTerminator → ¬g.containsPos e.next
  creates : ∀ t ∈ lab.body.createdThread, g.containsPos ⟨t, 1⟩ →
    ((g.getEventLabel ⟨t, 0⟩).bind fun lab => lab.body.parentCreate) = some e
  created : ∀ c ∈ g.positions, g.Creates c e → 0 < e.index →
    ((g.getEventLabel c).bind fun lab => lab.body.createdThread) = some e.thread
  joins : ∀ t ∈ lab.body.joinedThread,
    ((g.getEventLabel (g.lastPos t)).bind fun lab => lab.body.parentJoin) = some e
  finishes : ∀ j ∈ lab.body.parentJoin,
    ((g.getEventLabel j).bind fun lab => lab.body.joinedThread) = some e.thread
  barriers : lab.body.isBWaitRead → ∃ w ∈ g.positions, w.thread = e.thread ∧ w.index < e.index ∧
    g.isa LabelBody.isWrite w ∧ g.addrOf w = g.addrOf e

instance (g : ExecutionGraph) (e : Event) : DecidablePred (SCLabelCheck g e) := fun lab =>
  decidable_of_iff
    ((lab.body.isThreadStart → e.index = 0) ∧ (lab.body.isRead → lab.body.rf.isSome) ∧
      (∀ w ∈ lab.body.rf, g.isa LabelBody.isWrite w → g.addrOf w = g.addrOf e) ∧
      (lab.body.isTerminator → ¬g.containsPos e.next) ∧
      (∀ t ∈ lab.body.createdThread, g.containsPos ⟨t, 1⟩ →
        ((g.getEventLabel ⟨t, 0⟩).bind fun lab => lab.body.parentCreate) = some e) ∧
      (∀ c ∈ g.positions, g.Creates c e → 0 < e.index →
        ((g.getEventLabel c).bind fun lab => lab.body.createdThread) = some e.thread) ∧
      (∀ t ∈ lab.body.joinedThread,
        ((g.getEventLabel (g.lastPos t)).bind fun lab => lab.body.parentJoin) = some e) ∧
      (∀ j ∈ lab.body.parentJoin,
        ((g.getEventLabel j).bind fun lab => lab.body.joinedThread) = some e.thread) ∧
      (lab.body.isBWaitRead → ∃ w ∈ g.positions, w.thread = e.thread ∧ w.index < e.index ∧
        g.isa LabelBody.isWrite w ∧ g.addrOf w = g.addrOf e))
    ⟨fun ⟨h₁, h₂, h₃, h₄, h₅, h₆, h₇, h₈, h₉⟩ => ⟨h₁, h₂, h₃, h₄, h₅, h₆, h₇, h₈, h₉⟩,
      fun ⟨h₁, h₂, h₃, h₄, h₅, h₆, h₇, h₈, h₉⟩ => ⟨h₁, h₂, h₃, h₄, h₅, h₆, h₇, h₈, h₉⟩⟩

/-- A graph is sequentially consistent if its labels pass the checks and its events can be listed in
an order that respects all relations. -/
theorem SCConsistent.of_check (h : Check g)
    (hlabels : ∀ e ∈ g.positions, ∀ lab ∈ g.getEventLabel e, SCLabelCheck g e lab)
    (order : List Event) (horder : ∀ e ∈ g.positions, ∀ p ∈ g.positions, g.SCBefore p e →
      order.idxOf p < order.idxOf e) : g.SCConsistent := by
  have hwf := WellFormed.of_check h
  have hlabel : ∀ {e lab}, g.getEventLabel e = some lab → SCLabelCheck g e lab :=
    fun {e lab} hlab => hlabels e (mem_positions.mpr (containsPos_iff.mpr ⟨lab, hlab⟩)) lab hlab
  have hisa : ∀ {q e}, g.isa q e → ∃ lab, g.getEventLabel e = some lab ∧ q lab.body ∧
      SCLabelCheck g e lab := fun {q e} hq =>
    have ⟨lab, hlab, hbody⟩ := isa_iff.mp hq
    ⟨lab, hlab, hbody, hlabel hlab⟩
  refine ⟨hwf.readerLists, hwf.stores, hwf.allStores, fun e he => (hwf.bounded e he).le,
    fun e he => ?_, fun r hr => ?_, fun w r hr hw => ?_, fun e he => ?_, fun c t hc => ?_,
    fun c e hc hi => ?_, fun j t hj => ?_, fun f j hf => ?_, fun r hr => ?_,
    Acyclic.of_rank order.idxOf fun p e hpe => ?_⟩
  · obtain ⟨lab, -, hbody, hcheck⟩ := hisa he
    exact hcheck.begins hbody
  · obtain ⟨lab, hlab, hbody, hcheck⟩ := hisa hr
    rw [rfOf_of_getEventLabel hlab]
    exact hcheck.reads hbody
  · obtain ⟨lab, hlab, hrf⟩ := Option.bind_eq_some_iff.mp hr
    exact (hlabel hlab).locations w hrf hw
  · obtain ⟨lab, -, hbody, hcheck⟩ := hisa he
    exact hcheck.terminators hbody
  · obtain ⟨lab, hlab, hbody⟩ := Option.bind_eq_some_iff.mp hc
    exact (hlabel hlab).creates t hbody
  · obtain ⟨lab, hlab⟩ := containsPos_iff.mp hc.2.1
    exact (hlabel hlab).created c (mem_positions.mpr (containsPos_of_isa hc.1)) hc hi
  · obtain ⟨lab, hlab, hbody⟩ := Option.bind_eq_some_iff.mp hj
    exact (hlabel hlab).joins t hbody
  · obtain ⟨lab, hlab, hbody⟩ := Option.bind_eq_some_iff.mp hf
    exact (hlabel hlab).finishes j hbody
  · obtain ⟨lab, -, hbody, hcheck⟩ := hisa hr
    obtain ⟨w, -, hw⟩ := hcheck.barriers hbody
    exact ⟨w, hw⟩
  · obtain ⟨hp, he⟩ := containsPos_of_scBefore hwf.readerLists hwf.stores hpe
    exact horder e (mem_positions.mpr he) p (mem_positions.mpr hp) hpe

/-- The sample graph is sequentially consistent. -/
lemma scConsistent_sampleGraph : sampleGraph.SCConsistent :=
  .of_check (by decide +kernel) (by decide +kernel)
    [.init, ⟨0, 1⟩, ⟨0, 2⟩, ⟨1, 0⟩, ⟨0, 3⟩, ⟨0, 4⟩, ⟨1, 1⟩, ⟨1, 2⟩] (by decide +kernel)

end ExecutionGraph

end GenMC
