import GenMC.ExecutionGraph.GraphIterators
import GenMC.Lib.Precedence

/-!
# The successors of a label

The functions that step from a label to its immediate successors in the relations of the graph.
`Navigable` graphs are those in which these functions follow no null pointer, and
`Navigable.succs_spec` says where they lead to.
-/

namespace GenMC

namespace ExecutionGraph

/-! ## Links between threads -/

/-- The thread that the label at a position creates. -/
def createdOf (g : ExecutionGraph) (c : Event) : Option ℕ :=
  (g.getEventLabel c).bind fun lab => lab.body.createdThread

/-- The create that the label at a position, the first one of a thread, points to. -/
def parentCreateOf (g : ExecutionGraph) (b : Event) : Option Event :=
  (g.getEventLabel b).bind fun lab => lab.body.parentCreate

/-- The thread that the label at a position joins. -/
def joinedOf (g : ExecutionGraph) (j : Event) : Option ℕ :=
  (g.getEventLabel j).bind fun lab => lab.body.joinedThread

/-- The join that the label at a position, the end of a thread, points to. -/
def parentJoinOf (g : ExecutionGraph) (f : Event) : Option Event :=
  (g.getEventLabel f).bind fun lab => lab.body.parentJoin

/-! ## The functions -/

section Functions

variable (g : ExecutionGraph) (lab : EventLabel)

/-- `tc_succ`; the created thread must have a label. -/
def tcSucc : Option (Option Event) :=
  match lab.body.createdThread with
  | some t => (g.getEventLabel ⟨t, 0⟩).map fun sLab =>
      if sLab.body.isThreadStart then some ⟨t, 0⟩ else none
  | none => some none

/-- `co_imm_succ` of any label. -/
def coSucc : Option (Option Event) :=
  if lab.body.isWrite then g.coImmSucc lab.pos else some none

/-- `fr_imm_succ`; a read must have a source.  The end of the range is that of the location of the
read. -/
def frImmSucc : Option (Option Event) :=
  if lab.body.isRead then do
    let w ← lab.body.rf
    let a ← lab.body.addr
    if g.isa LabelBody.isWrite w then
      match ← g.coImmSucc w with
      | some w' => return some w'
      | none => if g.addrOf w = some a then return none else none
    else (g.coherence.find? a).map List.head?
  else some none

/-- `po_imm_succ`. -/
def poImmSucc : Option Event :=
  if (g.getNextLabel lab.pos).isSome then some lab.pos.next else none

/-- `rf_succs`. -/
def rfSuccs : List Event := lab.body.readers

/-- `rfe_succs`. -/
def rfeSuccs : List Event := lab.body.readers.filter fun r => decide (r.thread ≠ lab.pos.thread)

end Functions

/-- The relations along which the labels are visited. -/
inductive Neighbour
  | tc | tj | rf | rfe | co | fr | po
deriving DecidableEq

/-- The successors of a label in a relation. -/
def succs (g : ExecutionGraph) (lab : EventLabel) : Neighbour → Option (List Event)
  | .tc => (g.tcSucc lab).map Option.toList
  | .tj => some (tjSucc lab).toList
  | .rf => some (rfSuccs lab)
  | .rfe => some (rfeSuccs lab)
  | .co => (g.coSucc lab).map Option.toList
  | .fr => (g.frImmSucc lab).map Option.toList
  | .po => some (g.poImmSucc lab).toList

/-! ## Immediate successors -/

variable {g : ExecutionGraph}

/-- The second write comes right after the first one in the coherence order. -/
def CoImm (g : ExecutionGraph) (w w' : Event) : Prop := ∃ a s t, g.co a = s ++ w :: w' :: t

/-- The write is the first one that overwrites what the read has read. -/
def FrImm (g : ExecutionGraph) (r w' : Event) : Prop :=
  ∃ w ∈ g.rfOf r, (g.isa LabelBody.isWrite w ∧ g.CoImm w w') ∨
    (g.isa LabelBody.isWrite w = false ∧ ∃ a ∈ g.addrOf r, (g.co a).head? = some w')

/-- The immediate successors of an event. -/
def IsNeighbour (g : ExecutionGraph) (e e' : Event) : Neighbour → Prop
  | .tc => g.createdOf e = some e'.thread ∧ e'.index = 0
  | .tj => g.parentJoinOf e = some e'
  | .rf => g.rfOf e' = some e ∧ g.isa LabelBody.isWrite e
  | .rfe => g.rfOf e' = some e ∧ g.isa LabelBody.isWrite e ∧ e'.thread ≠ e.thread
  | .co => g.CoImm e e'
  | .fr => g.FrImm e e'
  | .po => e' = e.next ∧ g.containsPos e'

/-- A graph that can be navigated. -/
structure Navigable (g : ExecutionGraph) : Prop where
  /-- The graph is well-formed. -/
  wellFormed : WellFormed g
  /-- Every read has a source. -/
  sourced : ∀ r, g.isa LabelBody.isRead r → (g.rfOf r).isSome
  /-- A read reads from a write of its location. -/
  locations : ∀ r w, g.rfOf r = some w → g.isa LabelBody.isWrite w → g.addrOf w = g.addrOf r
  /-- Created threads have labels. -/
  threads : ∀ c t, g.createdOf c = some t → g.containsPos ⟨t, 0⟩

/-! ## Coherence order -/

section Coherence

variable (hr : ReaderLists g) (hs : Stores g)
include hr hs

/-- Members of a split coherence order are related. -/
lemma co_of_split {a : SAddr} {s t : List Event} {w w' : Event} (hco : g.co a = s ++ w :: t)
    (hw' : w' ∈ t) : g.Co w w' := by
  refine ⟨a, (coNeighbours hr hs hco).1, ?_⟩
  rw [hco]
  exact (List.Sublist.cons_cons w (List.singleton_sublist.mpr hw')).trans
    (List.sublist_append_right s _)

/-- The next write comes after a write. -/
lemma CoImm.co {w w' : Event} (h : g.CoImm w w') : g.Co w w' := by
  obtain ⟨a, s, t, hco⟩ := h
  exact co_of_split hr hs hco List.mem_cons_self

/-- What comes after a write in its coherence order. -/
lemma co_iff_mem {a : SAddr} {s t : List Event} {w w' : Event} (hco : g.co a = s ++ w :: t) :
    g.Co w w' ↔ w' ∈ t := by
  refine ⟨fun h => ?_, co_of_split hr hs hco⟩
  obtain ⟨b, hb, hsub⟩ := h
  obtain rfl : b = a := Option.some.inj (hb.symm.trans (coNeighbours hr hs hco).1)
  have hnodup := hs.nodup b
  rw [hco] at hsub hnodup
  have hws : w ∉ s := fun h =>
    (List.nodup_append.mp hnodup).2.2 w h w List.mem_cons_self rfl
  -- the first write is not in the part before itself, so that the second one is behind it
  obtain ⟨l₁, l₂, hsplit, h₁, h₂⟩ := List.sublist_append_iff.mp hsub
  cases l₁ with
  | nil =>
    rw [List.nil_append] at hsplit
    rw [← hsplit] at h₂
    exact List.singleton_sublist.mp (List.cons_sublist_cons.mp h₂)
  | cons x l₁ =>
    rw [List.cons_append, List.cons.injEq] at hsplit
    exact absurd (h₁.subset (hsplit.1 ▸ List.mem_cons_self)) hws

omit hr hs in
/-- Coherence order is made of steps to the next write. -/
lemma transGen_coImm {w w' : Event} (h : g.Co w w') : Relation.TransGen g.CoImm w w' := by
  obtain ⟨a, -, s, t, hco, hw⟩ := co_iff_split.mp h
  obtain ⟨x, y, rfl⟩ := List.append_of_mem hw
  have hsplit : g.co a = x ++ w :: (y ++ w' :: t) := by rw [hco, List.append_assoc]; rfl
  clear hco hw h
  induction y generalizing x w with
  | nil => exact .single ⟨a, x, t, hsplit⟩
  | cons z y ih =>
    exact .head ⟨a, x, y ++ w' :: t, hsplit⟩
      (ih (x := x ++ [w]) (by rw [hsplit, List.append_assoc]; rfl))

/-- `co_imm_succ` of a write. -/
lemma coImmSucc_eq {a : SAddr} {w : Event} (hw : w ∈ g.co a) :
    ∃ o, g.coImmSucc w = some o ∧ ∀ w', o = some w' ↔ g.CoImm w w' := by
  obtain ⟨s, t, hco⟩ := List.append_of_mem hw
  obtain ⟨ha, -, hsucc, -⟩ := coNeighbours hr hs hco
  refine ⟨t.head?, hsucc, fun w' => ⟨fun h => ?_, fun h => ?_⟩⟩
  · obtain ⟨t', rfl⟩ := List.head?_eq_some_iff.mp h
    exact ⟨a, s, t', hco⟩
  · obtain ⟨b, s', t', hco'⟩ := h
    obtain ⟨-, -, hsucc', -⟩ := coNeighbours hr hs hco'
    exact Option.some.inj (hsucc.symm.trans hsucc')

end Coherence

/-! ## Where the functions lead to -/

namespace Navigable

variable (hg : Navigable g)
include hg

/-- The initializer is in no class that the class of initializers is not in. -/
lemma isa_init_eq_false {q : LabelBody → Bool} (hq : q .init = false) :
    g.isa q .init = false := by
  obtain ⟨lab, hlab, hinit⟩ := isa_iff.mp hg.wellFormed.isa_init
  rw [isa_of_getEventLabel hlab]
  cases hb : lab.body <;> rw [hb] at hinit <;> first | exact hq | cases hinit

/-- The initializer is in no coherence order. -/
lemma init_notMem_co (a : SAddr) : .init ∉ g.co a := by
  intro hmem
  have hwrite := (hg.wellFormed.stores.stores a _ hmem).1
  rw [hg.isa_init_eq_false rfl] at hwrite
  cases hwrite

/-- The writes are in the coherence orders of their locations. -/
lemma mem_co {w : Event} (hw : g.isa LabelBody.isWrite w) : ∃ a, g.addrOf w = some a ∧
    w ∈ g.co a := by
  obtain ⟨lab, hlab, hwrite⟩ := isa_iff.mp hw
  obtain ⟨a, ha⟩ : ∃ a, g.addrOf w = some a := by
    rw [← Option.isSome_iff_exists, addrOf_of_getEventLabel hlab, LabelBody.addr_isSome, hwrite,
      Bool.or_true]
  exact ⟨a, ha, hg.wellFormed.allStores w a hw ha⟩

/-- `co_imm_succ`. -/
lemma coSucc_spec {e : Event} {lab : EventLabel} (hlab : g.getEventLabel e = some lab) :
    ∃ o, g.coSucc lab = some o ∧ ∀ e', o = some e' ↔ g.CoImm e e' := by
  have hpos := hg.wellFormed.readerLists.positioned.pos e lab hlab
  unfold coSucc
  split
  next hwrite =>
    obtain ⟨a, -, hmem⟩ := hg.mem_co (isa_iff.mpr ⟨lab, hlab, hwrite⟩)
    rw [hpos]
    exact coImmSucc_eq hg.wellFormed.readerLists hg.wellFormed.stores hmem
  next hwrite =>
    refine ⟨none, rfl, fun e' => ⟨fun h => (by cases h), fun h => ?_⟩⟩
    obtain ⟨a, s, t, hco⟩ := h
    have hisa := (hg.wellFormed.stores.stores a e (hco ▸ by simp)).1
    rw [isa_of_getEventLabel hlab] at hisa
    exact absurd hisa hwrite

/-- `fr_imm_succ`. -/
lemma frImmSucc_spec {e : Event} {lab : EventLabel} (hlab : g.getEventLabel e = some lab) :
    ∃ o, g.frImmSucc lab = some o ∧ ∀ e', o = some e' ↔ g.FrImm e e' := by
  have hrf : g.rfOf e = lab.body.rf := rfOf_of_getEventLabel hlab
  have haddr : g.addrOf e = lab.body.addr := addrOf_of_getEventLabel hlab
  unfold frImmSucc
  split
  next hread =>
    have hisa : g.isa LabelBody.isRead e := isa_iff.mpr ⟨lab, hlab, hread⟩
    obtain ⟨w, hw⟩ := Option.isSome_iff_exists.mp (hg.sourced e hisa)
    obtain ⟨a, ha⟩ : ∃ a, g.addrOf e = some a := by
      rw [← Option.isSome_iff_exists, haddr, LabelBody.addr_isSome, hread, Bool.true_or]
    have hiff : ∀ e', g.FrImm e e' ↔ (g.isa LabelBody.isWrite w ∧ g.CoImm w e') ∨
        (g.isa LabelBody.isWrite w = false ∧ (g.co a).head? = some e') := by
      intro e'
      unfold FrImm
      rw [hw, ha]
      simp only [Option.mem_def, Option.some.injEq, exists_eq_left']
    simp only [← hrf, ← haddr, hw, ha, Option.bind_eq_bind, Option.bind_some]
    split
    next hwrite =>
      obtain ⟨b, hb, hmem⟩ := hg.mem_co hwrite
      obtain ⟨o, ho, hsucc⟩ :=
        coImmSucc_eq hg.wellFormed.readerLists hg.wellFormed.stores hmem
      rw [ho, Option.bind_some]
      refine ⟨o, ?_, fun e' => ?_⟩
      · cases o with
        | some w' => rfl
        | none => exact if_pos ((hg.locations e w hw hwrite).trans ha)
      · rw [hsucc, hiff, hwrite]
        simp
    next hwrite =>
      obtain ⟨ws, hws⟩ := KeyedList.mem_keys_iff.mp (hg.wellFormed.readerLists.tracked e a ha)
      have hco : g.co a = ws := by
        unfold co
        rw [hws, Option.getD_some]
      refine ⟨ws.head?, by rw [hws, Option.map_some], fun e' => ?_⟩
      rw [hiff, hco, Bool.eq_false_iff.mpr hwrite]
      simp
  next hread =>
    refine ⟨none, rfl, fun e' => ⟨fun h => (by cases h), fun h => ?_⟩⟩
    obtain ⟨w, hw, -⟩ := h
    have hisa := isa_isRead_of_rfOf hw
    rw [isa_of_getEventLabel hlab] at hisa
    exact absurd hisa hread

/-- `tc_succ`. -/
lemma tcSucc_spec {e : Event} {lab : EventLabel} (hlab : g.getEventLabel e = some lab) :
    ∃ o, g.tcSucc lab = some o ∧
      ∀ e', o = some e' ↔ g.createdOf e = some e'.thread ∧ e'.index = 0 := by
  have hcreated : g.createdOf e = lab.body.createdThread := by
    unfold createdOf
    rw [hlab, Option.bind_some]
  unfold tcSucc
  rw [← hcreated]
  cases ht : g.createdOf e with
  | none => exact ⟨none, rfl, fun e' => by simp⟩
  | some t =>
    obtain ⟨sLab, hsLab⟩ := containsPos_iff.mp (hg.threads e t ht)
    have hstart := hg.wellFormed.readerLists.positioned.starts _ _ hsLab rfl
    refine ⟨some ⟨t, 0⟩, by simp only [hsLab, Option.map_some, if_pos hstart], fun e' => ?_⟩
    rw [Option.some.injEq, Option.some.injEq]
    constructor
    · rintro rfl
      exact ⟨rfl, rfl⟩
    · rintro ⟨rfl, hzero⟩
      rw [← hzero]

/-- `po_imm_succ`. -/
lemma poImmSucc_spec {e : Event} {lab : EventLabel} (hlab : g.getEventLabel e = some lab)
    (e' : Event) : g.poImmSucc lab = some e' ↔ e' = e.next ∧ g.containsPos e' := by
  unfold poImmSucc getNextLabel
  rw [hg.wellFormed.readerLists.positioned.pos e lab hlab]
  split
  next hnext =>
    constructor
    · intro h
      obtain rfl := Option.some.inj h
      exact ⟨rfl, hnext⟩
    · rintro ⟨rfl, -⟩
      rfl
  next hnext =>
    refine ⟨fun h => (by cases h), ?_⟩
    rintro ⟨rfl, h⟩
    exact absurd h hnext

/-- **Where the navigation functions lead to.** -/
lemma succs_spec {e : Event} {lab : EventLabel} (hlab : g.getEventLabel e = some lab)
    (k : Neighbour) : ∃ es, g.succs lab k = some es ∧ ∀ e', e' ∈ es ↔ g.IsNeighbour e e' k := by
  have hread : ∀ e', e' ∈ lab.body.readers ↔ g.rfOf e' = some e ∧ g.isa LabelBody.isWrite e := by
    intro e'
    by_cases hwrite : g.isa LabelBody.isWrite e
    · rw [← readersOf_of_getEventLabel hlab, mem_readersOf_iff hg.wellFormed.readerLists hwrite]
      simp [hwrite]
    · have hnil : lab.body.readers = [] :=
        LabelBody.readers_eq_nil (by rwa [isa_of_getEventLabel hlab, Bool.not_eq_true] at hwrite)
      simp [hnil, hwrite]
  have hlist : ∀ {x : Option (Option Event)} {P : Event → Prop},
      (∃ o, x = some o ∧ ∀ e', o = some e' ↔ P e') →
        ∃ es, x.map Option.toList = some es ∧ ∀ e', e' ∈ es ↔ P e' := by
    rintro x P ⟨o, rfl, ho⟩
    exact ⟨o.toList, rfl, fun e' => Option.mem_toList.trans (ho e')⟩
  cases k with
  | tc => exact hlist (hg.tcSucc_spec hlab)
  | tj =>
    refine ⟨_, rfl, fun e' => Option.mem_toList.trans ?_⟩
    unfold IsNeighbour parentJoinOf tjSucc
    rw [hlab, Option.bind_some]
  | rf => exact ⟨_, rfl, hread⟩
  | rfe =>
    refine ⟨_, rfl, fun e' => ?_⟩
    rw [rfeSuccs, List.mem_filter, hread, hg.wellFormed.readerLists.positioned.pos e lab hlab,
      decide_eq_true_eq, and_assoc]
    rfl
  | co => exact hlist (hg.coSucc_spec hlab)
  | fr => exact hlist (hg.frImmSucc_spec hlab)
  | po => exact ⟨_, rfl, fun e' => Option.mem_toList.trans (hg.poImmSucc_spec hlab e')⟩

/-- Members of a coherence order are labels. -/
lemma containsPos_of_mem_co {a : SAddr} {w : Event} (h : w ∈ g.co a) : g.containsPos w :=
  containsPos_of_isa (hg.wellFormed.stores.stores a w h).1

/-- Successors are labels of the graph. -/
lemma containsPos_of_isNeighbour {e e' : Event} {k : Neighbour} (h : g.IsNeighbour e e' k) :
    g.containsPos e' := by
  cases k with
  | tc =>
    have hpos := hg.threads e e'.thread h.1
    have heq : (⟨e'.thread, 0⟩ : Event) = e' := by rw [← h.2]
    rwa [heq] at hpos
  | tj =>
    obtain ⟨lab, hlab, hjoin⟩ := Option.bind_eq_some_iff.mp h
    exact containsPos_of_isa ((hg.wellFormed.links e lab hlab).parentJoin e' hjoin)
  | rf => exact containsPos_of_isa (isa_isRead_of_rfOf h.1)
  | rfe => exact containsPos_of_isa (isa_isRead_of_rfOf h.1)
  | co =>
    obtain ⟨a, s, t, hco⟩ := h
    exact hg.containsPos_of_mem_co (a := a) (hco ▸ by simp)
  | fr =>
    obtain ⟨w, -, ⟨-, a, s, t, hco⟩ | ⟨-, a, -, hhead⟩⟩ := h
    · exact hg.containsPos_of_mem_co (a := a) (hco ▸ by simp)
    · exact hg.containsPos_of_mem_co (List.mem_of_mem_head? hhead)
  | po => exact h.2

end Navigable

end ExecutionGraph

end GenMC
