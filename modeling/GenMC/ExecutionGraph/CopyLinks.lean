import GenMC.ExecutionGraph.CopyLabels
import GenMC.ExecutionGraph.WellFormed

/-!
# The links of a copy

The second part of `copyGraphUpTo`: the insertion order and the loop that turns the pointers and
lists of the copied labels to the copy.  `relinkMap` says what the loop does to one label.
-/

namespace GenMC

namespace ExecutionGraph

variable {g g' other s s' : ExecutionGraph} {v pv : VectorClock}

/-- Whether the copy has a position, be it for a label or for a hole. -/
def inRange (g : ExecutionGraph) (v : VectorClock) (e : Event) : Bool :=
  decide (e.thread < g.getNumThreads) && decide (e.index ≤ v.getMax e.thread)

lemma inRange_iff {e : Event} :
    g.inRange v e ↔ e.thread < g.getNumThreads ∧ e.index ≤ v.getMax e.thread := by
  unfold inRange
  rw [Bool.and_eq_true, decide_eq_true_iff, decide_eq_true_iff]

/-- The copy has the positions of the contained labels. -/
lemma inRange_of_contains {e : Event} (hc : v.contains e) (hg : g.containsPos e) :
    g.inRange v e := by
  obtain ⟨lab, hlab⟩ := containsPos_iff.mp hg
  exact inRange_iff.mpr ⟨thread_lt_of_getEventLabel hlab, VectorClock.le_getMax_of_contains hc⟩

/-- What the links of the label at a position of the copy become. -/
def relinkMap (g : ExecutionGraph) (v : VectorClock) (e : Event) : FieldMap where
  rf := Option.filter (g.inRange v)
  readers := fun _ => (g.readersOf e).filter v.contains
  alloc := Option.filter fun a => v.contains a && g.isa LabelBody.isMalloc a
  free := Option.filter fun d => v.contains d && g.isa LabelBody.isFree d
  accesses := fun _ => (g.accessesOf e).filter v.contains
  freeAlloc := Option.filter fun a => v.contains a && g.isa LabelBody.isMalloc a
  parentJoin := Option.filter fun j => v.contains j && g.isa LabelBody.isThreadJoin j

/-! ## The labels of the copy -/

namespace CopyState

/-- All positions have been visited. -/
abbrev Complete (g : ExecutionGraph) (v pv : VectorClock) (other : ExecutionGraph) : Prop :=
  CopyState g v pv (copyPositions g.getNumThreads v) other

/-- The visited positions are those in range. -/
lemma mem_copyPositions_iff {e : Event} :
    e ∈ copyPositions g.getNumThreads v ↔ g.inRange v e ∧ e ≠ .init := by
  rw [mem_copyPositions, inRange_iff, and_assoc]

/-- The positions of the copy. -/
lemma containsPos_eq (h : Complete g v pv other)
    (hsize : ∀ e, g.inRange v e → v.contains e → g.containsPos e) (hn : 0 < g.getNumThreads)
    (e : Event) : other.containsPos e = g.inRange v e := by
  by_cases hinit : e = .init
  · subst hinit
    rw [containsPos, h.init, inRange]
    simp [Event.init, hn]
  · cases hr : g.inRange v e with
    | false =>
      have hnone := h.outside e (fun hmem => by
        rw [(mem_copyPositions_iff.mp hmem).1] at hr
        cases hr) hinit
      rw [containsPos, hnone]
      rfl
    | true =>
      have hmem := mem_copyPositions_iff.mpr ⟨hr, hinit⟩
      cases hc : v.contains e with
      | true =>
        obtain ⟨lab, hlab⟩ := containsPos_iff.mp (hsize e hr hc)
        rw [containsPos, h.label e hmem hc, hlab]
        rfl
      | false =>
        obtain ⟨stamp, hs⟩ := h.hole e hmem hc
        rw [containsPos, hs]
        rfl

/-- The classes of the labels of the copy: a hole has none. -/
lemma isa_eq (h : Complete g v pv other) (hinit : g.isa LabelBody.isInit .init)
    (p : LabelBody → Bool) [ClassTest p] (hempty : p .empty = false) (e : Event) :
    other.isa p e = (v.contains e && g.isa p e) := by
  by_cases he : e = .init
  · subst he
    obtain ⟨lab, hlab, hbody⟩ := isa_iff.mp hinit
    rw [isa_of_getEventLabel h.init, isa_of_getEventLabel hlab, VectorClock.contains_init,
      Bool.true_and]
    cases hb : lab.body <;> rw [hb] at hbody <;> first | rfl | cases hbody
  · by_cases hmem : e ∈ copyPositions g.getNumThreads v
    · cases hc : v.contains e with
      | true =>
        unfold isa
        rw [h.label e hmem hc, Bool.true_and]
        cases g.getEventLabel e with
        | none => rfl
        | some lab => exact ClassTest.mapFields _ _
      | false =>
        obtain ⟨stamp, hs⟩ := h.hole e hmem hc
        rw [isa_of_getEventLabel hs, Bool.false_and]
        exact hempty
    · have hnone : other.getEventLabel e = none := h.outside e hmem he
      have hfalse : (v.contains e && g.isa p e) = false := by
        rw [Bool.and_eq_false_iff]
        by_contra hnot
        rw [not_or, Bool.not_eq_false, Bool.not_eq_false] at hnot
        obtain ⟨lab, hlab, -⟩ := isa_iff.mp hnot.2
        exact hmem (mem_copyPositions_iff.mpr
          ⟨inRange_of_contains hnot.1 (containsPos_iff.mpr ⟨lab, hlab⟩), he⟩)
      rw [hfalse, isa, hnone]
      rfl

/-- Every label of the copy is at its position. -/
lemma pos (h : Complete g v pv other)
    (hpos : ∀ e lab, g.getEventLabel e = some lab → lab.pos = e) {e : Event} {lab : EventLabel}
    (hlab : other.getEventLabel e = some lab) : lab.pos = e := by
  by_cases he : e = .init
  · subst he
    rw [h.init] at hlab
    rw [← Option.some.inj hlab]
    rfl
  · by_cases hmem : e ∈ copyPositions g.getNumThreads v
    · cases hc : v.contains e with
      | true =>
        rw [h.label e hmem hc] at hlab
        obtain ⟨gLab, hgLab, rfl⟩ := Option.map_eq_some_iff.mp hlab
        exact hpos e gLab hgLab
      | false =>
        obtain ⟨stamp, hs⟩ := h.hole e hmem hc
        rw [hs] at hlab
        rw [← Option.some.inj hlab]
        rfl
    · rw [h.outside e hmem he] at hlab
      cases hlab

end CopyState

/-! ## Rebuilding the links -/

/-- Rebuilding the links of a label only changes links. -/
lemma relinkLabel_relinks {e : Event} (h : g.relinkLabel v s e = some s') : Relinks s s' := by
  unfold relinkLabel at h
  obtain ⟨lab, -, h⟩ := Option.bind_eq_some_iff.mp h
  obtain ⟨readers, -, h⟩ := Option.bind_eq_some_iff.mp h
  obtain ⟨parentJoin, -, h⟩ := Option.bind_eq_some_iff.mp h
  obtain ⟨free, -, h⟩ := Option.bind_eq_some_iff.mp h
  obtain ⟨accesses, -, h⟩ := Option.bind_eq_some_iff.mp h
  obtain ⟨freeAlloc, -, h⟩ := Option.bind_eq_some_iff.mp h
  exact Option.some.inj h ▸ Relinks.updateLabel s e _

/-- Rebuilding all links only changes links. -/
lemma relinkLabels_relinks (h : g.relinkLabels v s = some s') : Relinks s s' :=
  PartialRun.foldlM_invariant (fun _ _ _ _ hs hstep => hs.trans (relinkLabel_relinks hstep))
    (Relinks.refl s) h

/-- The shape of the copy while its links are rebuilt. -/
structure CopyShape (g : ExecutionGraph) (v : VectorClock) (s : ExecutionGraph) : Prop where
  /-- Every label is at its position. -/
  pos : ∀ e lab, s.getEventLabel e = some lab → lab.pos = e
  /-- The copy has the positions in range. -/
  containsPos : ∀ e, s.containsPos e = g.inRange v e
  /-- The classes are those of the contained labels. -/
  isa : ∀ (p : LabelBody → Bool) [ClassTest p], p .empty = false → ∀ e,
    s.isa p e = (v.contains e && g.isa p e)

namespace CopyShape

/-- The shape does not depend on links. -/
lemma relinks (h : CopyShape g v s) (hs : Relinks s s') : CopyShape g v s' := by
  refine ⟨fun e lab hlab => ?_, fun e => ?_, fun p _ hp e => ?_⟩
  · have hskel := hs.skeleton e
    rw [hlab, Option.map_some, eq_comm, Option.map_eq_some_iff] at hskel
    obtain ⟨lab', hlab', heq⟩ := hskel
    exact (congrArg EventLabel.pos heq).symm.trans (h.pos e lab' hlab')
  · rw [hs.containsPos, h.containsPos]
  · rw [hs.isa, h.isa p hp]

/-- A pointer to a label of the copy. -/
lemma retarget_eq (h : CopyShape g v s) {p : LabelBody → Bool} [ClassTest p]
    (hp : p .empty = false) {e : Event} (he : g.inRange v e) :
    s.retarget p e = some (if v.contains e && g.isa p e then some e else none) := by
  rw [← h.containsPos] at he
  obtain ⟨lab, hlab⟩ := containsPos_iff.mp he
  unfold retarget
  rw [hlab, Option.map_some, h.pos e lab hlab, ← h.isa p hp, isa_of_getEventLabel hlab]

/-- The source of a read is kept if its position is in range. -/
lemma rf_eq (h : CopyShape g v s) (rf : Option Event) :
    (rf.bind fun w => (s.getEventLabel w).map (·.pos)) = rf.filter (g.inRange v) := by
  cases rf with
  | none => rfl
  | some w =>
    rw [Option.bind_some, Option.filter_some, ← h.containsPos]
    cases hlab : s.getEventLabel w with
    | none =>
      rw [ExecutionGraph.containsPos, hlab]
      rfl
    | some lab =>
      rw [ExecutionGraph.containsPos, hlab, Option.map_some, h.pos w lab hlab, Option.isSome_some,
        if_pos rfl]

/-- The allocation of an access is kept if the clock contains it. -/
lemma alloc_eq (h : CopyShape g v s) (alloc : Option Event) :
    (alloc.bind fun a => (s.retarget LabelBody.isMalloc a).getD none) =
      alloc.filter fun a => v.contains a && g.isa LabelBody.isMalloc a := by
  cases alloc with
  | none => rfl
  | some a =>
    rw [Option.bind_some, Option.filter_some]
    cases hr : g.inRange v a with
    | true => rw [h.retarget_eq rfl hr, Option.getD_some]
    | false =>
      rw [← h.containsPos] at hr
      have hnone : s.getEventLabel a = none := by
        unfold ExecutionGraph.containsPos at hr
        simpa using hr
      rw [← h.isa LabelBody.isMalloc rfl, retarget, ExecutionGraph.isa, hnone]
      rfl

/-- A pointer to a label of the original is kept if the clock contains it. -/
lemma retargetContained_eq (h : CopyShape g v s) {p : LabelBody → Bool} [ClassTest p]
    (hp : p .empty = false) {o : Option Event} (ho : ∀ e, o = some e → g.isa p e) :
    retargetContained v s p o = some (o.filter fun e => v.contains e && g.isa p e) := by
  cases o with
  | none => rfl
  | some e =>
    have hisa := ho e rfl
    rw [Option.filter_some]
    simp only [retargetContained]
    by_cases hc : v.contains e
    · obtain ⟨lab, hlab, -⟩ := isa_iff.mp hisa
      rw [if_pos hc]
      exact h.retarget_eq hp (inRange_of_contains hc (containsPos_iff.mpr ⟨lab, hlab⟩))
    · rw [Bool.eq_false_iff.mpr hc]
      rfl

/-- The copy of a list of labels. -/
lemma relinkList_eq (h : CopyShape g v s) {p : LabelBody → Bool} [ClassTest p]
    (hp : p .empty = false) {l : List Event} (hnodup : l.Nodup) (hl : ∀ e ∈ l, g.isa p e) :
    relinkList v s p l = some (l.filter v.contains) := by
  obtain ⟨acc, hacc, rfl⟩ := PartialRun.foldlM_total (l.filter v.contains)
    (fun done acc => acc = done)
    (f := fun acc e => do
      let lab ← s.getEventLabel e
      if p lab.body ∧ lab.pos ∉ acc then some (acc ++ [lab.pos]) else none)
    (fun done e rest hsplit acc hacc => by
      have hmem : e ∈ l.filter v.contains := by
        rw [hsplit]
        exact List.mem_append_right _ List.mem_cons_self
      obtain ⟨hel, hc⟩ := List.mem_filter.mp hmem
      have hisa : s.isa p e := by
        rw [h.isa p hp, hc, hl e hel]
        rfl
      obtain ⟨lab, hlab, hlabp⟩ := isa_iff.mp hisa
      have hnot : e ∉ done := by
        have := hnodup.filter v.contains
        rw [hsplit, List.nodup_append] at this
        exact fun hdone => this.2.2 e hdone e List.mem_cons_self rfl
      refine ⟨_, ?_, rfl⟩
      rw [hacc, hlab, Option.bind_eq_bind, Option.bind_some, h.pos e lab hlab,
        if_pos ⟨hlabp, hnot⟩])
    rfl
  exact hacc

/-- The rebuilt list of a label. -/
lemma copiedList_eq (h : CopyShape g v s)
    {p q : LabelBody → Bool} [ClassTest p] [ClassTest q]
    (hp : p .empty = false) (hq : q .empty = false)
    {f : LabelBody → List Event} {e : Event} {lab : EventLabel}
    (hlab : s.getEventLabel e = some lab)
    (hlist : ∀ oLab, g.getEventLabel e = some oLab →
      (f oLab.body).Nodup ∧ ∀ e' ∈ f oLab.body, g.isa q e') :
    ∃ l, g.copiedList v p q f s lab = some l ∧
      (p lab.body → ∃ oLab, g.getEventLabel e = some oLab ∧
        l = (f oLab.body).filter v.contains) := by
  unfold copiedList
  split
  next hown =>
    rw [← isa_of_getEventLabel hlab p, h.isa p hp, Bool.and_eq_true] at hown
    obtain ⟨oLab, hoLab, hoown⟩ := isa_iff.mp hown.2
    obtain ⟨hnodup, hmem⟩ := hlist oLab hoLab
    refine ⟨(f oLab.body).filter v.contains, ?_, fun _ => ⟨oLab, hoLab, rfl⟩⟩
    rw [h.pos e lab hlab, hoLab, Option.bind_eq_bind, Option.bind_some, if_pos hoown]
    exact h.relinkList_eq hq hnodup hmem
  next hown => exact ⟨[], rfl, fun howned => absurd howned hown⟩

/-- Rebuilding the links of a label that has those of the original. -/
lemma relinkLabel_eq (h : CopyShape g v s)
    (hg : ∀ e lab, g.getEventLabel e = some lab → LinksTo g lab) {e : Event} {lab : EventLabel}
    (hlab : s.getEventLabel e = some lab) (hlinks : LinksTo g lab) :
    g.relinkLabel v s e = some (s.updateLabel e (EventLabel.mapFields (g.relinkMap v e))) := by
  obtain ⟨readers, hreaders, hreadersEq⟩ := h.copiedList_eq (p := LabelBody.isWrite)
    (q := LabelBody.isRead) (f := LabelBody.readers) rfl rfl hlab
    fun oLab hoLab => (hg e oLab hoLab).readers
  obtain ⟨accesses, haccesses, haccessesEq⟩ := h.copiedList_eq (p := LabelBody.isMalloc)
    (q := LabelBody.isAccess) (f := LabelBody.accesses) rfl rfl hlab
    fun oLab hoLab => (hg e oLab hoLab).accesses
  unfold relinkLabel
  simp only [hlab, hreaders, haccesses, h.retargetContained_eq rfl hlinks.parentJoin,
    h.retargetContained_eq rfl hlinks.free, h.retargetContained_eq rfl hlinks.freeAlloc,
    Option.bind_eq_bind, Option.bind_some]
  refine congrArg some (updateLabel_congr fun lab' hlab' => ?_)
  obtain rfl : lab = lab' := Option.some.inj (hlab.symm.trans hlab')
  refine congrArg (fun b => { lab with body := b }) ?_
  refine LabelBody.mapFields_congr (h.rf_eq _) (fun hw => ?_) (h.alloc_eq _) rfl (fun hm => ?_)
    rfl rfl rfl rfl
  · obtain ⟨oLab, hoLab, rfl⟩ := hreadersEq hw
    rw [relinkMap, readersOf_of_getEventLabel hoLab]
  · obtain ⟨oLab, hoLab, rfl⟩ := haccessesEq hm
    rw [relinkMap, accessesOf_of_getEventLabel hoLab]

/-- Rebuilding the links of all labels. -/
lemma relinkLabels_eq (h : CopyShape g v s)
    (hg : ∀ e lab, g.getEventLabel e = some lab → LinksTo g lab)
    (hs : ∀ e lab, s.getEventLabel e = some lab → LinksTo g lab)
    (hnodup : s.insertionOrder.Nodup) (horder : ∀ e ∈ s.insertionOrder, s.containsPos e) :
    g.relinkLabels v s = some (s.insertionOrder.foldl
      (fun s e => s.updateLabel e (EventLabel.mapFields (g.relinkMap v e))) s) := by
  obtain ⟨s', hs', rfl⟩ := PartialRun.foldlM_total s.insertionOrder
    (fun done s' => s' =
      done.foldl (fun s e => s.updateLabel e (EventLabel.mapFields (g.relinkMap v e))) s)
    (f := g.relinkLabel v)
    (fun done e rest hsplit s' hs' => by
      rw [hsplit, List.nodup_append] at hnodup
      obtain ⟨lab, hlab⟩ := containsPos_iff.mp
        (horder e (hsplit ▸ List.mem_append_right done List.mem_cons_self))
      have hlab' : s'.getEventLabel e = some lab := by
        rw [hs', getEventLabel_foldl_updateLabel (fun e => EventLabel.mapFields (g.relinkMap v e))
          hnodup.1, if_neg fun hdone => hnodup.2.2 e hdone e List.mem_cons_self rfl, hlab]
      have hshape : CopyShape g v s' := by
        rw [hs']
        exact h.relinks (Relinks.foldl_updateLabel _ (g.relinkMap v) _)
      refine ⟨_, hshape.relinkLabel_eq hg hlab' (hs e lab hlab), ?_⟩
      rw [List.foldl_append, hs']
      rfl)
    rfl
  exact hs'

end CopyShape

end ExecutionGraph

end GenMC
