import GenMC.ExecutionGraph.WellFormed

/-!
# Navigating a graph

The neighbours of a label in the relations of the graph: its immediate predecessor and successor in
coherence order, the reads that it overwrites, the create of a thread's start, and the end and the
join of a thread.
-/

namespace GenMC

namespace ExecutionGraph

/-- The element after `x` in an intrusive list, of which `x` must be an element. -/
def nextIn (x : Event) : List Event → Option (Option Event)
  | [] => none
  | y :: l => if y = x then some l.head? else nextIn x l

/-- `ExecutionGraph::co_imm_succ`. -/
def coImmSucc (g : ExecutionGraph) (w : Event) : Option (Option Event) := do
  let a ← g.addrOf w
  nextIn w (← g.coherence.find? a)

/-- `ExecutionGraph::co_imm_pred`. -/
def coImmPred (g : ExecutionGraph) (w : Event) : Option (Option Event) := do
  let a ← g.addrOf w
  nextIn w (← g.coherence.find? a).reverse

/-- The range of `ExecutionGraph::fr_imm_pred_begin`: the reads of the coherence predecessor, or of
the initializer. -/
def frImmPreds (g : ExecutionGraph) (w : Event) : Option (List Event) := do
  match ← g.coImmPred w with
  | some p => (g.getEventLabel p).map fun lab => lab.body.readers
  | none => g.initRfs.find? (← g.addrOf w)

/-- `ExecutionGraph::getNextLabel`; `none` for the last label of a thread. -/
def getNextLabel (g : ExecutionGraph) (e : Event) : Option EventLabel := g.getEventLabel e.next

/-- `tc_pred`: the create that a start points to. -/
def tcPred (g : ExecutionGraph) (lab : EventLabel) : Option Event := do
  let c ← lab.body.parentCreate
  if (← g.getEventLabel c).body.isThreadCreate then some c else none

/-- `tj_pred`: the end of the thread that a join waits for. -/
def tjPred (g : ExecutionGraph) (lab : EventLabel) : Option Event := do
  let child ← lab.body.joinedThread
  if (← g.getEventLabel (g.lastPos child)).body.isThreadFinish then some (g.lastPos child) else none

/-- `tj_succ`: the join that a thread's end points to. -/
def tjSucc (lab : EventLabel) : Option Event := lab.body.parentJoin

/-! ## Neighbours in a list -/

/-- The element after one that splits the list. -/
lemma nextIn_append {x : Event} {l l' : List Event} (hx : x ∉ l) :
    nextIn x (l ++ x :: l') = some l'.head? := by
  induction l with
  | nil => simp [nextIn]
  | cons y l ih =>
    have hne : y ≠ x := fun h => hx (h ▸ List.mem_cons_self)
    rw [List.cons_append, nextIn, if_neg hne]
    exact ih fun h => hx (List.mem_cons_of_mem y h)

/-- An element that is not in the list has no successor there. -/
lemma nextIn_eq_none {x : Event} {l : List Event} (hx : x ∉ l) : nextIn x l = none := by
  induction l with
  | nil => rfl
  | cons y l ih =>
    have hne : y ≠ x := fun h => hx (h ▸ List.mem_cons_self)
    rw [nextIn, if_neg hne]
    exact ih fun h => hx (List.mem_cons_of_mem y h)

/-! ## Coherence order -/

variable {g : ExecutionGraph}

/-- The readers of a write. -/
lemma mem_readersOf_iff (hr : ReaderLists g) {w r : Event} (hw : g.isa LabelBody.isWrite w) :
    r ∈ g.readersOf w ↔ g.rfOf r = some w := by
  rw [← List.count_pos_iff, hr.count_readersOf hw]
  split <;> simp_all

/-- Coherence order. -/
def Co (g : ExecutionGraph) (w w' : Event) : Prop := ∃ a ∈ g.addrOf w, [w, w'].Sublist (g.co a)

instance (p e : Event) : Decidable (g.Co p e) := by unfold Co; infer_instance

/-- Of two writes in coherence order, the first one is in the part of the order before the
second. -/
lemma co_iff_split {w w' : Event} : g.Co w w' ↔
    ∃ a ∈ g.addrOf w, ∃ s t, g.co a = s ++ w' :: t ∧ w ∈ s := by
  unfold Co
  refine exists_congr fun a => and_congr_right fun _ => ?_
  rw [List.cons_sublist_iff]
  constructor
  · rintro ⟨r, r', hr, hw, hw'⟩
    obtain ⟨x, y, rfl⟩ := List.append_of_mem (List.singleton_sublist.mp hw')
    exact ⟨r ++ x, y, by rw [hr, List.append_assoc], List.mem_append_left x hw⟩
  · rintro ⟨s, t, hst, hw⟩
    exact ⟨s, w' :: t, hst, hw, List.singleton_sublist.mpr List.mem_cons_self⟩

/-- The navigation functions find the neighbours of a write in the coherence order. -/
lemma coNeighbours (hr : ReaderLists g) (hs : Stores g) {w : Event} {a : SAddr} {s t : List Event}
    (hco : g.co a = s ++ w :: t) : g.addrOf w = some a ∧ g.coherence.find? a = some (s ++ w :: t) ∧
      g.coImmSucc w = some t.head? ∧ g.coImmPred w = some s.getLast? := by
  have hnodup := hs.nodup a
  have ha := (hs.stores a w (hco ▸ List.mem_append_right s List.mem_cons_self)).2
  obtain ⟨ws, hws⟩ := KeyedList.mem_keys_iff.mp (hr.tracked w a ha)
  have heq : s ++ w :: t = ws := by
    rw [← hco]
    unfold co
    rw [hws, Option.getD_some]
  rw [hco, List.nodup_append] at hnodup
  have hs : w ∉ s := fun h => hnodup.2.2 w h w List.mem_cons_self rfl
  have ht : w ∉ t := (List.nodup_cons.mp hnodup.2.1).1
  refine ⟨ha, heq ▸ hws, ?_, ?_⟩
  · simp only [coImmSucc, ha, hws, ← heq, Option.bind_eq_bind, Option.bind_some, nextIn_append hs]
  · have hrev : (s ++ w :: t).reverse = t.reverse ++ w :: s.reverse := by simp
    simp only [coImmPred, ha, hws, ← heq, Option.bind_eq_bind, Option.bind_some, hrev]
    rw [nextIn_append (List.mem_reverse.not.mpr ht), List.head?_reverse]

end ExecutionGraph

end GenMC
