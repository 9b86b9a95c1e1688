import GenMC.Verification.Consistency.ContextSchedules

/-!
# Greedy unfolding

Does the context bound change because `unfoldPrefix` takes the events of a thread without trying the
other threads?  Moving the event that it takes to the end of a schedule keeps the schedule valid and
saves a preemption where the event has been, but the threads that run after that place now run
without the event.  If that makes a thread enabled that is blocked as long as the event is there, a
new preemption is counted.  It happens with locks: the writes of an acquisition are taken, and a
thread that waits for the lock is blocked as long as they are there.

`Harmless` says that the search can follow a cheapest schedule and only takes events that block no
thread in some cheapest schedule of what is left.  These are the graphs where the bound is the least
number of preemptions of all schedules (`calculate_isLeast_all_iff`), among them all graphs where no
event that can be taken blocks another thread (`NeverBlocks.harmless`).
-/

namespace GenMC

open ExecutionGraph

namespace ContextBoundDecider

variable {g : ExecutionGraph} {getVal : Event → SVal} {v : View} {t u : ℕ} {l xs ys : List Event}
  {e : Event}

/-! ## Harmless events -/

/-- A schedule of a view with the fewest preemptions, after which thread `t` runs. -/
structure Cheapest (g : ExecutionGraph) (getVal : Event → SVal) (v : View) (t : ℕ)
    (l : List Event) : Prop where
  /-- The list is a schedule. -/
  linearises : Linearises g v l
  /-- No schedule has fewer preemptions. -/
  le : ∀ l', Linearises g v l' → preemptionsBefore g getVal t l ≤ preemptionsBefore g getVal t l'

/-- In the schedule `xs ++ e :: ys`, after which thread `u` runs, the event `e` blocks none of the
threads that are switched away from in `xs`. -/
def BlocksNone (g : ExecutionGraph) (getVal : Event → SVal) (e : Event) (ys : List Event) :
    ℕ → List Event → Prop
  | _, [] => True
  | u, x :: xs => (preempts g getVal (viewOf (x :: xs ++ ys)) u x.thread = some true →
      preempts g getVal (viewOf (x :: xs ++ e :: ys)) u x.thread = some true) ∧
    BlocksNone g getVal e ys x.thread xs

/-- The event that `unfoldPrefix` takes: what is left has a cheapest schedule where the event blocks
no thread that is switched away from. -/
def HarmlessAt (g : ExecutionGraph) (getVal : Event → SVal) (v : View) (t : ℕ) : Prop :=
  ∃ xs ys, Cheapest g getVal v t (xs ++ last v t :: ys) ∧
    BlocksNone g getVal (last v t) ys t xs

/-- A way of the search from a view on, which goes on with the threads of cheapest schedules and
takes harmless events only. -/
inductive HarmlessWay (g : ExecutionGraph) (getVal : Event → SVal) : View → ℕ → Prop
  /-- Nothing is left. -/
  | done {v : View} {t : ℕ} : (∀ t', v.getMax t' = 0) → HarmlessWay g getVal v t
  /-- `unfoldPrefix` takes an event. -/
  | unfold {v : View} {t : ℕ} : Droppable g v t → HarmlessAt g getVal v t →
      HarmlessWay g getVal (shrinkViewByOne v t) t → HarmlessWay g getVal v t
  /-- The loop goes on with a thread. -/
  | branch {v : View} {t tp : ℕ} {l : List Event} : ¬Droppable g v t →
      Cheapest g getVal v t (last v tp :: l) → HarmlessWay g getVal (shrinkViewByOne v tp) tp →
      HarmlessWay g getVal v t

/-- The search has a way that starts like a cheapest schedule and takes harmless events only. -/
def Harmless (g : ExecutionGraph) (getVal : Event → SVal) : Prop :=
  ∃ i l, Linearises g g.full (last g.full i :: l) ∧
    (∀ l', Linearises g g.full l' →
      preemptions g getVal (last g.full i :: l) ≤ preemptions g getVal l') ∧
    HarmlessWay g getVal (shrinkViewByOne g.full i) i

/-! ## The exchange -/

/-- A thread whose next event neither waits nor is missing is enabled. -/
lemma isEnabled_of_droppable (hg : g.SCConsistent) (hv : Within g v) (h : Droppable g v t)
    (hnext : g.containsPos (last v t).next) : isEnabled g getVal v t = some true := by
  obtain ⟨lab, hlab⟩ := hv.exists_label hg h.1
  have hlab' : g.getEventLabel ⟨t, v.getMax t⟩ = some lab := hlab
  obtain ⟨nLab, hnLab⟩ := containsPos_iff.mp hnext
  have hnLab' : g.getNextLabel ⟨t, v.getMax t⟩ = some nLab := hnLab
  have hterm : lab.body.isTerminator = false := Bool.eq_false_iff.mpr fun hterm =>
    hg.terminators _ (isa_iff.mpr ⟨lab, hlab, hterm⟩) hnext
  have hblock := h.2.2
  simp only [canBlock, hlab', hnLab', Option.bind_eq_bind, Option.bind_some,
    Option.any_some] at hblock
  have hkinds := Option.some.inj hblock
  rw [Bool.or_eq_false_iff, Bool.or_eq_false_iff] at hkinds
  obtain ⟨⟨hjoin, hlock⟩, hbarrier⟩ := hkinds
  simp only [isEnabled, hlab', hterm, hnLab', hjoin, hlock, hbarrier, Option.bind_eq_bind,
    Option.bind_some, Bool.false_eq_true, if_false]
  rfl

/-- A schedule without the last event of a thread is a schedule of the smaller view. -/
lemma Linearises.remove (h : Linearises g v (xs ++ e :: ys)) (he : e = last v t)
    (ht : 0 < v.getMax t) : Linearises g (shrinkViewByOne v t) (xs ++ ys) := by
  have hsub : (xs ++ ys).Sublist (xs ++ e :: ys) :=
    List.Sublist.append_left (List.sublist_cons_self e ys) xs
  refine ⟨h.nodup.sublist hsub, fun s => ?_, h.order.sublist hsub⟩
  have hnot : e ∉ xs ++ ys := (List.nodup_middle.mp h.nodup |> List.nodup_cons.mp).1
  rw [contains_shrinkViewByOne ht, ← he, ← and_assoc, ← h.mem s]
  constructor
  · intro hs
    exact ⟨hsub.subset hs, fun heq => hnot (heq ▸ hs)⟩
  · rintro ⟨hs, hne⟩
    rcases List.mem_append.mp hs with hs | hs
    · exact List.mem_append_left ys hs
    · exact List.mem_append_right xs ((List.mem_cons.mp hs).resolve_left hne)

/-- The preemption at the end of a schedule is at most one. -/
lemma preemptionsBefore_le_succ (g : ExecutionGraph) (getVal : Event → SVal) (t u : ℕ)
    (l : List Event) : preemptionsBefore g getVal u l ≤ preemptionsBefore g getVal t l + 1 := by
  cases l with
  | nil => exact Nat.zero_le _
  | cons e l =>
    rw [preemptionsBefore, preemptionsBefore]
    split <;> split <;> omega

/-- The end of a schedule with the last event of a thread further in front. -/
lemma Linearises.step (hg : g.SCConsistent) (hv : Within g v) (hclosed : Closed g v) {x : Event}
    (h : Linearises g v (x :: xs ++ last v t :: ys)) :
    x.thread ≠ t ∧ Within g (shrinkViewByOne v x.thread) ∧
      Closed g (shrinkViewByOne v x.thread) ∧ last (shrinkViewByOne v x.thread) t = last v t ∧
      (Droppable g v t → Droppable g (shrinkViewByOne v x.thread) t) ∧
      Linearises g (shrinkViewByOne v x.thread) (xs ++ last v t :: ys) := by
  obtain ⟨hxi, hx, hxmax, hrest⟩ := (linearises_cons_iff hg hv hclosed).mp h
  have hindex : x.index = v.getMax x.thread := congrArg Event.index hx
  -- the other events are not events of the thread
  have hne : x.thread ≠ t := by
    intro heq
    have hself : x = last v t := hx.trans (by rw [heq])
    have hnodup := (List.nodup_cons.mp h.nodup).1
    exact hnodup (hself ▸ List.mem_append_right xs List.mem_cons_self)
  have hmax : (shrinkViewByOne v x.thread).getMax t = v.getMax t := by
    rw [getMax_shrinkViewByOne, if_neg (Ne.symm hne)]
  have hv' := hv.shrink x.thread
  refine ⟨hne, hv', hclosed.shrink hg hv (by omega) hxmax, Event.ext rfl hmax, fun hdrop => ?_,
    hrest⟩
  refine ⟨hmax ▸ hdrop.1, isSCMaximal_anti hg hv hv' (getMax_shrinkViewByOne_le v x.thread) hmax
    hdrop.1 hdrop.2.1, ?_⟩
  have hblock := hdrop.2.2
  unfold canBlock at hblock ⊢
  rw [hmax]
  exact hblock

/-- **The exchange.**  A schedule has no more preemptions without an event that can be taken, if the
event blocks no thread that is switched away from. -/
lemma preemptionsBefore_remove_le (hg : g.SCConsistent) (hv : Within g v) (hclosed : Closed g v)
    (hdrop : Droppable g v t) (hnext : g.containsPos (last v t).next)
    (h : Linearises g v (xs ++ last v t :: ys)) (hblocks : BlocksNone g getVal (last v t) ys u xs) :
    preemptionsBefore g getVal u (xs ++ ys) ≤
      preemptionsBefore g getVal u (xs ++ last v t :: ys) := by
  induction xs generalizing v u with
  | nil =>
    -- the event itself: a switch to it from another thread is a preemption
    have hcons : preemptionsBefore g getVal u (last v t :: ys) =
        preemptionsBefore g getVal t ys + if preempts g getVal v u t = some true then 1 else 0 :=
      preemptionsBefore_cons h u
    rw [List.nil_append, List.nil_append, hcons]
    by_cases hut : t = u
    · rw [hut]
      exact Nat.le_add_right _ _
    · have hpreempts : preempts g getVal v u t = some true := by
        unfold preempts
        rw [if_neg hut]
        exact isEnabled_of_droppable hg hv hdrop hnext
      rw [if_pos hpreempts]
      exact preemptionsBefore_le_succ g getVal t u ys
  | cons x xs ih =>
    obtain ⟨hne, hv', hclosed', hlast, hdrop', hrest⟩ := h.step hg hv hclosed
    have ih := ih (u := x.thread) hv' hclosed' (hdrop' hdrop) (hlast ▸ hnext) (hlast ▸ hrest)
      (hlast ▸ hblocks.2)
    rw [hlast] at ih
    rw [List.cons_append, List.cons_append, preemptionsBefore, preemptionsBefore]
    -- a switch away from another thread is a preemption with the event if it is one without
    by_cases hp : preempts g getVal (viewOf (x :: (xs ++ ys))) u x.thread = some true
    · have hp' : preempts g getVal (viewOf (x :: (xs ++ last v t :: ys))) u x.thread = some true :=
        hblocks.1 hp
      rw [if_pos hp, if_pos hp']
      omega
    · rw [if_neg hp]
      omega

/-! ## The least number of preemptions -/

/-- In the view of an unfolded schedule, the next event of the thread is in the graph. -/
lemma containsPos_next_last (hg : g.SCConsistent) (hv : Within g v) (ht : 0 < v.getMax t) :
    g.containsPos (last (shrinkViewByOne v t) t).next := by
  have hlast : (last (shrinkViewByOne v t) t).next = last v t := by
    refine Event.ext rfl ?_
    change (shrinkViewByOne v t).getMax t + 1 = v.getMax t
    rw [getMax_shrinkViewByOne, if_pos rfl]
    omega
  rw [hlast]
  exact hv.containsPos hg (e := last v t) ht (decide_eq_true le_rfl)

/-- A thread that goes on adds no preemption. -/
lemma preemptionsBefore_last (h : Linearises g v (last v t :: l)) :
    preemptionsBefore g getVal t (last v t :: l) = preemptionsBefore g getVal t l := by
  have hcons : preemptionsBefore g getVal t (last v t :: l) = preemptionsBefore g getVal t l +
      if preempts g getVal v t t = some true then 1 else 0 := preemptionsBefore_cons h t
  rw [hcons, preempts_self, if_neg (by simp), Nat.add_zero]

/-- On a way of harmless events the search finds a schedule with the fewest preemptions. -/
lemma HarmlessWay.exists_unfolded (h : HarmlessWay g getVal v t) (hg : g.SCConsistent)
    (hv : Within g v) (hclosed : Closed g v) (hnext : g.containsPos (last v t).next) :
    ∃ l, Cheapest g getVal v t l ∧ UnfoldedBefore g t l := by
  induction h with
  | done hzero => exact ⟨[], ⟨linearises_nil_iff.mpr hzero, fun l' _ => Nat.zero_le _⟩, trivial⟩
  | @unfold v t hdrop hharmless _ ih =>
    -- the event that is taken moves to the end
    obtain ⟨xs, ys, hcheap, hblocks⟩ := hharmless
    obtain ⟨l, hl, hu⟩ := ih (hv.shrink t) (hclosed.shrink hg hv hdrop.1 hdrop.2.1)
      (containsPos_next_last hg hv hdrop.1)
    have hcons : Linearises g v (last v t :: l) :=
      (linearises_cons_iff hg hv hclosed).mpr ⟨hdrop.1, rfl, hdrop.2.1, hl.linearises⟩
    refine ⟨last v t :: l, ⟨hcons, fun l' hl' => ?_⟩, fun _ => rfl, hu⟩
    calc preemptionsBefore g getVal t (last v t :: l)
        = preemptionsBefore g getVal t l := preemptionsBefore_last hcons
      _ ≤ preemptionsBefore g getVal t (xs ++ ys) :=
          hl.le _ (hcheap.linearises.remove rfl hdrop.1)
      _ ≤ preemptionsBefore g getVal t (xs ++ last v t :: ys) :=
          preemptionsBefore_remove_le hg hv hclosed hdrop hnext hcheap.linearises hblocks
      _ ≤ preemptionsBefore g getVal t l' := hcheap.le l' hl'
  | @branch v t tp l hstop hcheap _ ih =>
    obtain ⟨hi, -, hmax, hrest⟩ := (linearises_cons_iff hg hv hclosed).mp hcheap.linearises
    obtain ⟨l', hl', hu⟩ := ih (hv.shrink tp) (hclosed.shrink hg hv hi hmax)
      (containsPos_next_last hg hv hi)
    have hcons : Linearises g v (last v tp :: l') :=
      (linearises_cons_iff hg hv hclosed).mpr ⟨hi, rfl, hmax, hl'.linearises⟩
    refine ⟨last v tp :: l', ⟨hcons, fun m hm => le_trans ?_ (hcheap.le m hm)⟩, fun hdrop => ?_, hu⟩
    · rw [preemptionsBefore_cons hcons, preemptionsBefore_cons hcheap.linearises]
      exact Nat.add_le_add_right (hl'.le l hrest) _
    · exact absurd ((droppable_congr hcons.getMax_viewOf_eq t).mp hdrop) hstop

/-- A cheapest schedule that the search finds is a way of harmless events: the events that are taken
are at its end. -/
lemma Cheapest.harmlessWay (h : Cheapest g getVal v t l) (hg : g.SCConsistent) (hv : Within g v)
    (hclosed : Closed g v) (hu : UnfoldedBefore g t l) : HarmlessWay g getVal v t := by
  induction l generalizing v t with
  | nil => exact .done (linearises_nil_iff.mp h.linearises)
  | cons e l ih =>
    obtain ⟨hi, hlast, hmax, hrest⟩ := (linearises_cons_iff hg hv hclosed).mp h.linearises
    have hpos : 0 < v.getMax e.thread := hi.trans_eq (congrArg Event.index hlast)
    -- the rest is as cheap as possible, since a cheaper one would give a cheaper schedule
    have hcheap : Cheapest g getVal (shrinkViewByOne v e.thread) e.thread l := by
      refine ⟨hrest, fun l' hl' => ?_⟩
      have hcons := (linearises_cons_iff hg hv hclosed).mpr ⟨hi, hlast, hmax, hl'⟩
      have hle := h.le _ hcons
      rw [preemptionsBefore_cons h.linearises, preemptionsBefore_cons hcons] at hle
      exact Nat.le_of_add_le_add_right hle
    have hway := ih hcheap (hv.shrink e.thread) (hclosed.shrink hg hv hpos hmax) hu.2
    by_cases hdrop : Droppable g v t
    · obtain rfl := hu.1 ((droppable_congr h.linearises.getMax_viewOf_eq t).mpr hdrop)
      exact .unfold hdrop ⟨[], l, hlast ▸ h, trivial⟩ hway
    · exact .branch hdrop (hlast ▸ h) hway

/-- A closed view has a cheapest schedule. -/
lemma exists_cheapest (hg : g.SCConsistent) (getVal : Event → SVal) (hv : Within g v)
    (hclosed : Closed g v) (t : ℕ) : ∃ l, Cheapest g getVal v t l := by
  obtain ⟨n, hn, -⟩ := prefix_agrees hg getVal (size g v + 1) v t hv (Nat.lt_succ_self _)
  obtain ⟨⟨l, hl, -, -⟩, -⟩ :=
    calculatePrefix_isLeast hg getVal _ v t hv hclosed (Nat.lt_succ_self _) hn
  obtain ⟨l, hl, hmin⟩ := (measure (preemptionsBefore g getVal t)).wf.has_min
    {l | Linearises g v l} ⟨l, hl⟩
  exact ⟨l, hl, fun l' hl' => not_lt.mp (hmin l' hl')⟩

/-- The end of a schedule of the full view. -/
lemma linearises_full_cons (hg : g.SCConsistent) (h : Linearises g g.full (e :: l)) :
    e = last g.full e.thread ∧ 0 < g.full.getMax e.thread ∧
      isSCMaximal g g.full e.thread = some true ∧ Closed g (shrinkViewByOne g.full e.thread) ∧
      Linearises g (shrinkViewByOne g.full e.thread) l := by
  obtain ⟨hi, hlast, hmax, hrest⟩ :=
    (linearises_cons_iff hg (within_full g) (closed_full hg)).mp h
  have hpos : 0 < g.full.getMax e.thread := hi.trans_eq (congrArg Event.index hlast)
  exact ⟨hlast, hpos, hmax, (closed_full hg).shrink hg (within_full g) hpos hmax, hrest⟩

/-- The calculation has a result if there are events. -/
lemma exists_event_of_calculate (hg : g.SCConsistent) {n : ℕ} (h : calculate g getVal = some n) :
    (∃ t, 0 < g.full.getMax t) ∧ ∃ e, g.containsPos e ∧ 0 < e.index := by
  obtain ⟨i, -, hcand⟩ := exists_candidate_of_leastBranch h
  obtain ⟨hpos, -⟩ := getMax_pos_of_candidate hcand
  exact ⟨⟨i, hpos⟩, last g.full i,
    (within_full g).containsPos hg (e := last g.full i) hpos (decide_eq_true le_rfl), hpos⟩

/-- No event that can be taken after the next one of its thread blocks another thread. -/
def NeverBlocks (g : ExecutionGraph) (getVal : Event → SVal) : Prop :=
  ∀ v t tp, Within g v → Closed g v → Droppable g v t → g.containsPos (last v t).next → tp ≠ t →
    isEnabled g getVal (shrinkViewByOne v t) tp = some true → isEnabled g getVal v tp = some true

namespace NeverBlocks

variable (hnever : NeverBlocks g getVal) (hg : g.SCConsistent)
include hnever hg

/-- An event that is taken blocks no thread in any schedule. -/
lemma blocksNone (hv : Within g v) (hclosed : Closed g v) (hdrop : Droppable g v t)
    (hnext : g.containsPos (last v t).next) (h : Linearises g v (xs ++ last v t :: ys)) :
    BlocksNone g getVal (last v t) ys u xs := by
  induction xs generalizing v u with
  | nil => trivial
  | cons x xs ih =>
    obtain ⟨hne, hv', hclosed', hlast, hdrop', hrest⟩ := h.step hg hv hclosed
    have ih := ih (u := x.thread) hv' hclosed' (hdrop' hdrop) (hlast ▸ hnext) (hlast ▸ hrest)
    refine ⟨?_, hlast ▸ ih⟩
    have hremove : Linearises g (shrinkViewByOne v t) (x :: xs ++ ys) := h.remove rfl hdrop.1
    rw [preempts_congr h.getMax_viewOf_eq, preempts_congr hremove.getMax_viewOf_eq]
    unfold preempts
    split
    next => exact id
    next => exact hnever v t x.thread hv hclosed hdrop hnext hne

/-- The search has a way of harmless events from every view on. -/
lemma harmlessWay (n : ℕ) (hv : Within g v) (hclosed : Closed g v)
    (hnext : g.containsPos (last v t).next) (hsize : size g v ≤ n) :
    HarmlessWay g getVal v t := by
  induction n generalizing v t with
  | zero =>
    refine .done fun t' => Nat.eq_zero_of_not_pos fun ht' => ?_
    have hlt : size g (shrinkViewByOne v t') < size g v :=
      size_lt (t := t') hv (getMax_shrinkViewByOne_le v t') (by
        rw [getMax_shrinkViewByOne, if_pos rfl]
        omega)
    omega
  | succ n ih =>
    have hway : ∀ {tp}, 0 < v.getMax tp → isSCMaximal g v tp = some true →
        HarmlessWay g getVal (shrinkViewByOne v tp) tp := by
      intro tp hpos hmax
      refine ih (hv.shrink tp) (hclosed.shrink hg hv hpos hmax) (containsPos_next_last hg hv hpos)
        (Nat.lt_succ_iff.mp ?_)
      refine lt_of_lt_of_le (size_lt (t := tp) hv (getMax_shrinkViewByOne_le v tp) ?_) hsize
      rw [getMax_shrinkViewByOne, if_pos rfl]
      omega
    obtain ⟨l, hcheap⟩ := exists_cheapest hg getVal hv hclosed t
    by_cases hdrop : Droppable g v t
    · have hmem := (hcheap.linearises.mem (last v t)).mpr ⟨hdrop.1, decide_eq_true le_rfl⟩
      obtain ⟨xs, ys, rfl⟩ := List.append_of_mem hmem
      exact .unfold hdrop ⟨xs, ys, hcheap, hnever.blocksNone hg hv hclosed hdrop hnext
        hcheap.linearises⟩ (hway hdrop.1 hdrop.2.1)
    · cases l with
      | nil => exact .done (linearises_nil_iff.mp hcheap.linearises)
      | cons e l =>
        obtain ⟨hi, hlast, hmax, -⟩ :=
          (linearises_cons_iff hg hv hclosed).mp hcheap.linearises
        have hpos : 0 < v.getMax e.thread := hi.trans_eq (congrArg Event.index hlast)
        exact .branch hdrop (hlast ▸ hcheap) (hway hpos hmax)

/-- The search has a way of harmless events. -/
lemma harmless (hne : ∃ e, g.containsPos e ∧ 0 < e.index) : Harmless g getVal := by
  obtain ⟨-, -, ⟨l, hl, -, -⟩, -⟩ := calculate_isLeast hg getVal hne
  obtain ⟨l, hl, hmin⟩ := (measure (preemptions g getVal)).wf.has_min
    {l | Linearises g g.full l} ⟨l, hl⟩
  have hfull : ∃ t, 0 < g.full.getMax t := by
    obtain ⟨e, he, hi⟩ := hne
    exact ⟨e.thread, hi.trans_le ((hg.containsPos_iff_full hi).mp he)⟩
  obtain ⟨e, l, rfl⟩ := exists_cons hl hfull
  obtain ⟨hlast, hpos, -, hclosed, -⟩ := linearises_full_cons hg hl
  exact ⟨e.thread, l, hlast ▸ hl, fun l' hl' => hlast ▸ not_lt.mp (hmin l' hl'),
    hnever.harmlessWay hg _ ((within_full g).shrink _) hclosed
      (containsPos_next_last hg (within_full g) hpos) le_rfl⟩

end NeverBlocks

/-- A view that an event is taken off contains no more events. -/
lemma contains_of_contains_shrink {e : Event} (h : (shrinkViewByOne v t).contains e) :
    v.contains e :=
  decide_eq_true ((of_decide_eq_true h).trans (getMax_shrinkViewByOne_le v t e.thread))

/-- Without locks and barriers no event blocks another thread: what a join waits for does not become
available. -/
lemma neverBlocks_of_no_locks (hlock : ∀ e, ¬g.isa LabelBody.isLockCasRead e)
    (hbarrier : ∀ e, ¬g.isa LabelBody.isBWaitRead e) : NeverBlocks g getVal := by
  intro v t tp _ _ _ _ hne henabled
  have hmax : (shrinkViewByOne v t).getMax tp = v.getMax tp := by
    rw [getMax_shrinkViewByOne, if_neg hne]
  unfold isEnabled at henabled ⊢
  rw [hmax] at henabled
  cases hlab : g.getEventLabel ⟨tp, v.getMax tp⟩ with
  | none =>
    rw [hlab] at henabled
    cases henabled
  | some lab =>
    rw [hlab, Option.bind_eq_bind, Option.bind_some] at henabled
    rw [Option.bind_eq_bind, Option.bind_some]
    by_cases hterm : lab.body.isTerminator
    · rw [if_pos hterm] at henabled
      cases henabled
    rw [if_neg hterm] at henabled ⊢
    cases hnext : g.getNextLabel ⟨tp, v.getMax tp⟩ with
    | none =>
      rw [hnext] at henabled
      cases henabled
    | some nLab =>
      rw [hnext] at henabled
      have hnLab : g.getEventLabel (Event.next ⟨tp, v.getMax tp⟩) = some nLab := hnext
      have hnotLock : ¬nLab.body.isLockCasRead := fun h =>
        hlock _ (isa_iff.mpr ⟨nLab, hnLab, h⟩)
      have hnotBarrier : ¬nLab.body.isBWaitRead := fun h =>
        hbarrier _ (isa_iff.mpr ⟨nLab, hnLab, h⟩)
      dsimp only at henabled ⊢
      by_cases hjoin : nLab.body.isThreadJoin
      · rw [if_pos hjoin] at henabled ⊢
        obtain ⟨f, hf, hcontains⟩ := Option.bind_eq_some_iff.mp henabled
        rw [hf, Option.bind_eq_bind, Option.bind_some]
        exact congrArg some (contains_of_contains_shrink (Option.some.inj hcontains))
      · rw [if_neg hjoin, if_neg hnotLock, if_neg hnotBarrier]
        rfl

/-- A thread that reads from another thread while it holds a lock that the other one goes on to
acquire. -/
def contention : ExecutionGraph :=
  (PartialRun.exec Mutation.apply initial
    [.addLabelToGraph { pos := ⟨0, 1⟩, body := .plain (.threadCreate 1) },
      .addNewThread,
      .addLabelToGraph { pos := ⟨1, 0⟩, body := .threadStart ⟨0, 1⟩ },
      .addLabelToGraph { pos := ⟨0, 2⟩, body := .read .lockCasRead { addr := ⟨8⟩ } none false },
      .setRf ⟨0, 2⟩ (some .init),
      .addLabelToGraph { pos := ⟨0, 3⟩, body := .write .lockCasWrite { addr := ⟨8⟩ } [] },
      .addStoreToCOAfter ⟨0, 3⟩ .init,
      .addLabelToGraph { pos := ⟨1, 1⟩, body := .write .write { addr := ⟨16⟩ } [] },
      .addStoreToCOAfter ⟨1, 1⟩ .init,
      .addLabelToGraph { pos := ⟨0, 4⟩, body := .read .read { addr := ⟨16⟩ } none false },
      .setRf ⟨0, 4⟩ (some ⟨1, 1⟩),
      .addLabelToGraph { pos := ⟨0, 5⟩, body := .write .unlockWrite { addr := ⟨8⟩ } [] },
      .addStoreToCOAfter ⟨0, 5⟩ ⟨0, 3⟩,
      .addLabelToGraph { pos := ⟨0, 6⟩, body := .threadFinish none },
      .addLabelToGraph { pos := ⟨1, 2⟩, body := .read .lockCasRead { addr := ⟨8⟩ } none false },
      .setRf ⟨1, 2⟩ (some ⟨0, 5⟩),
      .addLabelToGraph { pos := ⟨1, 3⟩, body := .write .lockCasWrite { addr := ⟨8⟩ } [] },
      .addStoreToCOAfter ⟨1, 3⟩ ⟨0, 5⟩,
      .addLabelToGraph { pos := ⟨1, 4⟩, body := .write .unlockWrite { addr := ⟨8⟩ } [] },
      .addStoreToCOAfter ⟨1, 4⟩ ⟨1, 3⟩,
      .addLabelToGraph { pos := ⟨1, 5⟩, body := .threadFinish none }]).getD initial

/-- The schedule, latest event first, in which the second thread writes after the first one has the
lock. -/
def contentionSchedule : List Event :=
  [⟨1, 5⟩, ⟨1, 4⟩, ⟨1, 3⟩, ⟨1, 2⟩, ⟨0, 6⟩, ⟨0, 5⟩, ⟨0, 4⟩, ⟨1, 1⟩, ⟨0, 3⟩, ⟨0, 2⟩, ⟨0, 1⟩]

/-- The graph is sequentially consistent. -/
lemma scConsistent_contention : contention.SCConsistent :=
  .of_check (by decide +kernel) (by decide +kernel)
    (.init :: ⟨0, 1⟩ :: ⟨1, 0⟩ :: contentionSchedule.reverse) (by decide +kernel)

/-- The events of the graph are those of the schedule. -/
lemma linearises_contentionSchedule : Linearises contention contention.full contentionSchedule := by
  have hpositions : ∀ e ∈ contention.positions, 0 < e.index → e ∈ contentionSchedule := by
    decide +kernel
  have hschedule : ∀ e ∈ contentionSchedule, 0 < e.index ∧ contention.full.contains e := by
    decide +kernel
  refine ⟨by decide +kernel, fun e => ⟨hschedule e, fun ⟨hi, he⟩ => ?_⟩, by decide +kernel⟩
  have hpos := (scConsistent_contention.containsPos_iff_full hi).mpr (of_decide_eq_true he)
  exact hpositions e (mem_positions.mpr hpos) hi

end ContextBoundDecider

end GenMC
