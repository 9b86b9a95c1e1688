import GenMC.Verification.CachedLabels

/-!
# Steps on the graphs of instruction caching

What a handler fills in before a label is added gives the label that should be cached
(`isRecorded_complete`), and it does not matter whether the handler starts from the interpreter's
label or from the cached one (`complete_of_isRecorded`).  Adding labels, changing what they return,
removing them and starting threads leave the labels of a graph those of the interpreter; a label
that is kept beyond a hole or beyond a revisited event has to be checked (`KeptAfter`).
-/

namespace GenMC

open DriverGraph

/-- A label of the interpreter, in terms of its fields. -/
lemma ThreadProgram.fields {A : Type} (prog : ThreadProgram A) {t i : ℕ} {vals : List SVal}
    {lab : DriverLabel A} (h : prog.next t i vals = some lab) : lab.stamp = none ∧
      lab.revisitable = true ∧ lab.prefixView = none ∧
      lab.body.mapFields LabelBody.resetMap = lab.body := by
  have hreset := prog.reset h
  unfold DriverLabel.reset at hreset
  refine ⟨?_, ?_, ?_, ?_⟩ <;> rw [← hreset]
  rw [LabelBody.mapFields_mapFields]
  rfl

namespace DriverGraph

variable {A : Type} {prog : ThreadProgram A} {init : SAddr → SVal} {g g' : DriverGraph A}
  {t i n : ℕ} {vals : List SVal} {pLab cLab lab : DriverLabel A} {annot : Option A}

/-! ## What the handlers fill in -/

/-- The value that a handler fills in. -/
lemma complete_val (hnext : prog.next t i vals = some pLab)
    (hbarriers : BarriersOk prog init g.barrierInit) :
    (g.complete annot pLab).val = pLab.settledVal init := by
  unfold complete DriverLabel.settledVal
  dsimp only
  split
  next hcond =>
    rw [Bool.and_eq_true, decide_eq_true_eq] at hcond
    cases haddr : pLab.body.addr with
    | none => rfl
    | some a => exact hbarriers t i vals pLab a hnext hcond.1 hcond.2 haddr
  next => rfl

/-- **What is cached.**  A label of the interpreter is cached as it should be unless it is an
optional block and another one has been expanded. -/
lemma isRecorded_complete (hnext : prog.next t i vals = some pLab)
    (hbarriers : BarriersOk prog init g.barrierInit)
    (hoptional : pLab.body.isOptional = true → g.hasUnexpandable = false) :
    pLab.IsRecorded init (g.complete pLab.annot pLab).reset := by
  obtain ⟨hstamp, hrev, hview, hbody⟩ := prog.fields hnext
  refine ⟨g.childId pLab.pos, ?_⟩
  have hval : (g.complete pLab.annot pLab).val = pLab.settledVal init :=
    complete_val hnext hbarriers
  have hexp : (g.complete pLab.annot pLab).expandable = pLab.expandable := by
    change (pLab.expandable && !(pLab.body.isOptional && g.hasUnexpandable)) = pLab.expandable
    cases hopt : pLab.body.isOptional with
    | false => simp
    | true => rw [hoptional hopt]; simp
  have hannot : (g.complete pLab.annot pLab).annot = pLab.annot := by
    change (if pLab.body.isRead then pLab.annot <|> pLab.annot else pLab.annot) = pLab.annot
    cases pLab.annot <;> simp
  have hbody' : (g.complete pLab.annot pLab).body.mapFields LabelBody.resetMap =
      pLab.body.setChildId (g.childId pLab.pos) := by
    change (pLab.body.setChildId _).mapFields _ = _
    rw [DriverLabel.mapFields_setChildId, hbody]
  unfold DriverLabel.reset DriverLabel.recorded
  rw [hval, hexp, hannot, hbody']
  obtain ⟨⟨pos, stamp, revisitable, prefixView, body⟩, expandable, expanded, val, annot⟩ := pLab
  cases hstamp
  cases hrev
  cases hview
  rfl

/-- **Completing a cached label** gives what completing the interpreter's label gives, unless the
label is a read without annotation and the interpreter is at an annotated instruction. -/
lemma complete_of_isRecorded (hnext : prog.next t i vals = some pLab)
    (hbarriers : BarriersOk prog init g.barrierInit) (hrec : pLab.IsRecorded init cLab)
    (hannot : pLab.body.isRead = true → pLab.annot = none → annot = none) :
    g.complete annot cLab = g.complete pLab.annot pLab := by
  obtain ⟨childId, rfl⟩ := hrec
  have hval : (g.complete annot (pLab.recorded init childId)).val =
      (g.complete pLab.annot pLab).val := by
    rw [complete_val hnext hbarriers]
    unfold complete DriverLabel.recorded
    simp only [DriverLabel.isBIncFaiWrite_setChildId, DriverLabel.addr_setChildId]
    split
    next hcond =>
      rw [Bool.and_eq_true, decide_eq_true_eq] at hcond
      obtain ⟨hbinc, hzero⟩ := hcond
      cases haddr : pLab.body.addr with
      | none => rfl
      | some a =>
        by_cases hval : pLab.val = 0
        · rw [Option.map_some, Option.getD_some, hbarriers t i vals pLab a hnext hbinc hval haddr]
          unfold DriverLabel.settledVal
          simp [hbinc, hval, haddr]
        · unfold DriverLabel.settledVal at hzero
          rw [decide_eq_false hval, Bool.and_false, if_neg Bool.false_ne_true] at hzero
          exact absurd hzero hval
    next => rfl
  have hannot' : (g.complete annot (pLab.recorded init childId)).annot =
      (g.complete pLab.annot pLab).annot := by
    unfold complete DriverLabel.recorded
    simp only [DriverLabel.isRead_setChildId]
    cases hread : pLab.body.isRead with
    | false => rfl
    | true =>
      cases ha : pLab.annot with
      | none => rw [hannot hread ha]
      | some a => rfl
  unfold complete at hval hannot' ⊢
  unfold DriverLabel.recorded at hval hannot' ⊢
  simp only at hval hannot'
  simp only [hval, hannot', DriverLabel.isOptional_setChildId, DriverLabel.setChildId_setChildId]

/-! ## Graphs that change -/

/-- The labels agree, up to what `reset` takes back. -/
lemma fields_of_reset_eq {lab lab' : DriverLabel A} (h : lab'.reset = lab.reset) :
    lab'.pos = lab.pos ∧ lab'.body.hasValue = lab.body.hasValue ∧
      lab'.body.isEmpty = lab.body.isEmpty ∧ lab'.body.isBlock = lab.body.isBlock := by
  refine ⟨?_, ?_, ?_, ?_⟩
  · rw [← DriverLabel.pos_reset, h, DriverLabel.pos_reset]
  · rw [← DriverLabel.hasValue_reset, h, DriverLabel.hasValue_reset]
  · rw [← DriverLabel.isEmpty_reset, h, DriverLabel.isEmpty_reset]
  · rw [← DriverLabel.isBlock_reset, h, DriverLabel.isBlock_reset]

/-- The value of a label is none of the fields that `reset` takes back. -/
lemma valueOf_reset (g : DriverGraph A) (lab : DriverLabel A) :
    g.valueOf lab.reset = g.valueOf lab := by
  unfold valueOf DriverLabel.reset
  obtain ⟨⟨pos, stamp, revisitable, prefixView, body⟩, expandable, expanded, val, annot⟩ := lab
  cases body <;> rfl

/-- A label stays the interpreter's if the values before it stay the same. -/
lemma Follows.congr (h : g.Follows prog init t i) (hvals : g'.valsUpTo t i = g.valsUpTo t i)
    (hlab : ∀ lab', g'.getEventLabel ⟨t, i⟩ = some lab' →
      ∃ lab, g.getEventLabel ⟨t, i⟩ = some lab ∧ lab'.body.hasValue = lab.body.hasValue ∧
        lab'.body.isBlock = lab.body.isBlock ∧
        (lab'.body.hasValue = false → lab'.reset = lab.reset))
    (hend : ∀ lab, g.getEventLabel ⟨t, i⟩ = some lab → lab.body.isBlock = true →
      g.getEventLabel ⟨t, i + 1⟩ = none → g'.getEventLabel ⟨t, i + 1⟩ = none) :
    g'.Follows prog init t i := by
  intro lab' hlab'
  obtain ⟨lab, hget, hvalue, hblock, hreset⟩ := hlab lab' hlab'
  rcases h lab hget with ⟨pLab, hnext, hvalue', hrec⟩ | ⟨hisBlock, hnone⟩
  · refine .inl ⟨pLab, hvals ▸ hnext, hvalue'.trans hvalue.symm, fun hfalse => ?_⟩
    rw [hreset hfalse]
    exact hrec (hvalue ▸ hfalse)
  · exact .inr ⟨hblock.trans hisBlock, hend lab hget hisBlock hnone⟩

/-- The labels beyond an index that are reached when the holes before them are filled are the
interpreter's. -/
def KeptAfter (prog : ThreadProgram A) (init : SAddr → SVal) (g : DriverGraph A) (t i : ℕ) : Prop :=
  ∀ k, i < k → g.Filled t k → g.Follows prog init t k

/-- A position before another one, or in another thread. -/
lemma ne_of_before {e : Event} {t j : ℕ} (h : t ≠ e.thread ∨ j < e.index) :
    (⟨t, j⟩ : Event) ≠ e := by
  rintro rfl
  rcases h with ht | hj
  · exact ht rfl
  · exact lt_irrefl j hj

/-- A new label leaves the values before it what they were. -/
lemma valsUpTo_addLabel (hpos : g.Positioned)
    (hget : ∀ e, g'.getEventLabel e = if e = lab.pos then some lab else g.getEventLabel e)
    (hvalue : ∀ e ≠ lab.pos, g'.value e = g.value e) {t i : ℕ}
    (h : t ≠ lab.pos.thread ∨ i ≤ lab.pos.index) : g'.valsUpTo t i = g.valsUpTo t i := by
  refine valsUpTo_congr fun j hj => ?_
  have hne : (⟨t, j⟩ : Event) ≠ lab.pos := ne_of_before (h.imp_right fun hle => by omega)
  rw [hget, if_neg hne]
  cases hlab : g.getEventLabel ⟨t, j⟩ with
  | none => rfl
  | some lab' =>
    rw [Option.bind_some, Option.bind_some]
    unfold valueOf
    rw [hvalue lab'.pos (hpos _ _ hlab ▸ hne)]

/-- A label at the place where the next one of its thread goes, or at the end instead of the last
one. -/
lemma GraphOk.addLabel (h : g.GraphOk prog init) (hn : 0 < lab.pos.index)
    (hget : ∀ e, g'.getEventLabel e = if e = lab.pos then some lab else g.getEventLabel e)
    (hvalue : ∀ e ≠ lab.pos, g'.value e = g.value e)
    (hunblocked : g.Unblocked lab.pos.thread ∨ (g.getEventLabel lab.pos).isSome)
    (hfollows : g'.Follows prog init lab.pos.thread lab.pos.index)
    (hkept : KeptAfter prog init g' lab.pos.thread lab.pos.index) : g'.GraphOk prog init := by
  refine ⟨fun e lab' hlab' => ?_, fun t lab' hlab' => ?_, fun t i hi hfilled => ?_⟩
  · rw [hget] at hlab'
    split at hlab'
    next he => rw [he, ← Option.some.inj hlab']
    next => exact h.positioned e lab' hlab'
  · rw [hget, if_neg (ne_of_before (.inr hn))] at hlab'
    exact h.begins t lab' hlab'
  · by_cases hor : t ≠ lab.pos.thread ∨ i < lab.pos.index
    · -- the label is before the new one
      have hfilled' : g.Filled t i := by
        intro j hj hji
        obtain ⟨lab', hlab', hempty⟩ := hfilled j hj hji
        rw [hget, if_neg (ne_of_before (hor.imp_right fun hlt => by omega))] at hlab'
        exact ⟨lab', hlab', hempty⟩
      refine (h.follows t i hi hfilled').congr
        (valsUpTo_addLabel h.positioned hget hvalue (hor.imp_right Nat.le_of_lt)) ?_ ?_
      · intro lab' hlab'
        rw [hget, if_neg (ne_of_before hor)] at hlab'
        exact ⟨lab', hlab', rfl, rfl, fun _ => rfl⟩
      · intro lab' hlab' hblock hnone
        rw [hget]
        split
        next heq =>
          obtain rfl : t = lab.pos.thread := congrArg Event.thread heq
          rcases hunblocked with hun | hsome
          · rw [hun i lab' hlab' hnone] at hblock
            cases hblock
          · rw [← heq, hnone] at hsome
            cases hsome
        next => exact hnone
    · obtain ⟨ht, hle⟩ := not_or.mp hor
      obtain rfl := not_not.mp ht
      rcases Nat.lt_or_eq_of_le (not_lt.mp hle) with hlt | heq
      · exact hkept i hlt hfilled
      · exact heq ▸ hfollows

/-- A graph without new labels, in which the values before a label are what they were, or the label
is still the interpreter's. -/
lemma GraphOk.of_labels (h : g.GraphOk prog init) (hpos : g'.Positioned)
    (hbegins : ∀ t lab', g'.getEventLabel ⟨t, 0⟩ = some lab' → lab'.body.isThreadStart = true)
    (hlab : ∀ t i lab', 0 < i → g'.Filled t i → g'.getEventLabel ⟨t, i⟩ = some lab' →
      ∃ lab, g.getEventLabel ⟨t, i⟩ = some lab ∧ lab'.body.hasValue = lab.body.hasValue ∧
        lab'.body.isBlock = lab.body.isBlock ∧ lab'.body.isEmpty = lab.body.isEmpty ∧
        (lab'.body.hasValue = false → lab'.reset = lab.reset))
    (hnone : ∀ e, g.getEventLabel e = none → g'.getEventLabel e = none)
    (hvals : ∀ t i, 0 < i → g'.Filled t i →
      g'.valsUpTo t i = g.valsUpTo t i ∨ g'.Follows prog init t i) : g'.GraphOk prog init := by
  refine ⟨hpos, hbegins, fun t i hi hfilled => ?_⟩
  rcases hvals t i hi hfilled with heq | hfollows
  · have hfilled' : g.Filled t i := by
      intro j hj hji
      obtain ⟨lab', hlab', hempty⟩ := hfilled j hj hji
      obtain ⟨lab, hget, -, -, hempty', -⟩ := hlab t j lab' hj (hfilled.mono hji) hlab'
      exact ⟨lab, hget, hempty' ▸ hempty⟩
    refine (h.follows t i hi hfilled').congr heq (fun lab' hlab' => ?_) fun _ _ _ => hnone _
    obtain ⟨lab, hget, hvalue, hblock, -, hreset⟩ := hlab t i lab' hi hfilled hlab'
    exact ⟨lab, hget, hvalue, hblock, hreset⟩
  · exact hfollows

/-- A read gets another source. -/
lemma GraphOk.setValue (h : g.GraphOk prog init) {e : Event} {v : SVal}
    (hkept : KeptAfter prog init { g with value := Function.update g.value e v } e.thread e.index) :
    GraphOk prog init { g with value := Function.update g.value e v } := by
  refine h.of_labels h.positioned h.begins (fun t i lab' _ _ hlab' => ?_) (fun e hnone => hnone)
    fun t i hi hfilled => ?_
  · exact ⟨lab', hlab', rfl, rfl, rfl, fun _ => rfl⟩
  · by_cases hlt : t = e.thread ∧ e.index < i
    · obtain ⟨rfl, hlt⟩ := hlt
      exact .inr (hkept i hlt hfilled)
    · refine .inl (valsUpTo_congr fun j hj => ?_)
      change (g.getEventLabel ⟨t, j⟩).bind _ = (g.getEventLabel ⟨t, j⟩).bind _
      cases hlab : g.getEventLabel ⟨t, j⟩ with
      | none => rfl
      | some lab =>
        have hne : lab.pos ≠ e := by
          rw [h.positioned _ _ hlab]
          rintro rfl
          exact hlt ⟨rfl, hj⟩
        rw [Option.bind_some, Option.bind_some]
        unfold valueOf
        simp only [Function.update_of_ne hne]

/-- A label changes in what does not matter to the interpreter. -/
lemma GraphOk.updateLabel (h : g.GraphOk prog init) {e : Event}
    {f : DriverLabel A → DriverLabel A} (hpos : ∀ lab, (f lab).pos = lab.pos)
    (hbody : ∀ lab, (f lab).body.hasValue = lab.body.hasValue ∧
      (f lab).body.isBlock = lab.body.isBlock ∧ (f lab).body.isEmpty = lab.body.isEmpty ∧
      (f lab).body.isThreadStart = lab.body.isThreadStart)
    (hreset : ∀ lab, lab.body.hasValue = false → (f lab).reset = lab.reset)
    (hvals : (∀ lab, g.valueOf (f lab) = g.valueOf lab) ∨
      KeptAfter prog init (g.updateLabel e f) e.thread e.index) :
    (g.updateLabel e f).GraphOk prog init := by
  -- every label is one of the graph, maybe changed
  have hlab : ∀ e' lab', (g.updateLabel e f).getEventLabel e' = some lab' →
      ∃ lab, g.getEventLabel e' = some lab ∧ (lab' = lab ∨ lab' = f lab) := by
    intro e' lab' hlab'
    rw [getEventLabel_updateLabel] at hlab'
    split at hlab'
    next =>
      obtain ⟨lab, hget, rfl⟩ := Option.map_eq_some_iff.mp hlab'
      exact ⟨lab, hget, .inr rfl⟩
    next => exact ⟨lab', hlab', .inl rfl⟩
  refine h.of_labels (fun e' lab' hlab' => ?_) (fun t lab' hlab' => ?_)
    (fun t i lab' _ _ hlab' => ?_) (fun e' hnone => ?_) fun t i hi hfilled => ?_
  · obtain ⟨lab, hget, rfl | rfl⟩ := hlab e' lab' hlab'
    · exact h.positioned e' _ hget
    · rw [hpos]
      exact h.positioned e' _ hget
  · obtain ⟨lab, hget, rfl | rfl⟩ := hlab _ lab' hlab'
    · exact h.begins t _ hget
    · rw [(hbody lab).2.2.2]
      exact h.begins t _ hget
  · obtain ⟨lab, hget, rfl | rfl⟩ := hlab _ lab' hlab'
    · exact ⟨_, hget, rfl, rfl, rfl, fun _ => rfl⟩
    · obtain ⟨hvalue, hblock, hempty, -⟩ := hbody lab
      exact ⟨lab, hget, hvalue, hblock, hempty, fun hfalse => hreset lab (hvalue ▸ hfalse)⟩
  · rw [getEventLabel_updateLabel, hnone]
    split <;> rfl
  · rcases hvals with hvals | hkept
    · refine .inl (valsUpTo_congr fun j _ => ?_)
      rw [getEventLabel_updateLabel]
      split
      next =>
        rw [Option.bind_map]
        exact congrArg _ (funext hvals)
      next => rfl
    · by_cases hlt : t = e.thread ∧ e.index < i
      · obtain ⟨rfl, hlt⟩ := hlt
        exact .inr (hkept i hlt hfilled)
      · refine .inl (valsUpTo_congr fun j hj => ?_)
        rw [getEventLabel_updateLabel, if_neg]
        · rfl
        · rintro rfl
          exact hlt ⟨rfl, hj⟩

/-- The last label of a thread is removed. -/
lemma GraphOk.removeLast (h : g.GraphOk prog init) : (g.removeLast t).GraphOk prog init := by
  have hlab : ∀ e lab', (g.removeLast t).getEventLabel e = some lab' →
      g.getEventLabel e = some lab' := by
    intro e lab' hlab'
    rw [getEventLabel_removeLast] at hlab'
    split at hlab'
    next => cases hlab'
    next => exact hlab'
  refine h.of_labels (fun e lab' hlab' => h.positioned e lab' (hlab e lab' hlab'))
    (fun t lab' hlab' => h.begins t lab' (hlab _ lab' hlab'))
    (fun t i lab' _ _ hlab' => ⟨lab', hlab _ lab' hlab', rfl, rfl, rfl, fun _ => rfl⟩)
    (fun e hnone => ?_) fun t' i hi hfilled => .inl (valsUpTo_congr fun j hj => ?_)
  · rw [getEventLabel_removeLast, hnone]
    split <;> rfl
  · obtain ⟨lab', hlab', -⟩ := hfilled i hi le_rfl
    obtain ⟨lab, hj'⟩ := Option.isSome_iff_exists.mp
      (isSome_of_le (Option.isSome_iff_exists.mpr ⟨lab', hlab'⟩) (Nat.le_of_lt hj))
    rw [hj', hlab _ lab hj']
    rfl

/-- The graph is restricted. -/
lemma GraphOk.cut (h : g.GraphOk prog init) {keep : Event → Bool} :
    (g.cut keep).GraphOk prog init := by
  -- a label that is not a hole is one of the graph
  have hlab : ∀ {t i lab'}, (g.cut keep).getEventLabel ⟨t, i⟩ = some lab' →
      (0 < i → lab'.body.isEmpty = false) → g.getEventLabel ⟨t, i⟩ = some lab' := by
    intro t i lab' hlab' hempty
    obtain ⟨lab, hget, rfl | ⟨rfl, hi⟩⟩ := getEventLabel_cut hlab'
    · exact hget
    · cases hempty hi
  have hfilledLab : ∀ {t i lab'}, (g.cut keep).Filled t i →
      (g.cut keep).getEventLabel ⟨t, i⟩ = some lab' → 0 < i → lab'.body.isEmpty = false := by
    intro t i lab' hfilled hlab' hi
    obtain ⟨lab, hget, hempty⟩ := hfilled i hi le_rfl
    rwa [Option.some.inj (hlab'.symm.trans hget)]
  refine h.of_labels (fun e lab' hlab' => ?_)
    (fun t lab' hlab' => h.begins t lab' (hlab hlab' fun h0 => absurd h0 (lt_irrefl 0)))
    (fun t i lab' hi hfilled hlab' => ⟨lab', hlab hlab' (hfilledLab hfilled hlab'), rfl, rfl, rfl,
      fun _ => rfl⟩)
    (fun e hnone => ?_) fun t i hi hfilled => .inl (valsUpTo_congr fun j hj => ?_)
  · obtain ⟨lab, hget, rfl | ⟨rfl, -⟩⟩ := getEventLabel_cut hlab'
    · exact h.positioned e _ hget
    · rfl
  · cases hcut : (g.cut keep).getEventLabel e with
    | none => rfl
    | some lab' =>
      obtain ⟨lab, hget, -⟩ := getEventLabel_cut hcut
      rw [hnone] at hget
      cases hget
  · obtain ⟨lab', hlab', -⟩ := hfilled i hi le_rfl
    obtain ⟨lab, hj'⟩ := Option.isSome_iff_exists.mp
      (isSome_of_le (Option.isSome_iff_exists.mpr ⟨lab', hlab'⟩) (Nat.le_of_lt hj))
    rw [hj', hlab hj' (hfilledLab (hfilled.mono (Nat.le_of_lt hj)) hj')]
    rfl

/-- A thread is started: its begin is new, or it replaces the one that was its only label. -/
lemma GraphOk.startThread (h : g.GraphOk prog init) (hi : lab.pos.index = 0)
    (hstart : lab.body.isThreadStart = true)
    (hget : ∀ e, g'.getEventLabel e = if e = lab.pos then some lab else g.getEventLabel e)
    (hvalue : ∀ e ≠ lab.pos, g'.value e = g.value e)
    (hend : g.getEventLabel lab.pos.next = none) : g'.GraphOk prog init := by
  refine ⟨fun e lab' hlab' => ?_, fun t lab' hlab' => ?_, fun t i hpos hfilled => ?_⟩
  · rw [hget] at hlab'
    split at hlab'
    next he => rw [he, ← Option.some.inj hlab']
    next => exact h.positioned e lab' hlab'
  · rw [hget] at hlab'
    split at hlab'
    next => exact Option.some.inj hlab' ▸ hstart
    next => exact h.begins t lab' hlab'
  · by_cases ht : t = lab.pos.thread
    · -- the thread has no other label
      obtain ⟨lab', hlab', -⟩ := hfilled 1 Nat.one_pos hpos
      have hnext : (⟨t, 1⟩ : Event) = lab.pos.next := Event.ext ht (by
        change 1 = lab.pos.index + 1
        omega)
      have hne' : (⟨t, 1⟩ : Event) ≠ lab.pos := by
        intro heq
        have := congrArg Event.index heq
        change 1 = lab.pos.index at this
        omega
      rw [hget, if_neg hne', hnext, hend] at hlab'
      cases hlab'
    · have hfilled' : g.Filled t i := by
        intro j hj hji
        obtain ⟨lab', hlab', hempty⟩ := hfilled j hj hji
        rw [hget, if_neg (ne_of_before (.inl ht))] at hlab'
        exact ⟨lab', hlab', hempty⟩
      refine (h.follows t i hpos hfilled').congr
        (valsUpTo_addLabel h.positioned hget hvalue (.inl ht)) ?_ ?_
      · intro lab' hlab'
        rw [hget, if_neg (ne_of_before (.inl ht))] at hlab'
        exact ⟨lab', hlab', rfl, rfl, fun _ => rfl⟩
      · intro lab' _ _ hnone
        rw [hget, if_neg (ne_of_before (.inl ht)), hnone]

end DriverGraph

end GenMC
