import GenMC.Verification.InstructionCache

/-!
# The graphs of instruction caching

What the functions of the cache compute on a graph whose labels are where they say they are:
`extractValPrefix` lists the values of the labels before a position (`extractValPrefix_eq`),
`findNextLabelToAdd` finds the first place of a thread without a label (`findNextLabelToAdd_spec`),
and each step of the driver changes the labels of the graph in a way that is said here once.
-/

namespace GenMC

namespace DriverLabel

variable {A : Type} (lab : DriverLabel A)

@[simp] lemma pos_reset : lab.reset.pos = lab.pos := rfl

@[simp] lemma hasValue_reset : lab.reset.body.hasValue = lab.body.hasValue := by
  unfold reset
  cases lab.body <;> rfl

@[simp] lemma isEmpty_reset : lab.reset.body.isEmpty = lab.body.isEmpty :=
  LabelBody.isEmpty_mapFields _ _

@[simp] lemma isBlock_reset : lab.reset.body.isBlock = lab.body.isBlock :=
  LabelBody.isBlock_mapFields _ _

/-- What `clone` leaves out is what `reset` takes back. -/
@[simp] lemma reset_clone : lab.clone.reset = lab.reset := by
  unfold clone reset EventLabel.clone
  simp only [EventLabel.mapFields, LabelBody.mapFields_mapFields]
  congr 1

end DriverLabel

namespace DriverGraph

variable {A : Type} {g g' : DriverGraph A} {t t' i n : ℕ} {e e' : Event} {lab : DriverLabel A}

/-- Every label is where it says it is. -/
def Positioned (g : DriverGraph A) : Prop := ∀ e lab, g.getEventLabel e = some lab → lab.pos = e

/-! ## Value prefixes -/

/-- The values before an index of a thread. -/
def valsUpTo (g : DriverGraph A) (t : ℕ) : ℕ → List SVal
  | 0 => []
  | i + 1 => g.valsUpTo t i ++ ((g.getEventLabel ⟨t, i⟩).bind g.valueOf).toList

/-- The last event with a value before an index of a thread. -/
def lastValued (g : DriverGraph A) (t : ℕ) : ℕ → Event
  | 0 => .init
  | i + 1 => if (g.getEventLabel ⟨t, i⟩).any fun lab => lab.body.hasValue then ⟨t, i⟩
    else g.lastValued t i

/-- The labels with a value. -/
lemma valueOf_isSome (g : DriverGraph A) (lab : DriverLabel A) :
    (g.valueOf lab).isSome = lab.body.hasValue := by
  unfold valueOf LabelBody.hasValue
  cases lab.body.isRead <;> cases lab.body.isThreadJoin <;> cases lab.body.isThreadStart <;>
    cases lab.body.isOptional <;> rfl

/-- A label without a value. -/
lemma valueOf_eq_none (g : DriverGraph A) (h : lab.body.hasValue = false) :
    g.valueOf lab = none := by
  rw [← Option.not_isSome_iff_eq_none, valueOf_isSome, h]
  exact Bool.false_ne_true

/-- The value prefix depends on the values of the labels before the index. -/
lemma valsUpTo_congr (h : ∀ j < n, (g.getEventLabel ⟨t, j⟩).bind g.valueOf =
    (g'.getEventLabel ⟨t, j⟩).bind g'.valueOf) : g.valsUpTo t n = g'.valsUpTo t n := by
  induction n with
  | zero => rfl
  | succ n ih =>
    unfold valsUpTo
    rw [ih fun j hj => h j (by omega), h n (by omega)]

/-- A label without a value adds nothing to the value prefix. -/
lemma valsUpTo_succ_of_not_hasValue (hlab : g.getEventLabel ⟨t, i⟩ = some lab)
    (h : lab.body.hasValue = false) : g.valsUpTo t (i + 1) = g.valsUpTo t i := by
  rw [valsUpTo, hlab, Option.bind_some, valueOf_eq_none g h, Option.toList_none, List.append_nil]

/-- A label with a value adds it to the value prefix. -/
lemma valsUpTo_succ_of_hasValue (hlab : g.getEventLabel ⟨t, i⟩ = some lab)
    (h : lab.body.hasValue = true) : ∃ v, g.valsUpTo t (i + 1) = g.valsUpTo t i ++ [v] := by
  obtain ⟨v, hv⟩ := Option.isSome_iff_exists.mp ((g.valueOf_isSome lab).trans h)
  refine ⟨v, ?_⟩
  rw [valsUpTo, hlab, Option.bind_some, hv, Option.toList_some]

/-- **`extractValPrefix`** lists the values of the labels before the position. -/
lemma extractValPrefix_eq (hg : g.Positioned)
    (h : ∀ j < n, (g.getEventLabel ⟨t, j⟩).isSome) :
    g.extractValPrefix ⟨t, n⟩ = some (g.valsUpTo t n, g.lastValued t n) := by
  unfold extractValPrefix
  dsimp only
  induction n with
  | zero => rfl
  | succ n ih =>
    obtain ⟨lab, hlab⟩ := Option.isSome_iff_exists.mp (h n (by omega))
    rw [List.range_succ, List.foldlM_append, ih fun j hj => h j (by omega)]
    simp only [Option.bind_eq_bind, Option.bind_some, List.foldlM_cons, List.foldlM_nil, hlab,
      valsUpTo, lastValued, Option.any_some]
    cases hvalue : lab.body.hasValue with
    | false =>
      rw [valueOf_eq_none g hvalue]
      simp
    | true =>
      obtain ⟨v, hv⟩ := Option.isSome_iff_exists.mp ((g.valueOf_isSome lab).trans hvalue)
      rw [hv, hg _ _ hlab]
      simp

/-! ## The next label -/

/-- There are labels, and no holes, at the indices from 1 up to the given one. -/
def Filled (g : DriverGraph A) (t i : ℕ) : Prop :=
  ∀ j, 0 < j → j ≤ i → ∃ lab, g.getEventLabel ⟨t, j⟩ = some lab ∧ lab.body.isEmpty = false

/-- Fewer labels are there, too. -/
lemma Filled.mono (h : g.Filled t n) (hin : i ≤ n) : g.Filled t i := fun j hj hji =>
  h j hj (hji.trans hin)

/-- Threads have no gaps. -/
lemma isSome_of_le (h : (g.getEventLabel ⟨t, n⟩).isSome) (hin : i ≤ n) :
    (g.getEventLabel ⟨t, i⟩).isSome := by
  unfold getEventLabel at h ⊢
  rw [Option.isSome_iff_ne_none, Ne, List.getElem?_eq_none_iff, not_le] at h ⊢
  exact hin.trans_lt h

/-- **`findNextLabelToAdd`** finds the first place without a label. -/
lemma findNextLabelToAdd_spec (h : g.findNextLabelToAdd t = some e) :
    ∃ n, e = ⟨t, n⟩ ∧ 0 < n ∧ (∀ j < n, (g.getEventLabel ⟨t, j⟩).isSome) ∧ g.Filled t (n - 1) ∧
      ∀ lab, g.getEventLabel ⟨t, n⟩ = some lab → lab.body.isEmpty = true := by
  unfold findNextLabelToAdd at h
  cases hthr : g.thread t with
  | nil =>
    rw [hthr] at h
    cases h
  | cons x succs =>
    rw [hthr] at h
    have hlen : ∀ j, g.getEventLabel ⟨t, j + 1⟩ = succs[j]? := by
      intro j
      unfold getEventLabel
      rw [hthr, List.getElem?_cons_succ]
    have hzero : g.getEventLabel ⟨t, 0⟩ = some x := by
      unfold getEventLabel
      rw [hthr, List.getElem?_cons_zero]
    have hle : succs.findIdx (fun lab => lab.body.isEmpty) ≤ succs.length := List.findIdx_le_length
    obtain ⟨k, hk⟩ : ∃ k, succs.findIdx (fun lab => lab.body.isEmpty) = k := ⟨_, rfl⟩
    rw [hk] at hle
    have hfilled : ∀ j < k, ∃ lab, succs[j]? = some lab ∧ lab.body.isEmpty = false := by
      intro j hj
      have hlt : j < succs.length := by omega
      refine ⟨succs[j], List.getElem?_eq_getElem hlt, ?_⟩
      exact List.not_of_lt_findIdx (hk ▸ hj)
    have he : (⟨t, 1 + k⟩ : Event) = e := by
      rw [← hk]
      exact Option.some.inj h
    refine ⟨1 + k, he.symm, by omega, fun j hj => ?_, fun j hj hjk => ?_, fun lab hlab => ?_⟩
    · cases j with
      | zero =>
        rw [hzero]
        rfl
      | succ j =>
        obtain ⟨lab, hlab, -⟩ := hfilled j (by omega)
        rw [hlen, hlab]
        rfl
    · obtain ⟨j, rfl⟩ : ∃ j', j = j' + 1 := ⟨j - 1, by omega⟩
      rw [hlen]
      exact hfilled j (by omega)
    · rw [Nat.add_comm, hlen] at hlab
      obtain ⟨hlt, rfl⟩ := List.getElem?_eq_some_iff.mp hlab
      have hlt' : succs.findIdx (fun lab => lab.body.isEmpty) < succs.length := hk ▸ hlt
      have hfound := List.findIdx_getElem (w := hlt')
      simpa only [hk] using hfound

/-- Where the next label goes. -/
lemma findNextLabelToAdd_eq (hn : 0 < n) (hfirst : (g.getEventLabel ⟨t, 0⟩).isSome)
    (hfilled : g.Filled t (n - 1))
    (hempty : ∀ lab, g.getEventLabel ⟨t, n⟩ = some lab → lab.body.isEmpty = true) :
    g.findNextLabelToAdd t = some ⟨t, n⟩ := by
  obtain ⟨e, he⟩ : ∃ e, g.findNextLabelToAdd t = some e := by
    unfold findNextLabelToAdd
    unfold getEventLabel at hfirst
    cases hthr : g.thread t with
    | nil =>
      rw [hthr] at hfirst
      cases hfirst
    | cons x succs => exact ⟨_, rfl⟩
  obtain ⟨m, rfl, hm, -, hfilled', hempty'⟩ := findNextLabelToAdd_spec he
  rw [he]
  rcases lt_trichotomy m n with hlt | rfl | hgt
  · obtain ⟨lab, hlab, hnot⟩ := hfilled m hm (by omega)
    rw [hempty' lab hlab] at hnot
    cases hnot
  · rfl
  · obtain ⟨lab, hlab, hnot⟩ := hfilled' n hn (by omega)
    rw [hempty lab hlab] at hnot
    cases hnot

/-! ## The steps -/

/-- The threads after changing one of them. -/
lemma getD_modify (l : List (List (DriverLabel A)))
    (f : List (DriverLabel A) → List (DriverLabel A)) (hf : f [] = []) :
    (l.modify t f).getD t' [] = if t' = t then f (l.getD t' []) else l.getD t' [] := by
  simp only [List.getD_eq_getElem?_getD, List.getElem?_modify]
  split <;> split <;> cases l[t']? <;> simp_all

/-- The labels after changing one of them. -/
lemma getEventLabel_updateLabel (f : DriverLabel A → DriverLabel A) :
    (g.updateLabel e f).getEventLabel e' =
      if e' = e then (g.getEventLabel e').map f else g.getEventLabel e' := by
  obtain ⟨t, i⟩ := e
  obtain ⟨t', i'⟩ := e'
  have hthread : (g.updateLabel ⟨t, i⟩ f).thread t' =
      if t' = t then (g.thread t').modify i f else g.thread t' :=
    getD_modify g.events (fun thr => thr.modify i f) (List.modify_nil f i)
  unfold getEventLabel
  rw [hthread]
  simp only [Event.mk.injEq]
  split
  next ht =>
    rw [List.getElem?_modify]
    split
    next hi => rw [if_pos ⟨ht, hi.symm⟩]; rfl
    next hi => rw [if_neg fun h => hi h.2.symm]; simp
  next ht => rw [if_neg fun h => ht h.1]

/-- Adding a label leaves the other labels and the values as they are. -/
lemma addLabelToGraph_spec (h : g.addLabelToGraph lab = some g') :
    (∀ e, g'.getEventLabel e = if e = lab.pos then some lab else g.getEventLabel e) ∧
      g'.value = g.value ∧ g'.barrierInit = g.barrierInit ∧
      (∀ old, g.getEventLabel lab.pos = some old → old.body.isEmpty = true) := by
  unfold addLabelToGraph at h
  split at h
  next => cases h
  next hthread =>
  split at h
  next old hold =>
    split at h
    next hempty =>
      obtain rfl := Option.some.inj h
      refine ⟨fun e => ?_, rfl, rfl, fun old' hold' => ?_⟩
      · rw [getEventLabel_updateLabel]
        split
        next he =>
          rw [he, hold]
          rfl
        next => rfl
      · obtain rfl := Option.some.inj (hold.symm.trans hold')
        exact hempty
    next => cases h
  next hnone =>
    split at h
    next hend =>
      obtain rfl := Option.some.inj h
      refine ⟨fun e => ?_, rfl, rfl, fun old hold => ?_⟩
      · obtain ⟨t, i⟩ := e
        unfold getEventLabel thread
        dsimp only
        rw [List.getD_eq_getElem?_getD, List.getElem?_modify]
        unfold thread at hend
        rw [List.getD_eq_getElem?_getD] at hend ⊢
        by_cases ht : lab.pos.thread = t
        · subst ht
          have hlt : lab.pos.thread < g.events.length := not_le.mp hthread
          rw [List.getElem?_eq_getElem hlt] at hend ⊢
          simp only [if_true, Option.map_eq_map, Option.map_some, Option.getD_some] at hend ⊢
          by_cases heq : i = lab.pos.index
          · have hpos : (⟨lab.pos.thread, i⟩ : Event) = lab.pos := Event.ext rfl heq
            rw [if_pos hpos, List.getElem?_append_right (by omega), heq, hend,
              Nat.sub_self, List.getElem?_cons_zero]
          · rw [if_neg fun h => heq (congrArg Event.index h), List.getElem?_append]
            split
            next => rfl
            next hi =>
              rw [List.getElem?_eq_none (by simp; omega), List.getElem?_eq_none (by omega)]
        · rw [if_neg fun heq => ht (congrArg Event.thread heq).symm]
          cases g.events[t]? with
          | none => rfl
          | some thr =>
            change (if lab.pos.thread = t then thr ++ [lab] else thr)[i]? = thr[i]?
            rw [if_neg ht]
      · rw [hnone] at hold
        cases hold
    next => cases h

/-- Removing the last label of a thread leaves no other labels there. -/
lemma getEventLabel_removeLast :
    (g.removeLast t).getEventLabel e = if e.thread = t ∧ e.index + 1 = (g.thread t).length then none
      else g.getEventLabel e := by
  obtain ⟨t', i⟩ := e
  have hthread : (g.removeLast t).thread t' =
      if t' = t then (g.thread t').dropLast else g.thread t' :=
    getD_modify g.events List.dropLast List.dropLast_nil
  unfold getEventLabel
  rw [hthread]
  by_cases ht : t' = t
  · subst ht
    rw [if_pos rfl, List.getElem?_dropLast]
    simp only [true_and]
    split
    next h => rw [if_neg (by omega)]
    next h =>
      split
      next => rfl
      next hne => rw [List.getElem?_eq_none (by omega)]
  · rw [if_neg ht, if_neg fun h => ht h.1]

/-- A restriction keeps labels or leaves holes. -/
lemma getEventLabel_cut {keep : Event → Bool} (h : (g.cut keep).getEventLabel e = some lab) :
    ∃ lab', g.getEventLabel e = some lab' ∧ (lab = lab' ∨ (lab = .hole e ∧ 0 < e.index)) := by
  obtain ⟨t, i⟩ := e
  unfold getEventLabel cut thread at h
  unfold getEventLabel thread
  dsimp only at h ⊢
  rw [List.getD_eq_getElem?_getD, List.getElem?_mapIdx] at h
  rw [List.getD_eq_getElem?_getD]
  cases hthr : g.events[t]? with
  | none =>
    rw [hthr] at h
    simp at h
  | some thr =>
    rw [hthr, Option.map_some, Option.getD_some, cutThread] at h
    obtain ⟨hi, hget⟩ := List.getElem?_eq_some_iff.mp h
    rw [(List.rdropWhile_prefix _ _).getElem hi, List.getElem_mapIdx] at hget
    have hlt : i < thr.length := by
      have := (List.rdropWhile_prefix _ _).length_le.trans_lt' hi
      rwa [List.length_mapIdx] at this
    rw [Option.getD_some, List.getElem?_eq_getElem hlt]
    refine ⟨_, rfl, ?_⟩
    split at hget
    next => exact .inl hget.symm
    next hnot =>
      refine .inr ⟨hget.symm, Nat.pos_of_ne_zero fun hzero => hnot ?_⟩
      rw [decide_eq_true hzero, Bool.true_or]

/-- Replacing or adding the last label of a thread by one that blocks it. -/
lemma blockThread_spec (h : g.blockThread lab = some g') :
    (∀ e, g'.getEventLabel e = if e = lab.pos then some lab else g.getEventLabel e) ∧
      g'.value = g.value ∧ g'.barrierInit = g.barrierInit := by
  unfold blockThread at h
  split at h
  next hlast =>
    obtain ⟨hget, hvalue, hinit, -⟩ := addLabelToGraph_spec h
    refine ⟨fun e => ?_, hvalue, hinit⟩
    rw [hget]
    split
    next => rfl
    next hne =>
      rw [getEventLabel_removeLast, if_neg]
      rintro ⟨ht, hi⟩
      exact hne (Event.ext ht (by omega))
  next =>
    obtain ⟨hget, hvalue, hinit, -⟩ := addLabelToGraph_spec h
    exact ⟨hget, hvalue, hinit⟩

end DriverGraph

end GenMC
