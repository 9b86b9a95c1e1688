import GenMC.Verification.CachedGraphSteps

/-!
# Runs of the driver with the cache

Every step of the driver keeps the graphs and the cache right (`applyOp_ok`), provided that the rest
of the driver does what it is for (`OpOk`): a label that is kept beyond a hole or beyond a revisited
event is still the interpreter's, blocks are put at the ends of threads, and labels change in what
`reset` takes back.  Two of the conditions are about what the handlers fill in: an optional block is
cached while no other one has been expanded, and the barriers of the program are always initialized
with the same values.
-/

namespace GenMC

open DriverGraph

namespace CachingDriver

variable {A : Type} (prog : ThreadProgram A) (init : SAddr → SVal)

/-- The graphs and the cache are right. -/
structure StateOk (s : CachingDriver A) : Prop where
  /-- The labels of the graphs are the interpreter's. -/
  graphs : ∀ g ∈ s.execStack, g.GraphOk prog init ∧ BarriersOk prog init g.barrierInit
  /-- So are the cached labels. -/
  cache : CacheOk prog init s.seenPrefixes

/-- The interpreter's next label of a thread. -/
def NextLabel (s : CachingDriver A) (t : ℕ) (g : DriverGraph A) (n : ℕ) (vals : List SVal)
    (lab : DriverLabel A) : Prop :=
  s.getGraph = some g ∧ g.findNextLabelToAdd t = some ⟨t, n⟩ ∧
    (∃ last, g.extractValPrefix ⟨t, n⟩ = some (vals, last)) ∧ prog.next t n vals = some lab

/-- The next label of a thread may be added. -/
structure AddOk (s : CachingDriver A) (t : ℕ) (v : SVal) : Prop where
  /-- The thread is not blocked. -/
  unblocked : ∀ g, s.getGraph = some g → g.Unblocked t
  /-- A thread that waits for another one has no labels behind the join. -/
  join : ∀ g n vals lab, NextLabel prog s t g n vals lab → lab.body.isThreadJoin = true →
    g.getEventLabel ⟨t, n + 1⟩ = none
  /-- The labels that are kept behind the new one are the interpreter's. -/
  kept : ∀ g n vals lab s' g', NextLabel prog s t g n vals lab →
    interpretLabel prog s t v = some s' → s'.getGraph = some g' → KeptAfter prog init g' t n
  /-- An optional block that is not cached yet is added while no other one has been expanded. -/
  optional : ∀ g n vals lab, NextLabel prog s t g n vals lab → lab.body.isOptional = true →
    g.hasUnexpandable = true → ∃ res, s.seenPrefixes t vals = some res ∧
      ∃ cLab ∈ res, n ≤ cLab.pos.index

/-- The step may be taken. -/
def OpOk (s : CachingDriver A) : DriverOp A → Prop
  | .add t v => AddOk prog init s t v
  | .setValue e v => ∀ g, s.getGraph = some g →
    KeptAfter prog init { g with value := Function.update g.value e v } e.thread e.index
  | .expand e => ∀ s' g', applyOp prog s (.expand e) = some s' → s'.getGraph = some g' →
    KeptAfter prog init g' e.thread e.index
  | .touch _ f => ∀ lab, (f lab).reset = lab.reset
  | .blockThread bLab => bLab.body.isBlock = true ∧ 0 < bLab.pos.index ∧
    ∀ g, s.getGraph = some g → g.getEventLabel bLab.pos.next = none ∧
      (g.Unblocked bLab.pos.thread ∨ (g.getEventLabel bLab.pos).isSome)
  | .setBarrierInit f => BarriersOk prog init f
  | _ => True

variable {prog init} {s s' : CachingDriver A} {g g' : DriverGraph A} {t n : ℕ}
  {vals : List SVal} {pLab lab : DriverLabel A} {annot : Option A} {v : SVal}

/-- The current graph is right. -/
lemma StateOk.graph (h : s.StateOk prog init) (hg : s.getGraph = some g) :
    g.GraphOk prog init ∧ BarriersOk prog init g.barrierInit :=
  h.graphs g (List.mem_of_head? hg)

/-- A step that replaces the current graph by a right one. -/
lemma StateOk.setGraph (h : s.StateOk prog init)
    (hg : g.GraphOk prog init ∧ BarriersOk prog init g.barrierInit) :
    (s.setGraph g).StateOk prog init := by
  refine ⟨fun g' hg' => ?_, h.cache⟩
  rcases List.mem_cons.mp hg' with rfl | hmem
  · exact hg
  · exact h.graphs g' (List.mem_of_mem_tail hmem)

/-- What is known of the next label. -/
lemma NextLabel.spec (hnext : NextLabel prog s t g n vals lab) (hg : g.GraphOk prog init) :
    0 < n ∧ (∀ j < n, (g.getEventLabel ⟨t, j⟩).isSome) ∧ g.Filled t (n - 1) ∧
      (∀ lab, g.getEventLabel ⟨t, n⟩ = some lab → lab.body.isEmpty = true) ∧
      vals = g.valsUpTo t n := by
  obtain ⟨-, hfind, ⟨last, hextract⟩, -⟩ := hnext
  obtain ⟨m, hm, hpos, hlabels, hfilled, hempty⟩ := findNextLabelToAdd_spec hfind
  obtain rfl : n = m := congrArg Event.index hm
  rw [extractValPrefix_eq hg.positioned hlabels] at hextract
  exact ⟨hpos, hlabels, hfilled, hempty, (Prod.ext_iff.mp (Option.some.inj hextract)).1.symm⟩

/-- Interpreting is giving the next label to its handler. -/
lemma interpretLabel_eq_some_iff : interpretLabel prog s t v = some s' ↔
    ∃ g n vals lab, NextLabel prog s t g n vals lab ∧ s.handle lab.annot lab v = some s' := by
  unfold interpretLabel
  constructor
  · intro h
    obtain ⟨g, hg, h⟩ := Option.bind_eq_some_iff.mp h
    obtain ⟨e, he, h⟩ := Option.bind_eq_some_iff.mp h
    obtain ⟨⟨vals, last⟩, hvals, h⟩ := Option.bind_eq_some_iff.mp h
    dsimp only at h
    obtain ⟨lab, hlab, hhandle⟩ := Option.bind_eq_some_iff.mp h
    obtain ⟨m, rfl, -⟩ := findNextLabelToAdd_spec he
    exact ⟨g, m, vals, lab, ⟨hg, he, ⟨last, hvals⟩, hlab⟩, hhandle⟩
  · rintro ⟨g, n, vals, lab, ⟨hg, he, ⟨last, hvals⟩, hlab⟩, h⟩
    simp only [hg, he, hvals, hlab, Option.bind_eq_bind, Option.bind_some]
    exact h

/-- The handler adds the label, or the thread is blocked. -/
lemma handle_eq_some (hg : s.getGraph = some g) (h : s.handle annot lab v = some s') :
    s.addLabelToGraph (g.complete annot lab) v = some s' ∨
      (lab.body.isThreadJoin = true ∧ ∃ childId g',
        g.blockThread { pos := lab.pos, body := .plain (.joinBlock childId) } = some g' ∧
        s' = s.setGraph g') := by
  unfold handle at h
  rw [hg, Option.bind_eq_bind, Option.bind_some] at h
  cases hjoin : lab.body.joinedThread with
  | none =>
    rw [hjoin] at h
    exact .inl h
  | some childId =>
    rw [hjoin] at h
    dsimp only at h
    split at h
    next => exact .inl h
    next =>
      obtain ⟨g', hblock, hs'⟩ := Option.bind_eq_some_iff.mp h
      refine .inr ⟨?_, childId, g', hblock, (Option.some.inj hs').symm⟩
      cases hb : lab.body <;> rw [hb] at hjoin <;> first | cases hjoin | skip
      next kind => cases kind <;> first | rfl | cases hjoin

/-- The driver adds a label. -/
lemma addLabelToGraph_eq_some (hg : s.getGraph = some g) (hi : 0 < lab.pos.index)
    (h : s.addLabelToGraph lab v = some s') : ∃ cache g',
      cacheEventLabel g s.seenPrefixes lab = some cache ∧
      s' = { s.setGraph g' with seenPrefixes := cache } ∧
      (∀ e, g'.getEventLabel e = if e = lab.pos then some lab else g.getEventLabel e) ∧
      (∀ e ≠ lab.pos, g'.value e = g.value e) ∧ g'.barrierInit = g.barrierInit := by
  unfold addLabelToGraph at h
  rw [hg, Option.bind_eq_bind, Option.bind_some, if_pos hi] at h
  obtain ⟨cache, hcache, h⟩ := Option.bind_eq_some_iff.mp h
  obtain ⟨g', hg', h⟩ := Option.bind_eq_some_iff.mp h
  obtain ⟨hget, hvalue, hinit, -⟩ := addLabelToGraph_spec hg'
  refine ⟨cache, _, hcache, (Option.some.inj h).symm, hget, fun e he => ?_, hinit⟩
  rw [← hvalue]
  exact Function.update_of_ne he v g'.value

/-- **Adding the interpreter's next label** keeps the graphs and the cache right. -/
theorem interpretLabel_ok (hs : s.StateOk prog init) (hadd : AddOk prog init s t v)
    (h : interpretLabel prog s t v = some s') : s'.StateOk prog init := by
  obtain ⟨g, n, vals, pLab, hnext, hhandle⟩ := interpretLabel_eq_some_iff.mp h
  have hg := hnext.1
  obtain ⟨hok, hbarriers⟩ := hs.graph hg
  obtain ⟨hn, hlabels, hfilled, hempty, hvals⟩ := hnext.spec hok
  have hunblocked := hadd.unblocked g hg
  have hprog := hnext.2.2.2
  have hpos : pLab.pos = ⟨t, n⟩ := prog.pos hprog
  obtain rfl : pLab.pos.thread = t := congrArg Event.thread hpos
  obtain rfl : pLab.pos.index = n := congrArg Event.index hpos
  rcases handle_eq_some hg hhandle with hadded | ⟨hjoin, childId, g', hblock, rfl⟩
  · -- the completed label is added
    have hindex : 0 < (g.complete pLab.annot pLab).pos.index := hn
    obtain ⟨cache, g', hcache, rfl, hget, hvalue, hinit⟩ :=
      addLabelToGraph_eq_some hg hindex hadded
    have hkept := hadd.kept g _ vals pLab _ g' hnext h rfl
    refine ⟨fun g₁ hg₁ => ?_, ?_⟩
    · rcases List.mem_cons.mp hg₁ with rfl | hmem
      · refine ⟨hok.addLabel hindex hget hvalue (.inl hunblocked) ?_ hkept, hinit ▸ hbarriers⟩
        -- the label is the interpreter's
        intro lab' hlab'
        have hnew := (hget pLab.pos).trans (if_pos rfl)
        obtain rfl := Option.some.inj (hnew.symm.trans hlab')
        refine .inl ⟨pLab, ?_, (DriverLabel.hasValue_setChildId _ _).symm, fun hfalse => ?_⟩
        · have hsame := valsUpTo_addLabel (t := pLab.pos.thread) (i := pLab.pos.index)
            hok.positioned hget hvalue (.inr le_rfl)
          rw [← hprog, hvals, ← hsame]
          rfl
        · refine isRecorded_complete hprog hbarriers fun hopt => ?_
          have hvalued : (g.complete pLab.annot pLab).body.hasValue = true := by
            change (pLab.body.setChildId _).hasValue = true
            rw [DriverLabel.hasValue_setChildId]
            unfold LabelBody.hasValue
            rw [hopt, Bool.or_true]
          rw [hvalued] at hfalse
          cases hfalse
      · exact hs.graphs g₁ (List.mem_of_mem_tail hmem)
    · have hpos' : (g.complete pLab.annot pLab).pos = ⟨pLab.pos.thread, pLab.pos.index⟩ := hpos
      refine cacheEventLabel_ok hok hunblocked hn hlabels hfilled hs.cache (hvals ▸ hprog) hpos'
        (fun hnot => isRecorded_complete hprog hbarriers fun hopt => ?_) hcache
      by_contra hunexp
      obtain ⟨res, hres, cLab, hmem, hle⟩ := hadd.optional g _ vals pLab hnext hopt
        (Bool.not_eq_false _ ▸ hunexp)
      have hlt := hnot res (hvals ▸ hres) cLab hmem
      omega
  · -- the thread waits
    obtain ⟨hget, hvalue, hinit⟩ := blockThread_spec hblock
    have hindex : 0 < ({ pos := pLab.pos, body := .plain (.joinBlock childId) } :
      DriverLabel A).pos.index := hn
    refine hs.setGraph ⟨hok.addLabel hindex hget (fun e _ => congrFun hvalue e) (.inl hunblocked) ?_
      (hadd.kept g _ vals pLab _ g' hnext h rfl), hinit ▸ hbarriers⟩
    intro lab' hlab'
    change g'.getEventLabel pLab.pos = some lab' at hlab'
    have hnew : g'.getEventLabel pLab.pos =
        some { pos := pLab.pos, body := .plain (.joinBlock childId) } :=
      (hget pLab.pos).trans (if_pos rfl)
    obtain rfl := Option.some.inj (hnew.symm.trans hlab')
    refine .inr ⟨rfl, ?_⟩
    change g'.getEventLabel ⟨pLab.pos.thread, pLab.pos.index + 1⟩ = none
    rw [hget, if_neg fun heq => Nat.succ_ne_self _ (congrArg Event.index heq)]
    exact hadd.join g _ vals pLab hnext hjoin

/-- A thread is started by its begin label. -/
lemma startThread_eq_some {tsLab : DriverLabel A}
    (h : applyOp prog s (.startThread tsLab v) = some s') : ∃ g g', s.getGraph = some g ∧
      s' = s.setGraph g' ∧ tsLab.pos.index = 0 ∧ tsLab.body.isThreadStart = true ∧
      (∀ e, g'.getEventLabel e = if e = tsLab.pos then some tsLab else g.getEventLabel e) ∧
      (∀ e ≠ tsLab.pos, g'.value e = g.value e) ∧ g'.barrierInit = g.barrierInit ∧
      g.getEventLabel tsLab.pos.next = none := by
  unfold applyOp at h
  obtain ⟨g, hg, h⟩ := Option.bind_eq_some_iff.mp h
  split at h
  next hstart =>
    obtain ⟨hindex, hstart⟩ := hstart
    split at h
    next hnew =>
      -- the thread is a new one
      refine ⟨g, _, hg, (Option.some.inj h).symm, hindex, hstart, fun e => ?_,
        fun e he => Function.update_of_ne he v g.value, rfl, ?_⟩
      · obtain ⟨t, i⟩ := e
        unfold getEventLabel thread
        dsimp only
        rw [List.getD_eq_getElem?_getD, List.getD_eq_getElem?_getD, List.getElem?_append]
        by_cases hlt : t < g.events.length
        · rw [if_pos hlt, if_neg]
          intro heq
          exact hlt.ne ((congrArg Event.thread heq).trans hnew)
        · rw [if_neg hlt, List.getElem?_eq_none (not_lt.mp hlt)]
          by_cases ht : t = g.events.length
          · subst ht
            rw [Nat.sub_self, List.getElem?_cons_zero, Option.getD_some]
            cases i with
            | zero => rw [if_pos (Event.ext hnew.symm hindex.symm), List.getElem?_cons_zero]
            | succ i =>
              rw [if_neg fun heq => Nat.succ_ne_zero i ((congrArg Event.index heq).trans hindex)]
              rfl
          · have hle : [[tsLab]].length ≤ t - g.events.length := by
              rw [List.length_singleton]
              omega
            rw [List.getElem?_eq_none hle, if_neg]
            intro heq
            exact ht ((congrArg Event.thread heq).trans hnew)
      · unfold getEventLabel thread
        change (g.events.getD tsLab.pos.thread [])[tsLab.pos.index + 1]? = none
        rw [List.getD_eq_getElem?_getD, List.getElem?_eq_none hnew.ge]
        rfl
    next =>
      split at h
      next hlen =>
        -- the begin of the thread replaces the one in the graph
        refine ⟨g, _, hg, (Option.some.inj h).symm, hindex, hstart, fun e => ?_,
          fun e he => Function.update_of_ne he v g.value, rfl, ?_⟩
        · refine (getEventLabel_updateLabel _).trans ?_
          split
          next he =>
            subst he
            unfold getEventLabel
            rw [List.getElem?_eq_getElem (by omega)]
            rfl
          next => rfl
        · unfold getEventLabel
          exact List.getElem?_eq_none (by
            change (g.thread tsLab.pos.thread).length ≤ tsLab.pos.index + 1
            omega)
      next => cases h
  next => cases h

/-- **Every step keeps the graphs and the cache right.** -/
theorem applyOp_ok {op : DriverOp A} (hs : s.StateOk prog init) (hop : OpOk prog init s op)
    (h : applyOp prog s op = some s') : s'.StateOk prog init := by
  cases op with
  | add t v => exact interpretLabel_ok hs hop h
  | visit t annot =>
    obtain rfl := Option.some.inj h
    exact ⟨hs.graphs, hs.cache⟩
  | setValue e v =>
    obtain ⟨g, hg, rfl⟩ := Option.map_eq_some_iff.mp h
    obtain ⟨hok, hbarriers⟩ := hs.graph hg
    exact hs.setGraph ⟨hok.setValue (hop g hg), hbarriers⟩
  | expand e =>
    have hkept := hop s'
    obtain ⟨g, hg, rfl⟩ := Option.map_eq_some_iff.mp h
    obtain ⟨hok, hbarriers⟩ := hs.graph hg
    refine hs.setGraph ⟨hok.updateLabel (fun lab => ?_) (fun lab => ?_) (fun lab hvalue => ?_)
      (.inr (hkept _ h rfl)), hbarriers⟩
    · split <;> rfl
    · split <;> exact ⟨rfl, rfl, rfl, rfl⟩
    · rw [if_neg]
      intro hopt
      unfold LabelBody.hasValue at hvalue
      rw [hopt, Bool.or_true] at hvalue
      cases hvalue
  | touch e f =>
    obtain ⟨g, hg, rfl⟩ := Option.map_eq_some_iff.mp h
    obtain ⟨hok, hbarriers⟩ := hs.graph hg
    refine hs.setGraph ⟨hok.updateLabel (fun lab => (fields_of_reset_eq (hop lab)).1)
      (fun lab => ?_) (fun lab _ => hop lab) (.inl fun lab => ?_), hbarriers⟩
    · obtain ⟨-, hvalue, hempty, hblock⟩ := fields_of_reset_eq (hop lab)
      have hstart := congrArg (fun lab : DriverLabel A => lab.body.isThreadStart) (hop lab)
      simp only [DriverLabel.reset, LabelBody.isThreadStart_mapFields] at hstart
      exact ⟨hvalue, hblock, hempty, hstart⟩
    · rw [← valueOf_reset, hop, valueOf_reset]
  | blockThread bLab =>
    obtain ⟨g, hg, hmap⟩ := Option.bind_eq_some_iff.mp h
    obtain ⟨g', hblock, rfl⟩ := Option.map_eq_some_iff.mp hmap
    obtain ⟨hok, hbarriers⟩ := hs.graph hg
    obtain ⟨hisBlock, hindex, hends⟩ := hop
    obtain ⟨hend, hunblocked⟩ := hends g hg
    obtain ⟨hget, hvalue, hinit⟩ := blockThread_spec hblock
    have hnext : g'.getEventLabel bLab.pos.next = none := by
      rw [hget, if_neg, hend]
      exact fun heq => Nat.succ_ne_self _ (congrArg Event.index heq)
    refine hs.setGraph ⟨hok.addLabel hindex hget (fun e _ => congrFun hvalue e) hunblocked ?_ ?_,
      hinit ▸ hbarriers⟩
    · intro lab hlab
      obtain rfl := Option.some.inj (((hget bLab.pos).trans (if_pos rfl)).symm.trans hlab)
      exact .inr ⟨hisBlock, hnext⟩
    · -- there are no labels behind the new one
      intro k hk hfilled
      obtain ⟨lab, hlab, -⟩ := hfilled (bLab.pos.index + 1) (Nat.succ_pos _) hk
      change g'.getEventLabel bLab.pos.next = some lab at hlab
      rw [hnext] at hlab
      cases hlab
  | removeLast t =>
    obtain ⟨g, hg, rfl⟩ := Option.map_eq_some_iff.mp h
    obtain ⟨hok, hbarriers⟩ := hs.graph hg
    exact hs.setGraph ⟨hok.removeLast, hbarriers⟩
  | startThread tsLab v =>
    obtain ⟨g, g', hg, rfl, hindex, hstart, hget, hvalue, hinit, hend⟩ := startThread_eq_some h
    obtain ⟨hok, hbarriers⟩ := hs.graph hg
    exact hs.setGraph ⟨hok.startThread hindex hstart hget hvalue hend, hinit ▸ hbarriers⟩
  | setBarrierInit f =>
    obtain ⟨g, hg, rfl⟩ := Option.map_eq_some_iff.mp h
    obtain ⟨hok, -⟩ := hs.graph hg
    refine hs.setGraph ⟨hok.of_labels hok.positioned hok.begins (fun t i lab _ _ hlab => ?_)
      (fun e hnone => hnone) fun t i _ _ => .inl (valsUpTo_congr fun j _ => rfl), hop⟩
    exact ⟨lab, hlab, rfl, rfl, rfl, fun _ => rfl⟩
  | cut keep =>
    obtain ⟨g, hg, rfl⟩ := Option.map_eq_some_iff.mp h
    obtain ⟨hok, hbarriers⟩ := hs.graph hg
    exact hs.setGraph ⟨hok.cut, hbarriers⟩
  | push =>
    obtain ⟨g, hg, rfl⟩ := Option.map_eq_some_iff.mp h
    refine ⟨fun g' hg' => ?_, hs.cache⟩
    rcases List.mem_cons.mp hg' with rfl | hmem
    · exact hs.graph hg
    · exact hs.graphs g' hmem
  | pop =>
    obtain rfl := Option.some.inj h
    exact ⟨fun g' hg' => hs.graphs g' (List.mem_of_mem_tail hg'), hs.cache⟩
  | extractState =>
    obtain rfl := Option.some.inj h
    exact ⟨hs.graphs, fun t vals labs hlabs => by cases hlabs⟩

end CachingDriver

end GenMC
