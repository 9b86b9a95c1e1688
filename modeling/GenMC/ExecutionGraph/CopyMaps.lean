import GenMC.ExecutionGraph.CopyLinks

/-!
# The location maps of a copy

The last two loops of `copyGraphUpTo`: the stores of every location are appended to the coherence
order of the copy, and the initial readers of every location to their list.
-/

namespace GenMC

namespace ExecutionGraph

variable {g other s s' : ExecutionGraph} {v : VectorClock}

/-- Copying a store does not touch labels. -/
lemma copyStore_relinks {w : Event} (h : g.copyStore v s w = some s') : Relinks s s' := by
  unfold copyStore at h
  split at h
  · obtain ⟨wLab, -, h⟩ := Option.bind_eq_some_iff.mp h
    obtain ⟨a, -, h⟩ := Option.bind_eq_some_iff.mp h
    obtain ⟨pred, -, h⟩ := Option.bind_eq_some_iff.mp h
    exact (addStoreToCOAfter_turnsCO h).relinks
  · exact Option.some.inj h ▸ Relinks.refl s

/-- Copying the coherence order does not touch labels. -/
lemma copyCoherence_relinks (h : g.copyCoherence v s = some s') : Relinks s s' :=
  PartialRun.foldlM_invariant (fun _ _ _ _ hs hstep => hs.trans (copyStore_relinks hstep))
    (Relinks.refl s) h

/-- Copying an initial reader only changes links. -/
lemma copyInitReader_relinks {r : Event} (h : copyInitReader v s r = some s') : Relinks s s' := by
  unfold copyInitReader at h
  split at h
  · obtain ⟨rLab, -, h⟩ := Option.bind_eq_some_iff.mp h
    split at h
    · obtain ⟨a, -, h⟩ := Option.bind_eq_some_iff.mp h
      split at h
      · exact (pushReader_spec h).2.relinks
      · cases h
    · cases h
  · exact Option.some.inj h ▸ Relinks.refl s

/-- Copying the lists of initial readers only changes links. -/
lemma copyInitRfs_relinks (h : g.copyInitRfs v s = some s') : Relinks s s' := by
  refine PartialRun.foldlM_invariant (fun s₁ _ _ s₂ hs hstep => ?_)
    (Relinks.refl s) h
  obtain ⟨rs, -, hstep⟩ := Option.bind_eq_some_iff.mp hstep
  exact hs.trans (PartialRun.foldlM_invariant
    (fun _ _ _ _ hs' hstep' => hs'.trans (copyInitReader_relinks hstep')) (Relinks.refl s₁) hstep)

/-! ## Coherence -/

/-- Inserting behind the last element appends. -/
lemma insertAfter_last {ws : List Event} {p w : Event} (h : (ws ++ [p]).Nodup) :
    insertAfter p w (ws ++ [p]) = some (ws ++ [p] ++ [w]) := by
  induction ws with
  | nil => exact if_pos rfl
  | cons x ws ih =>
    rw [List.cons_append, List.nodup_cons] at h
    rw [List.cons_append, insertAfter, if_neg fun hx => h.1 (by rw [hx]; simp), ih h.2]
    rfl

/-- The coherence orders after changing one of them. -/
lemma co_modify {a : SAddr} (ha : a ∈ s.coherence.keys) (ws : List Event) (b : SAddr) :
    ({ s with coherence := s.coherence.modify a fun _ => ws } : ExecutionGraph).co b =
      if b = a then ws else s.co b := by
  obtain ⟨ws', hws'⟩ := KeyedList.mem_keys_iff.mp ha
  unfold co
  simp only [KeyedList.find?_modify]
  by_cases hba : b = a
  · subst hba
    simp [hws']
  · simp [hba]

/-- The initial readers after changing those of one location. -/
lemma initReaders_modify {a : SAddr} (ha : a ∈ s.initRfs.keys) (f : List Event → List Event)
    (b : SAddr) :
    ({ s with initRfs := s.initRfs.modify a f } : ExecutionGraph).initReaders b =
      if b = a then f (s.initReaders a) else s.initReaders b := by
  obtain ⟨rs, hrs⟩ := KeyedList.mem_keys_iff.mp ha
  unfold initReaders
  simp only [KeyedList.find?_modify]
  by_cases hba : b = a
  · subst hba
    simp [hrs]
  · simp [hba]

/-- The stores of a location, appended in the order of the original. -/
structure CopiesCO (g : ExecutionGraph) (v : VectorClock) (other : ExecutionGraph)
    (done : List Event) (s : ExecutionGraph) : Prop where
  /-- Only coherence changes. -/
  eq : s = { other with coherence := s.coherence }
  /-- The tracked locations stay. -/
  keys : s.coherence.keys = other.coherence.keys
  /-- The stores copied so far. -/
  co : ∀ a, s.co a = done.filter fun w => v.contains w && decide (g.addrOf w = some a)

/-- Appending a contained write to the coherence order of its location. -/
lemma addStoreToCOAfter_max (hinit : s.isa LabelBody.isInit .init) {w : Event} {a : SAddr}
    (hw : s.isa LabelBody.isWrite w) (ha : s.addrOf w = some a) (htracked : a ∈ s.coherence.keys)
    (hco : ∀ w' ∈ s.co a, s.isa LabelBody.isWrite w') (hnodup : (s.co a).Nodup) :
    (s.coMax a).bind (s.addStoreToCOAfter w) =
      some { s with coherence := s.coherence.modify a fun _ => s.co a ++ [w] } := by
  obtain ⟨ws, hws⟩ := KeyedList.mem_keys_iff.mp htracked
  have hcoa : s.co a = ws := by
    unfold co
    rw [hws]
    rfl
  rw [hcoa] at hco hnodup ⊢
  have hmodify : ∀ f : List Event → Option (List Event), f ws = some (ws ++ [w]) →
      s.modifyCO w f = some { s with coherence := s.coherence.modify a fun _ => ws ++ [w] } := by
    intro f hf
    obtain ⟨wLab, hwLab, hwrite⟩ := isa_iff.mp hw
    rw [addrOf_of_getEventLabel hwLab] at ha
    unfold modifyCO
    rw [hwLab, Option.bind_eq_bind, Option.bind_some, if_pos hwrite, ha, Option.bind_eq_bind,
      Option.bind_some, hcoa, hf, Option.bind_eq_bind, Option.bind_some,
      KeyedList.track_of_mem htracked]
    rfl
  unfold coMax
  rw [hws, Option.map_some, Option.bind_some]
  rcases List.eq_nil_or_concat ws with rfl | ⟨ws', p, rfl⟩
  · obtain ⟨iLab, hiLab, hiInit⟩ := isa_iff.mp hinit
    have hnot : iLab.body.isWrite = false := by
      cases hb : iLab.body <;> rw [hb] at hiInit <;> first | rfl | cases hiInit
    unfold addStoreToCOAfter
    rw [List.getLast?_nil, Option.getD_none, hiLab, Option.bind_eq_bind, Option.bind_some]
    exact hmodify _ (by rw [if_neg (by simp [hnot])]; rfl)
  · rw [List.concat_eq_append] at hco hnodup hmodify ⊢
    obtain ⟨pLab, hpLab, hpWrite⟩ := isa_iff.mp
      (hco p (List.mem_append_right _ (List.mem_singleton.mpr rfl)))
    unfold addStoreToCOAfter
    rw [List.getLast?_concat, Option.getD_some, hpLab, Option.bind_eq_bind, Option.bind_some]
    exact hmodify _ (by rw [if_pos hpWrite, insertAfter_last hnodup])

/-- The copy before its location maps are filled: it has the contained accesses with their
locations, and these are tracked. -/
structure CopyTarget (g : ExecutionGraph) (v : VectorClock) (other : ExecutionGraph) : Prop
    extends CopyShape g v other where
  /-- There is an initializer. -/
  init : other.isa LabelBody.isInit .init
  /-- The contained accesses have their locations. -/
  addrOf : ∀ e, v.contains e → other.addrOf e = g.addrOf e
  /-- The locations of the contained accesses are tracked. -/
  tracked : ∀ e a, v.contains e → g.addrOf e = some a → a ∈ other.coherence.keys

/-- Copying one store. -/
lemma CopiesCO.step (ht : CopyTarget g v other) (hg : Stores g) {done rest : List Event} {w : Event}
    (hsplit : g.coherence.keys.flatMap g.co = done ++ w :: rest) (hs : CopiesCO g v other done s) :
    ∃ s', g.copyStore v s w = some s' ∧ CopiesCO g v other (done ++ [w]) s' := by
  have hmem : ∀ w' ∈ done ++ w :: rest, ∃ a, w' ∈ g.co a := by
    intro w' hw'
    rw [← hsplit] at hw'
    exact (List.mem_flatMap.mp hw').imp fun _ h => h.2
  obtain ⟨a, hwa⟩ := hmem w (List.mem_append_right _ List.mem_cons_self)
  obtain ⟨hwrite, hwaddr⟩ := hg.stores a w hwa
  unfold copyStore
  by_cases hc : v.contains w
  · have hlabels : s.getEventLabel = other.getEventLabel := by
      rw [hs.eq]
      rfl
    have hisa : ∀ p e, s.isa p e = other.isa p e := fun p e => by rw [isa, hlabels, isa]
    have hcontained : ∀ w', v.contains w' → g.isa LabelBody.isWrite w' →
        s.isa LabelBody.isWrite w' := by
      intro w' hc' hw'
      rw [hisa, ht.isa LabelBody.isWrite rfl, hc', hw']
      rfl
    have htracked : a ∈ s.coherence.keys := by
      rw [hs.keys]
      exact ht.tracked w a hc hwaddr
    have hnodup : (s.co a).Nodup := by
      have hall := hg.nodup_all
      rw [hsplit, List.nodup_append] at hall
      rw [hs.co]
      exact hall.1.filter _
    have hwrites : ∀ w' ∈ s.co a, s.isa LabelBody.isWrite w' := by
      intro w' hw'
      rw [hs.co] at hw'
      obtain ⟨hdone, hcond⟩ := List.mem_filter.mp hw'
      obtain ⟨b, hb⟩ := hmem w' (List.mem_append_left _ hdone)
      exact hcontained w' (Bool.and_eq_true_iff.mp hcond).1 (hg.stores b w' hb).1
    have hstep := addStoreToCOAfter_max (by rw [hisa]; exact ht.init) (hcontained w hc hwrite)
      (by rw [addrOf, hlabels]; exact (ht.addrOf w hc).trans hwaddr) htracked hwrites hnodup
    obtain ⟨wLab, hwLab, -⟩ := isa_iff.mp hwrite
    have hwLabAddr : wLab.body.addr = some a := by
      rw [← addrOf_of_getEventLabel hwLab, hwaddr]
    refine ⟨{ s with coherence := s.coherence.modify a fun _ => s.co a ++ [w] }, ?_, ?_, ?_,
      fun b => ?_⟩
    · rw [if_pos hc, hwLab, Option.bind_eq_bind, Option.bind_some, hwLabAddr,
        Option.bind_eq_bind, Option.bind_some]
      exact hstep
    · rw [hs.eq]
    · exact (KeyedList.keys_modify _ _ _).trans hs.keys
    · rw [co_modify htracked, List.filter_append, List.filter_singleton, hc, hwaddr,
        Bool.true_and, ← hs.co]
      by_cases hba : b = a
      · subst hba
        simp
      · simp [hba, Ne.symm hba]
  · refine ⟨s, if_neg hc, hs.eq, hs.keys, fun b => ?_⟩
    rw [List.filter_append, List.filter_singleton, Bool.eq_false_iff.mpr hc, Bool.false_and, hs.co]
    simp

/-- Copying the coherence order. -/
lemma copyCoherence_spec (ht : CopyTarget g v other) (hg : Stores g)
    (hempty : ∀ a, other.co a = []) :
    ∃ s, g.copyCoherence v other = some s ∧ s = { other with coherence := s.coherence } ∧
      s.coherence.keys = other.coherence.keys ∧ ∀ a, s.co a = (g.co a).filter v.contains := by
  obtain ⟨s, hs, hP⟩ := PartialRun.foldlM_total (g.coherence.keys.flatMap g.co)
    (CopiesCO g v other) (f := g.copyStore v)
    (fun done w rest hsplit s hs => hs.step ht hg hsplit) ⟨rfl, rfl, fun a => (hempty a).trans rfl⟩
  refine ⟨s, ?_, hP.eq, hP.keys, fun a => ?_⟩
  · unfold copyCoherence
    rw [KeyedList.flatMap_entries]
    exact hs
  · rw [hP.co, KeyedList.filter_flatMap_keys g.coherence.nodup_keys
      fun a _ w hw => (hg.stores a w hw).2]
    split
    · rfl
    next hak =>
      rw [co, KeyedList.find?_eq_none_iff.mpr hak]
      rfl

/-! ## Initial readers -/

/-- The initial readers, appended in the order of the original. -/
structure CopiesInitRfs (g : ExecutionGraph) (v : VectorClock) (other : ExecutionGraph)
    (done : List Event) (s : ExecutionGraph) : Prop where
  /-- Only the initial readers change. -/
  eq : s = { other with initRfs := s.initRfs }
  /-- The tracked locations stay. -/
  keys : s.initRfs.keys = other.initRfs.keys
  /-- The readers copied so far. -/
  initReaders : ∀ a, s.initReaders a =
    done.filter fun r => v.contains r && decide (g.addrOf r = some a)

/-- Copying one initial reader. -/
lemma CopiesInitRfs.step (ht : CopyTarget g v other) (hg : InitReads g)
    (hkeys : other.initRfs.keys = other.coherence.keys) {done rest : List Event} {r : Event}
    (hsplit : g.coherence.keys.flatMap g.initReaders = done ++ r :: rest)
    (hs : CopiesInitRfs g v other done s) :
    ∃ s', copyInitReader v s r = some s' ∧ CopiesInitRfs g v other (done ++ [r]) s' := by
  have hmem : r ∈ g.coherence.keys.flatMap g.initReaders := by
    rw [hsplit]
    exact List.mem_append_right _ List.mem_cons_self
  obtain ⟨a, -, hra⟩ := List.mem_flatMap.mp hmem
  obtain ⟨hread, hraddr⟩ := hg.reads a r hra
  unfold copyInitReader
  by_cases hc : v.contains r
  · have hlabels : s.getEventLabel = other.getEventLabel := by
      rw [hs.eq]
      rfl
    have hread' : s.isa LabelBody.isRead r := by
      rw [isa, hlabels]
      refine (ht.isa LabelBody.isRead rfl r).trans ?_
      rw [hc, hread]
      rfl
    have hinit : s.isa LabelBody.isInit .init := by
      rw [isa, hlabels]
      exact ht.init
    have htracked : a ∈ s.initRfs.keys := by
      rw [hs.keys, hkeys]
      exact ht.tracked r a hc hraddr
    have hnot : r ∉ s.initReaders a := by
      have hall := hg.nodup_all
      rw [hsplit, List.nodup_append] at hall
      rw [hs.initReaders]
      exact fun hin => hall.2.2 r (List.mem_filter.mp hin).1 r List.mem_cons_self rfl
    obtain ⟨rLab, hrLab, hrRead⟩ := isa_iff.mp hread'
    obtain ⟨iLab, hiLab, hiInit⟩ := isa_iff.mp hinit
    have hrAddr : rLab.body.addr = some a := by
      rw [← addrOf_of_getEventLabel hrLab, addrOf, hlabels]
      exact (ht.addrOf r hc).trans hraddr
    have hiWrite : iLab.body.isWrite = false := by
      cases hb : iLab.body <;> rw [hb] at hiInit <;> first | rfl | cases hiInit
    refine ⟨{ s with initRfs := s.initRfs.modify a fun rs => rs ++ [r] }, ?_, ?_, ?_, fun b => ?_⟩
    · rw [if_pos hc, hrLab, Option.bind_eq_bind, Option.bind_some, if_pos hrRead, hrAddr,
        Option.bind_eq_bind, Option.bind_some, if_pos hinit]
      unfold pushReader
      rw [hiLab, Option.bind_eq_bind, Option.bind_some, if_neg (by simp [hiWrite]), if_pos hiInit,
        if_neg hnot, KeyedList.track_of_mem htracked]
      rfl
    · rw [hs.eq]
    · exact (KeyedList.keys_modify _ _ _).trans hs.keys
    · rw [initReaders_modify htracked, List.filter_append, List.filter_singleton, hc, hraddr,
        Bool.true_and, ← hs.initReaders]
      by_cases hba : b = a
      · subst hba
        simp
      · simp [hba, Ne.symm hba]
  · refine ⟨s, if_neg hc, hs.eq, hs.keys, fun b => ?_⟩
    rw [List.filter_append, List.filter_singleton, Bool.eq_false_iff.mpr hc, Bool.false_and,
      hs.initReaders]
    simp

/-- The loop over the initial readers of all locations. -/
lemma copyInitRfs_eq (hkeys : g.initRfs.keys = g.coherence.keys) :
    g.copyInitRfs v other =
      (g.coherence.keys.flatMap g.initReaders).foldlM (copyInitReader v) other := by
  unfold copyInitRfs
  rw [PartialRun.foldlM_flatMap]
  unfold KeyedList.keys at hkeys ⊢
  rw [List.foldlM_map]
  have hentry : ∀ entry ∈ g.coherence.entries, g.initRfs.find? entry.1 =
      some (g.initReaders entry.1) := by
    intro entry he
    have hmem : entry.1 ∈ g.initRfs.keys := by
      unfold KeyedList.keys
      rw [hkeys]
      exact List.mem_map_of_mem he
    obtain ⟨rs, hrs⟩ := KeyedList.mem_keys_iff.mp hmem
    rw [initReaders, hrs, Option.getD_some]
  generalize g.coherence.entries = entries at hentry
  induction entries generalizing other with
  | nil => rfl
  | cons entry entries ih =>
    rw [List.foldlM_cons, List.foldlM_cons, hentry entry List.mem_cons_self]
    exact congrArg (Option.bind ((g.initReaders entry.1).foldlM (copyInitReader v) other))
      (funext fun s => ih fun e he => hentry e (List.mem_cons_of_mem _ he))

/-- Copying the lists of initial readers. -/
lemma copyInitRfs_spec (ht : CopyTarget g v other) (hg : InitReads g)
    (hkeys : other.initRfs.keys = other.coherence.keys)
    (hempty : ∀ a, other.initReaders a = []) :
    ∃ s, g.copyInitRfs v other = some s ∧ s = { other with initRfs := s.initRfs } ∧
      s.initRfs.keys = other.initRfs.keys ∧
      ∀ a, s.initReaders a = (g.initReaders a).filter v.contains := by
  obtain ⟨s, hs, hP⟩ := PartialRun.foldlM_total (g.coherence.keys.flatMap g.initReaders)
    (CopiesInitRfs g v other) (f := copyInitReader v)
    (fun done r rest hsplit s hs => hs.step ht hg hkeys hsplit)
    ⟨rfl, rfl, fun a => (hempty a).trans rfl⟩
  refine ⟨s, ?_, hP.eq, hP.keys, fun a => ?_⟩
  · rw [copyInitRfs_eq hg.keys]
    exact hs
  · rw [hP.initReaders, KeyedList.filter_flatMap_keys g.coherence.nodup_keys
      fun a _ r hr => (hg.reads a r hr).2]
    split
    · rfl
    next hak =>
      rw [← hg.keys] at hak
      rw [initReaders, KeyedList.find?_eq_none_iff.mpr hak]
      rfl

end ExecutionGraph

end GenMC
