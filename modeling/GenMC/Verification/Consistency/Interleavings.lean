import GenMC.Lib.LinearExtension
import GenMC.Lib.SharedMemory
import GenMC.Verification.Consistency.SCChecker

/-!
# Interleavings

What sequential consistency is for: the labels of a graph can be executed one after the other by a
machine with a single memory, so that every thread executes its labels in program order, threads
start after their creates and end before they are joined, and every read gets what has been written
last.  `exists_interleaving_iff` says that the acyclic graphs are the ones with such an execution.
-/

namespace GenMC

namespace ExecutionGraph

variable {g : ExecutionGraph} {q : List Event}

/-- The operation of a label on the memory. -/
def opOf (g : ExecutionGraph) (e : Event) : SharedMemory.Op SAddr Event :=
  match (g.getEventLabel e).map EventLabel.body with
  | some (.write _ acc _) => .write acc.addr e
  | some (.read _ acc (some w) _) => .read acc.addr w
  | _ => .other

/-- An execution of all labels of a graph, one after the other. -/
structure Interleaving (g : ExecutionGraph) (q : List Event) : Prop where
  /-- All labels are executed once. -/
  perm : q.Perm g.positions
  /-- The initializer is the first one. -/
  init : ∃ rest, q = .init :: rest
  /-- Threads execute their labels in program order, after they have been created, and end before
  they are joined. -/
  threads : ∀ p e, g.Po p e ∨ g.Creates p e ∨ g.Joins p e → q.idxOf p < q.idxOf e
  /-- The writes to a location are executed in coherence order. -/
  writes : ∀ a, (q.filter fun e => g.isa LabelBody.isWrite e && decide (g.addrOf e = some a)) =
    g.co a
  /-- Every read gets what has been written last. -/
  reads : (PartialRun.exec SharedMemory.step (fun _ => .init) (q.map g.opOf)).isSome

/-! ## Operations -/

/-- The operation of a write. -/
lemma opOf_eq_write_iff {e w : Event} {a : SAddr} : g.opOf e = .write a w ↔
    w = e ∧ g.isa LabelBody.isWrite e ∧ g.addrOf e = some a := by
  unfold opOf
  cases hlab : g.getEventLabel e with
  | none => simp [isa, hlab]
  | some lab =>
    rw [isa_of_getEventLabel hlab, addrOf_of_getEventLabel hlab]
    cases hb : lab.body with
    | write k acc rs =>
      simp only [Option.map_some, hb, SharedMemory.Op.write.injEq, LabelBody.isWrite,
        LabelBody.addr, LabelBody.memAccess, Option.some.injEq]
      tauto
    | read k acc rf ipr => cases rf <;> simp [hb, LabelBody.isWrite]
    | _ => simp [hb, LabelBody.isWrite]

/-- The operation of a read. -/
lemma opOf_eq_read_iff {e w : Event} {a : SAddr} : g.opOf e = .read a w ↔
    g.rfOf e = some w ∧ g.addrOf e = some a := by
  unfold opOf
  cases hlab : g.getEventLabel e with
  | none => simp [rfOf, hlab]
  | some lab =>
    rw [rfOf_of_getEventLabel hlab, addrOf_of_getEventLabel hlab]
    cases hb : lab.body with
    | read k acc rf ipr =>
      cases rf <;> simp [hb, LabelBody.rf, LabelBody.addr, LabelBody.memAccess, and_comm]
    | _ => simp [hb, LabelBody.rf]

/-- A label writes to a location if it is in the coherence order. -/
lemma writes_opOf_eq_none_iff (hg : Navigable g) {e : Event} {a : SAddr} :
    (g.opOf e).writes a = none ↔ e ∉ g.co a := by
  have hiff : e ∈ g.co a ↔ g.opOf e = .write a e := by
    rw [opOf_eq_write_iff]
    constructor
    · intro he
      exact ⟨rfl, hg.wellFormed.stores.stores a e he⟩
    · rintro ⟨-, hw, ha⟩
      exact hg.wellFormed.allStores e a hw ha
  rw [hiff]
  cases hop : g.opOf e with
  | write b w =>
    obtain ⟨rfl, -⟩ := opOf_eq_write_iff.mp hop
    rw [SharedMemory.Op.writes]
    by_cases hb : b = a <;> simp [hb]
  | _ => simp [SharedMemory.Op.writes]

/-- The last write to a location in a part of an execution. -/
lemma lastWrite_map_eq_some_iff (hg : Navigable g) {a : SAddr} {w : Event} :
    SharedMemory.lastWrite a (q.map g.opOf) = some w ↔
      ∃ s t, q = s ++ w :: t ∧ w ∈ g.co a ∧ ∀ e ∈ t, e ∉ g.co a := by
  rw [SharedMemory.lastWrite_eq_some_iff]
  constructor
  · rintro ⟨xs, ys, hsplit, hrest⟩
    obtain ⟨s, t', rfl, rfl, hmap⟩ := List.map_eq_append_iff.mp hsplit
    obtain ⟨e, t, rfl, he, rfl⟩ := List.map_eq_cons_iff.mp hmap
    obtain ⟨rfl, hw, ha⟩ := opOf_eq_write_iff.mp he
    refine ⟨s, t, rfl, hg.wellFormed.allStores w a hw ha, fun e he => ?_⟩
    exact (writes_opOf_eq_none_iff hg).mp (hrest _ (List.mem_map_of_mem he))
  · rintro ⟨s, t, rfl, hw, hrest⟩
    have hop : g.opOf w = .write a w :=
      opOf_eq_write_iff.mpr ⟨rfl, hg.wellFormed.stores.stores a w hw⟩
    refine ⟨s.map g.opOf, t.map g.opOf, by simp [hop], fun op hop => ?_⟩
    obtain ⟨e, he, rfl⟩ := List.mem_map.mp hop
    exact (writes_opOf_eq_none_iff hg).mpr (hrest e he)

/-- Without a write to the location the memory keeps what it had. -/
lemma lastWrite_map_eq_none_iff (hg : Navigable g) {a : SAddr} :
    SharedMemory.lastWrite a (q.map g.opOf) = none ↔ ∀ e ∈ q, e ∉ g.co a := by
  unfold SharedMemory.lastWrite
  rw [List.findSome?_eq_none_iff]
  simp [writes_opOf_eq_none_iff hg]

/-! ## From executions to acyclicity -/

/-- The labels of the graph, without repetition. -/
lemma nodup_graph_positions (g : ExecutionGraph) : g.positions.Nodup := by
  unfold positions
  refine List.nodup_flatMap.mpr ⟨fun t _ => ?_, ?_⟩
  · exact List.nodup_range.map fun i j h => (Event.mk.inj h).2
  · refine List.nodup_range.imp fun {t u} htu => ?_
    intro e he he'
    obtain ⟨i, -, rfl⟩ := List.mem_map.mp he
    obtain ⟨j, -, heq⟩ := List.mem_map.mp he'
    exact htu (Event.mk.inj heq).1.symm

namespace Interleaving

variable (h : Interleaving g q)
include h

/-- No label is executed twice. -/
lemma nodup : q.Nodup := h.perm.nodup_iff.mpr (nodup_graph_positions g)

/-- Every label of the graph is executed. -/
lemma mem_iff {e : Event} : e ∈ q ↔ g.containsPos e := h.perm.mem_iff.trans mem_positions

/-- Every label but the initializer is executed after it. -/
lemma init_lt {e : Event} (hne : e ≠ .init) :
    q.idxOf .init < q.idxOf e := by
  obtain ⟨rest, rfl⟩ := h.init
  rw [List.idxOf_cons_self, List.idxOf_cons_ne _ (Ne.symm hne)]
  exact Nat.succ_pos _

/-- Writes are executed in coherence order. -/
lemma co_lt {w w' : Event} (hco : g.Co w w') : q.idxOf w < q.idxOf w' := by
  obtain ⟨a, -, hsub⟩ := hco
  rw [← h.writes a] at hsub
  have hpair := hsub.trans List.filter_sublist
  obtain ⟨l, l', rfl, hl, hl'⟩ := List.cons_sublist_iff.mp hpair
  obtain ⟨s, t, rfl⟩ := List.append_of_mem (List.singleton_sublist.mp hl')
  exact (idxOf_lt_iff_mem_front h.nodup (s := l ++ s) (t := t) (by rw [List.append_assoc])).mpr
    (List.mem_append_left s hl)

/-- What a read finds in the memory. -/
lemma read_split {r w : Event} {a : SAddr} (hrf : g.rfOf r = some w) (ha : g.addrOf r = some a) :
    ∃ s t, q = s ++ r :: t ∧
      (SharedMemory.lastWrite a (s.map g.opOf)).getD .init = w := by
  have hr : r ∈ q := h.mem_iff.mpr (containsPos_of_isa (isa_isRead_of_rfOf hrf))
  obtain ⟨s, t, rfl⟩ := List.append_of_mem hr
  refine ⟨s, t, rfl, ?_⟩
  refine SharedMemory.exec_isSome_iff.mp h.reads (s.map g.opOf) a w (t.map g.opOf) ?_
  rw [List.map_append, List.map_cons, opOf_eq_read_iff.mpr ⟨hrf, ha⟩]

/-- A read is executed after the write that it reads from. -/
lemma rf_lt (hg : Navigable g) {r w : Event} (hrf : g.rfOf r = some w) :
    q.idxOf w < q.idxOf r := by
  have hread := isa_isRead_of_rfOf hrf
  have hr := containsPos_of_isa hread
  obtain rfl | hne := eq_or_ne w .init
  · refine h.init_lt ?_
    rintro rfl
    exact hg.wellFormed.not_isRead_init hread
  · obtain ⟨lab, hlab, hbody⟩ := isa_iff.mp hread
    obtain ⟨a, ha⟩ : ∃ a, g.addrOf r = some a := by
      rw [← Option.isSome_iff_exists, addrOf_of_getEventLabel hlab, LabelBody.addr_isSome, hbody,
        Bool.true_or]
    obtain ⟨s, t, hsplit, hlast⟩ := h.read_split hrf ha
    refine (idxOf_lt_iff_mem_front h.nodup hsplit).mpr ?_
    cases hw : SharedMemory.lastWrite a (s.map g.opOf) with
    | none => exact absurd (hw ▸ hlast).symm hne
    | some w' =>
      obtain rfl : w' = w := by rwa [hw] at hlast
      obtain ⟨x, y, rfl, -⟩ := (lastWrite_map_eq_some_iff hg).mp hw
      exact List.mem_append_right x List.mem_cons_self

/-- A read is executed before the writes that overwrite what it has read. -/
lemma fr_lt (hg : Navigable g) {r w' : Event} (hfr : g.Fr r w') : q.idxOf r < q.idxOf w' := by
  obtain ⟨w, hrf, hafter⟩ := hfr
  have hread := isa_isRead_of_rfOf hrf
  have hr := containsPos_of_isa hread
  -- the overwriting write is a write of the read's location
  obtain ⟨a, ha, hw'⟩ : ∃ a, g.addrOf r = some a ∧ w' ∈ g.co a := by
    obtain hco | ⟨-, a, ha, hmem⟩ := hafter
    · obtain ⟨a, haddr, x, y, hsplit, hin⟩ := co_iff_split.mp hco
      have hwrite := (hg.wellFormed.stores.stores a w (hsplit ▸ List.mem_append_left _ hin)).1
      exact ⟨a, (hg.locations r w hrf hwrite) ▸ haddr,
        hsplit ▸ List.mem_append_right x List.mem_cons_self⟩
    · exact ⟨a, ha, hmem⟩
  have hmem : w' ∈ q := h.mem_iff.mpr (hg.containsPos_of_mem_co hw')
  obtain ⟨s, t, hsplit, hlast⟩ := h.read_split hrf ha
  by_contra hnot
  have hne : w' ≠ r := by
    rintro rfl
    have hwrite := (hg.wellFormed.stores.stores a w' hw').1
    obtain ⟨lab, hlab, hbody⟩ := isa_iff.mp hread
    rw [isa_of_getEventLabel hlab, LabelBody.isWrite_of_isRead hbody] at hwrite
    cases hwrite
  -- otherwise it would be in the part that is executed before the read
  have hin : w' ∈ s := by
    rw [hsplit] at hmem
    obtain hmem | hmem := List.mem_append.mp hmem
    · exact hmem
    · obtain ⟨x, y, rfl⟩ := List.append_of_mem ((List.mem_cons.mp hmem).resolve_left hne)
      refine absurd ((idxOf_lt_iff_mem_front h.nodup (s := s ++ r :: x) (t := y) ?_).mpr
        (List.mem_append_right s List.mem_cons_self)) hnot
      rw [hsplit]
      simp
  cases hw : SharedMemory.lastWrite a (s.map g.opOf) with
  | none => exact (lastWrite_map_eq_none_iff hg).mp hw w' hin hw'
  | some v =>
    obtain rfl : v = w := by rwa [hw] at hlast
    obtain ⟨x, y, rfl, hmem, hrest⟩ := (lastWrite_map_eq_some_iff hg).mp hw
    have hin' : w' ∈ x ++ [v] := by
      obtain hmem | hmem := List.mem_append.mp hin
      · exact List.mem_append_left _ hmem
      · obtain rfl | hmem := List.mem_cons.mp hmem
        · exact List.mem_append_right x (List.mem_singleton_self _)
        · exact absurd hw' (hrest w' hmem)
    have hbefore : w' ≠ v → q.idxOf w' < q.idxOf v := by
      intro hne'
      refine (idxOf_lt_iff_mem_front h.nodup (s := x) (t := y ++ r :: t) ?_).mpr ?_
      · rw [hsplit]
        simp
      · exact (List.mem_append.mp hin').resolve_right fun hm => hne' (List.mem_singleton.mp hm)
    obtain hco | ⟨rfl, -⟩ := hafter
    · have hlt := h.co_lt hco
      have hlt' := hbefore fun heq => by
        rw [heq] at hlt
        exact lt_irrefl _ hlt
      omega
    · exact hg.init_notMem_co a hmem

/-- A graph with an execution is acyclic. -/
lemma acyclic (hg : Navigable g) : Acyclic g.SCBefore := by
  refine Acyclic.of_rank q.idxOf fun p e hpe => ?_
  obtain hpo | hrf | hco | hfr | hcreates | hjoins := hpe
  · exact h.threads p e (.inl hpo)
  · exact h.rf_lt hg hrf
  · exact h.co_lt hco
  · exact h.fr_lt hg hfr
  · exact h.threads p e (.inr (.inl hcreates))
  · exact h.threads p e (.inr (.inr hjoins))

end Interleaving

/-! ## From acyclicity to executions -/

/-- The order of sequential consistency, with the initializer before everything else. -/
def AfterInit (g : ExecutionGraph) (p e : Event) : Prop :=
  g.SCBefore p e ∨ (p = .init ∧ e ≠ .init ∧ g.containsPos e)

/-- The initializer can come first. -/
lemma acyclic_afterInit (hg : Navigable g) (h : Acyclic g.SCBefore) : Acyclic g.AfterInit := by
  have hinit : ∀ {p}, ¬g.AfterInit p .init := by
    rintro p (hp | ⟨-, hne, -⟩)
    · exact not_scBefore_init hg hp
    · exact hne rfl
  -- a step of a cycle starts at a label that something comes before
  have hsteps : ∀ {a b}, a ≠ .init → Relation.TransGen g.AfterInit a b →
      b ≠ .init ∧ Relation.TransGen g.SCBefore a b := by
    intro a b ha hab
    induction hab with
    | single hstep =>
      refine ⟨fun heq => hinit (heq ▸ hstep), .single (hstep.resolve_right fun h => ha h.1)⟩
    | tail _ hstep ih =>
      exact ⟨fun heq => hinit (heq ▸ hstep), ih.2.tail (hstep.resolve_right fun h => ih.1 h.1)⟩
  intro a ha
  by_cases hne : a = .init
  · obtain ⟨b, -, hb⟩ := Relation.TransGen.tail'_iff.mp ha
    exact hinit (hne ▸ hb)
  · exact h a (hsteps hne ha).2

section Extension

variable (hg : Navigable g) (hacyclic : Acyclic g.SCBefore)
  (h : LinearExtension g.AfterInit g.positions q)
include hg hacyclic h

/-- Labels are executed after those that come before them. -/
lemma idxOf_lt_of_scBefore {p e : Event} (hpe : g.SCBefore p e) : q.idxOf p < q.idxOf e := by
  obtain ⟨hp, he⟩ := containsPos_of_scBefore hg.wellFormed.readerLists hg.wellFormed.stores hpe
  exact h.idxOf_lt (acyclic_afterInit hg hacyclic) (.inl hpe) (mem_positions.mpr hp)
    (mem_positions.mpr he)

/-- The writes to a location are executed in coherence order. -/
lemma filter_writes_eq_co (a : SAddr) :
    (q.filter fun e => g.isa LabelBody.isWrite e && decide (g.addrOf e = some a)) = g.co a := by
  have hq : q.Nodup := h.perm.nodup_iff.mpr (nodup_graph_positions g)
  have hmem : ∀ e, e ∈ (q.filter fun e => g.isa LabelBody.isWrite e &&
      decide (g.addrOf e = some a)) ↔ e ∈ g.co a := by
    intro e
    rw [List.mem_filter, Bool.and_eq_true, decide_eq_true_eq, h.perm.mem_iff, mem_positions]
    constructor
    · rintro ⟨-, hw, ha⟩
      exact hg.wellFormed.allStores e a hw ha
    · intro he
      exact ⟨hg.containsPos_of_mem_co he, hg.wellFormed.stores.stores a e he⟩
  have hperm := (List.perm_ext_iff_of_nodup (hq.filter _) (hg.wellFormed.stores.nodup a)).mpr hmem
  have hsorted (s : List Event) (hs : s.Sublist q) :
      s.Pairwise fun e e' => q.idxOf e < q.idxOf e' := by
    refine List.Pairwise.sublist hs (List.pairwise_iff_getElem.mpr ?_)
    intro i j hi hj hij
    rwa [hq.idxOf_getElem, hq.idxOf_getElem]
  have hco : (g.co a).Pairwise fun e e' => q.idxOf e < q.idxOf e' := by
    refine List.pairwise_iff_forall_sublist.mpr fun {w w'} hsub => ?_
    refine idxOf_lt_of_scBefore hg hacyclic h (.inr (.inr (.inl ⟨a, ?_, hsub⟩)))
    exact (hg.wellFormed.stores.stores a w (hsub.subset List.mem_cons_self)).2
  exact List.Perm.eq_of_pairwise (fun e e' _ _ hlt hlt' => absurd hlt hlt'.asymm)
    (hsorted _ List.filter_sublist) hco hperm

/-- Every read gets what has been written last. -/
lemma reads_of_linearExtension :
    (PartialRun.exec SharedMemory.step (fun _ => Event.init) (q.map g.opOf)).isSome := by
  have hq : q.Nodup := h.perm.nodup_iff.mpr (nodup_graph_positions g)
  refine SharedMemory.exec_isSome_iff.mpr fun xs a w ys hsplit => ?_
  obtain ⟨s, t', rfl, rfl, hmap⟩ := List.map_eq_append_iff.mp hsplit
  obtain ⟨r, t, rfl, hr, rfl⟩ := List.map_eq_cons_iff.mp hmap
  obtain ⟨hrf, ha⟩ := opOf_eq_read_iff.mp hr
  have hlt : ∀ {e}, (s ++ r :: t).idxOf e < (s ++ r :: t).idxOf r ↔ e ∈ s :=
    idxOf_lt_iff_mem_front hq rfl
  have hbefore : ∀ {p e}, g.SCBefore p e → (s ++ r :: t).idxOf p < (s ++ r :: t).idxOf e :=
    fun hpe => idxOf_lt_of_scBefore hg hacyclic h hpe
  -- no write before the read overwrites what it has read
  have hfr : ∀ e ∈ s, ¬g.Fr r e := fun e he hfr => by
    have hlt' := hbefore (.inr (.inr (.inr (.inl hfr))))
    exact absurd (hlt.mpr he) hlt'.asymm
  obtain hwrite | hinit := hg.wellFormed.readerLists.sources r w hrf
  · have hw : w ∈ g.co a :=
      hg.wellFormed.allStores w a hwrite ((hg.locations r w hrf hwrite).trans ha)
    have hws : w ∈ s := hlt.mp (hbefore (.inr (.inl hrf)))
    obtain ⟨x, y, rfl⟩ := List.append_of_mem hws
    have hlast : SharedMemory.lastWrite a ((x ++ w :: y).map g.opOf) = some w := by
      refine (lastWrite_map_eq_some_iff hg).mpr ⟨x, y, rfl, hw, fun e he hco => ?_⟩
      obtain ⟨u, v, hsplit⟩ := List.append_of_mem hw
      have hin : e ∈ x ++ w :: y := List.mem_append_right x (List.mem_cons_of_mem w he)
      -- a later write would be before the one that is read, or overwrite it
      have hone : w = e ∨ g.Co w e ∨ g.Co e w := by
        rw [hsplit] at hco
        obtain hu | hv := List.mem_append.mp hco
        · obtain ⟨u₁, u₂, rfl⟩ := List.append_of_mem hu
          refine .inr (.inr (co_of_split hg.wellFormed.readerLists hg.wellFormed.stores
            (s := u₁) (t := u₂ ++ w :: v) (by rw [hsplit]; simp) ?_))
          exact List.mem_append_right u₂ List.mem_cons_self
        · obtain rfl | hv := List.mem_cons.mp hv
          · exact .inl rfl
          · exact .inr (.inl (co_of_split hg.wellFormed.readerLists hg.wellFormed.stores hsplit hv))
      have hafter : ((x ++ w :: y) ++ r :: t).idxOf w < ((x ++ w :: y) ++ r :: t).idxOf e := by
        obtain ⟨y₁, y₂, rfl⟩ := List.append_of_mem he
        exact (idxOf_lt_iff_mem_front hq (s := x ++ w :: y₁) (t := y₂ ++ r :: t) (by simp)).mpr
          (List.mem_append_right x List.mem_cons_self)
      obtain rfl | hwe | hew := hone
      · exact lt_irrefl _ hafter
      · exact hfr e hin ⟨w, hrf, .inl hwe⟩
      · exact absurd hafter (hbefore (.inr (.inr (.inl hew)))).asymm
    rw [hlast, Option.getD_some]
  · obtain rfl := (hg.wellFormed.readerLists.positioned.initOnly w).mp hinit
    rw [(lastWrite_map_eq_none_iff hg).mpr fun e he hco => hfr e he
      ⟨.init, hrf, .inr ⟨rfl, a, ha, hco⟩⟩, Option.getD_none]

/-- The order is an execution. -/
lemma interleaving_of_linearExtension : Interleaving g q := by
  have hlt : ∀ {p e}, g.SCBefore p e → q.idxOf p < q.idxOf e :=
    fun hpe => idxOf_lt_of_scBefore hg hacyclic h hpe
  have hinit : .init ∈ q := h.perm.mem_iff.mpr
    (mem_positions.mpr (containsPos_of_isa hg.wellFormed.isa_init))
  refine ⟨h.perm, ?_, fun p e hpe => ?_, filter_writes_eq_co hg hacyclic h,
    reads_of_linearExtension hg hacyclic h⟩
  · -- nothing is executed before the initializer
    obtain ⟨s, t, rfl⟩ := List.append_of_mem hinit
    cases s with
    | nil => exact ⟨t, rfl⟩
    | cons e s =>
      have hq : (e :: s ++ .init :: t).Nodup := h.perm.nodup_iff.mpr (nodup_graph_positions g)
      have hne : e ≠ .init := by
        rintro rfl
        exact (List.nodup_cons.mp hq).1 (List.mem_append_right s List.mem_cons_self)
      have he : g.containsPos e := mem_positions.mp (h.perm.mem_iff.mp List.mem_cons_self)
      have hord := (List.pairwise_append.mp h.ordered).2.2 e List.mem_cons_self .init
        List.mem_cons_self
      exact absurd (.inr ⟨rfl, hne, he⟩) hord
  · obtain hpo | hcreates | hjoins := hpe
    · exact hlt (.inl hpo)
    · exact hlt (.inr (.inr (.inr (.inr (.inl hcreates)))))
    · exact hlt (.inr (.inr (.inr (.inr (.inr hjoins)))))

end Extension

/-- The labels of a graph without cycles can be executed in any order that extends the one of
sequential consistency. -/
lemma exists_interleaving (hg : Navigable g) (hacyclic : Acyclic g.SCBefore) :
    ∃ q, Interleaving g q := by
  obtain ⟨q, h⟩ := (acyclic_afterInit hg hacyclic).exists_linearExtension
    (nodup_graph_positions g) fun p e hpe _ => by
      obtain hpe | ⟨rfl, -⟩ := hpe
      · exact mem_positions.mpr (containsPos_of_scBefore hg.wellFormed.readerLists
          hg.wellFormed.stores hpe).1
      · exact mem_positions.mpr (containsPos_of_isa hg.wellFormed.isa_init)
  exact ⟨q, interleaving_of_linearExtension hg hacyclic h⟩

/-- **Sequential consistency.**  The graphs whose labels can be executed one after the other are the
ones in which program order, thread creation and joining, reads-from, coherence and from-read have
no cycle. -/
theorem exists_interleaving_iff (hg : Navigable g) :
    (∃ q, Interleaving g q) ↔ Acyclic g.SCBefore :=
  ⟨fun ⟨_, h⟩ => h.acyclic hg, exists_interleaving hg⟩

/-- Store buffering. -/
theorem storeBuffering_interleaving_iff :
    (∃ q, Interleaving storeBuffering q) ↔ Acyclic storeBuffering.SCBefore :=
  exists_interleaving_iff navigable_storeBuffering.1

end ExecutionGraph

end GenMC
