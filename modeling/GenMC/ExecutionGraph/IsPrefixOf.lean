import GenMC.ExecutionGraph.GraphIterators
import GenMC.ExecutionGraph.GraphUtils

/-!
# Prefixes of graphs

`isPrefixOf` compares two graphs label by label: their kinds, the sources of reads, and the
immediate predecessors of writes in coherence order.  It takes a read without a source for a
difference, follows the null pointer where only the first graph has none, and asks of coherence that
neighbours in the first graph are neighbours in the second one, which is more than that the order is
the one induced by it (`isPrefixOf_right_iff`).
-/

namespace GenMC

/-- The class of a label that points to a thread or an address, without its target. -/
def PlainKind.untargeted : PlainKind → PlainKind
  | joinBlock _ => joinBlock 0
  | readOptBlock _ => readOptBlock ⟨0⟩
  | threadCreate _ => threadCreate 0
  | threadJoin _ => threadJoin 0
  | k => k

/-- `EventLabelKind`. -/
inductive LabelKind
  | threadStart | init | threadFinish | read (kind : ReadKind) | write (kind : WriteKind)
  | malloc | free (kind : FreeKind) | plain (kind : PlainKind) | empty
deriving DecidableEq

namespace LabelBody

/-- `EventLabel::getKind`. -/
def getKind : LabelBody → LabelKind
  | threadStart _ => .threadStart
  | init => .init
  | threadFinish _ => .threadFinish
  | read k _ _ _ => .read k
  | write k _ _ => .write k
  | malloc .. => .malloc
  | free k _ _ => .free k
  | plain k => .plain k.untargeted
  | empty => .empty

/-- Labels of one kind are reads together. -/
lemma isRead_of_getKind {b b' : LabelBody} (h : b.getKind = b'.getKind) : b.isRead = b'.isRead := by
  cases b <;> cases b' <;> first | rfl | cases h

/-- Labels of one kind are writes together. -/
lemma isWrite_of_getKind {b b' : LabelBody} (h : b.getKind = b'.getKind) :
    b.isWrite = b'.isWrite := by
  cases b <;> cases b' <;> first | rfl | cases h

end LabelBody

namespace ExecutionGraph

variable (g₁ g₂ : ExecutionGraph)

/-! ## The code -/

/-- The part of the comparison of two labels that concerns reads. -/
def sameSource (b₁ b₂ : LabelBody) : Option Bool :=
  if b₁.isRead then
    match b₁.rf, b₂.rf with
    | some _, none => some false
    | none, none => some false
    -- the position of the first source is compared, though there is none
    | none, some _ => none
    | some w₁, some w₂ => some (decide (w₁ = w₂))
  else some true

/-- The part of the comparison of two labels that concerns writes. -/
def samePred (b₁ : LabelBody) (e : Event) : Option Bool :=
  if b₁.isWrite then do
    let p₁ ← g₁.coImmPred e
    let p₂ ← g₂.coImmPred e
    return !((p₁.isSome && p₂.isNone) || (p₂.isNone && p₁.isSome) ||
      (p₁.isSome && p₂.isSome && decide (p₁ ≠ p₂)))
  else some true

/-- The body of the inner loop: whether the labels at a position agree. -/
def sameLabel (e : Event) : Option Bool := do
  let lab₁ ← g₁.getEventLabel e
  let lab₂ ← g₂.getEventLabel e
  if lab₁.body.getKind ≠ lab₂.body.getKind then return false
  if ← sameSource lab₁.body lab₂.body then g₁.samePred g₂ lab₁.body e else return false

/-- The body of the outer loop: whether a thread is long enough, and its labels agree. -/
def sameThread (i : ℕ) : Option Bool :=
  if g₂.getThreadSize i < g₁.getThreadSize i then some false
  else (positionsIn i 0 (g₁.getThreadSize i)).allM (g₁.sameLabel g₂)

/-- `isPrefixOf`. -/
def isPrefixOf : Option Bool :=
  if g₂.getNumThreads < g₁.getNumThreads then some false
  else (List.range g₁.getNumThreads).allM (g₁.sameThread g₂)

/-! ## What it should compute -/

/-- The first graph is a prefix of the second one. -/
structure PrefixOf : Prop where
  /-- Its labels are at the same positions with the same kinds. -/
  labels : ∀ e lab₁, g₁.getEventLabel e = some lab₁ →
    ∃ lab₂, g₂.getEventLabel e = some lab₂ ∧ lab₁.body.getKind = lab₂.body.getKind
  /-- Its reads read from the same events, or do not read either. -/
  sources : ∀ r, g₁.isa LabelBody.isRead r → g₁.rfOf r = g₂.rfOf r
  /-- Its coherence order is the induced one. -/
  order : ∀ w w', g₁.containsPos w → g₁.containsPos w' → (g₁.Co w w' ↔ g₂.Co w w')

/-- The labels at a position agree as far as the code goes. -/
structure Agrees (e : Event) : Prop where
  /-- There are labels of the same kind. -/
  label : ∃ lab₁ lab₂, g₁.getEventLabel e = some lab₁ ∧ g₂.getEventLabel e = some lab₂ ∧
    lab₁.body.getKind = lab₂.body.getKind
  /-- A read reads from the same event in both graphs. -/
  source : g₁.isa LabelBody.isRead e → ∃ w, g₁.rfOf e = some w ∧ g₂.rfOf e = some w
  /-- A write that is not the first one of its location has the same predecessor in both graphs. -/
  pred : g₁.isa LabelBody.isWrite e → ∀ p, g₁.coImmPred e = some (some p) →
    g₂.coImmPred e = some (some p)

/-- A read that only has a source in the second graph. -/
structure NullRead (r : Event) : Prop where
  /-- There are reads of the same kind. -/
  label : ∃ lab₁ lab₂, g₁.getEventLabel r = some lab₁ ∧ g₂.getEventLabel r = some lab₂ ∧
    lab₁.body.getKind = lab₂.body.getKind ∧ lab₁.body.isRead
  /-- The first graph has no source. -/
  null : g₁.rfOf r = none
  /-- The second graph has one. -/
  source : (g₂.rfOf r).isSome

/-- The position comes first in the order in which the code compares labels. -/
def ScannedBefore (e' e : Event) : Prop :=
  e'.thread < e.thread ∨ (e'.thread = e.thread ∧ e'.index < e.index)

/-- The code finds no difference before it comes to a position. -/
structure Reached (e : Event) : Prop where
  /-- The second graph has enough threads. -/
  threads : g₁.getNumThreads ≤ g₂.getNumThreads
  /-- The threads up to that of the position are long enough. -/
  sizes : ∀ t ≤ e.thread, g₁.getThreadSize t ≤ g₂.getThreadSize t
  /-- The labels before it agree. -/
  agrees : ∀ e', g₁.containsPos e' → ScannedBefore e' e → g₁.Agrees g₂ e'

variable {g₁ g₂}

/-! ## Coherence order -/

variable {g : ExecutionGraph}

/-- A write splits the coherence order of its location. -/
lemma WellFormed.exists_split (hg : WellFormed g) {w : Event} (hw : g.isa LabelBody.isWrite w) :
    ∃ a s t, g.addrOf w = some a ∧ g.co a = s ++ w :: t := by
  obtain ⟨lab, hlab, hwrite⟩ := isa_iff.mp hw
  obtain ⟨a, ha⟩ : ∃ a, g.addrOf w = some a := by
    rw [← Option.isSome_iff_exists, addrOf_of_getEventLabel hlab, LabelBody.addr_isSome, hwrite,
      Bool.or_true]
  obtain ⟨s, t, hst⟩ := List.append_of_mem (hg.allStores w a hw ha)
  exact ⟨a, s, t, ha, hst⟩

/-- Every write has an immediate predecessor or is the first one. -/
lemma WellFormed.exists_coImmPred (hg : WellFormed g) {w : Event} (hw : g.isa LabelBody.isWrite w) :
    ∃ p, g.coImmPred w = some p := by
  obtain ⟨a, s, t, -, hco⟩ := hg.exists_split hw
  exact ⟨_, (coNeighbours hg.readerLists hg.stores hco).2.2.2⟩

/-- The immediate predecessor comes before a write. -/
lemma WellFormed.co_of_coImmPred (hg : WellFormed g) {w p : Event} (hw : g.isa LabelBody.isWrite w)
    (h : g.coImmPred w = some (some p)) : g.Co p w := by
  obtain ⟨a, s, t, -, hco⟩ := hg.exists_split hw
  have hlast : s.getLast? = some p :=
    Option.some.inj ((coNeighbours hg.readerLists hg.stores hco).2.2.2.symm.trans h)
  have hp : p ∈ s := List.mem_of_getLast? hlast
  have ha : g.addrOf p = some a :=
    (hg.stores.stores a p (hco ▸ List.mem_append_left _ hp)).2
  exact co_iff_split.mpr ⟨a, ha, s, t, hco, hp⟩

/-- Writes in coherence order are writes of one location. -/
lemma WellFormed.of_co (hg : WellFormed g) {w w' : Event} (h : g.Co w w') :
    ∃ a, w ∈ g.co a ∧ w' ∈ g.co a ∧ g.addrOf w = some a ∧ g.addrOf w' = some a := by
  obtain ⟨a, ha, hsub⟩ := h
  have hw' : w' ∈ g.co a := hsub.subset (by simp)
  exact ⟨a, hsub.subset (by simp), hw', ha, (hg.stores.stores a w' hw').2⟩

/-- Coherence order is transitive. -/
lemma WellFormed.co_trans (hg : WellFormed g) {w w' w'' : Event} (h : g.Co w w')
    (h' : g.Co w' w'') : g.Co w w'' := by
  obtain ⟨a, ha, s, t, hco, hw⟩ := co_iff_split.mp h
  obtain ⟨a', ha', s', t', hco', hw'⟩ := co_iff_split.mp h'
  have haa : a' = a := by
    have hw'a := (hg.stores.stores a w' (hco ▸ by simp)).2
    exact Option.some.inj (ha'.symm.trans hw'a)
  subst haa
  -- The order splits only once at the write in the middle.
  obtain ⟨x, y, rfl⟩ := List.append_of_mem hw'
  have hnodup := hg.stores.nodup a'
  rw [hco, List.nodup_append] at hnodup
  have hsplit : s ++ w' :: t = x ++ w' :: (y ++ w'' :: t') := by
    rw [← hco, hco', List.append_assoc]
    rfl
  obtain ⟨rfl, -⟩ := (List.append_cons_inj_of_notMem
    (fun hmem => hnodup.2.2 w' hmem w' List.mem_cons_self rfl)
    (List.nodup_cons.mp hnodup.2.1).1).mp hsplit
  exact co_iff_split.mpr ⟨a', ha, s ++ w' :: y, t', hco', List.mem_append_left _ hw⟩

/-- No write comes before itself. -/
lemma Stores.co_irrefl (hg : Stores g) (w : Event) : ¬g.Co w w := by
  intro h
  obtain ⟨a, -, s, t, hco, hw⟩ := co_iff_split.mp h
  have hnodup := hg.nodup a
  rw [hco, List.nodup_append] at hnodup
  exact hnodup.2.2 w hw w List.mem_cons_self rfl

/-- Two writes of a location are ordered. -/
lemma WellFormed.co_total (hg : WellFormed g) {a : SAddr} {w w' : Event} (hw : w ∈ g.co a)
    (hw' : w' ∈ g.co a) (hne : w ≠ w') : g.Co w w' ∨ g.Co w' w := by
  obtain ⟨s, t, hco⟩ := List.append_of_mem hw'
  have haddr := (hg.stores.stores a w hw).2
  have haddr' := (hg.stores.stores a w' hw').2
  rw [hco] at hw
  rcases List.mem_append.mp hw with hw | hw
  · exact .inl (co_iff_split.mpr ⟨a, haddr, s, t, hco, hw⟩)
  · refine .inr ⟨a, haddr', ?_⟩
    rw [hco]
    have hw : w ∈ t := (List.mem_cons.mp hw).resolve_left hne
    exact (List.Sublist.cons_cons w' (List.singleton_sublist.mpr hw)).trans
      (List.sublist_append_right s _)

/-- Where immediate predecessors are kept, coherence order is. -/
lemma co_of_agrees (hg₁ : WellFormed g₁) (hg₂ : WellFormed g₂)
    (hagrees : ∀ e, g₁.containsPos e → g₁.Agrees g₂ e) {w w' : Event} (h : g₁.Co w w') :
    g₂.Co w w' := by
  obtain ⟨a, -, s, t, hco, hw⟩ := co_iff_split.mp h
  clear h
  -- Along the part of the order before the later write, the last one first.
  induction s using List.reverseRecOn generalizing w' t with
  | nil => exact absurd hw List.not_mem_nil
  | append_singleton s p ih =>
    have hwrite : g₁.isa LabelBody.isWrite w' := (hg₁.stores.stores a w' (hco ▸ by simp)).1
    have hagree := hagrees w' (containsPos_of_isa hwrite)
    have hpred : g₂.coImmPred w' = some (some p) := by
      refine hagree.pred hwrite p ?_
      rw [(coNeighbours hg₁.readerLists hg₁.stores hco).2.2.2, List.getLast?_concat]
    have hwrite₂ : g₂.isa LabelBody.isWrite w' := by
      obtain ⟨lab₁, lab₂, hlab₁, hlab₂, hkind⟩ := hagree.label
      rw [isa_of_getEventLabel hlab₂, ← LabelBody.isWrite_of_getKind hkind,
        ← isa_of_getEventLabel hlab₁ LabelBody.isWrite]
      exact hwrite
    have hp := hg₂.co_of_coImmPred hwrite₂ hpred
    rcases List.mem_append.mp hw with hw | hw
    · have hco' : g₁.co a = s ++ p :: w' :: t := by
        rw [hco, List.append_assoc]
        rfl
      exact hg₂.co_trans (ih _ hco' hw) hp
    · rwa [List.mem_singleton.mp hw]

/-- Where labels agree and no two locations of the first graph become one, the first graph is a
prefix. -/
lemma prefixOf_of_agrees (hg₁ : WellFormed g₁) (hg₂ : WellFormed g₂)
    (hagrees : ∀ e, g₁.containsPos e → g₁.Agrees g₂ e)
    (haddr : ∀ w w', g₁.isa LabelBody.isWrite w → g₁.isa LabelBody.isWrite w' →
      g₂.addrOf w = g₂.addrOf w' → g₁.addrOf w = g₁.addrOf w') : g₁.PrefixOf g₂ := by
  refine ⟨fun e lab₁ hlab₁ => ?_, fun r hr => ?_, fun w w' hw hw' => ⟨co_of_agrees hg₁ hg₂ hagrees,
    fun h => ?_⟩⟩
  · obtain ⟨lab₁', lab₂, hlab₁', hlab₂, hkind⟩ := (hagrees e (containsPos_iff.mpr ⟨_, hlab₁⟩)).label
    obtain rfl := Option.some.inj (hlab₁.symm.trans hlab₁')
    exact ⟨lab₂, hlab₂, hkind⟩
  · obtain ⟨w, h₁, h₂⟩ := (hagrees r (containsPos_of_isa hr)).source hr
    exact h₁.trans h₂.symm
  · -- Both are writes of one location of the first graph, where they are ordered.
    have hwrite : ∀ e, g₁.containsPos e → g₂.isa LabelBody.isWrite e →
        g₁.isa LabelBody.isWrite e := by
      intro e he h₂
      obtain ⟨lab₁, lab₂, hlab₁, hlab₂, hkind⟩ := (hagrees e he).label
      rw [isa_of_getEventLabel hlab₁, LabelBody.isWrite_of_getKind hkind,
        ← isa_of_getEventLabel hlab₂ LabelBody.isWrite]
      exact h₂
    obtain ⟨a, hmem, hmem', ha, ha'⟩ := hg₂.of_co h
    have hw₁ := hwrite w hw (hg₂.stores.stores a w hmem).1
    have hw₁' := hwrite w' hw' (hg₂.stores.stores a w' hmem').1
    obtain ⟨b, s, t, hb, hco⟩ := hg₁.exists_split hw₁
    have hb' : g₁.addrOf w' = some b := (haddr w w' hw₁ hw₁' (ha.trans ha'.symm)) ▸ hb
    have hne : w ≠ w' := by
      rintro rfl
      exact hg₂.stores.co_irrefl w h
    rcases hg₁.co_total (hg₁.allStores w b hw₁ hb) (hg₁.allStores w' b hw₁' hb') hne with h₁ | h₁
    · exact h₁
    · exact absurd (hg₂.co_trans h (co_of_agrees hg₁ hg₂ hagrees h₁)) (hg₂.stores.co_irrefl w)

/-- In a prefix, no two locations become one. -/
lemma PrefixOf.addrOf_eq (hg₁ : WellFormed g₁) (hg₂ : WellFormed g₂) (h : g₁.PrefixOf g₂)
    {w w' : Event} (hw : g₁.isa LabelBody.isWrite w) (hw' : g₁.isa LabelBody.isWrite w')
    (haddr : g₂.addrOf w = g₂.addrOf w') : g₁.addrOf w = g₁.addrOf w' := by
  by_cases hne : w = w'
  · rw [hne]
  have hwrite : ∀ e, g₁.isa LabelBody.isWrite e → g₂.isa LabelBody.isWrite e := by
    intro e he
    obtain ⟨lab₁, hlab₁, hbody⟩ := isa_iff.mp he
    obtain ⟨lab₂, hlab₂, hkind⟩ := h.labels e lab₁ hlab₁
    rw [isa_of_getEventLabel hlab₂, ← LabelBody.isWrite_of_getKind hkind]
    exact hbody
  obtain ⟨a, -, -, ha, -⟩ := hg₂.exists_split (hwrite w hw)
  have hmem := hg₂.allStores w a (hwrite w hw) ha
  have hmem' := hg₂.allStores w' a (hwrite w' hw') (haddr ▸ ha)
  have horder := h.order w w' (containsPos_of_isa hw) (containsPos_of_isa hw')
  have horder' := h.order w' w (containsPos_of_isa hw') (containsPos_of_isa hw)
  rcases hg₂.co_total hmem hmem' hne with hco | hco
  · obtain ⟨b, -, -, hb, hb'⟩ := hg₁.of_co (horder.mpr hco)
    exact hb.trans hb'.symm
  · obtain ⟨b, -, -, hb, hb'⟩ := hg₁.of_co (horder'.mpr hco)
    exact hb'.trans hb.symm

/-! ## The loops -/

/-- Comparing the sources of two reads. -/
lemma sameSource_spec {b₁ b₂ : LabelBody} (hread : b₁.isRead) :
    (sameSource b₁ b₂ = some true ↔ ∃ w, b₁.rf = some w ∧ b₂.rf = some w) ∧
      (sameSource b₁ b₂ = none ↔ b₁.rf = none ∧ b₂.rf.isSome) := by
  unfold sameSource
  rw [if_pos hread]
  cases b₁.rf with
  | none => cases b₂.rf <;> simp
  | some w₁ =>
    cases b₂.rf with
    | none => simp
    | some w₂ => simp [eq_comm]

/-- Comparing the predecessors of two writes. -/
lemma samePred_spec (hg₁ : WellFormed g₁) (hg₂ : WellFormed g₂) {b : LabelBody} {e : Event}
    (hwrite : b.isWrite) (h₁ : g₁.isa LabelBody.isWrite e) (h₂ : g₂.isa LabelBody.isWrite e) :
    g₁.samePred g₂ b e ≠ none ∧ (g₁.samePred g₂ b e = some true ↔
      ∀ p, g₁.coImmPred e = some (some p) → g₂.coImmPred e = some (some p)) := by
  obtain ⟨p₁, hp₁⟩ := hg₁.exists_coImmPred h₁
  obtain ⟨p₂, hp₂⟩ := hg₂.exists_coImmPred h₂
  unfold samePred
  rw [if_pos hwrite, hp₁, Option.bind_eq_bind, Option.bind_some, hp₂, Option.bind_some]
  cases p₁ with
  | none => simp
  | some p₁ => cases p₂ <;> simp [eq_comm]

/-- Comparing the labels at a position that both graphs have. -/
lemma sameLabel_spec (hg₁ : WellFormed g₁) (hg₂ : WellFormed g₂) {e : Event}
    (h₁ : g₁.containsPos e) (h₂ : g₂.containsPos e) :
    (g₁.sameLabel g₂ e = some true ↔ g₁.Agrees g₂ e) ∧
      (g₁.sameLabel g₂ e = none ↔ g₁.NullRead g₂ e) := by
  obtain ⟨lab₁, hlab₁⟩ := containsPos_iff.mp h₁
  obtain ⟨lab₂, hlab₂⟩ := containsPos_iff.mp h₂
  have hrf₁ := rfOf_of_getEventLabel hlab₁
  have hrf₂ := rfOf_of_getEventLabel hlab₂
  have hisa₁ := isa_of_getEventLabel hlab₁
  have hisa₂ := isa_of_getEventLabel hlab₂
  unfold sameLabel
  rw [hlab₁, Option.bind_eq_bind, Option.bind_some, hlab₂, Option.bind_eq_bind, Option.bind_some]
  by_cases hkind : lab₁.body.getKind = lab₂.body.getKind
  swap
  · -- Labels of different kinds are a difference.
    rw [if_pos hkind]
    refine ⟨iff_of_false (by simp) fun h => ?_, iff_of_false (by simp) fun h => ?_⟩
    · obtain ⟨l₁, l₂, hl₁, hl₂, hk⟩ := h.label
      rw [hlab₁, Option.some_inj] at hl₁
      rw [hlab₂, Option.some_inj] at hl₂
      exact hkind (hl₁ ▸ hl₂ ▸ hk)
    · obtain ⟨l₁, l₂, hl₁, hl₂, hk, -⟩ := h.label
      rw [hlab₁, Option.some_inj] at hl₁
      rw [hlab₂, Option.some_inj] at hl₂
      exact hkind (hl₁ ▸ hl₂ ▸ hk)
  rw [if_neg (not_not.mpr hkind)]
  have hlabel : ∃ lab₁ lab₂, g₁.getEventLabel e = some lab₁ ∧ g₂.getEventLabel e = some lab₂ ∧
    lab₁.body.getKind = lab₂.body.getKind := ⟨lab₁, lab₂, hlab₁, hlab₂, hkind⟩
  by_cases hread : lab₁.body.isRead
  · -- Of reads, only the sources are compared.
    have hwrite : lab₁.body.isWrite = false := LabelBody.isWrite_of_isRead hread
    obtain ⟨hsame, hnull⟩ := @sameSource_spec lab₁.body lab₂.body hread
    have hpred : g₁.samePred g₂ lab₁.body e = some true := by
      unfold samePred
      rw [hwrite]
      rfl
    rw [hpred]
    constructor
    · have hagrees : g₁.Agrees g₂ e ↔ ∃ w, lab₁.body.rf = some w ∧ lab₂.body.rf = some w := by
        constructor
        · intro h
          obtain ⟨w, hw₁, hw₂⟩ := h.source (by rw [hisa₁]; exact hread)
          exact ⟨w, hrf₁ ▸ hw₁, hrf₂ ▸ hw₂⟩
        · rintro ⟨w, hw₁, hw₂⟩
          refine ⟨hlabel, fun _ => ⟨w, hrf₁.trans hw₁, hrf₂.trans hw₂⟩, fun hw => ?_⟩
          rw [hisa₁, hwrite] at hw
          cases hw
      rw [hagrees, ← hsame]
      cases sameSource lab₁.body lab₂.body with
      | none => simp
      | some b => cases b <;> simp
    · have hnullRead : g₁.NullRead g₂ e ↔ lab₁.body.rf = none ∧ lab₂.body.rf.isSome := by
        rw [← hrf₁, ← hrf₂]
        exact ⟨fun h => ⟨h.null, h.source⟩,
          fun h => ⟨⟨lab₁, lab₂, hlab₁, hlab₂, hkind, hread⟩, h.1, h.2⟩⟩
      rw [hnullRead, ← hnull]
      cases sameSource lab₁.body lab₂.body with
      | none => simp
      | some b => cases b <;> simp
  · have hsource : sameSource lab₁.body lab₂.body = some true := if_neg hread
    have hnot : ¬g₁.NullRead g₂ e := by
      intro h
      obtain ⟨l₁, l₂, hl₁, -, -, hr⟩ := h.label
      rw [hlab₁, Option.some_inj] at hl₁
      exact hread (hl₁ ▸ hr)
    have hagrees : g₁.Agrees g₂ e ↔ (lab₁.body.isWrite →
        ∀ p, g₁.coImmPred e = some (some p) → g₂.coImmPred e = some (some p)) := by
      rw [← hisa₁ LabelBody.isWrite]
      refine ⟨fun h => h.pred, fun h => ⟨hlabel, fun hr => ?_, h⟩⟩
      rw [hisa₁] at hr
      exact absurd hr hread
    rw [hsource, Option.bind_some, if_pos rfl, hagrees]
    by_cases hwrite : lab₁.body.isWrite
    · obtain ⟨hsome, hpred⟩ := samePred_spec hg₁ hg₂ (e := e) hwrite (by rw [hisa₁]; exact hwrite)
        (by rw [hisa₂, ← LabelBody.isWrite_of_getKind hkind]; exact hwrite)
      exact ⟨hpred.trans ⟨fun h _ => h, fun h => h hwrite⟩, iff_of_false hsome hnot⟩
    · have htrue : g₁.samePred g₂ lab₁.body e = some true := if_neg hwrite
      rw [htrue]
      exact ⟨iff_of_true rfl fun h => absurd h hwrite, iff_of_false (by simp) hnot⟩

/-- The second graph has the positions of threads that are long enough. -/
lemma containsPos_of_size {e : Event} (h₁ : g₁.containsPos e)
    (hsize : g₁.getThreadSize e.thread ≤ g₂.getThreadSize e.thread) : g₂.containsPos e :=
  containsPos_iff_lt.mpr ((containsPos_iff_lt.mp h₁).trans_le hsize)

/-- A thread is the same if it is long enough and its labels agree. -/
lemma sameThread_eq_true_iff (hg₁ : WellFormed g₁) (hg₂ : WellFormed g₂) {i : ℕ} :
    g₁.sameThread g₂ i = some true ↔ g₁.getThreadSize i ≤ g₂.getThreadSize i ∧
      ∀ e, e.thread = i → g₁.containsPos e → g₁.Agrees g₂ e := by
  unfold sameThread
  by_cases hsize : g₂.getThreadSize i < g₁.getThreadSize i
  · rw [if_pos hsize]
    exact iff_of_false (by simp) fun h => absurd h.1 (not_le.mpr hsize)
  · rw [if_neg hsize, PartialRun.allM_eq_true_iff, and_iff_right (not_lt.mp hsize)]
    refine forall_congr' fun e => ?_
    rw [mem_positionsIn]
    constructor
    · rintro h rfl he
      have he₂ := containsPos_of_size he (not_lt.mp hsize)
      exact (sameLabel_spec hg₁ hg₂ he he₂).1.mp
        (h ⟨rfl, Nat.zero_le _, containsPos_iff_lt.mp he⟩)
    · rintro h ⟨rfl, -, hlt⟩
      have he := containsPos_iff_lt.mpr hlt
      exact (sameLabel_spec hg₁ hg₂ he (containsPos_of_size he (not_lt.mp hsize))).1.mpr (h rfl he)

/-- The comparison of a thread fails at a read that only has a source in the second graph, behind
labels that agree. -/
lemma sameThread_eq_none_iff (hg₁ : WellFormed g₁) (hg₂ : WellFormed g₂) {i : ℕ} :
    g₁.sameThread g₂ i = none ↔ g₁.getThreadSize i ≤ g₂.getThreadSize i ∧
      ∃ e, e.thread = i ∧ g₁.NullRead g₂ e ∧
        ∀ e', e'.thread = i → g₁.containsPos e' → e'.index < e.index → g₁.Agrees g₂ e' := by
  unfold sameThread
  by_cases hsize : g₂.getThreadSize i < g₁.getThreadSize i
  · rw [if_pos hsize]
    exact iff_of_false (by simp) fun h => absurd h.1 (not_le.mpr hsize)
  rw [if_neg hsize, and_iff_right (not_lt.mp hsize),
    PartialRun.allM_eq_none_iff_of_pairwise Event.index (pairwise_positionsIn _ _ _)]
  have hspec : ∀ e, e.thread = i → g₁.containsPos e →
      (g₁.sameLabel g₂ e = some true ↔ g₁.Agrees g₂ e) ∧
        (g₁.sameLabel g₂ e = none ↔ g₁.NullRead g₂ e) := by
    rintro e rfl he
    exact sameLabel_spec hg₁ hg₂ he (containsPos_of_size he (not_lt.mp hsize))
  have hmem : ∀ e, e ∈ positionsIn i 0 (g₁.getThreadSize i) ↔ e.thread = i ∧ g₁.containsPos e := by
    intro e
    rw [mem_positionsIn, containsPos_iff_lt]
    constructor
    · rintro ⟨rfl, -, hlt⟩
      exact ⟨rfl, hlt⟩
    · rintro ⟨rfl, hlt⟩
      exact ⟨rfl, Nat.zero_le _, hlt⟩
  constructor
  · rintro ⟨e, he, hfail, hbefore⟩
    obtain ⟨ht, he⟩ := (hmem e).mp he
    refine ⟨e, ht, (hspec e ht he).2.mp hfail, fun e' ht' he' hlt => ?_⟩
    exact (hspec e' ht' he').1.mp (hbefore e' ((hmem e').mpr ⟨ht', he'⟩) hlt)
  · rintro ⟨e, ht, hnull, hbefore⟩
    obtain ⟨lab₁, -, hlab₁, -⟩ := hnull.label
    have he : g₁.containsPos e := containsPos_iff.mpr ⟨lab₁, hlab₁⟩
    refine ⟨e, (hmem e).mpr ⟨ht, he⟩, (hspec e ht he).2.mpr hnull, fun e' he' hlt => ?_⟩
    obtain ⟨ht', he'⟩ := (hmem e').mp he'
    exact (hspec e' ht' he').1.mpr (hbefore e' ht' he' hlt)

/-- The code accepts a graph whose labels agree. -/
lemma isPrefixOf_eq_true_iff (hg₁ : WellFormed g₁) (hg₂ : WellFormed g₂) :
    g₁.isPrefixOf g₂ = some true ↔ ∀ e, g₁.containsPos e → g₁.Agrees g₂ e := by
  have hthreads : (∀ e, g₁.containsPos e → g₁.Agrees g₂ e) →
      g₁.getNumThreads ≤ g₂.getNumThreads := by
    intro h
    by_contra hlt
    have hfirst := hg₁.nonempty g₂.getNumThreads (not_le.mp hlt)
    obtain ⟨-, lab₂, -, hlab₂, -⟩ := (h ⟨g₂.getNumThreads, 0⟩ (containsPos_iff_lt.mpr hfirst)).label
    exact lt_irrefl _ (thread_lt_of_getEventLabel hlab₂)
  unfold isPrefixOf
  by_cases hlt : g₂.getNumThreads < g₁.getNumThreads
  · rw [if_pos hlt]
    exact iff_of_false (by simp) fun h => absurd (hthreads h) (not_le.mpr hlt)
  · rw [if_neg hlt, PartialRun.allM_eq_true_iff]
    constructor
    · intro h e he
      obtain ⟨lab₁, hlab₁⟩ := containsPos_iff.mp he
      have hthread := h e.thread (List.mem_range.mpr (thread_lt_of_getEventLabel hlab₁))
      exact ((sameThread_eq_true_iff hg₁ hg₂).mp hthread).2 e rfl he
    · intro h i hi
      refine (sameThread_eq_true_iff hg₁ hg₂).mpr ⟨?_, fun e _ he => h e he⟩
      -- The last label of the thread is in the second graph.
      have hlast : g₁.containsPos ⟨i, g₁.getThreadSize i - 1⟩ := by
        have := hg₁.nonempty i (List.mem_range.mp hi)
        exact containsPos_iff_lt.mpr (by dsimp only; omega)
      obtain ⟨-, lab₂, -, hlab₂, -⟩ := (h _ hlast).label
      have := containsPos_iff_lt.mp (containsPos_iff.mpr ⟨lab₂, hlab₂⟩)
      dsimp only at this
      omega

/-- The code fails on a read that only has a source in the second graph, if it reaches it. -/
lemma isPrefixOf_eq_none_iff (hg₁ : WellFormed g₁) (hg₂ : WellFormed g₂) :
    g₁.isPrefixOf g₂ = none ↔ ∃ e, g₁.Reached g₂ e ∧ g₁.NullRead g₂ e := by
  unfold isPrefixOf
  by_cases hlt : g₂.getNumThreads < g₁.getNumThreads
  · rw [if_pos hlt]
    refine iff_of_false (by simp) ?_
    rintro ⟨e, hreached, -⟩
    exact absurd hreached.threads (not_le.mpr hlt)
  rw [if_neg hlt, PartialRun.allM_eq_none_iff_of_pairwise id List.pairwise_lt_range]
  simp only [id, List.mem_range, sameThread_eq_true_iff hg₁ hg₂, sameThread_eq_none_iff hg₁ hg₂]
  constructor
  · rintro ⟨i, hi, ⟨hsize, e, rfl, hnull, hbefore⟩, hthreads⟩
    refine ⟨e, ⟨not_lt.mp hlt, fun t ht => ?_, fun e' he' hscan => ?_⟩, hnull⟩
    · rcases ht.eq_or_lt with rfl | ht
      · exact hsize
      · exact (hthreads t (ht.trans hi) ht).1
    · rcases hscan with ht | ⟨ht, hlt'⟩
      · exact (hthreads e'.thread (ht.trans hi) ht).2 e' rfl he'
      · exact hbefore e' ht he' hlt'
  · rintro ⟨e, hreached, hnull⟩
    obtain ⟨lab₁, -, hlab₁, -⟩ := hnull.label
    have hthread := thread_lt_of_getEventLabel hlab₁
    refine ⟨e.thread, hthread, ⟨hreached.sizes _ le_rfl, e, rfl, hnull,
      fun e' ht he' hlt' => hreached.agrees e' he' (.inr ⟨ht, hlt'⟩)⟩, fun t _ ht => ?_⟩
    exact ⟨hreached.sizes t ht.le, fun e' ht' he' => hreached.agrees e' he' (.inl (ht' ▸ ht))⟩

/-- **When the prefix test is right.**  For all well-formed graphs, it returns whether the first
graph is a prefix of the second one if and only if it does not reach a read that only has a source
in the second graph; if, where the first graph is a prefix, all its reads have sources and its
immediate predecessors in coherence order are those of the second graph; and if, where all labels
agree, no two locations of writes become one. -/
theorem isPrefixOf_right_iff (hg₁ : WellFormed g₁) (hg₂ : WellFormed g₂) :
    (∃ b, g₁.isPrefixOf g₂ = some b ∧ (b = true ↔ g₁.PrefixOf g₂)) ↔
      (∀ e, g₁.Reached g₂ e → ¬g₁.NullRead g₂ e) ∧
      (g₁.PrefixOf g₂ → (∀ r, g₁.isa LabelBody.isRead r → (g₁.rfOf r).isSome) ∧
        ∀ w p, g₁.isa LabelBody.isWrite w → g₁.coImmPred w = some (some p) →
          g₂.coImmPred w = some (some p)) ∧
      ((∀ e, g₁.containsPos e → g₁.Agrees g₂ e) → ∀ w w', g₁.isa LabelBody.isWrite w →
        g₁.isa LabelBody.isWrite w' → g₂.addrOf w = g₂.addrOf w' → g₁.addrOf w = g₁.addrOf w') := by
  have htrue := isPrefixOf_eq_true_iff hg₁ hg₂
  have hnone := isPrefixOf_eq_none_iff hg₁ hg₂
  constructor
  · rintro ⟨b, hb, hiff⟩
    refine ⟨fun e hreached hnull => ?_, fun hpre => ?_, fun hagrees w w' hw hw' => ?_⟩
    · rw [hnone.mpr ⟨e, hreached, hnull⟩] at hb
      cases hb
    · have hagrees := htrue.mp (hb.trans (congrArg some (hiff.mpr hpre)))
      refine ⟨fun r hr => ?_, fun w p hw => (hagrees w (containsPos_of_isa hw)).pred hw p⟩
      obtain ⟨w, hrf, -⟩ := (hagrees r (containsPos_of_isa hr)).source hr
      rw [hrf]
      rfl
    · rw [htrue.mpr hagrees, Option.some_inj] at hb
      exact (hiff.mp hb.symm).addrOf_eq hg₁ hg₂ hw hw'
  · rintro ⟨hreach, hstrict, haddr⟩
    cases hb : g₁.isPrefixOf g₂ with
    | none =>
      obtain ⟨e, hreached, hnull⟩ := hnone.mp hb
      exact absurd hnull (hreach e hreached)
    | some b =>
      refine ⟨b, rfl, fun h => ?_, fun hpre => ?_⟩
      · have hagrees := htrue.mp (hb.trans (congrArg some h))
        exact prefixOf_of_agrees hg₁ hg₂ hagrees (haddr hagrees)
      · obtain ⟨hreads, hpreds⟩ := hstrict hpre
        have hagrees : ∀ e, g₁.containsPos e → g₁.Agrees g₂ e := by
          intro e he
          obtain ⟨lab₁, hlab₁⟩ := containsPos_iff.mp he
          obtain ⟨lab₂, hlab₂, hkind⟩ := hpre.labels e lab₁ hlab₁
          refine ⟨⟨lab₁, lab₂, hlab₁, hlab₂, hkind⟩, fun hr => ?_, fun hw p => hpreds e p hw⟩
          obtain ⟨w, hw⟩ := Option.isSome_iff_exists.mp (hreads e hr)
          exact ⟨w, hw, (hpre.sources e hr).symm.trans hw⟩
        rw [htrue.mpr hagrees, Option.some_inj] at hb
        exact hb.symm

/-- Every graph is a prefix of itself. -/
lemma PrefixOf.refl (g : ExecutionGraph) : g.PrefixOf g :=
  ⟨fun _ lab hlab => ⟨lab, hlab, rfl⟩, fun _ _ => rfl, fun _ _ _ _ => Iff.rfl⟩

/-- A graph whose reads have sources is compared with itself. -/
theorem criticalSection_isPrefixOf :
    ∃ b, criticalSection.isPrefixOf criticalSection = some b ∧
      (b = true ↔ criticalSection.PrefixOf criticalSection) := by
  have hreads : ∀ r ∈ criticalSection.positions, criticalSection.isa LabelBody.isRead r →
      (criticalSection.rfOf r).isSome := by decide +kernel
  refine (isPrefixOf_right_iff wellFormed_criticalSection wellFormed_criticalSection).mpr
    ⟨fun e _ hnull => ?_, fun _ => ⟨fun r hr => ?_, fun _ _ _ => id⟩, fun _ _ _ _ _ => id⟩
  · have hsource := hnull.source
    rw [hnull.null] at hsource
    exact Bool.false_ne_true hsource
  · exact hreads r (mem_positions.mpr (containsPos_of_isa hr)) hr

/-- A read that has not got a source yet. -/
def pendingRead : ExecutionGraph :=
  (PartialRun.exec Mutation.apply initial
    [.addLabelToGraph { pos := ⟨0, 1⟩, body := .read .read { addr := ⟨8⟩ } none false }]).getD
      initial

/-- The read with a source. -/
def sourcedRead : ExecutionGraph :=
  (PartialRun.exec Mutation.apply initial
    [.addLabelToGraph { pos := ⟨0, 1⟩, body := .read .read { addr := ⟨8⟩ } none false },
      .setRf ⟨0, 1⟩ (some .init)]).getD initial

/-- The graph with the pending read is a prefix of itself, but not for the code, which fails where
the read has a source in the other graph. -/
theorem pendingRead_isPrefixOf :
    WellFormed pendingRead ∧ WellFormed sourcedRead ∧ pendingRead.PrefixOf pendingRead ∧
      pendingRead.isPrefixOf pendingRead = some false ∧
      pendingRead.isPrefixOf sourcedRead = none :=
  ⟨WellFormed.of_check (by decide +kernel), WellFormed.of_check (by decide +kernel),
    PrefixOf.refl _, by decide +kernel, by decide +kernel⟩

end ExecutionGraph

end GenMC
