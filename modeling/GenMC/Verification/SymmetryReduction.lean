import GenMC.ExecutionGraph.IsPrefixOf
import GenMC.ExecutionGraph.ReaderRuns
import GenMC.Lib.ParentChain
import GenMC.Lib.PartialRun

/-!
# Symmetry reduction

A thread may be symmetric to an earlier one.  Of two executions that differ by an exchange of
symmetric threads only one is explored: if an event of a thread comes before the one with the same
index of a thread that it is symmetric to, and the threads agree up to these events, then the
execution is dropped.  The check runs when an event is added, against the threads that its thread is
symmetric to and against those that are symmetric to it.

The second kind of threads is enumerated by a search for the next thread, which finds only the first
of several threads that are symmetric to the same one; and whether two threads agree is decided by
the local writes of only one of them (`symmetryExamined_iff`).
-/

namespace GenMC

/-- An execution graph with the data of its labels that symmetry reduction looks at. -/
structure SymmetricGraph where
  /-- The graph. -/
  graph : ExecutionGraph
  /-- `getSymmetricTid` of the first label of a thread; `none` stands for -1. -/
  symmetricTid : ℕ → Option ℕ
  /-- `WriteLabel::isLocal`. -/
  isLocal : Event → Bool
  /-- Threads are symmetric to earlier ones. -/
  earlier : ∀ t s, symmetricTid t = some s → s < t

namespace SymmetricGraph

open ExecutionGraph

variable (S : SymmetricGraph)

/-! ## Symmetric threads -/

/-- `getSymmPredTid`. -/
def getSymmPredTid (tid : ℕ) : Option ℕ := S.symmetricTid tid

/-- `getSymmSuccTid`. -/
def getSymmSuccTid (tid : ℕ) : Option ℕ :=
  ParentChain.firstChild S.symmetricTid S.graph.getNumThreads tid

/-- The threads `preds` of `isPredSymmetryOK`. -/
def predTids (tid : ℕ) : List ℕ := ParentChain.chain S.getSymmPredTid tid tid

/-- The threads `succs` of `isSuccSymmetryOK`. -/
def succTids (tid : ℕ) : List ℕ :=
  ParentChain.chain S.getSymmSuccTid S.graph.getNumThreads tid

/-! ## Agreement of threads -/

/-- The comparison of the sources of two reads of two threads. -/
def sameSource (tid tid' : ℕ) : Option Event → Option Event → Option Bool
  | none, _ => none
  | some a, none => if a.thread = tid then none else some false
  | some a, some b =>
    some (decide ((a.thread = tid ∧ b.thread = tid' ∧ a.index = b.index) ∨ a = b))

/-- The body of the loop of `calcLargestSymmPrefixBeforeSR`. -/
def sameAt (tid tid' j : ℕ) : Option Bool := do
  let labA ← S.graph.getEventLabel ⟨tid, j⟩
  let labB ← S.graph.getEventLabel ⟨tid', j⟩
  if labA.body.getKind ≠ labB.body.getKind then return false
  if labA.body.isRead then sameSource tid tid' labA.body.rf labB.body.rf
  else if labA.body.isWrite then return S.isLocal ⟨tid, j⟩
  else return true

/-- The loop of `calcLargestSymmPrefixBeforeSR`, with the number of rounds. -/
def prefixFrom (tid tid' : ℕ) (limit : ℤ) : ℕ → ℕ → Option ℤ
  | 0, _ => some limit
  | rounds + 1, j => do
    if ← S.sameAt tid tid' j then prefixFrom tid tid' limit rounds (j + 1) else return j - 1

/-- `calcLargestSymmPrefixBeforeSR`. -/
def calcLargestSymmPrefixBeforeSR (tid : ℕ) (pos : Event) : Option ℤ :=
  if S.graph.getNumThreads ≤ tid then some (-1)
  else
    let limit := min (pos.index : ℤ) ((S.graph.getThreadSize tid : ℤ) - 1)
    S.prefixFrom tid pos.thread limit limit.toNat 0

/-- `sharePrefixSR`. -/
def sharePrefixSR (tid : ℕ) (pos : Event) : Option Bool :=
  (S.calcLargestSymmPrefixBeforeSR tid pos).map fun j => decide (j = (pos.index : ℤ))

/-! ## The check -/

/-- The elements after one of a list, which must be one of it. -/
def after (x : Event) : List Event → Option (List Event)
  | [] => none
  | y :: l => if y = x then some l else after x l

/-- `co_succ_begin … co_succ_end`; empty for other labels than writes. -/
def coSuccs (pos : Event) : Option (List Event) :=
  if S.graph.isa LabelBody.isWrite pos then do
    let a ← S.graph.addrOf pos
    after pos (← S.graph.coherence.find? a)
  else some []

/-- `fr_succ_begin … fr_succ_end`; empty for other labels than reads. -/
def frSuccs (pos : Event) : Option (List Event) :=
  if S.graph.isa LabelBody.isRead pos then do
    let w ← S.graph.rfOf pos
    if S.graph.isa LabelBody.isWrite w then S.coSuccs w
    else S.graph.coherence.find? (← S.graph.addrOf pos)
  else some []

/-- `isEcoBefore`. -/
def isEcoBefore (pos : Event) (tid : ℕ) : Option Bool :=
  if S.graph.isa LabelBody.isAccess pos then do
    let symmPos : Event := ⟨tid, pos.index⟩
    let isBefore : Event → Bool := fun s => s = symmPos || symmPos ∈ S.graph.readersOf s
    let coSuccs ← S.coSuccs pos
    if coSuccs.any isBefore then return true
    let frSuccs ← S.frSuccs pos
    return frSuccs.any isBefore
  else some false

/-- What `isPredSymmetryOK` and `isSuccSymmetryOK` have in common: the threads of a label and of the
one with the same index of another thread must agree, and then the event of the thread that is
symmetric to the other one must not come first. -/
def isPairOK (pos : Event) (symm : ℕ) (later : Event) (earlier : ℕ) : Option Bool := do
  let share ← S.sharePrefixSR symm pos
  if !share || !S.graph.containsPos ⟨symm, pos.index⟩ then return true
  let symmLab ← S.graph.getEventLabel ⟨symm, pos.index⟩
  let lab ← S.graph.getEventLabel pos
  if symmLab.body.getKind ≠ lab.body.getKind then return true
  return !(← S.isEcoBefore later earlier)

/-- `isPredSymmetryOK`, for one thread. -/
def isPredSymmetryOKWith (pos : Event) (symm : ℕ) : Option Bool := S.isPairOK pos symm pos symm

/-- `isSuccSymmetryOK`, for one thread. -/
def isSuccSymmetryOKWith (pos : Event) (symm : ℕ) : Option Bool :=
  S.isPairOK pos symm ⟨symm, pos.index⟩ pos.thread

/-- `isPredSymmetryOK`. -/
def isPredSymmetryOK (pos : Event) : Option Bool :=
  (S.predTids pos.thread).allM (S.isPredSymmetryOKWith pos)

/-- `isSuccSymmetryOK`. -/
def isSuccSymmetryOK (pos : Event) : Option Bool :=
  (S.succTids pos.thread).allM (S.isSuccSymmetryOKWith pos)

/-- `isSymmetryOK`. -/
def isSymmetryOK (pos : Event) : Option Bool := do
  if ← S.isPredSymmetryOK pos then S.isSuccSymmetryOK pos else return false

/-! ## Which threads are examined -/

variable {S}

/-- A thread is symmetric to an earlier one, directly or through others. -/
def Symmetric (S : SymmetricGraph) (t s : ℕ) : Prop :=
  Relation.TransGen (ParentChain.Next S.symmetricTid) t s

/-- A thread is looked at from a later one whenever it is symmetric to it. -/
lemma mem_predTids_iff {t s : ℕ} : s ∈ S.predTids t ↔ S.Symmetric t s :=
  ParentChain.mem_chain_iff id S.earlier le_rfl

variable (S) in
/-- Of the threads on the way between two symmetric threads, each is the first one that is symmetric
to the next. -/
def FirstOnTheWay (t s : ℕ) : Prop :=
  ∀ u, Relation.ReflTransGen (ParentChain.Next S.symmetricTid) t u → S.Symmetric u s →
    ParentChain.IsFirst S.symmetricTid u

/-- A thread is looked at from an earlier one under this condition only. -/
lemma mem_succTids_iff {t s : ℕ} (ht : t < S.graph.getNumThreads) (h : S.Symmetric t s) :
    t ∈ S.succTids s ↔ S.FirstOnTheWay t s := by
  have hdecreases (t u : ℕ) (hu : S.getSymmSuccTid t = some u) :
      S.graph.getNumThreads - u < S.graph.getNumThreads - t := by
    obtain ⟨hun, hut, -⟩ := (ParentChain.firstChild_eq_some_iff S.earlier).mp hu
    have := S.earlier u t hut
    omega
  rw [succTids, ParentChain.mem_chain_iff (fun u => S.graph.getNumThreads - u) hdecreases
    (Nat.sub_le _ _)]
  exact ParentChain.transGen_firstChild_iff S.earlier ht h

/-! ## The verdicts -/

variable (S) in
/-- Two labels at the same index of two threads have the same kind, and reads the same source, up to
the exchange of the threads. -/
def Similar (t s j : ℕ) : Prop :=
  ∃ labA labB, S.graph.getEventLabel ⟨t, j⟩ = some labA ∧
    S.graph.getEventLabel ⟨s, j⟩ = some labB ∧ labA.body.getKind = labB.body.getKind ∧
      (labA.body.isRead = true → ∃ a b, labA.body.rf = some a ∧ labB.body.rf = some b ∧
        ((a.thread = t ∧ b.thread = s ∧ a.index = b.index) ∨ a = b))

lemma Similar.symm {t s j : ℕ} (h : S.Similar t s j) : S.Similar s t j := by
  obtain ⟨labA, labB, hA, hB, hkind, hread⟩ := h
  refine ⟨labB, labA, hB, hA, hkind.symm, fun hBread => ?_⟩
  have hAread : labA.body.isRead = true := (LabelBody.isRead_of_getKind hkind).trans hBread
  obtain ⟨a, b, ha, hb, hab⟩ := hread hAread
  refine ⟨b, a, hb, ha, hab.imp ?_ Eq.symm⟩
  rintro ⟨hat, hbs, hindex⟩
  exact ⟨hbs, hat, hindex.symm⟩

variable (S) in
/-- The writes of a thread before an index are local. -/
def WritesLocal (t idx : ℕ) : Prop :=
  ∀ j < idx, S.graph.isa LabelBody.isWrite ⟨t, j⟩ = true → S.isLocal ⟨t, j⟩ = true

variable (S) in
/-- Reads have sources. -/
def Sourced : Prop :=
  ∀ e lab, S.graph.getEventLabel e = some lab → lab.body.isRead = true → ∃ w, lab.body.rf = some w

/-- What the loop compares, if there are labels. -/
lemma sameAt_spec (hsource : S.Sourced) {t s j : ℕ} (ht : S.graph.containsPos ⟨t, j⟩ = true)
    (hs : S.graph.containsPos ⟨s, j⟩ = true) :
    ∃ b, S.sameAt t s j = some b ∧ (b = true ↔ S.Similar t s j ∧
      (S.graph.isa LabelBody.isWrite ⟨t, j⟩ = true → S.isLocal ⟨t, j⟩ = true)) := by
  obtain ⟨labA, hA⟩ := Option.isSome_iff_exists.mp ht
  obtain ⟨labB, hB⟩ := Option.isSome_iff_exists.mp hs
  have hwrite : S.graph.isa LabelBody.isWrite ⟨t, j⟩ = labA.body.isWrite := by
    rw [ExecutionGraph.isa, hA, Option.any_some]
  have hsimilar : S.Similar t s j ↔ labA.body.getKind = labB.body.getKind ∧
      (labA.body.isRead = true → ∃ a b, labA.body.rf = some a ∧ labB.body.rf = some b ∧
        ((a.thread = t ∧ b.thread = s ∧ a.index = b.index) ∨ a = b)) := by
    constructor
    · rintro ⟨labA', labB', hA', hB', h⟩
      obtain rfl := Option.some.inj (hA.symm.trans hA')
      obtain rfl := Option.some.inj (hB.symm.trans hB')
      exact h
    · exact fun h => ⟨labA, labB, hA, hB, h⟩
  rw [hwrite, hsimilar, sameAt, hA, hB]
  simp only [Option.bind_eq_bind, Option.bind_some, Option.pure_def]
  by_cases hkind : labA.body.getKind = labB.body.getKind
  swap
  · exact ⟨false, by simp [hkind], by simp [hkind]⟩
  by_cases hread : labA.body.isRead = true
  · have hreadB : labB.body.isRead = true := (LabelBody.isRead_of_getKind hkind).symm.trans hread
    obtain ⟨a, ha⟩ := hsource _ labA hA hread
    obtain ⟨b, hb⟩ := hsource _ labB hB hreadB
    have hnwrite := LabelBody.isWrite_of_isRead hread
    refine ⟨decide ((a.thread = t ∧ b.thread = s ∧ a.index = b.index) ∨ a = b), ?_, ?_⟩
    · simp [hkind, hread, ha, hb, sameSource]
    · simp [hkind, hread, ha, hb, hnwrite]
  · refine ⟨if labA.body.isWrite then S.isLocal ⟨t, j⟩ else true, ?_, ?_⟩
    · cases hw : labA.body.isWrite <;> simp [hkind, hread]
    · cases hw : labA.body.isWrite <;> simp [hkind, hread]

/-- The loop goes through if all comparisons succeed, and else it ends below the limit. -/
lemma prefixFrom_spec {t s : ℕ} {limit : ℤ} {rounds j : ℕ}
    (hsome : ∀ k, j ≤ k → k < j + rounds → ∃ b, S.sameAt t s k = some b)
    (hlimit : limit = j + rounds) :
    ∃ r, S.prefixFrom t s limit rounds j = some r ∧
      (r = limit ↔ ∀ k, j ≤ k → k < j + rounds → S.sameAt t s k = some true) := by
  induction rounds generalizing j with
  | zero => exact ⟨limit, rfl, iff_of_true rfl fun k hk hk' => by omega⟩
  | succ rounds ih =>
    obtain ⟨b, hb⟩ := hsome j le_rfl (by omega)
    rw [prefixFrom, hb]
    cases b with
    | false =>
      refine ⟨j - 1, rfl, iff_of_false (by omega) fun h => ?_⟩
      cases hb.symm.trans (h j le_rfl (by omega))
    | true =>
      obtain ⟨r, hr, hiff⟩ := ih (j := j + 1) (fun k hk hk' => hsome k (by omega) (by omega))
        (by push_cast at hlimit ⊢; omega)
      refine ⟨r, hr, hiff.trans ⟨fun h k hk hk' => ?_, fun h k hk hk' => ?_⟩⟩
      · rcases Nat.eq_or_lt_of_le hk with rfl | hlt
        · exact hb
        · exact h k hlt (by omega)
      · exact h k (by omega) (by omega)

lemma containsPos_of_le {t i j : ℕ} (h : S.graph.containsPos ⟨t, j⟩ = true) (hij : i ≤ j) :
    S.graph.containsPos ⟨t, i⟩ = true := by
  obtain ⟨lab, hlab⟩ := Option.isSome_iff_exists.mp h
  obtain ⟨hlt, -⟩ := List.getElem?_eq_some_iff.mp hlab
  exact Option.isSome_iff_exists.mpr ⟨_, List.getElem?_eq_getElem (lt_of_le_of_lt hij hlt)⟩

/-- Two threads agree before an index if their labels are similar and the writes of the thread that
the test is given are local. -/
lemma sharePrefixSR_spec (hsource : S.Sourced) {t s idx : ℕ}
    (ht : S.graph.containsPos ⟨t, idx⟩ = true) (hs : S.graph.containsPos ⟨s, idx⟩ = true) :
    ∃ b, S.sharePrefixSR t ⟨s, idx⟩ = some b ∧
      (b = true ↔ (∀ j < idx, S.Similar t s j) ∧ S.WritesLocal t idx) := by
  obtain ⟨lab, hlab⟩ := Option.isSome_iff_exists.mp ht
  obtain ⟨hlt, -⟩ := List.getElem?_eq_some_iff.mp hlab
  have hthread : ¬S.graph.getNumThreads ≤ t := fun hle => by
    rw [List.getD_eq_default _ _ hle] at hlt
    exact absurd hlt (Nat.not_lt_zero _)
  have hlimit : min (idx : ℤ) ((S.graph.getThreadSize t : ℤ) - 1) = idx := by
    have : idx < S.graph.getThreadSize t := hlt
    omega
  have hsame {k : ℕ} (hk : k < idx) := sameAt_spec hsource (containsPos_of_le ht hk.le)
    (containsPos_of_le hs hk.le)
  have hsome : ∀ k, 0 ≤ k → k < 0 + idx → ∃ b, S.sameAt t s k = some b := fun k _ hk => by
    obtain ⟨b, hb, -⟩ := hsame (by omega : k < idx)
    exact ⟨b, hb⟩
  obtain ⟨r, hr, hiff⟩ : ∃ r, S.prefixFrom t s idx idx 0 = some r ∧
      (r = (idx : ℤ) ↔ ∀ k, 0 ≤ k → k < 0 + idx → S.sameAt t s k = some true) :=
    prefixFrom_spec hsome (by simp)
  refine ⟨decide (r = (idx : ℤ)), ?_, ?_⟩
  · rw [sharePrefixSR, calcLargestSymmPrefixBeforeSR, if_neg hthread, hlimit]
    simp only [Int.toNat_natCast, hr, Option.map_some]
  · rw [decide_eq_true_iff, hiff]
    have htrue {k : ℕ} (hk : k < idx) : S.sameAt t s k = some true ↔ S.Similar t s k ∧
        (S.graph.isa LabelBody.isWrite ⟨t, k⟩ = true → S.isLocal ⟨t, k⟩ = true) := by
      obtain ⟨b, hb, hiff⟩ := hsame hk
      rw [hb, Option.some.injEq, hiff]
    constructor
    · intro h
      have h' := fun k hk => (htrue hk).mp (h k (Nat.zero_le k) (by omega))
      exact ⟨fun k hk => (h' k hk).1, fun k hk => (h' k hk).2⟩
    · rintro ⟨hsimilar, hlocal⟩ k - hk
      have hk : k < idx := by omega
      exact (htrue hk).mpr ⟨hsimilar k hk, hlocal k hk⟩

variable (S) in
/-- Two positions have labels of the same kind. -/
def SameKind (e e' : Event) : Prop :=
  (S.graph.getEventLabel e).map (·.body.getKind) = (S.graph.getEventLabel e').map (·.body.getKind)

/-- The verdict about two events, by the agreement of their threads. -/
lemma isPairOK_spec (hsource : S.Sourced) {t s idx : ℕ}
    (ht : S.graph.containsPos ⟨t, idx⟩ = true) (hs : S.graph.containsPos ⟨s, idx⟩ = true)
    (later : Event) (earlier : ℕ) :
    ∃ b : Bool, (b = true ↔ ((∀ j < idx, S.Similar t s j) ∧ S.WritesLocal t idx) ∧
        S.SameKind ⟨t, idx⟩ ⟨s, idx⟩) ∧
      S.isPairOK ⟨s, idx⟩ t later earlier =
        if b then (S.isEcoBefore later earlier).map (!·) else some true := by
  obtain ⟨share, hshare, hiff⟩ := sharePrefixSR_spec hsource ht hs
  obtain ⟨labA, hA⟩ := Option.isSome_iff_exists.mp ht
  obtain ⟨labB, hB⟩ := Option.isSome_iff_exists.mp hs
  have hkind : S.SameKind ⟨t, idx⟩ ⟨s, idx⟩ ↔ labA.body.getKind = labB.body.getKind := by
    rw [SameKind, hA, hB]
    exact Option.some_inj
  refine ⟨share && decide (labA.body.getKind = labB.body.getKind), ?_, ?_⟩
  · rw [Bool.and_eq_true, hiff, decide_eq_true_iff, hkind]
  · rw [isPairOK, hshare, ht, hA, hB]
    simp only [Option.bind_eq_bind, Option.bind_some, Option.pure_def]
    cases share with
    | false => rfl
    | true =>
      by_cases h : labA.body.getKind = labB.body.getKind
      · cases S.isEcoBefore later earlier <;> simp [h]
      · simp [h]

variable (S) in
/-- Two threads agree about their local writes, where it matters: if they agree otherwise, the two
events are of one kind, and the one of the later thread may come first. -/
def LocalWritesAgree (t s idx : ℕ) : Prop :=
  (∀ j < idx, S.Similar t s j) → S.SameKind ⟨t, idx⟩ ⟨s, idx⟩ →
    S.isEcoBefore ⟨s, idx⟩ t ≠ some false → (S.WritesLocal t idx ↔ S.WritesLocal s idx)

lemma verdicts_eq_iff (hsource : S.Sourced) {t s idx : ℕ}
    (ht : S.graph.containsPos ⟨t, idx⟩ = true) (hs : S.graph.containsPos ⟨s, idx⟩ = true) :
    S.isPredSymmetryOKWith ⟨s, idx⟩ t = S.isSuccSymmetryOKWith ⟨t, idx⟩ s ↔
      S.LocalWritesAgree t s idx := by
  obtain ⟨b, hb, hpred⟩ := isPairOK_spec hsource ht hs ⟨s, idx⟩ t
  obtain ⟨b', hb', hsucc⟩ := isPairOK_spec hsource hs ht ⟨s, idx⟩ t
  have hsimilar : (∀ j < idx, S.Similar s t j) ↔ ∀ j < idx, S.Similar t s j :=
    forall₂_congr fun _ _ => ⟨Similar.symm, Similar.symm⟩
  have hkind : S.SameKind ⟨s, idx⟩ ⟨t, idx⟩ ↔ S.SameKind ⟨t, idx⟩ ⟨s, idx⟩ := eq_comm
  rw [hsimilar, hkind] at hb'
  rw [isPredSymmetryOKWith, isSuccSymmetryOKWith, hpred, hsucc]
  by_cases hagree : (∀ j < idx, S.Similar t s j) ∧ S.SameKind ⟨t, idx⟩ ⟨s, idx⟩
  swap
  · have hfalse : b = false := Bool.eq_false_of_not_eq_true fun h =>
      hagree ⟨(hb.mp h).1.1, (hb.mp h).2⟩
    have hfalse' : b' = false := Bool.eq_false_of_not_eq_true fun h =>
      hagree ⟨(hb'.mp h).1.1, (hb'.mp h).2⟩
    rw [hfalse, hfalse']
    exact iff_of_true rfl fun hs hk _ => absurd ⟨hs, hk⟩ hagree
  · have hlocal : b = true ↔ S.WritesLocal t idx :=
      hb.trans ⟨fun h => h.1.2, fun h => ⟨⟨hagree.1, h⟩, hagree.2⟩⟩
    have hlocal' : b' = true ↔ S.WritesLocal s idx :=
      hb'.trans ⟨fun h => h.1.2, fun h => ⟨⟨hagree.1, h⟩, hagree.2⟩⟩
    have hiff : S.LocalWritesAgree t s idx ↔
        (S.isEcoBefore ⟨s, idx⟩ t ≠ some false → (b = true ↔ b' = true)) := by
      rw [hlocal, hlocal']
      exact ⟨fun h => h hagree.1 hagree.2, fun h _ _ => h⟩
    rw [hiff]
    cases heco : S.isEcoBefore ⟨s, idx⟩ t with
    | none => cases b <;> cases b' <;> simp
    | some eco => cases eco <;> cases b <;> cases b' <;> simp

/-- **When the check does not depend on the thread that moved last.**  Two events with the same
index of symmetric threads are examined from both sides with the same verdict if and only if on the
way between the threads each is the first one that is symmetric to the next, and the threads agree
about their local writes. -/
theorem symmetryExamined_iff (S : SymmetricGraph) (hsource : S.Sourced) {t₁ t₂ idx : ℕ}
    (h : S.Symmetric t₂ t₁) (h₁ : S.graph.containsPos ⟨t₁, idx⟩ = true)
    (h₂ : S.graph.containsPos ⟨t₂, idx⟩ = true) :
    (t₁ ∈ S.predTids t₂ ∧ t₂ ∈ S.succTids t₁ ∧
        S.isPredSymmetryOKWith ⟨t₂, idx⟩ t₁ = S.isSuccSymmetryOKWith ⟨t₁, idx⟩ t₂) ↔
      S.FirstOnTheWay t₂ t₁ ∧ S.LocalWritesAgree t₁ t₂ idx := by
  have hthread : t₂ < S.graph.getNumThreads := by
    obtain ⟨lab, hlab⟩ := Option.isSome_iff_exists.mp h₂
    obtain ⟨hlt, -⟩ := List.getElem?_eq_some_iff.mp hlab
    by_contra hle
    rw [List.getD_eq_default _ _ (Nat.le_of_not_lt hle)] at hlt
    exact absurd hlt (Nat.not_lt_zero _)
  rw [mem_succTids_iff hthread h, verdicts_eq_iff hsource h₁ h₂]
  exact and_iff_right (mem_predTids_iff.mpr h)

/-- Three threads that write to a location; the last two are symmetric to the first of them, the
write of which is between theirs in coherence order. -/
def threeWriters : SymmetricGraph where
  graph := (PartialRun.exec Mutation.apply initial
    ((createdWriter 1 .init ++ createdWriter 2 ⟨1, 1⟩) ++ [
      .addNewThread, .addLabelToGraph { pos := ⟨0, 3⟩, body := .plain (.threadCreate 3) },
      .addLabelToGraph { pos := ⟨3, 0⟩, body := .threadStart ⟨0, 3⟩ },
      .addLabelToGraph { pos := ⟨3, 1⟩, body := .write .write { addr := ⟨8⟩ } [] },
      .addStoreToCOBefore ⟨3, 1⟩ ⟨1, 1⟩])).getD initial
  symmetricTid t := if t = 2 ∨ t = 3 then some 1 else none
  isLocal _ := false
  earlier t s h := by
    split at h
    · obtain rfl := Option.some.inj h
      omega
    · cases h
where
  /-- A thread is created and writes to the location after another write. -/
  createdWriter (t : ℕ) (pred : Event) : List Mutation :=
    [.addNewThread, .addLabelToGraph { pos := ⟨0, t⟩, body := .plain (.threadCreate t) },
      .addLabelToGraph { pos := ⟨t, 0⟩, body := .threadStart ⟨0, t⟩ },
      .addLabelToGraph { pos := ⟨t, 1⟩, body := .write .write { addr := ⟨8⟩ } [] },
      .addStoreToCOAfter ⟨t, 1⟩ pred]

/-- The first two threads are examined from both sides. -/
theorem threeWriters_examined :
    threeWriters.FirstOnTheWay 2 1 ∧ threeWriters.LocalWritesAgree 1 2 1 := by
  have hreads : ∀ thr ∈ threeWriters.graph.events, ∀ lab ∈ thr, lab.body.isRead = false := by
    decide +kernel
  have hsymm : threeWriters.Symmetric 2 1 := .single rfl
  have h₁ : threeWriters.graph.containsPos ⟨1, 1⟩ = true := by decide +kernel
  have h₂ : threeWriters.graph.containsPos ⟨2, 1⟩ = true := by decide +kernel
  refine (symmetryExamined_iff threeWriters ?_ hsymm h₁ h₂).mp
    ⟨by decide +kernel, by decide +kernel, by decide +kernel⟩
  intro e lab hlab hread
  have hlab := List.mem_of_getElem? hlab
  by_cases hthread : e.thread < threeWriters.graph.events.length
  · rw [List.getD_eq_getElem _ _ hthread] at hlab
    cases hread.symm.trans (hreads _ (List.getElem_mem hthread) lab hlab)
  · rw [List.getD_eq_default _ _ (Nat.le_of_not_lt hthread)] at hlab
    cases hlab

/-- The write of the third thread comes before that of the first one.  If it is added last, the
graph is dropped, and if that of the first thread is added last, the graph is kept. -/
theorem threeWriters_not_examined :
    threeWriters.Symmetric 3 1 ∧ 3 ∉ threeWriters.succTids 1 ∧
      threeWriters.isSymmetryOK ⟨3, 1⟩ = some false ∧
        threeWriters.isSymmetryOK ⟨1, 1⟩ = some true :=
  ⟨.single rfl, by decide +kernel, by decide +kernel, by decide +kernel⟩

end SymmetricGraph

end GenMC
