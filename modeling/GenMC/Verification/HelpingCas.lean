import GenMC.ExecutionGraph.PendingRMW
import GenMC.Runtime.AtomicRMW

/-!
# Helping compare-and-swaps

When a helping compare-and-swap is added, the stores before the helped ones that match it have to be
visible to it.  `writesBeforeHelpedContainedInView` compares them with any view
(`writesBeforeHelped_iff`), but `checkHelpingCasCondition` passes the view of the helped one itself,
so that it never reports anything (`checkHelpingCasCondition_iff`).
-/

namespace GenMC

/-- What a helped and a helping compare-and-swap have in common besides the address. -/
structure CasFields where
  size : ℕ
  type : AType
  ordering : AtomicOrdering
  expected : SVal
  swapVal : SVal
deriving DecidableEq

/-- `HelpingCasLabel`. -/
structure HelpingCasLabel where
  pos : Event
  addr : SAddr
  cas : CasFields
deriving DecidableEq

/-- The error that `checkHelpingCasCondition` reports: "Not all stores before helped-CAS are visible
to helping-CAS!". -/
inductive HelpingCasError
  | notVisible
deriving DecidableEq

/-- `isa<HelpedCasReadLabel>`. -/
def LabelBody.isHelpedCasRead : LabelBody → Bool
  | read .helpedCasRead _ _ _ => true
  | _ => false

namespace ExecutionGraph

variable (g : ExecutionGraph) (cas : Event → CasFields) (hbView : Event → View)

/-! ## The code -/

/-- The inner loop of `writesBeforeHelpedContainedInView`: the index of the last write of a thread
up to an index, or 0. -/
def lastWriteUpTo (i : ℕ) : ℕ → Option ℕ
  | 0 => (g.getEventLabel ⟨i, 0⟩).map fun _ => 0
  | j + 1 => do
    let lab ← g.getEventLabel ⟨i, j + 1⟩
    if lab.body.isWrite then return j + 1 else lastWriteUpTo i j

/-- The loop of `writesBeforeHelpedContainedInView` over the threads of a view. -/
def writesContained (hb view : View) : List ℕ → Option Bool
  | [] => some true
  | i :: is => do
    let j ← g.lastWriteUpTo i (hb.getMax i)
    if 0 < j ∧ view.contains ⟨i, j⟩ = false then return false else writesContained hb view is

/-- `GenMCDriver::writesBeforeHelpedContainedInView`. -/
def writesBeforeHelpedContainedInView (lab : Event) (view : View) : Option Bool :=
  g.writesContained (hbView lab) view (List.range (hbView lab).size)

/-- The filter of `checkHelpingCasCondition`: a helped compare-and-swap that succeeds and matches
the helping one. -/
def matchesHelping (hLab : HelpingCasLabel) (r : Event) : Bool :=
  g.isa LabelBody.isHelpedCasRead r && g.isRMW r && decide (g.addrOf r = some hLab.addr) &&
    decide ((cas r).type = hLab.cas.type) && decide ((cas r).size = hLab.cas.size) &&
    decide ((cas r).ordering = hLab.cas.ordering) &&
    decide ((cas r).expected = hLab.cas.expected) && decide ((cas r).swapVal = hLab.cas.swapVal)

/-- The test of `checkHelpingCasCondition` on the helped compare-and-swaps: whether one of them has
a store before it that is not contained in its view.  The parameter hides the helping one, so that
the view is that of the helped one. -/
def anyNotContained : List Event → Option Bool
  | [] => some false
  | hLab :: labs => do
    let view := hbView hLab
    if ← g.writesBeforeHelpedContainedInView hbView hLab view then anyNotContained labs
    else return true

/-- `GenMCDriver::checkHelpingCasCondition`. -/
def checkHelpingCasCondition (hLab : HelpingCasLabel) : Option (Except HelpingCasError Bool) := do
  let hsView := g.insertionOrder.filter (g.matchesHelping cas hLab)
  if ← g.anyNotContained hbView hsView then return .error .notVisible
  else return .ok (!hsView.isEmpty)

/-! ## What it should report -/

/-- The views of the helped compare-and-swaps that match have labels of the graph. -/
def ViewsWithin (hLab : HelpingCasLabel) : Prop :=
  ∀ r, g.containsPos r → g.matchesHelping cas hLab r → ∀ i < (hbView r).size,
    g.containsPos ⟨i, (hbView r).getMax i⟩

/-- Some store that happens before a helped compare-and-swap that matches is not in the view of the
helping one. -/
def HelpingMisses (hLab : HelpingCasLabel) : Prop :=
  ∃ r, g.containsPos r ∧ g.matchesHelping cas hLab r ∧
    ∃ w, g.isa LabelBody.isWrite w ∧ (hbView r).contains w ∧ (hbView hLab.pos).contains w = false

variable {g cas hbView}

/-- The inner loop finds the last write. -/
lemma lastWriteUpTo_spec {i j : ℕ} (h : g.containsPos ⟨i, j⟩) :
    ∃ k, g.lastWriteUpTo i j = some k ∧ k ≤ j ∧ (0 < k → g.isa LabelBody.isWrite ⟨i, k⟩) ∧
      ∀ n, 0 < n → n ≤ j → g.isa LabelBody.isWrite ⟨i, n⟩ → n ≤ k := by
  induction j with
  | zero =>
    obtain ⟨lab, hlab⟩ := containsPos_iff.mp h
    refine ⟨0, ?_, le_rfl, fun h => absurd h (lt_irrefl 0), fun n _ hn _ => hn⟩
    rw [lastWriteUpTo, hlab]
    rfl
  | succ j ih =>
    obtain ⟨lab, hlab⟩ := containsPos_iff.mp h
    rw [lastWriteUpTo, hlab, Option.bind_eq_bind, Option.bind_some]
    by_cases hw : lab.body.isWrite
    · rw [if_pos hw]
      refine ⟨j + 1, rfl, le_rfl, fun _ => ?_, fun n _ hn _ => hn⟩
      rw [isa_of_getEventLabel hlab]
      exact hw
    · rw [if_neg hw]
      have hj : g.containsPos ⟨i, j⟩ :=
        containsPos_iff_lt.mpr (Nat.lt_of_succ_lt (containsPos_iff_lt.mp h))
      obtain ⟨k, hk, hle, hwrite, hlast⟩ := ih hj
      refine ⟨k, hk, hle.trans (Nat.le_succ j), hwrite, fun n hpos hn hnw => ?_⟩
      refine hlast n hpos (Nat.lt_succ_iff.mp (lt_of_le_of_ne hn ?_)) hnw
      rintro rfl
      rw [isa_of_getEventLabel hlab] at hnw
      exact hw hnw

/-- One thread of the loop. -/
lemma writesContained_spec {hb view : View} {is : List ℕ}
    (h : ∀ i ∈ is, g.containsPos ⟨i, hb.getMax i⟩) :
    ∃ b, g.writesContained hb view is = some b ∧
      (b = true ↔ ∀ i ∈ is, ∀ n, 0 < n → n ≤ hb.getMax i → g.isa LabelBody.isWrite ⟨i, n⟩ →
        view.contains ⟨i, n⟩) := by
  induction is with
  | nil => exact ⟨true, rfl, by simp⟩
  | cons i is ih =>
    obtain ⟨k, hk, hle, hwrite, hlast⟩ := lastWriteUpTo_spec (h i List.mem_cons_self)
    obtain ⟨b, hb', hiff⟩ := ih fun i hi => h i (List.mem_cons_of_mem _ hi)
    rw [writesContained, hk, Option.bind_eq_bind, Option.bind_some]
    by_cases hmiss : 0 < k ∧ view.contains ⟨i, k⟩ = false
    · rw [if_pos hmiss]
      refine ⟨false, rfl, iff_of_false Bool.false_ne_true fun hall => ?_⟩
      have := hall i List.mem_cons_self k hmiss.1 hle (hwrite hmiss.1)
      rw [hmiss.2] at this
      exact Bool.false_ne_true this
    · rw [if_neg hmiss]
      refine ⟨b, hb', ?_⟩
      rw [hiff, List.forall_mem_cons, and_iff_right]
      intro n hpos hn hnw
      -- A view that contains the last write contains those before it.
      have hnk := hlast n hpos hn hnw
      rw [not_and, Bool.not_eq_false] at hmiss
      have hcontains := hmiss (hpos.trans_le hnk)
      unfold View.contains at hcontains ⊢
      exact decide_eq_true (hnk.trans (of_decide_eq_true hcontains))

/-- Which stores the loop compares with the view. -/
lemma writesBeforeHelped_iff (hg : WellFormed g) {r : Event} {view : View}
    (h : ∀ i < (hbView r).size, g.containsPos ⟨i, (hbView r).getMax i⟩) :
    ∃ b, g.writesBeforeHelpedContainedInView hbView r view = some b ∧
      (b = true ↔ ∀ w, g.isa LabelBody.isWrite w → (hbView r).contains w → view.contains w) := by
  have hrange : ∀ i ∈ List.range (hbView r).size, g.containsPos ⟨i, (hbView r).getMax i⟩ :=
    fun i hi => h i (List.mem_range.mp hi)
  obtain ⟨b, hb, hiff⟩ : ∃ b, g.writesBeforeHelpedContainedInView hbView r view = some b ∧ _ :=
    writesContained_spec hrange
  refine ⟨b, hb, hiff.trans ⟨fun hall w hw hc => ?_, fun hall i _ n _ hn hnw => ?_⟩⟩
  · have hle := of_decide_eq_true hc
    have hpos : 0 < w.index := hg.index_pos hw fun b hb => LabelBody.isThreadStart_eq_false hb
    refine hall w.thread (List.mem_range.mpr ?_) w.index hpos hle hw
    by_contra hsize
    rw [View.getMax_eq_zero_of_size_le (not_lt.mp hsize)] at hle
    omega
  · exact hall ⟨i, n⟩ hnw (decide_eq_true hn)

/-- No store before a helped compare-and-swap is missing in its own view. -/
lemma anyNotContained_eq (hg : WellFormed g) {labs : List Event}
    (h : ∀ r ∈ labs, ∀ i < (hbView r).size, g.containsPos ⟨i, (hbView r).getMax i⟩) :
    g.anyNotContained hbView labs = some false := by
  induction labs with
  | nil => rfl
  | cons r labs ih =>
    obtain ⟨b, hb, hiff⟩ : ∃ b, g.writesBeforeHelpedContainedInView hbView r (hbView r) = some b ∧
        _ := writesBeforeHelped_iff hg (h r List.mem_cons_self)
    rw [anyNotContained, hb, hiff.mpr fun w _ hc => hc]
    exact ih fun r hr => h r (List.mem_cons_of_mem _ hr)

/-- **When the condition of helping compare-and-swaps is checked.**  The check succeeds always, so
that it reports the stores that are not visible if and only if there are none: every store before a
helped compare-and-swap that matches is in the view of the helping one. -/
theorem checkHelpingCasCondition_iff (hg : WellFormed g) {hLab : HelpingCasLabel}
    (hviews : g.ViewsWithin cas hbView hLab) :
    (∃ b, g.checkHelpingCasCondition cas hbView hLab = some (.ok b)) ∧
      ((g.checkHelpingCasCondition cas hbView hLab = some (.error .notVisible) ↔
          g.HelpingMisses cas hbView hLab) ↔
        ∀ r, g.containsPos r → g.matchesHelping cas hLab r → ∀ w, g.isa LabelBody.isWrite w →
          (hbView r).contains w → (hbView hLab.pos).contains w) := by
  have hok : g.checkHelpingCasCondition cas hbView hLab =
      some (.ok (!(g.insertionOrder.filter (g.matchesHelping cas hLab)).isEmpty)) := by
    have hany : g.anyNotContained hbView
        (g.insertionOrder.filter (g.matchesHelping cas hLab)) = some false :=
      anyNotContained_eq hg fun r hr => by
        obtain ⟨hmem, hmatch⟩ := List.mem_filter.mp hr
        exact hviews r ((hg.members r).mp hmem) hmatch
    simp only [checkHelpingCasCondition, hany, Option.bind_eq_bind, Option.bind_some]
    rfl
  refine ⟨⟨_, hok⟩, ?_⟩
  rw [hok]
  have hnever : ∀ b : Bool, some (Except.ok b) ≠ some (Except.error HelpingCasError.notVisible) :=
    by simp
  constructor
  · intro hiff r hr hmatch w hw hc
    by_contra hmiss
    exact hnever _ (hiff.mpr ⟨r, hr, hmatch, w, hw, hc, Bool.eq_false_iff.mpr hmiss⟩)
  · intro hall
    refine iff_of_false (hnever _) ?_
    rintro ⟨r, hr, hmatch, w, hw, hc, hmiss⟩
    rw [hall r hr hmatch w hw hc] at hmiss
    cases hmiss

/-- A thread writes to one location and then performs a helped compare-and-swap on another; another
thread helps. -/
def helpedCas : ExecutionGraph :=
  (PartialRun.exec Mutation.apply initial
    [.addLabelToGraph { pos := ⟨0, 1⟩, body := .plain (.threadCreate 1) },
      .addNewThread,
      .addLabelToGraph { pos := ⟨1, 0⟩, body := .threadStart ⟨0, 1⟩ },
      .addLabelToGraph { pos := ⟨1, 1⟩, body := .write .write { addr := ⟨16⟩ } [] },
      .addStoreToCOAfter ⟨1, 1⟩ .init,
      .addLabelToGraph { pos := ⟨1, 2⟩, body := .read .helpedCasRead { addr := ⟨8⟩ } none false },
      .setRf ⟨1, 2⟩ (some .init),
      .addLabelToGraph { pos := ⟨1, 3⟩, body := .write .helpedCasWrite { addr := ⟨8⟩ } [] },
      .addStoreToCOAfter ⟨1, 3⟩ .init,
      .addLabelToGraph { pos := ⟨0, 2⟩, body := .plain .helpingCas }]).getD initial

/-- The data of both compare-and-swaps. -/
def casFields : CasFields := ⟨4, .signed, .acquireRelease, 0, 1⟩

/-- The helping one. -/
def helpingCas : HelpingCasLabel := ⟨⟨0, 2⟩, ⟨8⟩, casFields⟩

/-- The views where nothing of the other thread is visible to the helping one. -/
def hiddenViews (e : Event) : View := if e = ⟨0, 2⟩ then ⟨[2]⟩ else ⟨[1, 2]⟩

/-- The views where the write of the other thread is visible to the helping one. -/
def visibleViews (e : Event) : View := if e = ⟨0, 2⟩ then ⟨[2, 1]⟩ else ⟨[1, 2]⟩

/-- The graph is well-formed. -/
lemma wellFormed_helpedCas : WellFormed helpedCas := WellFormed.of_check (by decide +kernel)

/-- The views of a concrete graph have labels of the graph. -/
lemma ViewsWithin.of_positions {hLab : HelpingCasLabel}
    (h : ∀ r ∈ g.positions, g.matchesHelping cas hLab r → ∀ i < (hbView r).size,
      g.containsPos ⟨i, (hbView r).getMax i⟩) : g.ViewsWithin cas hbView hLab :=
  fun r hr => h r (mem_positions.mpr hr)

/-- Where the write is visible, the check is right. -/
theorem helpedCas_visible :
    helpedCas.checkHelpingCasCondition (fun _ => casFields) visibleViews helpingCas =
        some (.error .notVisible) ↔
      helpedCas.HelpingMisses (fun _ => casFields) visibleViews helpingCas := by
  have hall : ∀ r ∈ helpedCas.positions,
      helpedCas.matchesHelping (fun _ => casFields) helpingCas r → ∀ w ∈ helpedCas.positions,
        helpedCas.isa LabelBody.isWrite w → (visibleViews r).contains w →
          (visibleViews helpingCas.pos).contains w := by decide +kernel
  refine (checkHelpingCasCondition_iff wellFormed_helpedCas
    (ViewsWithin.of_positions (by decide +kernel))).2.mpr fun r hr hmatch w hw => ?_
  exact hall r (mem_positions.mpr hr) hmatch w (mem_positions.mpr (containsPos_of_isa hw)) hw

/-- Where the write is not visible, the check does not report it. -/
theorem helpedCas_hidden :
    helpedCas.HelpingMisses (fun _ => casFields) hiddenViews helpingCas ∧
      helpedCas.checkHelpingCasCondition (fun _ => casFields) hiddenViews helpingCas =
        some (.ok true) := by
  refine ⟨⟨⟨1, 2⟩, by decide +kernel, by decide +kernel, ⟨1, 1⟩, by decide +kernel,
    by decide +kernel, by decide +kernel⟩, by decide +kernel⟩

end ExecutionGraph

end GenMC
