import GenMC.Verification.DriverRuns
import GenMC.Verification.HandlerProgress

/-!
# Freeing memory

`handleFree` looks for the allocation of the address that is freed.  There may be none, and the size
of the new label then stays 0, but the handler sets the free link of the allocation in any case,
before it comes to the error check.  It gets there if and only if the address is dynamic and in an
allocation; if the address is in exactly one, all links are right (`handleFree_iff`).
-/

namespace GenMC

/-- A label that frees an address. -/
def LabelBody.frees (kind : FreeKind) (freeAddr : SAddr) : LabelBody → Bool
  | free kind' freeAddr' _ => kind' = kind ∧ freeAddr' = freeAddr
  | _ => false

instance (kind : FreeKind) (freeAddr : SAddr) : ClassTest (LabelBody.frees kind freeAddr) :=
  ⟨fun m b => by cases b <;> rfl⟩

instance (addr : SAddr) : ClassTest (LabelBody.mallocContains addr) :=
  ⟨fun m b => by cases b <;> rfl⟩

/-- What the handler of a free leaves behind. -/
structure FreeOutcome where
  /-- The graph. -/
  graph : ExecutionGraph
  /-- `getFreedSize` of the new label. -/
  freedSize : ℕ
  /-- The label that `checkForRaces` is called with. -/
  checked : Option Event

namespace ExecutionGraph

/-- `MallocLabel::getAllocSize`. -/
def allocSizeOf (g : ExecutionGraph) (e : Event) : ℕ :=
  match (g.getEventLabel e).map EventLabel.body with
  | some (.malloc _ allocSize _ _) => allocSize
  | _ => 0

/-- `FreeLabel::getAlloc`. -/
def freeAllocOf (g : ExecutionGraph) (e : Event) : Option Event :=
  (g.getEventLabel e).bind fun lab => lab.body.freeAlloc

/-- `MallocLabel::getFree`. -/
def freeOf (g : ExecutionGraph) (e : Event) : Option Event :=
  (g.getEventLabel e).bind fun lab => lab.body.getFree

/-- `isExecutionDrivenByGraph`. -/
def isExecutionDrivenByGraph (g : ExecutionGraph) (pos : Event) : Bool :=
  g.containsPos pos && !g.isa LabelBody.isEmpty pos

/-- `handleFree` up to `checkForRaces`; the allocation whose free link is set may be missing. -/
def handleFreeLabel (g : ExecutionGraph) (pos : Event) (kind : FreeKind) (freeAddr : SAddr) :
    Option FreeOutcome :=
  if g.isExecutionDrivenByGraph pos then some ⟨g, 0, none⟩
  else do
    let alloc := g.findAllocatingLabel freeAddr
    let size := (alloc.map g.allocSizeOf).getD 0
    let g ← g.addLabelWithViews { pos := pos, body := .free kind freeAddr none }
    let g := g.updateLabel pos (EventLabel.setFreeAlloc alloc)
    let alloc ← alloc
    return ⟨g.updateLabel alloc (EventLabel.setFree (some pos)), size, some pos⟩

/-- What is expected of the handler. -/
structure FreesRight (g : ExecutionGraph) (pos : Event) (kind : FreeKind) (freeAddr : SAddr)
    (out : FreeOutcome) : Prop where
  /-- The label has been added. -/
  added : out.graph.isa (LabelBody.frees kind freeAddr) pos
  /-- The error check is reached. -/
  checked : out.checked = some pos
  /-- The label and the allocation that contains the address know each other. -/
  linked : ∀ e, g.isa (LabelBody.mallocContains freeAddr) e → out.graph.freeAllocOf pos = some e ∧
    out.freedSize = g.allocSizeOf e ∧ out.graph.freeOf e = some pos
  /-- Without such an allocation all allocations stay as they are. -/
  unchanged : (∀ e, g.isa (LabelBody.mallocContains freeAddr) e = false) → ∀ e lab,
    g.getEventLabel e = some lab → lab.body.isMalloc → out.graph.getEventLabel e = some lab

variable {g g' : ExecutionGraph} {pos : Event} {kind : FreeKind} {freeAddr : SAddr}

/-- The graph is the one of the driver's call. -/
lemma handleFreeLabel_graph (h : g.isExecutionDrivenByGraph pos = false) :
    (g.handleFreeLabel pos kind freeAddr).map FreeOutcome.graph =
      g.handleFree pos kind freeAddr := by
  unfold handleFreeLabel handleFree
  rw [h, if_neg Bool.false_ne_true]
  cases g.findAllocatingLabel freeAddr with
  | none => cases g.addLabelWithViews { pos := pos, body := .free kind freeAddr none } <;> rfl
  | some alloc =>
    cases g.addLabelWithViews { pos := pos, body := .free kind freeAddr none } <;> rfl

/-- The only allocation of a dynamic address is found. -/
lemma findAllocatingLabel_eq_some (hg : DriverInvariant g) (hdynamic : freeAddr.isStatic = false)
    {e : Event} (he : g.isa (LabelBody.mallocContains freeAddr) e)
    (hunique : ∀ e', g.isa (LabelBody.mallocContains freeAddr) e' → e' = e) :
    g.findAllocatingLabel freeAddr = some e := by
  have hmem : e ∈ g.insertionOrder := (hg.wellFormed.members e).mpr (containsPos_of_isa he)
  unfold findAllocatingLabel
  rw [hdynamic, if_neg Bool.false_ne_true]
  cases hfind : g.insertionOrder.find? fun e => g.isa (LabelBody.mallocContains freeAddr) e with
  | some e' => rw [hunique e' (List.find?_some hfind)]
  | none => exact absurd he (List.find?_eq_none.mp hfind e hmem)

/-- What is found contains the address, which is dynamic. -/
lemma isa_mallocContains_of_find {e : Event} (h : g.findAllocatingLabel freeAddr = some e) :
    freeAddr.isStatic = false ∧ g.isa (LabelBody.mallocContains freeAddr) e := by
  unfold findAllocatingLabel at h
  split at h
  · cases h
  next hstatic => exact ⟨Bool.eq_false_iff.mpr hstatic, List.find?_some h⟩

/-- The links after the handler. -/
lemma DriverInvariant.handleFreeLabel_spec (hg : DriverInvariant g)
    (hcall : (DriverCall.handleFree pos kind freeAddr).AdmissibleFor g) {e : Event}
    (he : g.findAllocatingLabel freeAddr = some e) : ∃ out,
      g.handleFreeLabel pos kind freeAddr = some out ∧
        out.graph.isa (LabelBody.frees kind freeAddr) pos ∧ out.checked = some pos ∧
          out.graph.freeAllocOf pos = some e ∧ out.freedSize = g.allocSizeOf e ∧
            out.graph.freeOf e = some pos := by
  obtain ⟨hroom, hindex, hpos, hthread⟩ := hcall
  have hfree := containsPos_eq_false hindex
  have hadds : DriverCall.AddsNext g { pos := pos, body := .free kind freeAddr none } :=
    addsNext_of_body hindex rfl rfl rfl (by exact rfl) hpos hthread
  obtain ⟨g₁, hadd⟩ := hg.addLabelWithViews_isSome hadds hpos rfl
  obtain ⟨hg₁, hgrows⟩ := hg.addLabel hroom hadds rfl rfl hadd (not_isJoinOf rfl)
  have hne : e ≠ pos := by
    rintro rfl
    have hc := containsPos_of_isa (isa_isMalloc_of_find he)
    rw [hfree] at hc
    cases hc
  set g₂ := g₁.updateLabel pos (EventLabel.setFreeAlloc (some e)) with hg₂
  set g₃ := g₂.updateLabel e (EventLabel.setFree (some pos)) with hg₃
  have hrelinks : Relinks g₁ g₃ :=
    (Relinks.updateLabel g₁ pos _).trans (Relinks.updateLabel g₂ e _)
  refine ⟨⟨g₃, g.allocSizeOf e, some pos⟩, ?_, ?_, rfl, ?_, rfl, ?_⟩
  · unfold handleFreeLabel isExecutionDrivenByGraph
    rw [hfree, Bool.false_and, if_neg Bool.false_ne_true]
    simp only [he, Option.map_some, Option.getD_some, Option.bind_eq_bind, hadd, Option.bind_some]
    rfl
  · rw [hrelinks.isa, hgrows.isa, if_pos rfl]
    simp [LabelBody.frees]
  · obtain ⟨lab, hlab, hbody⟩ := isa_iff.mp
      (show g₁.isa LabelBody.isFree pos by rw [hgrows.isa, if_pos rfl]; rfl)
    unfold freeAllocOf
    rw [hg₃, getEventLabel_updateLabel, if_neg hne.symm, hg₂, getEventLabel_updateLabel, if_pos rfl,
      hlab]
    simp [EventLabel.setFreeAlloc, LabelBody.freeAlloc_mapFields, hbody]
  · obtain ⟨lab, hlab, hbody⟩ := isa_iff.mp (show g₂.isa LabelBody.isMalloc e by
      have hrelinks₂ : Relinks g₁ g₂ := Relinks.updateLabel g₁ pos _
      rw [hrelinks₂.isa, hgrows.isa, if_neg hne]
      exact isa_isMalloc_of_find he)
    unfold freeOf
    rw [hg₃, getEventLabel_updateLabel, if_pos rfl, hlab]
    simp [EventLabel.setFree, LabelBody.getFree_mapFields, hbody]

/-- **When a free is handled.**  In every graph that a run of the driver reaches, the handler adds
the label, links it and its allocation and reaches the error check if and only if the address is
dynamic and exactly one allocation contains it. -/
theorem handleFree_iff {calls : List DriverCall} {execs : List ExecutionGraph}
    (hcalls : PartialRun.Meets DriverCall.apply DriverCall.Admissible [initial] calls)
    (hexec : PartialRun.exec DriverCall.apply [initial] calls = some execs) (hg : g ∈ execs)
    (hcall : (DriverCall.handleFree pos kind freeAddr).AdmissibleFor g) :
    (∃ out, g.handleFreeLabel pos kind freeAddr = some out ∧
        g.FreesRight pos kind freeAddr out) ↔
      freeAddr.isStatic = false ∧ ∃! e, g.isa (LabelBody.mallocContains freeAddr) e := by
  have hinv := driverInvariant_exec hcalls hexec g hg
  constructor
  · rintro ⟨out, hout, hright⟩
    cases hfind : g.findAllocatingLabel freeAddr with
    | none =>
      -- the free link of no allocation is set
      unfold handleFreeLabel isExecutionDrivenByGraph at hout
      rw [containsPos_eq_false hcall.2.1, Bool.false_and, if_neg Bool.false_ne_true, hfind] at hout
      cases hadd : g.addLabelWithViews { pos := pos, body := .free kind freeAddr none } <;>
        simp [hadd] at hout
    | some e =>
      obtain ⟨hdynamic, he⟩ := isa_mallocContains_of_find hfind
      refine ⟨hdynamic, e, he, fun e' he' => ?_⟩
      have hlink := (hright.linked e he).1
      rw [(hright.linked e' he').1] at hlink
      exact Option.some.inj hlink
  · rintro ⟨hdynamic, e, he, hunique⟩
    have hfind := findAllocatingLabel_eq_some hinv hdynamic he hunique
    obtain ⟨out, hout, hadded, hchecked, hlinks⟩ := hinv.handleFreeLabel_spec hcall hfind
    refine ⟨out, hout, hadded, hchecked, fun e' he' => ?_, fun hnone => ?_⟩
    · rw [hunique e' he']
      exact hlinks
    · rw [hnone e] at he
      cases he

/-- The main thread allocates the addresses from 16 to 23. -/
def mallocRun : List DriverCall := [.addLabel { pos := ⟨0, 1⟩, body := .malloc ⟨16⟩ 8 none [] }]

/-- The graph of the allocation. -/
def mallocGraph : ExecutionGraph :=
  ((PartialRun.exec DriverCall.apply [initial] mallocRun).bind List.head?).getD initial

/-- The run that allocates. -/
lemma mallocRun_exec : PartialRun.Meets DriverCall.apply DriverCall.Admissible [initial] mallocRun ∧
    PartialRun.exec DriverCall.apply [initial] mallocRun = some [mallocGraph] :=
  ⟨by decide, by rfl⟩

/-- An address inside of the allocation is freed. -/
theorem handleFree_interior : ∃ out, mallocGraph.handleFreeLabel ⟨0, 2⟩ .free ⟨20⟩ = some out ∧
    mallocGraph.FreesRight ⟨0, 2⟩ .free ⟨20⟩ out := by
  obtain ⟨hcalls, hexec⟩ := mallocRun_exec
  refine (handleFree_iff hcalls hexec List.mem_cons_self (by decide)).mpr
    ⟨by decide, ⟨0, 1⟩, by decide, fun e he => ?_⟩
  have hinv := driverInvariant_exec hcalls hexec mallocGraph List.mem_cons_self
  have hmem : e ∈ mallocGraph.insertionOrder :=
    (hinv.wellFormed.members e).mpr (containsPos_of_isa he)
  have horder : mallocGraph.insertionOrder = [.init, ⟨0, 1⟩] := by rfl
  rw [horder] at hmem
  rcases List.mem_pair.mp hmem with rfl | rfl
  · exact absurd he (by decide)
  · rfl

/-- An address outside of the allocation is not. -/
theorem not_handleFree_outside :
    PartialRun.exec DriverCall.apply [initial] mallocRun = some [mallocGraph] ∧
      (DriverCall.handleFree ⟨0, 2⟩ .free ⟨32⟩).AdmissibleFor mallocGraph ∧
        mallocGraph.handleFreeLabel ⟨0, 2⟩ .free ⟨32⟩ = none :=
  ⟨mallocRun_exec.2, by decide, by decide⟩

end ExecutionGraph

end GenMC
