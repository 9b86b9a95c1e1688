import GenMC.Lib.KeyedList
import Mathlib.Algebra.BigOperators.Group.List.Basic
import Mathlib.Data.Finset.Basic
import Mathlib.Data.Finset.Card
import Mathlib.Data.List.GetD
import Mathlib.Data.UInt

/-!
# Merging the results of the workers

The result of a driver, and the way in which `verify` folds the results of the workers of the
thread pool with `Result::operator+=`.  The counters that the operator adds are merged as sums,
whatever the order of the workers; the frequency maps and the number of collisions are not merged
at all, so that `merge_losesNothing_iff` holds only when there is nothing to lose in them.
-/

namespace GenMC

/-- The errors that a verification can report. -/
inductive VerificationError
  | nonErrorBegin | ok | wwRace | unfreedMemory | nonErrorLast | safety | recovery | liveness
  | raceNotAtomic | raceFreeMalloc | freeNonMalloc | doubleFree | allocation | invalidAccessBegin
  | uninitializedMem | accessNonMalloc | accessFreed | invalidAccessEnd | invalidCreate
  | invalidJoin | invalidUnlock | invalidBInit | invalidRecoveryCall | invalidTruncate | annotation
  | mixedSize | systemError
deriving DecidableEq

/-- `GraphHashT`: a graph by its hash. -/
abbrev GraphHash := UInt64

/-- How often each graph was seen. -/
abbrev GraphFreq := KeyedList GraphHash UInt32

/-- `GenMCDriver::Result`.  The counters are 32-bit words. -/
structure Result where
  /-- Whether the verification completed successfully. -/
  status : VerificationError := .ok
  /-- Number of complete executions explored. -/
  explored : UInt32 := 0
  /-- Number of blocked executions explored. -/
  exploredBlocked : UInt32 := 0
  /-- Number of bound-exceeding executions explored. -/
  boundExceeding : UInt32 := 0
  /-- Number of moot executions encountered. -/
  exploredMoot : UInt32 := 0
  /-- Number of duplicate executions explored. -/
  duplicates : UInt32 := 0
  /-- Number of complete executions not exceeding each bound. -/
  exploredBounds : List ℤ := []
  /-- The frequencies of the complete graphs. -/
  graphFreqComplete : GraphFreq := .empty
  /-- The frequencies of the blocked graphs. -/
  graphFreqBlock : GraphFreq := .empty
  /-- Number of hash collisions. -/
  collisionNum : UInt32 := 0
  /-- A message to be printed. -/
  message : String := ""
  /-- The warnings encountered. -/
  warnings : Finset VerificationError := ∅

namespace Result

/-- `IndexedMap::grow`: makes room for an index. -/
def grow (bounds : List ℤ) (size : ℕ) : List ℤ :=
  bounds ++ List.replicate (size - bounds.length) 0

/-- The loop that adds the histogram of another result. -/
def addBounds (bounds other : List ℤ) : List ℤ :=
  (List.range other.length).foldl (fun bs i => bs.modify i (· + other.getD i 0))
    (grow bounds other.length)

/-- `Result::operator+=`. -/
def add (r other : Result) : Result :=
  { r with
    status := if other.status ≠ .ok then other.status else r.status
    message := r.message ++ other.message
    explored := r.explored + other.explored
    exploredBlocked := r.exploredBlocked + other.exploredBlocked
    boundExceeding := r.boundExceeding + other.boundExceeding
    exploredMoot := r.exploredMoot + other.exploredMoot
    exploredBounds := addBounds r.exploredBounds other.exploredBounds
    duplicates := r.duplicates + other.duplicates
    warnings := r.warnings ∪ other.warnings }

/-- `totalExploredDistinct`: the number of distinct graphs. -/
def totalExploredDistinct (r : Result) : ℕ :=
  r.graphFreqComplete.keys.length + r.graphFreqBlock.keys.length

/-- `updateGraphFrequencies`: counts a graph, which is blocked or complete. -/
def updateGraphFrequencies (r : Result) (hash : GraphHash) (blocked : Bool) : Result :=
  if blocked then
    { r with graphFreqBlock := (r.graphFreqBlock.track hash 0).modify hash (· + 1) }
  else
    { r with graphFreqComplete := (r.graphFreqComplete.track hash 0).modify hash (· + 1) }

/-- `verify`: the results of the workers are added to an empty one. -/
def merge (rs : List Result) : Result := rs.foldl add {}

/-! ## What the fold adds -/

/-- A field that the operator adds is summed by the fold. -/
lemma foldl_add_field {M : Type*} [AddCommMonoid M] {c : Result → M}
    (hadd : ∀ r r', c (r.add r') = c r + c r') (rs : List Result) (r : Result) :
    c (rs.foldl add r) = c r + (rs.map c).sum := by
  induction rs generalizing r with
  | nil => simp
  | cons r' rs ih =>
    rw [List.foldl_cons, ih, hadd, List.map_cons, List.sum_cons, add_assoc]

/-- A field that the operator adds, and that is zero in an empty result, is the sum of the fields
of the workers, whatever their order. -/
lemma merge_field {M : Type*} [AddCommMonoid M] {c : Result → M}
    (hadd : ∀ r r', c (r.add r') = c r + c r') (hzero : c {} = 0) {rs rs' : List Result}
    (hperm : rs'.Perm rs) : c (merge rs') = (rs.map c).sum := by
  unfold merge
  rw [foldl_add_field hadd, hzero, zero_add]
  exact (hperm.map c).sum_eq

/-- A field that the operator does not touch is the one of an empty result. -/
lemma merge_untouched {β : Type*} {c : Result → β} (hadd : ∀ r r', c (r.add r') = c r)
    (rs : List Result) : c (merge rs) = c {} := by
  unfold merge
  generalize ({} : Result) = r
  induction rs generalizing r with
  | nil => rfl
  | cons r' rs ih => rw [List.foldl_cons, ih, hadd]

/-- After growing, the entries are as before. -/
lemma getD_grow (bounds : List ℤ) (size i : ℕ) : (grow bounds size).getD i 0 = bounds.getD i 0 := by
  unfold grow
  rcases lt_or_ge i bounds.length with hi | hi
  · rw [List.getD_append _ _ _ _ hi]
  · rw [List.getD_append_right _ _ _ _ hi, List.getD_eq_default _ _ hi]
    simp [List.getD_eq_getElem?_getD, List.getElem?_replicate]
    split <;> rfl

/-- What the loop has added after the first `n` bounds. -/
lemma getElem?_foldl_modify (other bs : List ℤ) (n i : ℕ) :
    ((List.range n).foldl (fun bs i => bs.modify i (· + other.getD i 0)) bs)[i]? =
      if i < n then bs[i]?.map (· + other.getD i 0) else bs[i]? := by
  induction n with
  | zero => rfl
  | succ n ih =>
    rw [List.range_succ, List.foldl_append, List.foldl_cons, List.foldl_nil, List.getElem?_modify,
      ih]
    by_cases hi : n = i
    · simp [hi]
    · have hlt : i < n + 1 ↔ i < n := by omega
      simp [hi, hlt]

/-- The histograms are added bound by bound. -/
lemma getD_addBounds (bounds other : List ℤ) (i : ℕ) :
    (addBounds bounds other).getD i 0 = bounds.getD i 0 + other.getD i 0 := by
  unfold addBounds
  rw [List.getD_eq_getElem?_getD, getElem?_foldl_modify]
  split
  · next hi =>
    have hlt : i < (grow bounds other.length).length := by
      simp [grow]
      omega
    rw [← getD_grow bounds other.length i, List.getElem?_eq_getElem hlt,
      List.getD_eq_getElem _ _ hlt]
    rfl
  · next hi =>
    rw [← List.getD_eq_getElem?_getD, getD_grow, List.getD_eq_default other 0 (not_lt.mp hi),
      add_zero]

/-! ## What is lost -/

/-- The merged map is the pointwise sum of the given ones, with their keys. -/
def Sums (ms : List GraphFreq) (m : GraphFreq) : Prop :=
  ∀ hash, m.find? hash =
    if ∃ m' ∈ ms, hash ∈ m'.keys then some (ms.map fun m' => (m'.find? hash).getD 0).sum else none

/-- What the merged result of the workers should be. -/
structure MergesAll (rs : List Result) (r : Result) : Prop where
  /-- The counters are the sums of the counters of the workers. -/
  explored : r.explored = (rs.map (·.explored)).sum
  exploredBlocked : r.exploredBlocked = (rs.map (·.exploredBlocked)).sum
  boundExceeding : r.boundExceeding = (rs.map (·.boundExceeding)).sum
  exploredMoot : r.exploredMoot = (rs.map (·.exploredMoot)).sum
  duplicates : r.duplicates = (rs.map (·.duplicates)).sum
  collisionNum : r.collisionNum = (rs.map (·.collisionNum)).sum
  /-- The histogram is the sum of the histograms. -/
  exploredBounds : ∀ i, r.exploredBounds.getD i 0 = (rs.map (·.exploredBounds.getD i 0)).sum
  /-- The frequency maps are the pointwise sums of the maps of the workers. -/
  graphFreqComplete : Sums (rs.map (·.graphFreqComplete)) r.graphFreqComplete
  graphFreqBlock : Sums (rs.map (·.graphFreqBlock)) r.graphFreqBlock
  /-- A graph that several workers have seen is counted once. -/
  distinct : r.totalExploredDistinct =
    (rs.flatMap (·.graphFreqComplete.keys)).toFinset.card +
      (rs.flatMap (·.graphFreqBlock.keys)).toFinset.card

/-- An empty map is the sum of maps if and only if these are empty. -/
lemma sums_empty_iff {ms : List GraphFreq} : Sums ms .empty ↔ ∀ m ∈ ms, m.keys = [] := by
  constructor
  · intro h m hm
    refine List.eq_nil_iff_forall_not_mem.mpr fun hash hmem => ?_
    have hfind := h hash
    rw [if_pos ⟨m, hm, hmem⟩, KeyedList.find?_empty] at hfind
    exact absurd hfind.symm (Option.some_ne_none _)
  · intro h hash
    have hnot : ¬∃ m ∈ ms, hash ∈ m.keys := by
      rintro ⟨m, hm, hmem⟩
      rw [h m hm] at hmem
      exact List.not_mem_nil hmem
    rw [if_neg hnot, KeyedList.find?_empty]

/-- The merged frequency maps are empty, and no collisions are counted. -/
lemma merge_lost (rs : List Result) : (merge rs).graphFreqComplete = .empty ∧
    (merge rs).graphFreqBlock = .empty ∧ (merge rs).collisionNum = 0 :=
  ⟨merge_untouched (c := graphFreqComplete) (fun _ _ => rfl) rs,
    merge_untouched (c := graphFreqBlock) (fun _ _ => rfl) rs,
    merge_untouched (c := collisionNum) (fun _ _ => rfl) rs⟩

/-- Without graphs there is nothing to count. -/
lemma toFinset_flatMap_keys_eq_empty {rs : List Result} {c : Result → GraphFreq}
    (h : ∀ r ∈ rs, (c r).keys = []) : (rs.flatMap fun r => (c r).keys).toFinset = ∅ := by
  rw [List.flatMap_eq_nil_iff.mpr h, List.toFinset_nil]

/-- **Merging loses the frequency maps and the collisions.**  The merged result of the workers, in
whatever order they are merged, has all sums if and only if no worker has recorded a graph and the
collisions of the workers add up to zero. -/
theorem merge_losesNothing_iff (rs : List Result) :
    (∀ rs' : List Result, rs'.Perm rs → MergesAll rs (merge rs')) ↔
      (∀ r ∈ rs, r.graphFreqComplete.keys = [] ∧ r.graphFreqBlock.keys = []) ∧
        (rs.map (·.collisionNum)).sum = 0 := by
  constructor
  · intro h
    obtain ⟨hcomplete, hblock, hcollision⟩ := merge_lost rs
    have hall := h rs (List.Perm.refl rs)
    have hc := hall.graphFreqComplete
    have hb := hall.graphFreqBlock
    rw [hcomplete, sums_empty_iff] at hc
    rw [hblock, sums_empty_iff] at hb
    refine ⟨fun r hr => ⟨hc _ (List.mem_map_of_mem hr), hb _ (List.mem_map_of_mem hr)⟩, ?_⟩
    rw [← hall.collisionNum, hcollision]
  · rintro ⟨hempty, hzero⟩ rs' hperm
    obtain ⟨hcomplete, hblock, hcollision⟩ := merge_lost rs'
    refine ⟨merge_field (fun _ _ => rfl) rfl hperm, merge_field (fun _ _ => rfl) rfl hperm,
      merge_field (fun _ _ => rfl) rfl hperm, merge_field (fun _ _ => rfl) rfl hperm,
      merge_field (fun _ _ => rfl) rfl hperm, hcollision.trans hzero.symm,
      fun i => merge_field (c := fun r => r.exploredBounds.getD i 0)
        (fun r r' => getD_addBounds _ _ i) rfl hperm, ?_, ?_, ?_⟩
    · rw [hcomplete, sums_empty_iff]
      intro m hm
      obtain ⟨r, hr, rfl⟩ := List.mem_map.mp hm
      exact (hempty r hr).1
    · rw [hblock, sums_empty_iff]
      intro m hm
      obtain ⟨r, hr, rfl⟩ := List.mem_map.mp hm
      exact (hempty r hr).2
    · rw [toFinset_flatMap_keys_eq_empty fun r hr => (hempty r hr).1,
        toFinset_flatMap_keys_eq_empty fun r hr => (hempty r hr).2, totalExploredDistinct,
        hcomplete, hblock]
      rfl

/-- A worker that has explored one complete graph. -/
def countingWorker : Result := updateGraphFrequencies { explored := 1 } 7 false

/-- The graph that the workers have counted is lost. -/
theorem countingWorkers_not_mergesAll :
    ¬MergesAll [countingWorker, countingWorker] (merge [countingWorker, countingWorker]) := by
  intro h
  have hmap := h.graphFreqComplete 7
  rw [(merge_lost _).1] at hmap
  exact absurd hmap (by decide)

/-! ## Errors and warnings -/

/-- The merged result is free of errors if and only if all workers are. -/
theorem merge_status_ok_iff (rs : List Result) :
    (merge rs).status = .ok ↔ ∀ r ∈ rs, r.status = .ok := by
  have hfold : ∀ (rs : List Result) (r : Result),
      (rs.foldl add r).status = .ok ↔ r.status = .ok ∧ ∀ r' ∈ rs, r'.status = .ok := by
    intro rs
    induction rs with
    | nil => simp
    | cons r' rs ih =>
      intro r
      rw [List.foldl_cons, ih, List.forall_mem_cons]
      unfold add
      by_cases hr' : r'.status = .ok <;> simp [hr']
  rw [merge, hfold]
  simp

/-- The merged warnings are those of the workers. -/
theorem mem_merge_warnings (rs : List Result) (w : VerificationError) :
    w ∈ (merge rs).warnings ↔ ∃ r ∈ rs, w ∈ r.warnings := by
  have hfold : ∀ (rs : List Result) (r : Result),
      w ∈ (rs.foldl add r).warnings ↔ w ∈ r.warnings ∨ ∃ r' ∈ rs, w ∈ r'.warnings := by
    intro rs
    induction rs with
    | nil => simp
    | cons r' rs ih =>
      intro r
      rw [List.foldl_cons, ih]
      simp [add, or_assoc]
  rw [merge, hfold]
  simp

end Result

end GenMC
