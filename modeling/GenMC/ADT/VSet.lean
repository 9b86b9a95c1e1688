import GenMC.Lib.LowerBound
import Mathlib.Data.Finset.Card
import Mathlib.Data.Finset.Lattice.Basic
import Mathlib.Data.List.Nodup

/-!
# Sets as sorted vectors

A `VSet` keeps its elements in a sorted vector.  Elements are looked up, inserted and erased at the
place that a binary search finds.  A whole set is inserted in place: the elements that are new are
counted, the vector grows by their number, and the two sets are merged from the back.  A whole set
is erased in place as well: the elements that stay are moved to the front.

The argument of these two may be the set itself, which is then read while it is written.  An
`Operand` says which vector is read.  Indices and counts, of type `int` in the source, are natural
numbers: sets have fewer than 2^31 elements.
-/

namespace GenMC

namespace VSet

variable {T : Type*} [LinearOrder T]

/-! ## The code -/

/-- The argument of an operation on a whole set: the set itself or another one. -/
inductive Operand (T : Type*) where
  | this
  | other (s : List T)

/-- The vector of the argument while that of the set is `v`. -/
def Operand.read (v : List T) : Operand T → List T
  | .this => v
  | .other s => s

/-- `std::lower_bound` for an element. -/
def position (v : List T) (x : T) : ℕ := lowerBound (fun y => decide (y < x)) v

/-- `VSet::find`; `none` is the end. -/
def find (v : List T) (x : T) : Option ℕ :=
  if v[position v x]? = some x then some (position v x) else none

/-- `VSet::count`. -/
def count (v : List T) (x : T) : ℕ := if (find v x).isSome then 1 else 0

/-- `VSet::insert` of an element, and whether it is new. -/
def insert (v : List T) (x : T) : List T × Bool :=
  (sortedInsert v x, decide (v[position v x]? ≠ some x))

/-- The first loop of `VSet::insert` of a set: how many elements of `s` are not in `v`. -/
def countNew : List T → List T → ℕ
  | [], ys => ys.length
  | _ :: _, [] => 0
  | x :: xs, y :: ys =>
    if x < y then countNew xs (y :: ys)
    else if x = y then countNew xs ys
    else countNew (x :: xs) ys + 1
termination_by xs ys => xs.length + ys.length

/-- The second loop of `VSet::insert` of a set.  The positions from `n` on are filled, and `nA` and
`nB` elements of the two sets are left: the indices `i`, `idxA` and `idxB` are one less.  The result
is `none` if the loop reads outside of a vector. -/
def mergeFrom (s : Operand T) : ℕ → ℕ → ℕ → List T → Option (List T)
  | 0, _, _, w => some w
  | _ + 1, 0, 0, _ => none
  | i + 1, 0, b + 1, w => (s.read w)[b]?.bind fun y => mergeFrom s i 0 b (w.set i y)
  | i + 1, a + 1, 0, w => w[a]?.bind fun x => mergeFrom s i a 0 (w.set i x)
  | i + 1, a + 1, b + 1, w => w[a]?.bind fun x => (s.read w)[b]?.bind fun y =>
    if x < y then mergeFrom s i (a + 1) b (w.set i y)
    else if x = y then mergeFrom s i a b (w.set i x)
    else mergeFrom s i a (b + 1) (w.set i x)

/-- `VSet::insert` of a set, and the number it returns. -/
def insertSet (v : List T) (s : Operand T) : Option (List T × ℕ) :=
  if v = [] then some (s.read v, (s.read v).length)
  else if s.read v = [] then some (v, 0)
  else if (s.read v).length = 1 then
    (s.read v)[0]?.map fun x => ((insert v x).1, if (insert v x).2 then 1 else 0)
  else
    let count := countNew v (s.read v)
    if count = 0 then some (v, 0)
    else v[0]?.bind fun first =>
      (mergeFrom s (v.length + count) v.length (s.read v).length
        (v ++ List.replicate count first)).map fun w => (w, count)

/-- `VSet::insert` of a range of elements. -/
def insertRange (v xs : List T) : List T :=
  xs.foldl (fun v x =>
    if v.getLast?.any (fun last => last < x) then v ++ [x] else (insert v x).1) v

/-- `VSet::erase` of an element, and the number it returns. -/
def erase (v : List T) (x : T) : List T × ℕ :=
  if v[position v x]? = some x then (v.eraseIdx (position v x), 1) else (v, 0)

/-- The variables of `VSet::erase` of a set. -/
structure EraseState (T : Type*) where
  vset : List T
  a : ℕ
  b : ℕ
  aMov : ℕ
  erased : ℕ

/-- The body of the first loop of `VSet::erase` of a set. -/
def eraseStep (s : Operand T) (st : EraseState T) : Option (EraseState T) :=
  st.vset[st.a]?.bind fun x => (s.read st.vset)[st.b]?.map fun y =>
    if x = y then { st with a := st.a + 1, b := st.b + 1, erased := st.erased + 1 }
    else if x < y then
      { st with
        vset := if st.aMov ≠ st.a then st.vset.set st.aMov x else st.vset
        a := st.a + 1
        aMov := st.aMov + 1 }
    else { st with b := st.b + 1 }

/-- The first loop of `VSet::erase` of a set, with a bound on the number of rounds. -/
def eraseLoop (s : Operand T) : ℕ → EraseState T → Option (EraseState T)
  | 0, st => some st
  | fuel + 1, st =>
    if st.a < st.vset.length ∧ st.b < (s.read st.vset).length then
      (eraseStep s st).bind (eraseLoop s fuel)
    else some st

/-- The second loop of `VSet::erase` of a set: the `n` elements from `a` on are moved. -/
def moveFrom : ℕ → ℕ → ℕ → List T → Option (List T)
  | 0, _, _, w => some w
  | n + 1, a, aMov, w => w[a]?.bind fun x => moveFrom n (a + 1) (aMov + 1) (w.set aMov x)

/-- `VSet::erase` of a set, and the number it returns. -/
def eraseSet (v : List T) (s : Operand T) : Option (List T × ℕ) :=
  if v = [] ∨ s.read v = [] then some (v, 0)
  else
    (eraseLoop s (v.length + (s.read v).length) ⟨v, 0, 0, 0, 0⟩).bind fun st =>
      if st.aMov ≠ st.a then
        (moveFrom (v.length - st.a) st.a st.aMov st.vset).map fun w =>
          (w.take (st.aMov + (v.length - st.a)), st.erased)
      else some (st.vset, st.erased)

/-- The loop of `VSet::subsetOf`. -/
def subsetLoop : List T → List T → Bool
  | [], _ => true
  | _ :: _, [] => false
  | x :: xs, y :: ys =>
    if (y :: ys).length < (x :: xs).length then false
    else if x < y then false
    else if x = y then subsetLoop xs ys
    else subsetLoop (x :: xs) ys

/-- `VSet::subsetOf`. -/
def subsetOf (v s : List T) : Bool := if s.length < v.length then false else subsetLoop v s

/-- `VSet::intersects`. -/
def intersects : List T → List T → Bool
  | x :: xs, y :: ys =>
    if x = y then true
    else if x < y then intersects xs (y :: ys)
    else intersects (x :: xs) ys
  | _, _ => false
termination_by xs ys => xs.length + ys.length

/-- The loop of `VSet::intersectWith`. -/
def intersectFrom (result : List T) : List T → List T → List T
  | x :: xs, y :: ys =>
    if x = y then intersectFrom (insert result x).1 xs ys
    else if x < y then intersectFrom result xs (y :: ys)
    else intersectFrom result (x :: xs) ys
  | _, _ => result
termination_by xs ys => xs.length + ys.length

/-- `VSet::intersectWith`. -/
def intersectWith (v s : List T) : List T := intersectFrom [] v s

/-! ## Sorted vectors -/

/-- The vector is sorted and has no duplicates. -/
abbrev IsSorted (v : List T) : Prop := v.Pairwise (· < ·)

variable {v s w : List T}

lemma IsSorted.nodup (hv : IsSorted v) : v.Nodup := hv.imp ne_of_lt

lemma IsSorted.card_toFinset (hv : IsSorted v) : v.toFinset.card = v.length :=
  List.toFinset_card_of_nodup hv.nodup

/-- Elements before a position are smaller. -/
lemma IsSorted.lt_of_mem_take (hv : IsSorted v) {a : ℕ} {x y : T} (hx : v[a]? = some x)
    (hy : y ∈ v.take a) : y < x := by
  obtain ⟨j, hj⟩ := List.mem_iff_getElem?.mp hy
  rw [List.getElem?_take] at hj
  split at hj
  next hlt =>
    obtain ⟨hlen, rfl⟩ := List.getElem?_eq_some_iff.mp hx
    obtain ⟨hlen', rfl⟩ := List.getElem?_eq_some_iff.mp hj
    exact List.pairwise_iff_getElem.mp hv j a hlen' hlen hlt
  next => cases hj

/-- One more element of a front part. -/
lemma toFinset_take_succ {a : ℕ} {x : T} (hx : v[a]? = some x) :
    (v.take (a + 1)).toFinset = Insert.insert x (v.take a).toFinset := by
  rw [List.take_add_one, hx, Option.toList_some, List.toFinset_append, List.toFinset_cons,
    List.toFinset_nil, insert_empty_eq, Finset.union_comm]
  rfl

/-! ### Elements -/

/-- The binary search finds the elements. -/
lemma getElem?_position_iff (hv : IsSorted v) (x : T) : v[position v x]? = some x ↔ x ∈ v := by
  have hpart : Partitioned (fun y => decide (y < x)) v :=
    partitioned_of_sorted hv fun y _ z _ hyz hz => decide_eq_true (hyz.trans (of_decide_eq_true hz))
  rw [position, getElem?_lowerBound_eq_some hv hpart]
  simp only [lt_irrefl, decide_false, decide_eq_true_eq, imp_self, implies_true, and_true]

lemma find_isSome (hv : IsSorted v) (x : T) : (find v x).isSome ↔ x ∈ v := by
  rw [find, ← getElem?_position_iff hv]
  split <;> simp_all

lemma insert_spec (hv : IsSorted v) (x : T) :
    IsSorted (insert v x).1 ∧ (insert v x).1.toFinset = Insert.insert x v.toFinset ∧
      ((insert v x).2 = true ↔ x ∉ v) := by
  refine ⟨pairwise_sortedInsert hv x, ?_, ?_⟩
  · ext y
    rw [List.mem_toFinset, insert, mem_sortedInsert, Finset.mem_insert, List.mem_toFinset]
  · rw [insert, decide_eq_true_eq, ne_eq, getElem?_position_iff hv]

lemma erase_spec (hv : IsSorted v) (x : T) :
    IsSorted (erase v x).1 ∧ (erase v x).1.toFinset = v.toFinset.erase x ∧
      (erase v x).2 = if x ∈ v then 1 else 0 := by
  rw [erase]
  split
  next h =>
    have hmem := (getElem?_position_iff hv x).mp h
    obtain ⟨hlen, hget⟩ := List.getElem?_eq_some_iff.mp h
    have heq : v.erase x = v.eraseIdx (position v x) := by
      conv_lhs => rw [← hget]
      exact hv.nodup.erase_getElem _ hlen
    refine ⟨hv.sublist (List.eraseIdx_sublist _ _), ?_, (if_pos hmem).symm⟩
    ext y
    rw [← heq, List.mem_toFinset, hv.nodup.mem_erase_iff, Finset.mem_erase, List.mem_toFinset]
  next h =>
    have hmem : x ∉ v := fun hx => h ((getElem?_position_iff hv x).mpr hx)
    refine ⟨hv, ?_, (if_neg hmem).symm⟩
    rw [Finset.erase_eq_of_notMem (fun hx => hmem (List.mem_toFinset.mp hx))]

/-! ### Inserting a set -/

/-- The first loop counts the elements that are new. -/
lemma countNew_eq (hv : IsSorted v) (hs : IsSorted s) :
    countNew v s = (s.toFinset \ v.toFinset).card := by
  fun_induction countNew v s with
  | case1 ys => rw [List.toFinset_nil, Finset.sdiff_empty, hs.card_toFinset]
  | case2 x xs => rw [List.toFinset_nil, Finset.empty_sdiff, Finset.card_empty]
  | case3 x xs y ys hlt ih =>
    rw [ih (List.pairwise_cons.mp hv).2 hs, List.toFinset_cons (a := x)]
    have hx : x ∉ (y :: ys).toFinset := by
      rw [List.mem_toFinset, List.mem_cons, not_or]
      exact ⟨hlt.ne, fun hx => lt_asymm hlt ((List.pairwise_cons.mp hs).1 x hx)⟩
    rw [Finset.sdiff_insert_of_notMem hx]
  | case4 xs x ys hlt ih =>
    rw [ih (List.pairwise_cons.mp hv).2 (List.pairwise_cons.mp hs).2, List.toFinset_cons,
      List.toFinset_cons]
    have hx : x ∉ ys.toFinset := fun hx =>
      lt_irrefl x ((List.pairwise_cons.mp hs).1 x (List.mem_toFinset.mp hx))
    rw [Finset.insert_sdiff_of_mem _ (Finset.mem_insert_self x _),
      Finset.sdiff_insert_of_notMem hx]
  | case5 x xs y ys hlt hne ih =>
    have hgt : y < x := lt_of_le_of_ne (not_lt.mp hlt) (Ne.symm hne)
    have hy : y ∉ (x :: xs).toFinset := by
      rw [List.mem_toFinset, List.mem_cons, not_or]
      exact ⟨hgt.ne, fun hy => lt_asymm hgt ((List.pairwise_cons.mp hv).1 y hy)⟩
    have hy' : y ∉ ys.toFinset \ (x :: xs).toFinset := fun hy =>
      lt_irrefl y ((List.pairwise_cons.mp hs).1 y (List.mem_toFinset.mp (Finset.mem_sdiff.mp hy).1))
    rw [ih hv (List.pairwise_cons.mp hs).2, List.toFinset_cons (a := y),
      Finset.insert_sdiff_of_notMem _ hy, Finset.card_insert_of_notMem hy']

/-- The elements of two front parts. -/
def front (v s : List T) (nA nB : ℕ) : Finset T := (v.take nA).toFinset ∪ (s.take nB).toFinset

/-- **The invariant of the second loop.**  The positions from `n` on hold a sorted list of elements
that are greater than those left, and there is room for just these. -/
structure Merging (v s : List T) (n nA nB : ℕ) (w : List T) : Prop where
  nA_le : nA ≤ v.length
  nB_le : nB ≤ s.length
  n_le : n ≤ w.length
  room : n = (front v s nA nB).card
  take_eq : w.take nA = v.take nA
  sorted : IsSorted (w.drop n)
  lt_done : ∀ x ∈ front v s nA nB, ∀ d ∈ w.drop n, x < d

/-- One round writes the greatest element that is left. -/
lemma Merging.step (hv : IsSorted v) {i nA nB nA' nB' : ℕ} {m : T}
    (h : Merging v s (i + 1) nA nB w) (hA : nA' ≤ nA) (hB : nB' ≤ nB)
    (hm : front v s nA nB = Insert.insert m (front v s nA' nB'))
    (hgreatest : ∀ x ∈ front v s nA' nB', x < m) :
    Merging v s i nA' nB' (w.set i m) ∧ (w.set i m).drop i = m :: w.drop (i + 1) := by
  have hlt : i < w.length := h.n_le
  have hdrop : (w.set i m).drop i = m :: w.drop (i + 1) := by
    rw [List.drop_eq_getElem_cons (by rwa [List.length_set]), List.getElem_set_self,
      List.drop_set_of_lt (Nat.lt_succ_self i)]
  have hnotMem : m ∉ front v s nA' nB' := fun hmem => lt_irrefl m (hgreatest m hmem)
  have hroom : i = (front v s nA' nB').card := by
    have hcard := h.room
    rw [hm, Finset.card_insert_of_notMem hnotMem] at hcard
    exact Nat.succ_injective hcard
  have hle : nA' ≤ i := by
    have hsub : (v.take nA').toFinset ⊆ front v s nA' nB' := Finset.subset_union_left
    have hcard := Finset.card_le_card hsub
    have hsorted : IsSorted (v.take nA') := hv.sublist (List.take_sublist _ _)
    rw [hsorted.card_toFinset, List.length_take, ← hroom] at hcard
    have := h.nA_le
    omega
  refine ⟨⟨hA.trans h.nA_le, hB.trans h.nB_le, ?_, hroom, ?_, ?_, ?_⟩, hdrop⟩
  · rw [List.length_set]
    exact hlt.le
  · rw [List.take_set_of_le hle]
    have htake := congrArg (List.take nA') h.take_eq
    rwa [List.take_take, List.take_take, Nat.min_eq_left hA] at htake
  · rw [hdrop]
    refine List.pairwise_cons.mpr ⟨fun d hd => h.lt_done m ?_ d hd, h.sorted⟩
    rw [hm]
    exact Finset.mem_insert_self _ _
  · intro x hx d hd
    rw [hdrop] at hd
    obtain rfl | hd := List.mem_cons.mp hd
    · exact hgreatest x hx
    · refine h.lt_done x ?_ d hd
      rw [hm]
      exact Finset.mem_insert_of_mem hx

/-- The greatest element left, if it is in the argument only. -/
lemma front_succ_right {a b : ℕ} {y : T} (hy : s[b]? = some y) :
    front v s a (b + 1) = Insert.insert y (front v s a b) := by
  rw [front, toFinset_take_succ hy, Finset.union_insert, front]

/-- The greatest element left, if it is in the set only. -/
lemma front_succ_left {a b : ℕ} {x : T} (hx : v[a]? = some x) :
    front v s (a + 1) b = Insert.insert x (front v s a b) := by
  rw [front, toFinset_take_succ hx, Finset.insert_union, front]

/-- The element read from the set is the one that was there at first. -/
lemma Merging.getElem?_eq {n a nB : ℕ} (h : Merging v s n (a + 1) nB w) : w[a]? = v[a]? := by
  have hget := congrArg (fun l => l[a]?) h.take_eq
  simpa [List.getElem?_take] using hget

lemma lt_of_mem_front {a b : ℕ} {m : T}
    (hA : ∀ x ∈ v.take a, x < m) (hB : ∀ x ∈ s.take b, x < m) : ∀ x ∈ front v s a b, x < m := by
  intro x hx
  obtain hx | hx := Finset.mem_union.mp hx
  · exact hA x (List.mem_toFinset.mp hx)
  · exact hB x (List.mem_toFinset.mp hx)

lemma le_of_mem_take_succ (hv : IsSorted v) {a : ℕ} {x z : T} (hx : v[a]? = some x)
    (hz : z ∈ v.take (a + 1)) : z ≤ x := by
  rw [List.take_add_one, hx, List.mem_append] at hz
  obtain hz | hz := hz
  · exact (hv.lt_of_mem_take hx hz).le
  · exact (List.mem_singleton.mp hz).le

/-- **The second loop** ends with all elements in order. -/
lemma mergeFrom_spec (hv : IsSorted v) (hs : IsSorted s) {n nA nB : ℕ}
    (h : Merging v s n nA nB w) : ∃ w', mergeFrom (.other s) n nA nB w = some w' ∧ IsSorted w' ∧
      w'.toFinset = front v s nA nB ∪ (w.drop n).toFinset := by
  -- a round writes `m` and leaves one element less
  have hround : ∀ {i nA nB nA' nB' : ℕ} {w : List T} {m : T},
      (∀ {nA nB : ℕ} {w : List T}, Merging v s i nA nB w →
        ∃ w', mergeFrom (.other s) i nA nB w = some w' ∧ IsSorted w' ∧
          w'.toFinset = front v s nA nB ∪ (w.drop i).toFinset) →
      Merging v s (i + 1) nA nB w → nA' ≤ nA → nB' ≤ nB →
      front v s nA nB = Insert.insert m (front v s nA' nB') →
      (∀ x ∈ front v s nA' nB', x < m) →
      ∃ w', mergeFrom (.other s) i nA' nB' (w.set i m) = some w' ∧ IsSorted w' ∧
        w'.toFinset = front v s nA nB ∪ (w.drop (i + 1)).toFinset := by
    intro i nA nB nA' nB' w m ih h hA hB hm hgreatest
    obtain ⟨hnext, hdrop⟩ := h.step hv hA hB hm hgreatest
    obtain ⟨w', hw', hsorted, hmem⟩ := ih hnext
    refine ⟨w', hw', hsorted, ?_⟩
    rw [hmem, hdrop, List.toFinset_cons, hm, Finset.union_insert, Finset.insert_union]
  induction n generalizing nA nB w with
  | zero =>
    refine ⟨w, by rw [mergeFrom], h.sorted, ?_⟩
    rw [Finset.card_eq_zero.mp h.room.symm, Finset.empty_union, List.drop_zero]
  | succ i ih =>
    match nA, nB with
    | 0, 0 =>
      have hroom := h.room
      rw [front, List.take_zero, List.take_zero, List.toFinset_nil, Finset.empty_union,
        Finset.card_empty] at hroom
      exact absurd hroom (Nat.succ_ne_zero i)
    | 0, b + 1 =>
      obtain ⟨y, hy⟩ : ∃ y, s[b]? = some y := ⟨_, List.getElem?_eq_getElem h.nB_le⟩
      have hbelow : ∀ x ∈ front v s 0 b, x < y :=
        lt_of_mem_front (fun x hx => absurd hx List.not_mem_nil) fun x hx =>
          hs.lt_of_mem_take hy hx
      rw [mergeFrom, Operand.read, hy, Option.bind_some]
      exact hround ih h le_rfl (Nat.le_succ b) (front_succ_right hy) hbelow
    | a + 1, 0 =>
      obtain ⟨x, hx⟩ : ∃ x, v[a]? = some x := ⟨_, List.getElem?_eq_getElem h.nA_le⟩
      have hbelow : ∀ z ∈ front v s a 0, z < x :=
        lt_of_mem_front (fun z hz => hv.lt_of_mem_take hx hz) fun z hz =>
          absurd hz List.not_mem_nil
      rw [mergeFrom, h.getElem?_eq, hx, Option.bind_some]
      exact hround ih h (Nat.le_succ a) le_rfl (front_succ_left hx) hbelow
    | a + 1, b + 1 =>
      obtain ⟨x, hx⟩ : ∃ x, v[a]? = some x := ⟨_, List.getElem?_eq_getElem h.nA_le⟩
      obtain ⟨y, hy⟩ : ∃ y, s[b]? = some y := ⟨_, List.getElem?_eq_getElem h.nB_le⟩
      have hvx : ∀ z ∈ v.take a, z < x := fun z hz => hv.lt_of_mem_take hx hz
      have hsy : ∀ z ∈ s.take b, z < y := fun z hz => hs.lt_of_mem_take hy hz
      rw [mergeFrom, h.getElem?_eq, hx, Option.bind_some, Operand.read, hy, Option.bind_some]
      split
      next hlt =>
        refine hround ih h le_rfl (Nat.le_succ b) (front_succ_right hy) (lt_of_mem_front ?_ hsy)
        exact fun z hz => (le_of_mem_take_succ hv hx hz).trans_lt hlt
      next hge =>
        split
        next heq =>
          refine hround ih h (Nat.le_succ a) (Nat.le_succ b) ?_ (lt_of_mem_front hvx ?_)
          · rw [front_succ_left hx, front_succ_right hy, heq, Finset.insert_idem]
          · rwa [heq]
        next hne =>
          have hgt : y < x := lt_of_le_of_ne (not_lt.mp hge) (Ne.symm hne)
          refine hround ih h (Nat.le_succ a) le_rfl (front_succ_left hx) (lt_of_mem_front hvx ?_)
          exact fun z hz => (le_of_mem_take_succ hs hy hz).trans_lt hgt

/-- The loop begins with the whole sets, behind which the vector has grown by the elements that are
new. -/
lemma merging_append (hv : IsSorted v) (hs : IsSorted s) (first : T) :
    Merging v s (v.length + countNew v s) v.length s.length
      (v ++ List.replicate (countNew v s) first) := by
  have hdrop : (v ++ List.replicate (countNew v s) first).drop (v.length + countNew v s) = [] := by
    rw [List.drop_eq_nil_iff, List.length_append, List.length_replicate]
  refine ⟨le_rfl, le_rfl, ?_, ?_, ?_, ?_, ?_⟩
  · rw [List.length_append, List.length_replicate]
  · rw [front, List.take_length, List.take_length, Finset.union_comm, ← Finset.card_sdiff_add_card,
      countNew_eq hv hs, hv.card_toFinset, Nat.add_comm]
  · rw [List.take_left, List.take_length]
  · rw [hdrop]
    exact List.Pairwise.nil
  · intro x _ d hd
    rw [hdrop] at hd
    exact absurd hd List.not_mem_nil

/-- **Inserting a set** gives the union, and counts the elements that are new. -/
lemma insertSet_spec (hv : IsSorted v) (s : Operand T) (hs : IsSorted (s.read v)) :
    ∃ w n, insertSet v s = some (w, n) ∧ IsSorted w ∧
      w.toFinset = v.toFinset ∪ (s.read v).toFinset ∧
      n = ((s.read v).toFinset \ v.toFinset).card := by
  rw [insertSet]
  split
  next hempty =>
    refine ⟨_, _, rfl, hs, ?_, ?_⟩ <;> rw [hempty, List.toFinset_nil]
    · rw [Finset.empty_union, ← hempty]
    · rw [Finset.sdiff_empty, ← hempty, hs.card_toFinset]
  split
  next hempty =>
    refine ⟨_, _, rfl, hv, ?_, ?_⟩ <;> rw [hempty, List.toFinset_nil]
    · rw [Finset.union_empty]
    · rw [Finset.empty_sdiff, Finset.card_empty]
  split
  next hone =>
    obtain ⟨x, hx⟩ := List.length_eq_one_iff.mp hone
    obtain ⟨hsorted, hmem, hnew⟩ := insert_spec hv x
    have hget : (s.read v)[0]? = some x := by rw [hx]; rfl
    rw [hget, Option.map_some]
    refine ⟨_, _, rfl, hsorted, ?_, ?_⟩ <;> rw [hx]
    · rw [hmem, Finset.union_comm]
      rfl
    · by_cases hxv : x ∈ v
      · rw [if_neg (fun h => hnew.mp h hxv), Finset.card_eq_zero.mpr]
        simpa using hxv
      · rw [if_pos (hnew.mpr hxv)]
        have hsdiff : [x].toFinset \ v.toFinset = {x} := by
          ext y
          simp only [Finset.mem_sdiff, List.mem_toFinset, List.mem_singleton, Finset.mem_singleton]
          exact ⟨And.left, fun h => ⟨h, h ▸ hxv⟩⟩
        rw [hsdiff, Finset.card_singleton]
  dsimp only
  split
  next hzero =>
    rw [countNew_eq hv hs] at hzero
    refine ⟨_, _, rfl, hv, ?_, hzero.symm⟩
    have hsub := Finset.sdiff_eq_empty_iff_subset.mp (Finset.card_eq_zero.mp hzero)
    rw [Finset.union_eq_left.mpr hsub]
  next hne hne' _ hcount =>
    rw [countNew_eq hv hs] at hcount
    cases s with
    | this =>
      -- the set itself has nothing new
      rw [Operand.read, Finset.sdiff_self] at hcount
      exact absurd rfl hcount
    | other s =>
      change IsSorted s at hs
      obtain ⟨first, rest, rfl⟩ := List.exists_cons_of_ne_nil hne
      obtain ⟨w, hw, hsorted, hmem⟩ := mergeFrom_spec hv hs (merging_append hv hs first)
      refine ⟨w, _, ?_, hsorted, ?_, countNew_eq hv hs⟩
      · rw [List.getElem?_cons_zero, Option.bind_some, Operand.read, hw, Option.map_some]
      · rw [hmem, front, List.take_length, List.take_length, List.drop_of_length_le, Operand.read,
          List.toFinset_nil, Finset.union_empty]
        rw [List.length_append, List.length_replicate]

/-! ### Erasing a set -/

/-- **The invariant of the loop over two sets.**  The elements that stay have been moved to the
front, and the elements of `s` that have been passed are smaller than those of `v` still to come. -/
structure Erasing (v s : List T) (st : EraseState T) : Prop where
  length : st.vset.length = v.length
  a_le : st.a ≤ v.length
  aMov_le : st.aMov ≤ st.a
  erased : st.erased + st.aMov = st.a
  moved : st.vset.take st.aMov = (v.take st.a).filter fun x => x ∉ s
  rest : st.vset.drop st.a = v.drop st.a
  passed : ∀ y ∈ s.take st.b, ∀ x ∈ v.drop st.a, y < x

/-- An element is moved to the front. -/
lemma take_set_succ {α : Type*} {w : List α} {aMov : ℕ} (h : aMov < w.length) (x : α) :
    (w.set aMov x).take (aMov + 1) = w.take aMov ++ [x] := by
  rw [List.take_add_one, List.take_set_of_le le_rfl, List.getElem?_set_self h, Option.toList_some]

/-- The next element of the set. -/
lemma Erasing.getElem?_eq {st : EraseState T} (h : Erasing v s st) {x : T}
    (hx : st.vset[st.a]? = some x) : v[st.a]? = some x ∧ v.drop st.a = x :: v.drop (st.a + 1) := by
  have hget : v[st.a]? = some x := by
    have hrest := congrArg (fun l => l[0]?) h.rest
    simpa [List.getElem?_drop, hx] using hrest.symm
  obtain ⟨hlt, rfl⟩ := List.getElem?_eq_some_iff.mp hget
  exact ⟨hget, List.drop_eq_getElem_cons hlt⟩

/-- Elements behind a position are greater. -/
lemma IsSorted.lt_of_mem_drop (hv : IsSorted v) {a : ℕ} {x y : T} (hx : v[a]? = some x)
    (hy : y ∈ v.drop (a + 1)) : x < y := by
  obtain ⟨hlt, rfl⟩ := List.getElem?_eq_some_iff.mp hx
  have hdrop : IsSorted (v.drop a) := hv.sublist (List.drop_sublist _ _)
  rw [List.drop_eq_getElem_cons hlt] at hdrop
  exact (List.pairwise_cons.mp hdrop).1 y hy

/-- What comes behind the next element. -/
lemma Erasing.drop_succ {st : EraseState T} (h : Erasing v s st) :
    st.vset.drop (st.a + 1) = v.drop (st.a + 1) := by
  have hrest := congrArg (List.drop 1) h.rest
  rwa [List.drop_drop, List.drop_drop] at hrest

/-- An element that is smaller than the next one of `s` is not in `s`. -/
lemma Erasing.notMem (hs : IsSorted s) {st : EraseState T} (h : Erasing v s st) {x y : T}
    (hx : st.vset[st.a]? = some x) (hy : s[st.b]? = some y) (hlt : x < y) : x ∉ s := by
  intro hmem
  rw [← List.take_append_drop st.b s, List.mem_append] at hmem
  obtain hmem | hmem := hmem
  · have hdrop := (h.getElem?_eq hx).2
    exact lt_irrefl x (h.passed x hmem x (by rw [hdrop]; exact List.mem_cons_self))
  · obtain ⟨hlen, rfl⟩ := List.getElem?_eq_some_iff.mp hy
    rw [List.drop_eq_getElem_cons hlen] at hmem
    obtain hmem | hmem := List.mem_cons.mp hmem
    · exact hlt.ne hmem
    · exact lt_asymm hlt (hs.lt_of_mem_drop hy hmem)

/-- The next element is in `s` as well: it is erased. -/
lemma Erasing.eraseNext (hv : IsSorted v) (hs : IsSorted s) {st : EraseState T}
    (h : Erasing v s st) (ha : st.a < v.length) {x : T} (hx : st.vset[st.a]? = some x)
    (hy : s[st.b]? = some x) :
    Erasing v s { st with a := st.a + 1, b := st.b + 1, erased := st.erased + 1 } := by
  obtain ⟨hxv, -⟩ := h.getElem?_eq hx
  have haMov := h.aMov_le
  have herased := h.erased
  refine ⟨h.length, ha, by dsimp only; omega, by dsimp only; omega, ?_, h.drop_succ, ?_⟩
  · dsimp only
    rw [List.take_add_one, hxv, Option.toList_some, List.filter_append, h.moved]
    have hmem : x ∈ s := List.mem_of_getElem? hy
    simp [hmem]
  · intro z hz z' hz'
    exact (le_of_mem_take_succ hs hy hz).trans_lt (hv.lt_of_mem_drop hxv hz')

/-- The next element is smaller than the one of `s`: it stays. -/
lemma Erasing.keepNext (hs : IsSorted s) {st : EraseState T} (h : Erasing v s st)
    (ha : st.a < v.length) {x y : T} (hx : st.vset[st.a]? = some x) (hy : s[st.b]? = some y)
    (hlt : x < y) :
    Erasing v s { st with
      vset := if st.aMov ≠ st.a then st.vset.set st.aMov x else st.vset
      a := st.a + 1
      aMov := st.aMov + 1 } := by
  obtain ⟨hxv, hdrop⟩ := h.getElem?_eq hx
  have haMov := h.aMov_le
  have herased := h.erased
  have hlength := h.length
  have hset : (if st.aMov ≠ st.a then st.vset.set st.aMov x else st.vset) =
      st.vset.set st.aMov x := by
    split
    · rfl
    next heq =>
      obtain ⟨hlen, rfl⟩ := List.getElem?_eq_some_iff.mp hx
      rw [not_not.mp heq, List.set_getElem_self]
  refine ⟨?_, ha, ?_, ?_, ?_, ?_, fun y hy z hz => h.passed y hy z ?_⟩
  · rw [hset, List.length_set, hlength]
  · dsimp only
    omega
  · dsimp only
    omega
  · dsimp only
    rw [hset, take_set_succ (by omega), List.take_add_one, hxv, Option.toList_some,
      List.filter_append, h.moved]
    simp [h.notMem hs hx hy hlt]
  · dsimp only
    rw [hset, List.drop_set_of_lt (Nat.lt_succ_of_le haMov), h.drop_succ]
  · rw [hdrop]
    exact List.mem_cons_of_mem _ hz

/-- The next element of `s` is smaller: it is passed. -/
lemma Erasing.passNext (hv : IsSorted v) (hs : IsSorted s) {st : EraseState T}
    (h : Erasing v s st) {x y : T} (hx : st.vset[st.a]? = some x) (hy : s[st.b]? = some y)
    (hlt : y < x) : Erasing v s { st with b := st.b + 1 } := by
  obtain ⟨hxv, hdrop⟩ := h.getElem?_eq hx
  refine ⟨h.length, h.a_le, h.aMov_le, h.erased, h.moved, h.rest, fun z hz z' hz' => ?_⟩
  refine (le_of_mem_take_succ hs hy hz).trans_lt ?_
  dsimp only at hz'
  rw [hdrop] at hz'
  obtain rfl | hz' := List.mem_cons.mp hz'
  · exact hlt
  · exact hlt.trans (hv.lt_of_mem_drop hxv hz')

/-- **One round** of the loop over two sets. -/
lemma Erasing.step (hv : IsSorted v) (hs : IsSorted s) {st : EraseState T} (h : Erasing v s st)
    (ha : st.a < v.length) (hb : st.b < s.length) :
    ∃ st', eraseStep (.other s) st = some st' ∧ Erasing v s st' ∧
      v.length - st'.a + (s.length - st'.b) < v.length - st.a + (s.length - st.b) := by
  obtain ⟨x, hx⟩ : ∃ x, st.vset[st.a]? = some x :=
    ⟨_, List.getElem?_eq_getElem (h.length ▸ ha)⟩
  obtain ⟨y, hy⟩ : ∃ y, s[st.b]? = some y := ⟨_, List.getElem?_eq_getElem hb⟩
  rw [eraseStep, hx, Option.bind_some, Operand.read, hy, Option.map_some]
  split
  next heq =>
    exact ⟨_, rfl, h.eraseNext hv hs ha hx (heq ▸ hy), by dsimp only; omega⟩
  next hne =>
    split
    next hlt => exact ⟨_, rfl, h.keepNext hs ha hx hy hlt, by dsimp only; omega⟩
    next hge =>
      have hgt : y < x := lt_of_le_of_ne (not_lt.mp hge) (Ne.symm hne)
      exact ⟨_, rfl, h.passNext hv hs hx hy hgt, by dsimp only; omega⟩

/-- **The loop over two sets** ends when one of them has been passed. -/
lemma eraseLoop_spec (hv : IsSorted v) (hs : IsSorted s) {fuel : ℕ} {st : EraseState T}
    (h : Erasing v s st) (hfuel : v.length - st.a + (s.length - st.b) ≤ fuel) :
    ∃ st', eraseLoop (.other s) fuel st = some st' ∧ Erasing v s st' ∧
      (v.length ≤ st'.a ∨ s.length ≤ st'.b) := by
  induction fuel generalizing st with
  | zero => exact ⟨st, rfl, h, by omega⟩
  | succ fuel ih =>
    rw [eraseLoop, Operand.read, h.length]
    split
    next hlt =>
      obtain ⟨st', hst', hnext, hless⟩ := h.step hv hs hlt.1 hlt.2
      rw [hst', Option.bind_some]
      exact ih hnext (by omega)
    next hge => exact ⟨st, rfl, h, by omega⟩

/-- The loop over the set itself finds all elements equal. -/
lemma eraseLoop_this {fuel a : ℕ} (ha : a ≤ v.length) (hfuel : v.length - a ≤ fuel) :
    eraseLoop .this fuel ⟨v, a, a, 0, a⟩ = some ⟨v, v.length, v.length, 0, v.length⟩ := by
  induction fuel generalizing a with
  | zero =>
    obtain rfl : a = v.length := by omega
    rfl
  | succ fuel ih =>
    rw [eraseLoop, Operand.read]
    split
    next hlt =>
      replace hlt : a < v.length := hlt.1
      rw [eraseStep]
      simp only [Operand.read, List.getElem?_eq_getElem hlt, Option.bind_some, Option.map_some,
        if_true]
      exact ih hlt (by omega)
    next hge =>
      obtain rfl : a = v.length := le_antisymm ha (not_lt.mp fun hlt => hge ⟨hlt, hlt⟩)
      rfl

/-- **The second loop** moves the rest to the front. -/
lemma moveFrom_spec {α : Type*} {w : List α} {n a aMov : ℕ} (hlen : a + n = w.length)
    (hle : aMov ≤ a) :
    ∃ w', moveFrom n a aMov w = some w' ∧
      w'.take (aMov + n) = w.take aMov ++ w.drop a := by
  induction n generalizing a aMov w with
  | zero =>
    refine ⟨w, rfl, ?_⟩
    rw [List.drop_of_length_le (by omega), List.append_nil, Nat.add_zero]
  | succ n ih =>
    have ha : a < w.length := by omega
    have hlen' : a + 1 + n = (w.set aMov w[a]).length := by
      rw [List.length_set]
      omega
    obtain ⟨w', hw', htake⟩ := ih hlen' (Nat.succ_le_succ hle)
    refine ⟨w', ?_, ?_⟩
    · rw [moveFrom, List.getElem?_eq_getElem ha, Option.bind_some, hw']
    · rw [show aMov + (n + 1) = aMov + 1 + n by omega, htake, take_set_succ (by omega),
        List.drop_set_of_lt (Nat.lt_succ_of_le hle), List.append_assoc, List.singleton_append,
        ← List.drop_eq_getElem_cons ha]

/-- At the end the elements that are not in `s` are those that were moved and the rest. -/
lemma Erasing.filter_eq {st : EraseState T} (h : Erasing v s st)
    (hend : v.length ≤ st.a ∨ s.length ≤ st.b) :
    st.vset.take st.aMov ++ st.vset.drop st.a = v.filter fun x => x ∉ s := by
  have hrest : (v.drop st.a).filter (fun x => x ∉ s) = v.drop st.a := by
    refine List.filter_eq_self.mpr fun x hx => decide_eq_true fun hmem => ?_
    obtain hend | hend := hend
    · rw [List.drop_of_length_le hend] at hx
      exact List.not_mem_nil hx
    · rw [← List.take_of_length_le hend] at hmem
      exact lt_irrefl x (h.passed x hmem x hx)
  conv_rhs => rw [← List.take_append_drop st.a v, List.filter_append, hrest]
  rw [h.moved, h.rest]

/-- What is left after another set is erased, as a list. -/
lemma eraseSet_other (hv : IsSorted v) (hs : IsSorted s) (hne : v ≠ []) (hne' : s ≠ []) :
    ∃ n, eraseSet v (.other s) = some (v.filter (fun x => x ∉ s), n) ∧
      n + (v.filter fun x => x ∉ s).length = v.length := by
  have hbegin : Erasing v s ⟨v, 0, 0, 0, 0⟩ :=
    ⟨rfl, Nat.zero_le _, le_rfl, rfl, rfl, rfl, fun y hy => absurd hy List.not_mem_nil⟩
  obtain ⟨st, hst, h, hend⟩ := eraseLoop_spec hv hs hbegin le_rfl
  have hfilter := h.filter_eq hend
  have hcount : st.erased + (v.filter fun x => x ∉ s).length = v.length := by
    have hlen := congrArg List.length hfilter
    rw [List.length_append, List.length_take, List.length_drop, h.length] at hlen
    have := h.erased
    have := h.aMov_le
    have := h.a_le
    omega
  refine ⟨st.erased, ?_, hcount⟩
  rw [eraseSet, if_neg (not_or.mpr ⟨hne, by rwa [Operand.read]⟩), Operand.read]
  simp only [Nat.sub_zero] at hst
  rw [hst, Option.bind_some]
  split
  next hmoved =>
    have hlen : st.a + (v.length - st.a) = st.vset.length := by
      have := h.length
      have := h.a_le
      omega
    obtain ⟨w, hw, htake⟩ := moveFrom_spec hlen h.aMov_le
    rw [hw, Option.map_some, htake, hfilter]
  next heq => rw [← hfilter, not_not.mp heq, List.take_append_drop]

/-- What is left after the set itself is erased. -/
lemma eraseSet_this (hne : v ≠ []) : eraseSet v .this = some ([], v.length) := by
  have hlt : 0 < v.length := List.length_pos_of_ne_nil hne
  rw [eraseSet, Operand.read, if_neg (not_or.mpr ⟨hne, hne⟩),
    eraseLoop_this (Nat.zero_le _) (by omega), Option.bind_some, if_pos hlt.ne, Nat.sub_self]
  rfl

/-- What is left after a set is erased, as a list. -/
lemma eraseSet_eq_filter (hv : IsSorted v) (s : Operand T) (hs : IsSorted (s.read v)) :
    ∃ n, eraseSet v s = some (v.filter (fun x => x ∉ s.read v), n) ∧
      n + (v.filter fun x => x ∉ s.read v).length = v.length := by
  by_cases hempty : v = [] ∨ s.read v = []
  · have hfilter : v.filter (fun x => x ∉ s.read v) = v := by
      refine List.filter_eq_self.mpr fun x hx => decide_eq_true ?_
      obtain rfl | hempty := hempty
      · exact absurd hx List.not_mem_nil
      · rw [hempty]
        exact List.not_mem_nil
    rw [eraseSet, if_pos hempty]
    exact ⟨0, by rw [hfilter], by rw [hfilter, Nat.zero_add]⟩
  · obtain ⟨hne, hne'⟩ := not_or.mp hempty
    cases s with
    | this =>
      have hfilter : v.filter (fun x => x ∉ Operand.this.read v) = [] :=
        List.filter_eq_nil_iff.mpr fun x hx hout => of_decide_eq_true hout hx
      rw [hfilter, eraseSet_this hne]
      exact ⟨v.length, rfl, Nat.add_zero _⟩
    | other s => exact eraseSet_other hv hs hne hne'

/-- **Erasing a set** gives the difference, and counts the elements that were there. -/
lemma eraseSet_spec (hv : IsSorted v) (s : Operand T) (hs : IsSorted (s.read v)) :
    ∃ w n, eraseSet v s = some (w, n) ∧ IsSorted w ∧
      w.toFinset = v.toFinset \ (s.read v).toFinset ∧
      n = (v.toFinset ∩ (s.read v).toFinset).card := by
  obtain ⟨n, heq, hcount⟩ := eraseSet_eq_filter hv s hs
  have hsorted : IsSorted (v.filter fun x => x ∉ s.read v) := hv.sublist List.filter_sublist
  have hmem : (v.filter fun x => x ∉ s.read v).toFinset = v.toFinset \ (s.read v).toFinset := by
    ext x
    simp only [List.mem_toFinset, List.mem_filter, decide_eq_true_eq, Finset.mem_sdiff]
  refine ⟨_, n, heq, hsorted, hmem, ?_⟩
  rw [← hsorted.card_toFinset, ← hv.card_toFinset, hmem,
    ← Finset.card_sdiff_add_card_inter v.toFinset (s.read v).toFinset] at hcount
  omega

/-! ### Queries -/

/-- An element that is smaller than the first one of a sorted vector is not in it. -/
lemma notMem_cons_of_lt {x y : T} {ys : List T} (hs : IsSorted (y :: ys)) (hlt : x < y) :
    x ∉ y :: ys := by
  rw [List.mem_cons, not_or]
  exact ⟨hlt.ne, fun hx => lt_asymm hlt ((List.pairwise_cons.mp hs).1 x hx)⟩

/-- **Inclusion.** -/
lemma subsetLoop_iff (hv : IsSorted v) (hs : IsSorted s) : subsetLoop v s = true ↔ v ⊆ s := by
  induction s generalizing v with
  | nil =>
    cases v with
    | nil => exact iff_of_true rfl (List.Subset.refl _)
    | cons x xs =>
      exact iff_of_false Bool.false_ne_true fun h => List.not_mem_nil (h List.mem_cons_self)
  | cons y ys ih =>
    obtain ⟨-, hys⟩ := List.pairwise_cons.mp hs
    cases v with
    | nil => exact iff_of_true rfl (List.nil_subset _)
    | cons x xs =>
      obtain ⟨hx, hxs⟩ := List.pairwise_cons.mp hv
      rw [subsetLoop]
      split
      next hlen =>
        refine iff_of_false Bool.false_ne_true fun h => ?_
        exact absurd (hv.nodup.subperm h).length_le (not_le.mpr hlen)
      split
      next hlt =>
        exact iff_of_false Bool.false_ne_true fun h =>
          notMem_cons_of_lt hs hlt (h List.mem_cons_self)
      split
      next heq =>
        subst heq
        rw [ih hxs hys]
        refine ⟨List.cons_subset_cons x, fun h z hz => ?_⟩
        exact (List.mem_cons.mp (h (List.mem_cons_of_mem x hz))).resolve_left (hx z hz).ne'
      next hlt hne =>
        -- no element of the set is as small as `y`
        have hgt : y < x := lt_of_le_of_ne (not_lt.mp hlt) (Ne.symm hne)
        have hall : ∀ z ∈ x :: xs, y ≠ z := by
          rintro z hz rfl
          exact notMem_cons_of_lt hv hgt hz
        rw [ih hv hys]
        exact ⟨fun h => List.subset_cons_of_subset y h, fun h z hz =>
          (List.mem_cons.mp (h hz)).resolve_left (hall z hz).symm⟩

lemma subsetOf_iff (hv : IsSorted v) (hs : IsSorted s) :
    subsetOf v s = true ↔ v.toFinset ⊆ s.toFinset := by
  have hiff : v.toFinset ⊆ s.toFinset ↔ v ⊆ s := by
    simp only [Finset.subset_iff, List.subset_def, List.mem_toFinset]
  rw [hiff, subsetOf]
  split
  next hlen =>
    refine iff_of_false Bool.false_ne_true fun h => ?_
    exact absurd (hv.nodup.subperm h).length_le (not_le.mpr hlen)
  next => exact subsetLoop_iff hv hs

/-- **Common elements.** -/
lemma intersects_iff (hv : IsSorted v) (hs : IsSorted s) :
    intersects v s = true ↔ (v.toFinset ∩ s.toFinset).Nonempty := by
  fun_induction intersects v s with
  | case1 xs x ys =>
    refine iff_of_true rfl ⟨x, ?_⟩
    simp only [Finset.mem_inter, List.mem_toFinset, List.mem_cons_self, and_self]
  | case2 x xs y ys hne hlt ih =>
    have hx : x ∉ (y :: ys).toFinset := fun hx =>
      notMem_cons_of_lt hs hlt (List.mem_toFinset.mp hx)
    rw [ih (List.pairwise_cons.mp hv).2 hs, List.toFinset_cons (a := x),
      Finset.insert_inter_of_notMem hx]
  | case3 x xs y ys hne hlt ih =>
    have hgt : y < x := lt_of_le_of_ne (not_lt.mp hlt) (Ne.symm hne)
    have hy : y ∉ (x :: xs).toFinset := fun hy =>
      notMem_cons_of_lt hv hgt (List.mem_toFinset.mp hy)
    rw [ih hv (List.pairwise_cons.mp hs).2, List.toFinset_cons (a := y),
      Finset.inter_insert_of_notMem hy]
  | case4 v s hnil =>
    refine iff_of_false Bool.false_ne_true fun ⟨x, hx⟩ => ?_
    obtain ⟨hxv, hxs⟩ := Finset.mem_inter.mp hx
    cases v with
    | nil => exact List.not_mem_nil (List.mem_toFinset.mp hxv)
    | cons x' xs =>
      cases s with
      | nil => exact List.not_mem_nil (List.mem_toFinset.mp hxs)
      | cons y ys => exact hnil x' xs y ys rfl rfl

/-- **Intersection**, from a set of elements that have been found. -/
lemma intersectFrom_spec {result : List T} (hresult : IsSorted result) (hv : IsSorted v)
    (hs : IsSorted s) : IsSorted (intersectFrom result v s) ∧
      (intersectFrom result v s).toFinset = result.toFinset ∪ (v.toFinset ∩ s.toFinset) := by
  fun_induction intersectFrom result v s with
  | case1 result xs x ys ih =>
    obtain ⟨hsorted, hmem, -⟩ := insert_spec hresult x
    obtain ⟨hsorted', hmem'⟩ := ih hsorted (List.pairwise_cons.mp hv).2 (List.pairwise_cons.mp hs).2
    refine ⟨hsorted', ?_⟩
    rw [hmem', hmem, List.toFinset_cons, List.toFinset_cons, ← Finset.insert_inter_distrib,
      Finset.union_insert, Finset.insert_union]
  | case2 result x xs y ys hne hlt ih =>
    have hx : x ∉ (y :: ys).toFinset := fun hx =>
      notMem_cons_of_lt hs hlt (List.mem_toFinset.mp hx)
    obtain ⟨hsorted, hmem⟩ := ih hresult (List.pairwise_cons.mp hv).2 hs
    exact ⟨hsorted, by rw [hmem, List.toFinset_cons (a := x), Finset.insert_inter_of_notMem hx]⟩
  | case3 result x xs y ys hne hlt ih =>
    have hgt : y < x := lt_of_le_of_ne (not_lt.mp hlt) (Ne.symm hne)
    have hy : y ∉ (x :: xs).toFinset := fun hy =>
      notMem_cons_of_lt hv hgt (List.mem_toFinset.mp hy)
    obtain ⟨hsorted, hmem⟩ := ih hresult hv (List.pairwise_cons.mp hs).2
    exact ⟨hsorted, by rw [hmem, List.toFinset_cons (a := y), Finset.inter_insert_of_notMem hy]⟩
  | case4 result v s hnil =>
    refine ⟨hresult, ?_⟩
    cases v with
    | nil => rw [List.toFinset_nil, Finset.empty_inter, Finset.union_empty]
    | cons x xs =>
      cases s with
      | nil => rw [List.toFinset_nil, Finset.inter_empty, Finset.union_empty]
      | cons y ys => exact absurd rfl (hnil x xs y ys rfl)

/-- An element greater than the last one. -/
lemma isSorted_concat (hv : IsSorted v) {last x : T} (hlast : v.getLast? = some last)
    (hlt : last < x) : IsSorted (v ++ [x]) := by
  obtain ⟨front, rfl⟩ := List.getLast?_eq_some_iff.mp hlast
  refine List.pairwise_append.mpr ⟨hv, List.pairwise_singleton _ _, fun y hy z hz => ?_⟩
  rw [List.mem_singleton.mp hz]
  obtain hy | hy := List.mem_append.mp hy
  · exact ((List.pairwise_append.mp hv).2.2 y hy last (List.mem_singleton_self _)).trans hlt
  · rwa [List.mem_singleton.mp hy]

/-- A range is inserted element by element; appending a greater element keeps the order. -/
lemma insertRange_spec (hv : IsSorted v) (xs : List T) :
    IsSorted (insertRange v xs) ∧ (insertRange v xs).toFinset = v.toFinset ∪ xs.toFinset := by
  induction xs generalizing v with
  | nil => exact ⟨hv, by rw [List.toFinset_nil, Finset.union_empty]; rfl⟩
  | cons x xs ih =>
    have hstep : ∀ w, IsSorted w → w.toFinset = Insert.insert x v.toFinset →
        IsSorted (insertRange w xs) ∧
          (insertRange w xs).toFinset = v.toFinset ∪ (x :: xs).toFinset := by
      intro w hw hmem
      obtain ⟨hsorted, hmem'⟩ := ih hw
      refine ⟨hsorted, ?_⟩
      rw [hmem', hmem, List.toFinset_cons, Finset.union_insert, Finset.insert_union]
    rw [insertRange, List.foldl_cons, ← insertRange]
    split
    next hlast =>
      cases hmax : v.getLast? with
      | none =>
        rw [hmax] at hlast
        cases hlast
      | some last =>
        rw [hmax, Option.any_some] at hlast
        refine hstep _ (isSorted_concat hv hmax (of_decide_eq_true hlast)) ?_
        rw [List.toFinset_append, List.toFinset_cons, List.toFinset_nil, insert_empty_eq,
          Finset.union_comm]
        rfl
    next =>
      obtain ⟨hsorted, hmem, -⟩ := insert_spec hv x
      exact hstep _ hsorted hmem

/-! ## Reachable sets -/

/-- The vectors of the sets that are built by inserting and erasing elements, ranges of elements and
whole sets, which may be the set itself. -/
inductive Reachable : List T → Prop
  | empty : Reachable []
  | insert {v : List T} (x : T) : Reachable v → Reachable (insert v x).1
  | insertRange {v : List T} (xs : List T) : Reachable v → Reachable (insertRange v xs)
  | insertSet {v w : List T} {n : ℕ} (s : Operand T) : Reachable v → Reachable (s.read v) →
    insertSet v s = some (w, n) → Reachable w
  | erase {v : List T} (x : T) : Reachable v → Reachable (erase v x).1
  | eraseSet {v w : List T} {n : ℕ} (s : Operand T) : Reachable v → Reachable (s.read v) →
    eraseSet v s = some (w, n) → Reachable w

/-- **The invariant**: reachable sets are sorted. -/
theorem Reachable.isSorted (h : Reachable v) : IsSorted v := by
  induction h with
  | empty => exact List.Pairwise.nil
  | insert x _ ih => exact (insert_spec ih x).1
  | insertRange xs _ ih => exact (insertRange_spec ih xs).1
  | insertSet s _ _ hinsert ih ihs =>
    obtain ⟨w, n, hw, hsorted, -⟩ := insertSet_spec ih s ihs
    obtain ⟨rfl, -⟩ := Prod.mk.inj (Option.some.inj (hw.symm.trans hinsert))
    exact hsorted
  | erase x _ ih => exact (erase_spec ih x).1
  | eraseSet s _ _ herase ih ihs =>
    obtain ⟨w, n, hw, hsorted, -⟩ := eraseSet_spec ih s ihs
    obtain ⟨rfl, -⟩ := Prod.mk.inj (Option.some.inj (hw.symm.trans herase))
    exact hsorted

/-- The operations with an element as those of mathematical sets. -/
structure ActsOnElements (v : List T) (x : T) : Prop where
  count : count v x = if x ∈ v.toFinset then 1 else 0
  insert : (insert v x).1.toFinset = Insert.insert x v.toFinset
  isNew : (VSet.insert v x).2 = true ↔ x ∉ v.toFinset
  erase : (erase v x).1.toFinset = v.toFinset.erase x
  erased : (VSet.erase v x).2 = if x ∈ v.toFinset then 1 else 0

/-- The operations with a whole set as those of mathematical sets.  The numbers returned are those
of the elements that are added and removed. -/
structure ActsOnSets (v : List T) (s : Operand T) : Prop where
  insert : ∃ w, insertSet v s = some (w, ((s.read v).toFinset \ v.toFinset).card) ∧
    w.toFinset = v.toFinset ∪ (s.read v).toFinset
  erase : ∃ w, eraseSet v s = some (w, (v.toFinset ∩ (s.read v).toFinset).card) ∧
    w.toFinset = v.toFinset \ (s.read v).toFinset
  subsetOf : subsetOf v (s.read v) = true ↔ v.toFinset ⊆ (s.read v).toFinset
  intersects : intersects v (s.read v) = true ↔ (v.toFinset ∩ (s.read v).toFinset).Nonempty
  intersectWith : IsSorted (intersectWith v (s.read v)) ∧
    (VSet.intersectWith v (s.read v)).toFinset = v.toFinset ∩ (s.read v).toFinset

lemma IsSorted.actsOnElements (hv : IsSorted v) (x : T) : ActsOnElements v x := by
  obtain ⟨-, hinsert, hnew⟩ := insert_spec hv x
  obtain ⟨-, herase, hcount⟩ := erase_spec hv x
  refine ⟨?_, hinsert, ?_, herase, ?_⟩
  · simp only [VSet.count, find_isSome hv, List.mem_toFinset]
  · rw [hnew, List.mem_toFinset]
  · simp only [hcount, List.mem_toFinset]

lemma IsSorted.actsOnSets (hv : IsSorted v) (s : Operand T) (hs : IsSorted (s.read v)) :
    ActsOnSets v s := by
  obtain ⟨w, n, hw, -, hunion, rfl⟩ := insertSet_spec hv s hs
  obtain ⟨w', n', hw', -, hdiff, rfl⟩ := eraseSet_spec hv s hs
  refine ⟨⟨w, hw, hunion⟩, ⟨w', hw', hdiff⟩, subsetOf_iff hv hs, intersects_iff hv hs, ?_⟩
  obtain ⟨hsorted, hinter⟩ := intersectFrom_spec List.Pairwise.nil hv hs
  exact ⟨hsorted, by rw [intersectWith, hinter, List.toFinset_nil, Finset.empty_union]⟩

/-- **A `VSet` is a set.**  A reachable set is sorted without duplicates, and its operations with
elements, with reachable sets and with itself are those of mathematical sets. -/
theorem reachable_is_set (hv : Reachable v) :
    IsSorted v ∧ (∀ x, ActsOnElements v x) ∧
      ∀ s : Operand T, Reachable (s.read v) → ActsOnSets v s :=
  ⟨hv.isSorted, hv.isSorted.actsOnElements, fun s hs => hv.isSorted.actsOnSets s hs.isSorted⟩

/-- The set with `1` and `2`, with itself as an argument. -/
theorem reachable_is_set_two :
    IsSorted (insertRange [] [1, 2]) ∧ ActsOnSets (insertRange [] [1, 2]) .this := by
  have hv : Reachable (insertRange [] [1, 2]) := .insertRange [1, 2] .empty
  obtain ⟨hsorted, -, hacts⟩ := reachable_is_set hv
  exact ⟨hsorted, hacts .this hv⟩

end VSet

end GenMC
