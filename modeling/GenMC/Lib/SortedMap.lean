import Mathlib.Data.Finset.Lattice.Basic
import Mathlib.Data.List.Basic
import Mathlib.Order.Basic
import Mathlib.Tactic

/-!
# Maps sorted by their keys

An ordered map as the list of its entries in increasing order of the keys, which is the order in
which it is iterated.  The operations are `upsert`, which changes the value of a key and creates
it first where it is missing, `erase`, and `eraseAll`, which erases a list of keys one by one.
-/

namespace GenMC

/-- A list of entries whose keys increase. -/
structure SortedMap (κ β : Type*) [LT κ] where
  /-- The entries, in iteration order. -/
  entries : List (κ × β)
  /-- The keys increase. -/
  sorted : entries.Pairwise fun e e' => e.1 < e'.1

namespace SortedMap

variable {κ β : Type*} [LinearOrder κ]

/-- The map without entries. -/
def empty : SortedMap κ β := ⟨[], List.Pairwise.nil⟩

/-- The keys, in iteration order. -/
def keys (m : SortedMap κ β) : List κ := m.entries.map Prod.fst

/-- Changes the value of a key in a sorted list of entries; a missing key starts with `v`. -/
def upsertList (k : κ) (v : β) (f : β → β) : List (κ × β) → List (κ × β)
  | [] => [(k, f v)]
  | e :: es =>
    if k < e.1 then (k, f v) :: e :: es
    else if k = e.1 then (k, f e.2) :: es
    else e :: upsertList k v f es

/-- The keys after a change. -/
lemma mem_upsertList {k : κ} {v : β} {f : β → β} {es : List (κ × β)} {e : κ × β}
    (h : e ∈ upsertList k v f es) : e.1 = k ∨ e ∈ es := by
  induction es with
  | nil => exact Or.inl (congrArg Prod.fst (List.mem_singleton.mp h))
  | cons e' es ih =>
    unfold upsertList at h
    split_ifs at h with hlt heq
    · rcases List.mem_cons.mp h with rfl | h
      · exact Or.inl rfl
      · exact Or.inr h
    · rcases List.mem_cons.mp h with rfl | h
      · exact Or.inl rfl
      · exact Or.inr (List.mem_cons_of_mem _ h)
    · rcases List.mem_cons.mp h with rfl | h
      · exact Or.inr List.mem_cons_self
      · exact (ih h).imp_right (List.mem_cons_of_mem _)

/-- A change keeps the keys sorted. -/
lemma upsertList_sorted (k : κ) (v : β) (f : β → β) {es : List (κ × β)}
    (h : es.Pairwise fun e e' => e.1 < e'.1) :
    (upsertList k v f es).Pairwise fun e e' => e.1 < e'.1 := by
  induction es with
  | nil => exact List.pairwise_singleton _ _
  | cons e es ih =>
    obtain ⟨hhead, htail⟩ := List.pairwise_cons.mp h
    unfold upsertList
    split_ifs with hlt heq
    · refine List.pairwise_cons.mpr ⟨fun e' he' => ?_, h⟩
      rcases List.mem_cons.mp he' with rfl | he'
      · exact hlt
      · exact hlt.trans (hhead e' he')
    · exact List.pairwise_cons.mpr ⟨fun e' he' => heq ▸ hhead e' he', htail⟩
    · refine List.pairwise_cons.mpr ⟨fun e' he' => ?_, ih htail⟩
      rcases mem_upsertList he' with hk | he'
      · exact hk ▸ lt_of_le_of_ne (not_lt.mp hlt) (Ne.symm heq)
      · exact hhead e' he'

/-- Changes the value of a key; a missing key starts with `v`. -/
def upsert (m : SortedMap κ β) (k : κ) (v : β) (f : β → β) : SortedMap κ β :=
  ⟨upsertList k v f m.entries, upsertList_sorted k v f m.sorted⟩

/-- Erases a key. -/
def erase (m : SortedMap κ β) (k : κ) : SortedMap κ β :=
  ⟨m.entries.filter fun e => e.1 ≠ k, m.sorted.sublist List.filter_sublist⟩

/-- Erases the given keys, one after the other. -/
def eraseAll (m : SortedMap κ β) (ks : List κ) : SortedMap κ β := ks.foldl erase m

/-- The value of a key. -/
def find? (m : SortedMap κ β) (k : κ) : Option β :=
  (m.entries.find? fun e => decide (e.1 = k)).map Prod.snd

@[simp] lemma find?_empty (k : κ) : (empty : SortedMap κ β).find? k = none := rfl

/-- The value of a key is the one of its entry. -/
lemma find?_eq_some_iff {m : SortedMap κ β} {k : κ} {v : β} :
    m.find? k = some v ↔ (k, v) ∈ m.entries := by
  obtain ⟨es, hsorted⟩ := m
  unfold find?
  induction es with
  | nil => simp
  | cons e es ih =>
    obtain ⟨hhead, htail⟩ := List.pairwise_cons.mp hsorted
    obtain ⟨k', v'⟩ := e
    by_cases hk : k' = k
    · subst hk
      have hnot : (k', v) ∉ es := fun hmem => lt_irrefl _ (hhead (k', v) hmem)
      simp [hnot, eq_comm]
    · have hk' : k ≠ k' := Ne.symm hk
      simp only [List.find?_cons, hk, decide_false, ih htail, List.mem_cons, Prod.mk.injEq, hk',
        false_and, false_or]

/-- The value of a key after a change in a sorted list. -/
lemma find?_upsertList (k : κ) (v : β) (f : β → β) {es : List (κ × β)}
    (h : es.Pairwise fun e e' => e.1 < e'.1) (k' : κ) :
    ((upsertList k v f es).find? fun e => decide (e.1 = k')).map Prod.snd =
      if k' = k then some (f (((es.find? fun e => decide (e.1 = k)).map Prod.snd).getD v))
      else (es.find? fun e => decide (e.1 = k')).map Prod.snd := by
  induction es with
  | nil => by_cases hk : k' = k <;> simp [upsertList, hk, eq_comm]
  | cons e es ih =>
    obtain ⟨hhead, htail⟩ := List.pairwise_cons.mp h
    unfold upsertList
    split_ifs with hlt hk heq hk hk
    · -- the key is missing: no entry of the list has it
      have hnone : (e :: es).find? (fun e' => decide (e'.1 = k)) = none := by
        refine List.find?_eq_none.mpr fun e' he' => ?_
        have hlt' : k < e'.1 := by
          rcases List.mem_cons.mp he' with rfl | he'
          · exact hlt
          · exact hlt.trans (hhead e' he')
        simpa using ne_of_gt hlt'
      rw [hnone, hk]
      simp
    · simp [Ne.symm hk]
    · simp [hk, heq]
    · have hk' : e.1 ≠ k' := fun he => hk (he.symm.trans heq.symm)
      simp [heq, hk']
    · have he : e.1 ≠ k := Ne.symm heq
      simpa [he, hk] using ih htail
    · by_cases he : e.1 = k'
      · simp [he]
      · simpa [he, hk] using ih htail

/-- The values after a change. -/
lemma find?_upsert (m : SortedMap κ β) (k : κ) (v : β) (f : β → β) (k' : κ) :
    (m.upsert k v f).find? k' = if k' = k then some (f ((m.find? k).getD v)) else m.find? k' :=
  find?_upsertList k v f m.sorted k'

/-- The entries after erasing some keys. -/
lemma entries_eraseAll (m : SortedMap κ β) (ks : List κ) :
    (m.eraseAll ks).entries = m.entries.filter fun e => e.1 ∉ ks := by
  unfold eraseAll
  induction ks generalizing m with
  | nil => simp
  | cons k ks ih =>
    rw [List.foldl_cons, ih, erase, List.filter_filter]
    refine List.filter_congr fun e _ => ?_
    simp [Bool.and_comm]

/-- The values after erasing some keys. -/
lemma find?_eraseAll (m : SortedMap κ β) (ks : List κ) (k : κ) :
    (m.eraseAll ks).find? k = if k ∈ ks then none else m.find? k := by
  ext v
  rw [find?_eq_some_iff, entries_eraseAll, List.mem_filter]
  split <;> simp_all [find?_eq_some_iff]

/-- The last entry that satisfies a condition has the greatest key of those that do. -/
lemma le_of_find?_reverse {m : SortedMap κ β} {p : κ × β → Bool} {e : κ × β}
    (h : m.entries.reverse.find? p = some e) {e' : κ × β} (he' : e' ∈ m.entries)
    (hp : p e') : e'.1 ≤ e.1 := by
  obtain ⟨_, as, bs, heq, hnot⟩ := List.find?_eq_some_iff_append.mp h
  have hentries : m.entries = bs.reverse ++ e :: as.reverse := by
    rw [← List.reverse_reverse m.entries, heq]
    simp
  have hsorted := m.sorted
  rw [hentries, List.pairwise_append] at hsorted
  rw [hentries, List.mem_append, List.mem_cons] at he'
  rcases he' with he' | rfl | he'
  · exact le_of_lt (hsorted.2.2 e' he' e List.mem_cons_self)
  · exact le_rfl
  · have hfalse := hnot e' (List.mem_reverse.mp he')
    rw [hp] at hfalse
    exact absurd hfalse (by decide)

/-! ## Maps of sets -/

variable {ι γ : Type*} [DecidableEq γ]

/-- Inserts elements into the set under a key; without elements no entry is created. -/
def insertAll (m : SortedMap κ (Finset γ)) (k : κ) (vs : Finset γ) : SortedMap κ (Finset γ) :=
  if vs = ∅ then m else m.upsert k ∅ (· ∪ vs)

/-- The sets after inserting elements. -/
lemma find?_insertAll (m : SortedMap κ (Finset γ)) (k k' : κ) (vs : Finset γ) :
    (m.insertAll k vs).find? k' =
      if k' = k ∧ vs.Nonempty then some ((m.find? k).getD ∅ ∪ vs) else m.find? k' := by
  unfold insertAll
  by_cases hvs : vs = ∅
  · rw [if_pos hvs, if_neg fun h => h.2.ne_empty hvs]
  · rw [if_neg hvs, find?_upsert]
    simp only [Finset.nonempty_iff_ne_empty.mpr hvs, and_true]

/-- **A map built by insertions.**  If only the same elements are inserted under the same key, every
set of the map consists of the elements of one insertion. -/
theorem find?_foldl_insertAll {key : ι → κ} {vals : ι → Finset γ} {l : List ι}
    (hkey : ∀ i ∈ l, ∀ j ∈ l, (vals i).Nonempty → (vals j).Nonempty → key i = key j →
      vals i = vals j) {k : κ} {vs : Finset γ} :
    (l.foldl (fun m i => m.insertAll (key i) (vals i)) empty).find? k = some vs ↔
      ∃ i ∈ l, key i = k ∧ vals i = vs ∧ vs.Nonempty := by
  induction l using List.reverseRecOn generalizing vs with
  | nil => simp
  | append_singleton l i ih =>
    have hl {j : ι} (hj : j ∈ l) : j ∈ l ++ [i] := List.mem_append_left _ hj
    have hi : i ∈ l ++ [i] := List.mem_append_right _ (List.mem_singleton.mpr rfl)
    replace ih (vs : Finset γ) := @ih (fun a ha b hb => hkey a (hl ha) b (hl hb)) vs
    rw [List.foldl_append, List.foldl_cons, List.foldl_nil, find?_insertAll]
    split
    next h =>
      obtain ⟨rfl, hne⟩ := h
      -- What has been inserted under the key before is the same set.
      have hunion : ((l.foldl (fun m i => m.insertAll (key i) (vals i)) empty).find?
          (key i)).getD ∅ ∪ vals i = vals i := by
        cases hfind : (l.foldl (fun m i => m.insertAll (key i) (vals i)) empty).find? (key i) with
        | none => exact Finset.empty_union _
        | some vs' =>
          obtain ⟨j, hj, hkeys, rfl, hne'⟩ := (ih vs').mp hfind
          rw [Option.getD_some, hkey j (hl hj) i hi hne' hne hkeys, Finset.union_self]
      rw [hunion, Option.some.injEq]
      constructor
      · rintro rfl
        exact ⟨i, hi, rfl, rfl, hne⟩
      · rintro ⟨j, hj, hkeys, rfl, hne'⟩
        exact hkey i hi j hj hne hne' hkeys.symm
    next h =>
      rw [ih]
      constructor
      · rintro ⟨j, hj, hrest⟩
        exact ⟨j, hl hj, hrest⟩
      · rintro ⟨j, hj, hkeys, rfl, hne⟩
        obtain hj | hj := List.mem_append.mp hj
        · exact ⟨j, hj, hkeys, rfl, hne⟩
        · rw [List.mem_singleton.mp hj] at hkeys hne
          exact absurd ⟨hkeys.symm, hne⟩ h

end SortedMap

end GenMC
