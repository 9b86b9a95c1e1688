import Mathlib.Data.List.Basic
import Mathlib.Data.List.Nodup
import Mathlib.Tactic

/-!
# Maps as lists of entries

A finite map with an iteration order: a list of entries whose keys are distinct.  The operations
are the ones that an imperative program performs on such a map while it iterates: making sure that
a key is present, changing the value of a key, changing all values, and erasing entries, also along
the keys of another map.  Every operation is described by what it does to `find?` and to `keys`.
-/

namespace GenMC

/-- A list of entries with distinct keys. -/
structure KeyedList (κ β : Type*) where
  /-- The entries, in iteration order. -/
  entries : List (κ × β)
  /-- No key occurs twice. -/
  nodup : (entries.map Prod.fst).Nodup

namespace KeyedList

variable {κ β γ : Type*}

/-- The map without entries. -/
def empty : KeyedList κ β := ⟨[], List.nodup_nil⟩

/-- The keys, in iteration order. -/
def keys (m : KeyedList κ β) : List κ := m.entries.map Prod.fst

/-- The keys are distinct. -/
lemma nodup_keys (m : KeyedList κ β) : m.keys.Nodup := m.nodup

/-- Erases the entries whose key does not satisfy `p`. -/
def filterKeys (m : KeyedList κ β) (p : κ → Bool) : KeyedList κ β :=
  ⟨m.entries.filter fun e => p e.1, m.nodup.sublist (List.filter_sublist.map _)⟩

/-- Changes all values. -/
def mapValues (m : KeyedList κ β) (f : κ → β → γ) : KeyedList κ γ :=
  ⟨m.entries.map fun e => (e.1, f e.1 e.2), by
    rw [List.map_map]
    exact m.nodup⟩

/-- The entries that survive an iteration along `ks` which erases the entry under the second
iterator wherever the key under the first one does not satisfy `p`. -/
def eraseAlongList (p : κ → Bool) : List κ → List (κ × β) → List (κ × β)
  | k :: ks, e :: es => if p k then e :: eraseAlongList p ks es else eraseAlongList p ks es
  | _, es => es

/-- Erasing entries along another list does not add any. -/
lemma eraseAlongList_sublist (p : κ → Bool) (ks : List κ) (es : List (κ × β)) :
    (eraseAlongList p ks es).Sublist es := by
  induction ks generalizing es with
  | nil => exact List.Sublist.refl _
  | cons k ks ih =>
    cases es with
    | nil => exact List.Sublist.refl _
    | cons e es =>
      unfold eraseAlongList
      split
      · exact (ih es).cons_cons e
      · exact (ih es).cons e

/-- Erases entries in step with the keys of another map. -/
def eraseAlong (m : KeyedList κ β) (p : κ → Bool) (ks : List κ) : KeyedList κ β :=
  ⟨eraseAlongList p ks m.entries, m.nodup.sublist ((eraseAlongList_sublist p ks _).map _)⟩

/-- In step with its own keys, a map loses the entries whose key does not satisfy `p`. -/
lemma eraseAlong_keys (m : KeyedList κ β) (p : κ → Bool) :
    m.eraseAlong p m.keys = m.filterKeys p := by
  have h : ∀ es : List (κ × β),
      eraseAlongList p (es.map Prod.fst) es = es.filter fun e => p e.1 := by
    intro es
    induction es with
    | nil => rfl
    | cons e es ih =>
      rw [List.map_cons, eraseAlongList, ih, List.filter_cons]
  unfold eraseAlong filterKeys keys
  simp only [h]

@[simp] lemma keys_filterKeys (m : KeyedList κ β) (p : κ → Bool) :
    (m.filterKeys p).keys = m.keys.filter p := by
  unfold keys filterKeys
  rw [List.filter_map]
  rfl

@[simp] lemma keys_mapValues (m : KeyedList κ β) (f : κ → β → γ) :
    (m.mapValues f).keys = m.keys := by
  unfold keys mapValues
  rw [List.map_map]
  rfl

variable [DecidableEq κ]

/-- The value of a key. -/
def find? (m : KeyedList κ β) (k : κ) : Option β :=
  (m.entries.find? fun e => decide (e.1 = k)).map Prod.snd

/-- Makes sure that a key is present. -/
def track (m : KeyedList κ β) (k : κ) (v : β) : KeyedList κ β :=
  if h : k ∈ m.keys then m
  else ⟨m.entries ++ [(k, v)], by
    rw [List.map_append, List.nodup_append]
    refine ⟨m.nodup, List.nodup_singleton _, fun a ha b hb hab => h ?_⟩
    have hb' : b = k := by simpa using hb
    exact hb' ▸ hab ▸ ha⟩

/-- Changes the value of a key. -/
def modify (m : KeyedList κ β) (k : κ) (f : β → β) : KeyedList κ β :=
  m.mapValues fun k' v => if k' = k then f v else v

/-- The value of a key is the one of its entry. -/
lemma find?_eq_some_iff {m : KeyedList κ β} {k : κ} {v : β} :
    m.find? k = some v ↔ (k, v) ∈ m.entries := by
  obtain ⟨es, hnodup⟩ := m
  unfold find?
  induction es with
  | nil => simp
  | cons e es ih =>
    rw [List.map_cons, List.nodup_cons] at hnodup
    obtain ⟨k', v'⟩ := e
    by_cases hk : k' = k
    · subst hk
      have hnot : (k', v) ∉ es := fun hmem => hnodup.1 (List.mem_map.mpr ⟨_, hmem, rfl⟩)
      simp [hnot, eq_comm]
    · have hk' : k ≠ k' := fun h => hk h.symm
      simp only [List.find?_cons, hk, decide_false, ih hnodup.2, List.mem_cons, Prod.mk.injEq, hk',
        false_and, false_or]

/-- A key has a value if and only if it is present. -/
lemma mem_keys_iff {m : KeyedList κ β} {k : κ} : k ∈ m.keys ↔ ∃ v, m.find? k = some v := by
  simp [keys, find?_eq_some_iff]

/-- A key without a value is not present. -/
lemma find?_eq_none_iff {m : KeyedList κ β} {k : κ} : m.find? k = none ↔ k ∉ m.keys := by
  rw [mem_keys_iff, Option.eq_none_iff_forall_ne_some]
  simp

@[simp] lemma find?_empty (k : κ) : (empty : KeyedList κ β).find? k = none := rfl

@[simp] lemma keys_modify (m : KeyedList κ β) (k : κ) (f : β → β) : (m.modify k f).keys = m.keys :=
  keys_mapValues m _

/-- The values after erasing entries. -/
lemma find?_filterKeys (m : KeyedList κ β) (p : κ → Bool) (k : κ) :
    (m.filterKeys p).find? k = if p k then m.find? k else none := by
  have h : ∀ v, (k, v) ∈ (m.filterKeys p).entries ↔ (k, v) ∈ m.entries ∧ p k := fun v =>
    List.mem_filter
  ext v
  rw [find?_eq_some_iff, h]
  split <;> simp_all [find?_eq_some_iff]

/-- The values after changing all values. -/
lemma find?_mapValues (m : KeyedList κ β) (f : κ → β → γ) (k : κ) :
    (m.mapValues f).find? k = (m.find? k).map (f k) := by
  unfold find? mapValues
  rw [List.find?_map, Option.map_map, Option.map_map]
  refine Option.map_congr fun e he => ?_
  have hk := List.find?_some he
  simp only [Function.comp_apply, decide_eq_true_eq] at hk
  simp [hk]

/-- The values after changing the value of a key. -/
lemma find?_modify (m : KeyedList κ β) (k : κ) (f : β → β) (k' : κ) :
    (m.modify k f).find? k' = if k' = k then (m.find? k').map f else m.find? k' := by
  unfold modify
  rw [find?_mapValues]
  split <;> simp_all

/-- The keys after making sure that one is present. -/
lemma keys_track (m : KeyedList κ β) (k : κ) (v : β) :
    (m.track k v).keys = if k ∈ m.keys then m.keys else m.keys ++ [k] := by
  unfold track
  split <;> simp [keys]

/-- The values after making sure that a key is present. -/
lemma find?_track (m : KeyedList κ β) (k : κ) (v : β) (k' : κ) :
    (m.track k v).find? k' = if k' = k then some ((m.find? k').getD v) else m.find? k' := by
  by_cases hk : k ∈ m.keys
  · obtain ⟨v', hv'⟩ := mem_keys_iff.mp hk
    unfold track
    rw [dif_pos hk]
    split
    · next h => rw [h, hv', Option.getD_some]
    · rfl
  · have hentries : (m.track k v).entries = m.entries ++ [(k, v)] := by
      unfold track
      rw [dif_neg hk]
    have hnone := find?_eq_none_iff.mpr hk
    unfold find? at hnone ⊢
    rw [hentries, List.find?_append]
    split
    · next h =>
      subst h
      rw [Option.map_eq_none_iff] at hnone
      simp [hnone]
    · next h => simp [Ne.symm h]

/-- A key that is present stays as it is. -/
lemma track_of_mem {m : KeyedList κ β} {k : κ} (h : k ∈ m.keys) (v : β) : m.track k v = m := by
  unfold track
  rw [dif_pos h]

/-! ## Maps to lists -/

section Lists

variable {α : Type*}

/-- The entries of a map, found by their keys. -/
lemma flatMap_entries (m : KeyedList κ (List α)) :
    m.entries.flatMap Prod.snd = m.keys.flatMap fun k => (m.find? k).getD [] := by
  unfold keys
  rw [List.flatMap_map]
  refine List.flatMap_congr fun e he => ?_
  rw [find?_eq_some_iff.mpr he, Option.getD_some]

variable {ks : List κ} {f : κ → List α} {key : α → Option κ}

/-- The elements of one list among those of all lists. -/
lemma filter_flatMap_keys (hks : ks.Nodup) (hkey : ∀ k ∈ ks, ∀ x ∈ f k, key x = some k)
    (p : α → Bool) (k : κ) :
    ((ks.flatMap f).filter fun x => p x && decide (key x = some k)) =
      if k ∈ ks then (f k).filter p else [] := by
  have hlist : ∀ k' ∈ ks, ((f k').filter fun x => p x && decide (key x = some k)) =
      if k' = k then (f k).filter p else [] := by
    intro k' hk'
    split
    · next heq =>
      subst heq
      exact List.filter_congr fun x hx => by simp [hkey k' hk' x hx]
    · next hne =>
      refine List.filter_eq_nil_iff.mpr fun x hx => ?_
      simp [hkey k' hk' x hx, hne]
  clear hkey
  induction ks with
  | nil => rfl
  | cons k' ks ih =>
    rw [List.nodup_cons] at hks
    rw [List.flatMap_cons, List.filter_append, hlist k' List.mem_cons_self,
      ih hks.2 fun k'' hk'' => hlist k'' (List.mem_cons_of_mem _ hk'')]
    by_cases heq : k' = k
    · subst heq
      rw [if_pos rfl, if_neg hks.1, if_pos List.mem_cons_self, List.append_nil]
    · rw [if_neg heq, List.nil_append]
      simp [Ne.symm heq]

omit [DecidableEq κ] in
/-- No element occurs in two lists. -/
lemma nodup_flatMap_keys (hks : ks.Nodup) (hkey : ∀ k ∈ ks, ∀ x ∈ f k, key x = some k)
    (hf : ∀ k ∈ ks, (f k).Nodup) : (ks.flatMap f).Nodup := by
  rw [List.nodup_flatMap]
  refine ⟨hf, hks.imp_of_mem fun {k k'} hk hk' hne x hx hx' => ?_⟩
  exact hne (Option.some.inj ((hkey k hk x hx).symm.trans (hkey k' hk' x hx')))

end Lists

end KeyedList

end GenMC
