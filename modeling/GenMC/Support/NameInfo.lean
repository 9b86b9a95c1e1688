import Mathlib.Data.List.Sort
import Mathlib.Data.List.TakeWhile
import Mathlib.Data.String.Basic
import Mathlib.Order.Bounds.Basic
import Mathlib.Tactic

/-!
# Names at offsets

A `NameInfo` holds the names of the parts of a variable with their byte offsets.  `addOffsetInfo`
appends an entry and sorts the vector if the new offset is *greater* than that of the entry before
it, that is, just when an entry at the end of a sorted vector is already in its place.  An entry
that comes before the last one stays at the end instead.  `getNameAtOffset` takes the vector for
sorted.

`endsInOrder` tells from the offsets alone whether the calls leave the vector sorted, and
`namesOffsets_iff` that the lookups are right just in this case.
-/

namespace GenMC

/-- `NameInfo`: the vector of offsets with their names. -/
abbrev NameInfo := List (ℕ × String)

namespace NameInfo

/-- The order of the entries for `std::sort`. -/
def EntryLE (a b : ℕ × String) : Prop :=
  a.1 < b.1 ∨ (a.1 = b.1 ∧ a.2 ≤ b.2)

instance : DecidableRel EntryLE := fun a b =>
  inferInstanceAs (Decidable (a.1 < b.1 ∨ (a.1 = b.1 ∧ a.2 ≤ b.2)))

/-- `NameInfo::addOffsetInfo`. -/
def addOffsetInfo (info : NameInfo) (o : ℕ) (n : String) : NameInfo :=
  let pushed := info ++ [(o, n)]
  match info.getLast? with
  | none => pushed
  | some last => if last.1 < o then pushed.insertionSort EntryLE else pushed

/-- The loop of `NameInfo::getNameAtOffset`, with the entry read last.  At the first entry there is
none, and the assertion fails. -/
def getNameFrom (o : ℕ) (prev : Option (ℕ × String)) : NameInfo → Option String
  | [] => prev.map Prod.snd
  | e :: rest => if o < e.1 then prev.map Prod.snd else getNameFrom o (some e) rest

/-- `NameInfo::getNameAtOffset`; `none` stands for the failing assertion. -/
def getNameAtOffset (info : NameInfo) (o : ℕ) : Option String :=
  if info.isEmpty then some "" else getNameFrom o none info

/-- The vector after calls of `addOffsetInfo` for the offsets, in this order. -/
def addOffsets (names : ℕ → String) (os : List ℕ) : NameInfo :=
  os.foldl (fun info o => info.addOffsetInfo o (names o)) []

/-- The entries stand in the order of their offsets. -/
def Ordered (info : NameInfo) : Prop :=
  info.Pairwise fun a b => a.1 < b.1

/-! ### Adding entries -/

/-- Entries are added, none gets lost. -/
lemma perm_addOffsetInfo (info : NameInfo) (o : ℕ) (n : String) :
    (info.addOffsetInfo o n).Perm (info ++ [(o, n)]) := by
  unfold addOffsetInfo
  dsimp only
  split
  · exact .refl _
  · split
    · exact List.perm_insertionSort _ _
    · exact .refl _

/-- The entries after a sequence of calls. -/
lemma perm_addOffsets (names : ℕ → String) (os : List ℕ) :
    (addOffsets names os).Perm (os.map fun o => (o, names o)) := by
  induction os using List.reverseRecOn with
  | nil => exact .refl _
  | append_singleton os o ih =>
    rw [addOffsets, List.foldl_append, List.map_append]
    exact (perm_addOffsetInfo _ o (names o)).trans (ih.append_right _)

/-- The entries are the offsets with their names. -/
lemma mem_addOffsets {names : ℕ → String} {os : List ℕ} {e : ℕ × String} :
    e ∈ addOffsets names os ↔ e.1 ∈ os ∧ e.2 = names e.1 := by
  rw [(perm_addOffsets names os).mem_iff, List.mem_map]
  constructor
  · rintro ⟨o, ho, rfl⟩
    exact ⟨ho, rfl⟩
  · rintro ⟨ho, hn⟩
    exact ⟨e.1, ho, Prod.ext rfl hn.symm⟩

/-- The offsets in the vector are distinct if the calls' are. -/
lemma nodup_addOffsets (names : ℕ → String) {os : List ℕ} (hd : os.Nodup) :
    ((addOffsets names os).map Prod.fst).Nodup := by
  have hperm := (perm_addOffsets names os).map Prod.fst
  rw [List.map_map, Function.comp_def, List.map_id'] at hperm
  exact hperm.nodup_iff.mpr hd

instance : Std.Total EntryLE :=
  ⟨fun a b => by
    obtain h | h | h := lt_trichotomy a.1 b.1
    · exact .inl (.inl h)
    · exact (le_total a.2 b.2).imp (fun hle => .inr ⟨h, hle⟩) fun hle => .inr ⟨h.symm, hle⟩
    · exact .inr (.inl h)⟩

instance : IsTrans (ℕ × String) EntryLE :=
  ⟨fun a b c hab hbc => by
    rcases hab with hab | ⟨hab, hab'⟩ <;> rcases hbc with hbc | ⟨hbc, hbc'⟩
    · exact .inl (hab.trans hbc)
    · exact .inl (hbc ▸ hab)
    · exact .inl (hab ▸ hbc)
    · exact .inr ⟨hab.trans hbc, hab'.trans hbc'⟩⟩

/-- Sorting puts entries with distinct offsets in the order of the offsets. -/
lemma ordered_insertionSort {info : NameInfo} (hd : (info.map Prod.fst).Nodup) :
    Ordered (info.insertionSort EntryLE) := by
  have hperm := List.perm_insertionSort EntryLE info
  have hd' : ((info.insertionSort EntryLE).map Prod.fst).Nodup :=
    (hperm.map Prod.fst).nodup_iff.mpr hd
  have hsorted := List.pairwise_insertionSort EntryLE info
  refine (hsorted.and (List.pairwise_map.mp hd')).imp ?_
  rintro a b ⟨hlt | ⟨heq, -⟩, hne⟩
  · exact hlt
  · exact absurd heq hne

/-- The last entry of an ordered vector has the greatest offset. -/
lemma Ordered.le_getLast {info : NameInfo} (h : Ordered info) {last : ℕ × String}
    (hlast : info.getLast? = some last) {e : ℕ × String} (he : e ∈ info) : e.1 ≤ last.1 := by
  obtain ⟨front, rfl⟩ := List.getLast?_eq_some_iff.mp hlast
  obtain he | he := List.mem_append.mp he
  · exact ((List.pairwise_append.mp h).2.2 e he last (List.mem_singleton_self _)).le
  · rw [List.mem_singleton.mp he]

/-- An entry behind all others needs no sorting, but it is sorted. -/
lemma addOffsetInfo_of_lt {info : NameInfo} (h : Ordered info) {o : ℕ} (n : String)
    (hlt : ∀ e ∈ info, e.1 < o) : info.addOffsetInfo o n = info ++ [(o, n)] := by
  have hpair : (info ++ [(o, n)]).Pairwise EntryLE := by
    rw [List.pairwise_append]
    refine ⟨h.imp .inl, List.pairwise_singleton _ _, fun e he e' he' => ?_⟩
    rw [List.mem_singleton.mp he']
    exact .inl (hlt e he)
  unfold addOffsetInfo
  dsimp only
  split
  · rfl
  · rw [hpair.insertionSort_eq, ite_self]

/-! ### Reading a name -/

/-- The loop stops at the first greater offset and takes the entry before it. -/
lemma getNameFrom_eq (o : ℕ) (prev : Option (ℕ × String)) (info : NameInfo) :
    getNameFrom o prev info =
      ((info.takeWhile fun e => decide (e.1 ≤ o)).getLast?.or prev).map Prod.snd := by
  induction info generalizing prev with
  | nil => rfl
  | cons e rest ih =>
    rw [getNameFrom]
    by_cases hlt : o < e.1
    · rw [if_pos hlt, List.takeWhile_cons_of_neg (by simpa using hlt)]
      rfl
    · rw [if_neg hlt, ih, List.takeWhile_cons_of_pos (by simpa using hlt), List.getLast?_cons]
      cases (rest.takeWhile fun e => decide (e.1 ≤ o)).getLast? <;> rfl

/-- The name found in a vector with entries is that of the last entry of the front part. -/
lemma getNameAtOffset_eq {info : NameInfo} (hne : info ≠ []) (o : ℕ) :
    info.getNameAtOffset o =
      (info.takeWhile fun e => decide (e.1 ≤ o)).getLast?.map Prod.snd := by
  rw [getNameAtOffset, if_neg (by simpa using hne), getNameFrom_eq, Option.or_none]

/-- **The lookup in an ordered vector**: the entry with the greatest offset up to the one looked
for. -/
theorem Ordered.getNameAtOffset {info : NameInfo} (h : Ordered info) {o : ℕ} {e : ℕ × String}
    (he : e ∈ info) (hle : e.1 ≤ o) (hgreatest : ∀ e' ∈ info, e'.1 ≤ o → e'.1 ≤ e.1) :
    info.getNameAtOffset o = some e.2 := by
  obtain ⟨front, back, rfl⟩ := List.append_of_mem he
  obtain ⟨-, hback, hfront⟩ := List.pairwise_append.mp h
  have hstop : ∀ e' ∈ back, ¬e'.1 ≤ o := fun e' he' hle' =>
    absurd ((List.pairwise_cons.mp hback).1 e' he')
      (not_lt.mpr (hgreatest e' (by simp [he']) hle'))
  have htake : (front ++ e :: back).takeWhile (fun e => decide (e.1 ≤ o)) = front ++ [e] := by
    have hpass : ∀ e' ∈ front, decide (e'.1 ≤ o) = true := fun e' he' =>
      decide_eq_true ((hfront e' he' e List.mem_cons_self).le.trans hle)
    rw [List.takeWhile_append_of_pos hpass, List.takeWhile_cons_of_pos (by simpa using hle)]
    cases back with
    | nil => rfl
    | cons b back =>
      rw [List.takeWhile_cons_of_neg (by simpa using hstop b List.mem_cons_self)]
  rw [getNameAtOffset_eq (List.ne_nil_of_mem he), htake, List.getLast?_concat, Option.map_some]

/-- The lookup in an ordered vector with entries finds such an entry, if it does not fail. -/
lemma Ordered.exists_of_getNameAtOffset {info : NameInfo} (h : Ordered info) (hne : info ≠ [])
    {o : ℕ} {n : String} (hfound : info.getNameAtOffset o = some n) :
    ∃ e ∈ info, e.2 = n ∧ ∀ e' ∈ info, e'.1 ≤ o → e'.1 ≤ e.1 := by
  rw [getNameAtOffset_eq hne] at hfound
  obtain ⟨e, hlast, rfl⟩ := Option.map_eq_some_iff.mp hfound
  have hfront := List.takeWhile_prefix (l := info) fun e => decide (e.1 ≤ o)
  refine ⟨e, hfront.subset (List.mem_of_getLast? hlast), rfl, fun e' he' hle => ?_⟩
  refine Ordered.le_getLast (List.Pairwise.sublist hfront.sublist h) hlast ?_
  -- all entries up to `e'` pass the test
  obtain ⟨front, back, rfl⟩ := List.append_of_mem he'
  have hpass : ∀ e'' ∈ front, decide (e''.1 ≤ o) = true := fun e'' he'' =>
    decide_eq_true (((List.pairwise_append.mp h).2.2 e'' he'' e' List.mem_cons_self).le.trans hle)
  rw [List.takeWhile_append_of_pos hpass, List.takeWhile_cons_of_pos (by simpa using hle)]
  exact List.mem_append_right _ List.mem_cons_self

/-- If a greater offset stands before the last entry, the lookup at the last entry's own offset
stops too early. -/
lemma getNameAtOffset_ne {info : NameInfo} (hd : (info.map Prod.fst).Nodup) {last : ℕ × String}
    (hlast : info.getLast? = some last) (hgreater : ∃ e ∈ info, last.1 < e.1)
    (hname : ∀ e ∈ info, e.2 = last.2 → e.1 = last.1) :
    info.getNameAtOffset last.1 ≠ some last.2 := by
  obtain ⟨front, rfl⟩ := List.getLast?_eq_some_iff.mp hlast
  obtain ⟨e, he, hlt⟩ := hgreater
  have hfront : e ∈ front := by
    obtain he | he := List.mem_append.mp he
    · exact he
    · rw [List.mem_singleton.mp he] at hlt
      exact absurd hlt (lt_irrefl _)
  have htake : (front ++ [last]).takeWhile (fun e => decide (e.1 ≤ last.1)) =
      front.takeWhile fun e => decide (e.1 ≤ last.1) := by
    rw [List.takeWhile_append, if_neg fun heq => ?_]
    have hall := List.takeWhile_eq_self_iff.mp (List.IsPrefix.eq_of_length
      (List.takeWhile_prefix _) heq) e hfront
    exact absurd (of_decide_eq_true hall) (not_le.mpr hlt)
  rw [getNameAtOffset_eq (by simp), htake]
  intro hfound
  obtain ⟨e', hlast', hname'⟩ := Option.map_eq_some_iff.mp hfound
  have hmem : e' ∈ front :=
    (List.takeWhile_prefix _).subset (List.mem_of_getLast? hlast')
  -- the entry found stands before the last one and has its offset
  have heq := hname e' (List.mem_append_left _ hmem) hname'
  rw [List.map_append, List.nodup_append] at hd
  exact hd.2.2 e'.1 (List.mem_map_of_mem hmem) last.1 (by simp) heq

/-! ### The order of the calls -/

/-- Whether calls for these offsets, the latest first, leave the vector in order: the latest offset
is the greatest if the calls before left the vector in order, and otherwise it is greater than the
one before, which stands at the end. -/
def endsInOrder : List ℕ → Bool
  | [] => true
  | [_] => true
  | o :: o' :: os =>
    if endsInOrder (o' :: os) then (o' :: os).all fun p => p < o else o' < o

/-- One more call, after calls the last of which was for `o'`. -/
lemma endsInOrder_cons {os : List ℕ} {o' : ℕ} (hlast : os.getLast? = some o') (o : ℕ) :
    endsInOrder (o :: os.reverse) =
      if endsInOrder os.reverse then os.all fun p => p < o else decide (o' < o) := by
  obtain ⟨front, rfl⟩ := List.getLast?_eq_some_iff.mp hlast
  rw [List.reverse_append, List.reverse_singleton, List.singleton_append, endsInOrder]
  congr 1
  rw [← List.reverse_concat, List.all_reverse]

/-- What the vector looks like: it is in order, or its last entry is that of the last call and a
greater offset stands before it. -/
def Arranged (names : ℕ → String) (os : List ℕ) : Bool → Prop
  | true => Ordered (addOffsets names os)
  | false => ∃ o, os.getLast? = some o ∧ (addOffsets names os).getLast? = some (o, names o) ∧
      ∃ o' ∈ os, o < o'

/-- The vector after one more call. -/
lemma addOffsets_concat (names : ℕ → String) (os : List ℕ) (o : ℕ) :
    addOffsets names (os ++ [o]) = (addOffsets names os).addOffsetInfo o (names o) := by
  rw [addOffsets, List.foldl_append]
  rfl

/-- A call for an offset greater than that of the last entry sorts the vector. -/
lemma ordered_addOffsets_concat {names : ℕ → String} {os : List ℕ} {o : ℕ} {last : ℕ × String}
    (hd : (os ++ [o]).Nodup) (hlast : (addOffsets names os).getLast? = some last)
    (hlt : last.1 < o) : Ordered (addOffsets names (os ++ [o])) := by
  have hsort : addOffsets names (os ++ [o]) =
      (addOffsets names os ++ [(o, names o)]).insertionSort EntryLE := by
    rw [addOffsets_concat, addOffsetInfo]
    simp only [hlast, if_pos hlt]
  rw [hsort]
  refine ordered_insertionSort ?_
  have hperm := (perm_addOffsetInfo (addOffsets names os) o (names o)).map Prod.fst
  rw [← hperm.nodup_iff, ← addOffsets_concat]
  exact nodup_addOffsets names hd

/-- A call for a smaller offset leaves the entry at the end. -/
lemma getLast?_addOffsets_concat {names : ℕ → String} {os : List ℕ} {o : ℕ} {last : ℕ × String}
    (hlast : (addOffsets names os).getLast? = some last) (hge : ¬last.1 < o) :
    (addOffsets names (os ++ [o])).getLast? = some (o, names o) := by
  rw [addOffsets_concat, addOffsetInfo]
  simp only [hlast, if_neg hge, List.getLast?_concat]

/-- Calls for distinct offsets arrange the vector as `endsInOrder` tells. -/
theorem arranged_addOffsets (names : ℕ → String) {os : List ℕ} (hd : os.Nodup) :
    Arranged names os (endsInOrder os.reverse) := by
  induction os using List.reverseRecOn with
  | nil => exact List.Pairwise.nil
  | append_singleton os o ih =>
    rw [List.reverse_concat]
    obtain rfl | ⟨last', hlast'⟩ := Option.eq_none_or_eq_some os.getLast? |>.imp_left
      List.getLast?_eq_none_iff.mp
    · exact List.pairwise_singleton _ _
    obtain ⟨hos, -, hnew⟩ := List.nodup_append.mp hd
    specialize ih hos
    have hne : ∀ p ∈ os, p ≠ o := fun p hp => hnew p hp o (List.mem_singleton_self o)
    have hmem' : last' ∈ os := List.mem_of_getLast? hlast'
    rw [endsInOrder_cons hlast']
    cases horder : endsInOrder os.reverse with
    | true =>
      rw [horder] at ih
      obtain ⟨last, hlast⟩ : ∃ last, (addOffsets names os).getLast? = some last := by
        refine Option.ne_none_iff_exists'.mp fun hnone => ?_
        have hin : (last', names last') ∈ addOffsets names os := mem_addOffsets.mpr ⟨hmem', rfl⟩
        rw [List.getLast?_eq_none_iff.mp hnone] at hin
        exact List.not_mem_nil hin
      obtain ⟨hmem, hname⟩ := mem_addOffsets.mp (List.mem_of_getLast? hlast)
      by_cases hlt : last.1 < o
      · have hall : (os.all fun p => p < o) = true := by
          refine List.all_eq_true.mpr fun p hp => decide_eq_true ?_
          have hin : (p, names p) ∈ addOffsets names os := mem_addOffsets.mpr ⟨hp, rfl⟩
          exact (Ordered.le_getLast ih hlast hin).trans_lt hlt
        rw [if_pos rfl, hall]
        exact ordered_addOffsets_concat hd hlast hlt
      · have hall : (os.all fun p => p < o) = false := by
          refine List.all_eq_false.mpr ⟨last.1, hmem, by simpa using hlt⟩
        rw [if_pos rfl, hall]
        refine ⟨o, List.getLast?_concat, getLast?_addOffsets_concat hlast hlt, last.1,
          List.mem_append_left _ hmem, ?_⟩
        exact lt_of_le_of_ne (not_lt.mp hlt) (hne last.1 hmem).symm
    | false =>
      rw [horder] at ih
      obtain ⟨p, hp, hlast, -⟩ := ih
      obtain rfl : last' = p := Option.some.inj (hlast'.symm.trans hp)
      rw [if_neg Bool.false_ne_true]
      by_cases hlt : last' < o
      · rw [decide_eq_true hlt]
        exact ordered_addOffsets_concat hd hlast hlt
      · rw [decide_eq_false hlt]
        refine ⟨o, List.getLast?_concat, getLast?_addOffsets_concat hlast hlt, last',
          List.mem_append_left _ hmem', ?_⟩
        exact lt_of_le_of_ne (not_lt.mp hlt) (hne last' hmem').symm

/-- The lookups are right: at every offset the name registered at the greatest offset up to it is
found, and the assertion does not fail. -/
def NamesOffsets (names : ℕ → String) (os : List ℕ) : Prop :=
  ∀ o, ∃ g, IsGreatest {p | p ∈ os ∧ p ≤ o} g ∧
    (addOffsets names os).getNameAtOffset o = some (names g)

/-- Some offset is the greatest up to a given one. -/
lemma exists_isGreatest_le {os : List ℕ} (hzero : 0 ∈ os) (o : ℕ) :
    ∃ g, IsGreatest {p | p ∈ os ∧ p ≤ o} g := by
  have hbdd : BddAbove {p | p ∈ os ∧ p ≤ o} := ⟨o, fun p hp => hp.2⟩
  exact ⟨_, Nat.sSup_mem ⟨0, hzero, Nat.zero_le o⟩ hbdd, fun p hp => le_csSup hbdd hp⟩

/-- In an ordered vector the lookups are right. -/
lemma Ordered.namesOffsets {names : ℕ → String} {os : List ℕ}
    (h : Ordered (addOffsets names os)) (hzero : 0 ∈ os) : NamesOffsets names os := by
  intro o
  obtain ⟨g, hg, hupper⟩ := exists_isGreatest_le hzero o
  refine ⟨g, ⟨hg, hupper⟩, ?_⟩
  exact Ordered.getNameAtOffset (e := (g, names g)) h (mem_addOffsets.mpr ⟨hg.1, rfl⟩) hg.2
    fun e' he' hle => hupper ⟨(mem_addOffsets.mp he').1, hle⟩

/-- With distinct names, right lookups show that the calls end in order. -/
lemma NamesOffsets.endsInOrder {names : ℕ → String} {os : List ℕ} (hd : os.Nodup)
    (hnames : Set.InjOn names {o | o ∈ os}) (h : NamesOffsets names os) :
    endsInOrder os.reverse = true := by
  refine Bool.eq_true_of_not_eq_false fun hfalse => ?_
  have harranged := arranged_addOffsets names hd
  rw [hfalse] at harranged
  obtain ⟨o, hlast, hentry, p, hp, hlt⟩ := harranged
  have hmem : o ∈ os := List.mem_of_getLast? hlast
  refine getNameAtOffset_ne (nodup_addOffsets names hd) hentry
    ⟨(p, names p), mem_addOffsets.mpr ⟨hp, rfl⟩, hlt⟩ (fun e he hname => ?_) ?_
  · obtain ⟨he', hname'⟩ := mem_addOffsets.mp he
    exact hnames he' hmem (hname'.symm.trans hname)
  · obtain ⟨g, ⟨hg, hupper⟩, hfound⟩ := h o
    have hgo : g = o := le_antisymm hg.2 (hupper ⟨hmem, le_rfl⟩)
    rw [hgo] at hfound
    exact hfound

/-- Names for which different offsets have different ones. -/
lemma exists_injective_names : ∃ names : ℕ → String, Function.Injective names :=
  ⟨fun o => String.ofList (List.replicate o 'a'), fun o p h => by
    have := congrArg List.length (String.ofList_injective h)
    simpa using this⟩

/-- **The lookups are right just if the calls end in order.**  For distinct offsets with `0` among
them, this decides them for all names, and for any names that tell the offsets apart. -/
theorem namesOffsets_iff {os : List ℕ} (hd : os.Nodup) (hzero : 0 ∈ os) :
    ((∀ names, NamesOffsets names os) ↔ endsInOrder os.reverse = true) ∧
      ∀ names, Set.InjOn names {o | o ∈ os} →
        (NamesOffsets names os ↔ endsInOrder os.reverse = true) := by
  have hright : endsInOrder os.reverse = true → ∀ names, NamesOffsets names os := by
    intro horder names
    have harranged := arranged_addOffsets names hd
    rw [horder] at harranged
    exact Ordered.namesOffsets harranged hzero
  refine ⟨⟨fun h => ?_, hright⟩, fun names hnames => ⟨fun h => h.endsInOrder hd hnames, fun h =>
    hright h names⟩⟩
  obtain ⟨names, hinj⟩ := exists_injective_names
  exact (h names).endsInOrder hd hinj.injOn

/-- Calls for `8`, `0` and `4` end in order. -/
theorem namesOffsets_threeCalls : NamesOffsets Nat.repr [8, 0, 4] :=
  have hd : [8, 0, 4].Nodup := by decide
  have hzero : 0 ∈ [8, 0, 4] := by decide
  (namesOffsets_iff hd hzero).1.mpr (by decide) Nat.repr

/-- After calls for `4` and `0` the lookup at `0` fails at its assertion. -/
theorem not_namesOffsets_twoCalls :
    getNameAtOffset (addOffsets (fun o => if o = 0 then "a" else "b") [4, 0]) 0 = none ∧
      ¬NamesOffsets (fun o => if o = 0 then "a" else "b") [4, 0] := by
  have hfails :
      getNameAtOffset (addOffsets (fun o => if o = 0 then "a" else "b") [4, 0]) 0 = none := by
    decide
  refine ⟨hfails, fun h => ?_⟩
  obtain ⟨g, -, hfound⟩ := h 0
  rw [hfails] at hfound
  cases hfound

end NameInfo

end GenMC
