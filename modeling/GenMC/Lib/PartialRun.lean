import Mathlib.Data.List.Basic
import Mathlib.Tactic

/-!
# Runs and loops of partial functions

A step function that may fail is run over a list of inputs.  `exec_invariant` is the induction rule
for such runs: an invariant that every successful step keeps holds in every state that a run
reaches.  `foldlM_prefix` and `foldlM_total` are the rules for loops that end and for loops that do
not fail: the assertion may speak about the part of the list that has been walked through.
-/

namespace GenMC

namespace PartialRun

variable {σ ι : Type*}

/-- The run of a partial step function; it ends with the first step that fails. -/
def exec (step : σ → ι → Option σ) : σ → List ι → Option σ
  | s, [] => some s
  | s, i :: is => (step s i).bind fun s' => exec step s' is

/-- Every input of the run meets `P` in the state in which it is applied. -/
def Meets (step : σ → ι → Option σ) (P : σ → ι → Prop) : σ → List ι → Prop
  | _, [] => True
  | s, i :: is => P s i ∧ ∀ s', step s i = some s' → Meets step P s' is

/-- Whether a run meets a decidable condition can be computed. -/
instance decidableMeets (step : σ → ι → Option σ) (P : σ → ι → Prop) [∀ s i, Decidable (P s i)] :
    ∀ s is, Decidable (Meets step P s is)
  | _, [] => isTrue trivial
  | s, i :: is =>
    match h : step s i with
    | none => decidable_of_iff (P s i) (by simp [Meets, h])
    | some s' =>
      have := decidableMeets step P s' is
      decidable_of_iff (P s i ∧ Meets step P s' is) (by simp [Meets, h])

/-- A condition that always holds is met by every run. -/
lemma meets_of_forall {step : σ → ι → Option σ} {P : σ → ι → Prop} (h : ∀ s i, P s i) {s : σ}
    {is : List ι} : Meets step P s is := by
  induction is generalizing s with
  | nil => trivial
  | cons i is ih => exact ⟨h s i, fun _ _ => ih⟩

/-- A condition that a run meets is met by its beginnings. -/
lemma Meets.of_append {step : σ → ι → Option σ} {P : σ → ι → Prop} {s : σ} {is js : List ι}
    (h : Meets step P s (is ++ js)) : Meets step P s is := by
  induction is generalizing s with
  | nil => trivial
  | cons i is ih => exact ⟨h.1, fun s' hs' => ih (h.2 s' hs')⟩

/-- **The invariant rule.**  What every step that meets `P` keeps holds at the end of every run
whose steps meet `P`, hence in every state that such a run reaches. -/
theorem exec_invariant {step : σ → ι → Option σ} {P : σ → ι → Prop} {Inv : σ → Prop}
    (hstep : ∀ s i s', Inv s → P s i → step s i = some s' → Inv s') {s s' : σ} {is : List ι}
    (hs : Inv s) (hmeets : Meets step P s is) (hexec : exec step s is = some s') : Inv s' := by
  induction is generalizing s with
  | nil => exact Option.some.inj hexec ▸ hs
  | cons i is ih =>
    obtain ⟨s₁, h₁, h₂⟩ := Option.bind_eq_some_iff.mp hexec
    exact ih (hstep s i s₁ hs hmeets.1 h₁) (hmeets.2 s₁ h₁) h₂

/-- The progress rule: if every state that is not a goal has a step that keeps the invariant and
decreases a measure, then a goal can be reached. -/
theorem exists_exec_of_decreasing {step : σ → ι → Option σ} {Inv Goal : σ → Prop} (μ : σ → ℕ)
    (hstep : ∀ s, Inv s → ¬Goal s → ∃ i s', step s i = some s' ∧ Inv s' ∧ μ s' < μ s) {s : σ}
    (hs : Inv s) : ∃ is s', exec step s is = some s' ∧ Inv s' ∧ Goal s' := by
  induction hμ : μ s using Nat.strong_induction_on generalizing s with
  | _ m ih =>
    by_cases hgoal : Goal s
    · exact ⟨[], s, rfl, hs, hgoal⟩
    · obtain ⟨i, s₁, h₁, hs₁, hlt⟩ := hstep s hs hgoal
      obtain ⟨is, s', h', hs', hgoal'⟩ := ih (μ s₁) (hμ ▸ hlt) hs₁ rfl
      exact ⟨i :: is, s', by rw [exec, h₁, Option.bind_some, h'], hs', hgoal'⟩

/-! ## Loops -/

/-- A loop whose body is a loop walks through the concatenated lists. -/
theorem foldlM_flatMap {κ : Type*} {f : σ → ι → Option σ} (h : κ → List ι) (l : List κ) (s : σ) :
    (l.flatMap h).foldlM f s = l.foldlM (fun s k => (h k).foldlM f s) s := by
  induction l generalizing s with
  | nil => rfl
  | cons k l ih =>
    rw [List.flatMap_cons, List.foldlM_append, List.foldlM_cons]
    exact congrArg _ (funext ih)

/-- A loop that ends: `P` speaks about the part of the list that is done. -/
theorem foldlM_prefix {f : σ → ι → Option σ} (l : List ι) (P : List ι → σ → Prop)
    (hstep : ∀ done i rest, l = done ++ i :: rest → ∀ s s', P done s → f s i = some s' →
      P (done ++ [i]) s') {s s' : σ} (hs : P [] s) (hfold : l.foldlM f s = some s') : P l s' := by
  suffices h : ∀ rest done s, l = done ++ rest → P done s → rest.foldlM f s = some s' → P l s' from
    h l [] s rfl hs hfold
  intro rest
  induction rest with
  | nil =>
    intro done s hl hs hfold
    rw [List.append_nil] at hl
    exact Option.some.inj hfold ▸ hl ▸ hs
  | cons i rest ih =>
    intro done s hl hs hfold
    rw [List.foldlM_cons] at hfold
    obtain ⟨s₁, h₁, h₂⟩ := Option.bind_eq_some_iff.mp hfold
    exact ih (done ++ [i]) s₁ (by rw [hl, List.append_assoc]; rfl)
      (hstep done i rest hl s s₁ hs h₁) h₂

/-- A loop that does not fail: `P` speaks about the part of the list that is done. -/
theorem foldlM_total {f : σ → ι → Option σ} (l : List ι) (P : List ι → σ → Prop)
    (hstep : ∀ done i rest, l = done ++ i :: rest → ∀ s, P done s →
      ∃ s', f s i = some s' ∧ P (done ++ [i]) s') {s : σ} (hs : P [] s) :
    ∃ s', l.foldlM f s = some s' ∧ P l s' := by
  suffices h : ∀ rest done s, l = done ++ rest → P done s →
      ∃ s', rest.foldlM f s = some s' ∧ P l s' from h l [] s rfl hs
  intro rest
  induction rest with
  | nil =>
    intro done s hl hs
    rw [List.append_nil] at hl
    exact ⟨s, rfl, hl ▸ hs⟩
  | cons i rest ih =>
    intro done s hl hs
    obtain ⟨s₁, h₁, hs₁⟩ := hstep done i rest hl s hs
    obtain ⟨s', h', hs'⟩ := ih (done ++ [i]) s₁ (by rw [hl, List.append_assoc]; rfl) hs₁
    refine ⟨s', ?_, hs'⟩
    rw [List.foldlM_cons, h₁]
    exact h'

/-- What every successful step of a loop keeps holds at its end. -/
theorem foldlM_invariant {f : σ → ι → Option σ} {l : List ι} {Inv : σ → Prop}
    (hstep : ∀ s, ∀ i ∈ l, ∀ s', Inv s → f s i = some s' → Inv s') {s s' : σ} (hs : Inv s)
    (hfold : l.foldlM f s = some s') : Inv s' :=
  foldlM_prefix l (fun _ => Inv)
    (fun _ i _ hl s s' => hstep s i (hl ▸ List.mem_append_right _ List.mem_cons_self) s') hs hfold

/-- A loop that collects results does not fail if no step does. -/
theorem mapM_eq_some_map {κ : Type*} {f : ι → Option κ} {h : ι → κ} {l : List ι}
    (hf : ∀ i ∈ l, f i = some (h i)) : l.mapM f = some (l.map h) := by
  induction l with
  | nil => rfl
  | cons i l ih =>
    rw [List.mapM_cons, hf i List.mem_cons_self, ih fun j hj => hf j (List.mem_cons_of_mem _ hj)]
    rfl

/-- The results of such a loop, where they have no common form. -/
theorem mapM_eq_some_filterMap {κ : Type*} {f : ι → Option κ} {l : List ι}
    (hf : ∀ i ∈ l, (f i).isSome) : l.mapM f = some (l.filterMap f) := by
  induction l with
  | nil => rfl
  | cons i l ih =>
    obtain ⟨k, hk⟩ := Option.isSome_iff_exists.mp (hf i List.mem_cons_self)
    rw [List.mapM_cons, hk, ih fun j hj => hf j (List.mem_cons_of_mem _ hj),
      List.filterMap_cons_some hk]
    rfl

/-- The results of a loop that collects them. -/
theorem getElem?_of_mapM {κ : Type*} {f : ι → Option κ} {l : List ι} {l' : List κ}
    (h : l.mapM f = some l') : l'.length = l.length ∧
      ∀ (k : ℕ) (b : κ), l'[k]? = some b → ∃ a, l[k]? = some a ∧ f a = some b := by
  induction l generalizing l' with
  | nil =>
    obtain rfl := Option.some.inj h
    exact ⟨rfl, fun k b hk => by cases hk⟩
  | cons a l ih =>
    rw [List.mapM_cons] at h
    obtain ⟨b, hb, hrest⟩ := Option.bind_eq_some_iff.mp h
    obtain ⟨bs, hbs, hcons⟩ := Option.bind_eq_some_iff.mp hrest
    obtain rfl := Option.some.inj hcons
    obtain ⟨hlen, hget⟩ := ih hbs
    refine ⟨by simp [hlen], fun k c hk => ?_⟩
    cases k with
    | zero =>
      obtain rfl := Option.some.inj hk
      exact ⟨a, rfl, hb⟩
    | succ k => exact hget k c hk

/-- Every element has a result among them. -/
theorem exists_of_mapM {κ : Type*} {f : ι → Option κ} {l : List ι} {l' : List κ}
    (h : l.mapM f = some l') {a : ι} (ha : a ∈ l) : ∃ b ∈ l', f a = some b := by
  obtain ⟨hlength, hget⟩ := getElem?_of_mapM h
  obtain ⟨k, hk⟩ := List.mem_iff_getElem?.mp ha
  have hlt : k < l'.length := hlength ▸ (List.getElem?_eq_some_iff.mp hk).1
  obtain ⟨a', ha', hb⟩ := hget k l'[k] (List.getElem?_eq_getElem hlt)
  obtain rfl := Option.some.inj (ha'.symm.trans hk)
  exact ⟨l'[k], List.getElem_mem hlt, hb⟩

/-- The results are those of the elements. -/
theorem mem_of_mapM {κ : Type*} {f : ι → Option κ} {l : List ι} {l' : List κ}
    (h : l.mapM f = some l') (b : κ) : b ∈ l' ↔ ∃ a ∈ l, f a = some b := by
  constructor
  · intro hb
    obtain ⟨k, hk⟩ := List.mem_iff_getElem?.mp hb
    obtain ⟨a, ha, hf⟩ := (getElem?_of_mapM h).2 k b hk
    exact ⟨a, List.mem_of_getElem? ha, hf⟩
  · rintro ⟨a, ha, hf⟩
    obtain ⟨b', hb', hf'⟩ := exists_of_mapM h ha
    exact Option.some.inj (hf.symm.trans hf') ▸ hb'

/-- Erases the elements that pass a test; there is no result if a test has none. -/
def eraseIfM (f : ι → Option Bool) : List ι → Option (List ι)
  | [] => some []
  | i :: l => (f i).bind fun b => (eraseIfM f l).map fun l' => if b then l' else i :: l'

/-- Every element is tested, and it is erased or kept. -/
theorem exists_of_eraseIfM {f : ι → Option Bool} {l l' : List ι} (h : eraseIfM f l = some l')
    {i : ι} (hi : i ∈ l) : ∃ b, f i = some b ∧ (b = true ∨ i ∈ l') := by
  induction l generalizing l' with
  | nil => exact absurd hi List.not_mem_nil
  | cons j l ih =>
    obtain ⟨b, hb, h⟩ := Option.bind_eq_some_iff.mp h
    obtain ⟨l₁, hl₁, rfl⟩ := Option.map_eq_some_iff.mp h
    obtain rfl | hi := List.mem_cons.mp hi
    · refine ⟨b, hb, ?_⟩
      cases b with
      | true => exact Or.inl rfl
      | false => exact Or.inr List.mem_cons_self
    · obtain ⟨b', hb', hor⟩ := ih hl₁ hi
      refine ⟨b', hb', hor.imp_right fun hmem => ?_⟩
      split
      · exact hmem
      · exact List.mem_cons_of_mem _ hmem

/-- A test with early exit succeeds on a list if it does on all elements. -/
theorem allM_eq_true_iff {f : ι → Option Bool} {l : List ι} :
    l.allM f = some true ↔ ∀ i ∈ l, f i = some true := by
  induction l with
  | nil => simp
  | cons i l ih =>
    rw [List.allM]
    cases hi : f i with
    | none => simp [hi]
    | some b => cases b <;> simp [hi, ih]

/-- A test with early exit fails at an element before which it succeeds. -/
theorem allM_eq_none_iff {f : ι → Option Bool} {l : List ι} :
    l.allM f = none ↔ ∃ s i t, l = s ++ i :: t ∧ f i = none ∧ ∀ j ∈ s, f j = some true := by
  induction l with
  | nil => simp
  | cons i l ih =>
    rw [List.allM]
    cases hi : f i with
    | none => exact iff_of_true rfl ⟨[], i, l, rfl, hi, by simp⟩
    | some b =>
      -- The element that fails is further on.
      have hsplit : (∃ s j t, i :: l = s ++ j :: t ∧ f j = none ∧ ∀ k ∈ s, f k = some true) ↔
          b = true ∧ ∃ s j t, l = s ++ j :: t ∧ f j = none ∧ ∀ k ∈ s, f k = some true := by
        constructor
        · rintro ⟨s, j, t, heq, hj, hs⟩
          cases s with
          | nil =>
            obtain ⟨rfl, -⟩ := List.cons.inj heq
            rw [hi] at hj
            cases hj
          | cons k s =>
            obtain ⟨rfl, rfl⟩ := List.cons.inj heq
            exact ⟨Option.some.inj (hi.symm.trans (hs i List.mem_cons_self)), s, j, t, rfl, hj,
              fun k hk => hs k (List.mem_cons_of_mem i hk)⟩
        · rintro ⟨rfl, s, j, t, rfl, hj, hs⟩
          exact ⟨i :: s, j, t, rfl, hj, List.forall_mem_cons.mpr ⟨hi, hs⟩⟩
      rw [hsplit, ← ih]
      cases b <;> simp

/-- On a sorted list, a test with early exit fails at an element such that it succeeds on the
smaller ones. -/
theorem allM_eq_none_iff_of_pairwise {f : ι → Option Bool} {l : List ι} (key : ι → ℕ)
    (hl : l.Pairwise fun i j => key i < key j) :
    l.allM f = none ↔ ∃ i ∈ l, f i = none ∧ ∀ j ∈ l, key j < key i → f j = some true := by
  -- What stands before an element are the smaller ones.
  have hbefore : ∀ s i t, l = s ++ i :: t → ∀ j, j ∈ s ↔ j ∈ l ∧ key j < key i := by
    rintro s i t rfl j
    obtain ⟨-, htail, hs⟩ := List.pairwise_append.mp hl
    constructor
    · exact fun hj => ⟨List.mem_append_left _ hj, hs j hj i List.mem_cons_self⟩
    · rintro ⟨hj, hlt⟩
      rcases List.mem_append.mp hj with hj | hj
      · exact hj
      · rcases List.mem_cons.mp hj with rfl | hj
        · exact absurd hlt (lt_irrefl _)
        · exact absurd ((List.pairwise_cons.mp htail).1 j hj) hlt.not_gt
  rw [allM_eq_none_iff]
  constructor
  · rintro ⟨s, i, t, heq, hi, hs⟩
    exact ⟨i, heq ▸ by simp, hi, fun j hj hlt => hs j ((hbefore s i t heq j).mpr ⟨hj, hlt⟩)⟩
  · rintro ⟨i, hmem, hi, hsmaller⟩
    obtain ⟨s, t, heq⟩ := List.append_of_mem hmem
    refine ⟨s, i, t, heq, hi, fun j hj => ?_⟩
    obtain ⟨hjl, hlt⟩ := (hbefore s i t heq j).mp hj
    exact hsmaller j hjl hlt

end PartialRun

end GenMC
