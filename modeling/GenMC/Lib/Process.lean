import Mathlib.Data.List.Basic
import Mathlib.Tactic

/-!
# Processes that depend on answers

A process takes one action after the other.  Some actions ask for an answer, and which action comes
next depends on the number of actions so far and on the answers only; the first answer is the
argument that the process is started with.  The answers determine the index from which the process
goes on after the last one (`Resumes.unique`), so that the actions up to the next question can be
recorded for the answers, and the recordings of different runs fit together (`Recording.append`).
-/

namespace GenMC

variable {α β γ : Type*} {next : ℕ → List β → Option α} {asks : α → Bool} {answers : List β}
  {i j k : ℕ}

/-- The actions with an index from `i` up to, but not including, `j` do not ask. -/
def Quiet (next : ℕ → List β → Option α) (asks : α → Bool) (answers : List β) (i j : ℕ) : Prop :=
  ∀ k, i ≤ k → k < j → ∃ a, next k answers = some a ∧ asks a = false

/-- The process can go on from the index after it has been given the answers. -/
inductive Resumes (next : ℕ → List β → Option α) (asks : α → Bool) : List β → ℕ → Prop
  /-- The process has been started with an argument. -/
  | start (b : β) : Resumes next asks [b] 1
  /-- The process has got an answer to its last action. -/
  | answer {answers : List β} {i j : ℕ} {a : α} (b : β) : Resumes next asks answers i → i ≤ j →
    Quiet next asks answers i j → next j answers = some a → asks a = true →
    Resumes next asks (answers ++ [b]) (j + 1)

/-- Without an argument the process has not been started. -/
lemma Resumes.ne_nil (h : Resumes next asks answers i) : answers ≠ [] := by
  cases h <;> simp

/-- The first index at which the process asks is determined. -/
lemma Quiet.eq_of_asks {j' : ℕ} {a a' : α} (h : Quiet next asks answers i j)
    (h' : Quiet next asks answers i j') (hij : i ≤ j) (hij' : i ≤ j')
    (ha : next j answers = some a) (hasks : asks a = true) (ha' : next j' answers = some a')
    (hasks' : asks a' = true) : j = j' := by
  rcases lt_trichotomy j j' with hlt | heq | hgt
  · obtain ⟨x, hx, hquiet⟩ := h' j hij hlt
    rw [ha, Option.some_inj] at hx
    rw [hx, hquiet] at hasks
    cases hasks
  · exact heq
  · obtain ⟨x, hx, hquiet⟩ := h j' hij' hgt
    rw [ha', Option.some_inj] at hx
    rw [hx, hquiet] at hasks'
    cases hasks'

/-- **The answers determine where the process goes on.** -/
theorem Resumes.unique {i' : ℕ} (h : Resumes next asks answers i)
    (h' : Resumes next asks answers i') : i = i' := by
  induction h generalizing i' with
  | start b =>
    generalize hl : [b] = l at h'
    cases h' with
    | start => rfl
    | answer b' hbefore =>
      rw [List.singleton_eq_append_iff] at hl
      rcases hl with ⟨hnil, -⟩ | ⟨-, hnil⟩
      · exact absurd hnil hbefore.ne_nil
      · cases hnil
  | @answer answers i j a b hbefore hij hquiet ha hasks ih =>
    generalize hl : answers ++ [b] = l at h'
    cases h' with
    | start b' =>
      rw [List.append_eq_singleton_iff] at hl
      rcases hl with ⟨hnil, -⟩ | ⟨-, hnil⟩
      · exact absurd hnil hbefore.ne_nil
      · cases hnil
    | @answer answers' i' j' a' b' hbefore' hij' hquiet' ha' hasks' =>
      obtain ⟨rfl, -⟩ := List.append_inj' hl rfl
      obtain rfl := ih hbefore'
      rw [hquiet.eq_of_asks hquiet' hij hij' ha hasks ha' hasks']

/-! ## Recordings -/

/-- A recording, up to a relation, of the actions from where the process goes on; only the last one
may ask. -/
def Recording (next : ℕ → List β → Option α) (asks : α → Bool) (R : α → γ → Prop)
    (answers : List β) (l : List γ) : Prop :=
  l ≠ [] ∧ ∃ i, Resumes next asks answers i ∧ ∀ k c, l[k]? = some c →
    ∃ a, next (i + k) answers = some a ∧ R a c ∧ (k + 1 < l.length → asks a = false)

variable {R : α → γ → Prop} {l l' : List γ}

/-- A recording goes on with the actions that come next. -/
lemma Recording.append (h : Recording next asks R answers l) (hi : Resumes next asks answers i)
    (hquiet : Quiet next asks answers i (i + l.length))
    (hl' : ∀ k c, l'[k]? = some c → ∃ a, next (i + l.length + k) answers = some a ∧ R a c ∧
      (k + 1 < l'.length → asks a = false)) :
    Recording next asks R answers (l ++ l') := by
  obtain ⟨hne, i', hi', hl⟩ := h
  obtain rfl := hi.unique hi'
  refine ⟨fun hnil => hne (List.append_eq_nil_iff.mp hnil).1, i, hi, fun k c hk => ?_⟩
  rw [List.length_append]
  by_cases hlt : k < l.length
  · rw [List.getElem?_append_left hlt] at hk
    obtain ⟨a, ha, hac, -⟩ := hl k c hk
    refine ⟨a, ha, hac, fun _ => ?_⟩
    obtain ⟨a', ha', hasks⟩ := hquiet (i + k) (by omega) (by omega)
    obtain rfl := Option.some.inj (ha.symm.trans ha')
    exact hasks
  · rw [List.getElem?_append_right (by omega)] at hk
    obtain ⟨a, ha, hac, hasks⟩ := hl' _ c hk
    refine ⟨a, ?_, hac, fun h => hasks (by omega)⟩
    rwa [show i + l.length + (k - l.length) = i + k by omega] at ha

/-- A recording of the actions from where the process goes on. -/
lemma Recording.of_resumes (hi : Resumes next asks answers i) (hne : l ≠ [])
    (hl : ∀ k c, l[k]? = some c → ∃ a, next (i + k) answers = some a ∧ R a c ∧
      (k + 1 < l.length → asks a = false)) : Recording next asks R answers l :=
  ⟨hne, i, hi, hl⟩

end GenMC
