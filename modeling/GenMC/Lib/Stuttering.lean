import Mathlib.Order.Monotone.Basic
import Mathlib.Tactic

/-!
# Runs with additional steps

Two deterministic systems, the second of which makes additional steps in between.  A state can be
blocked, which ends the run.  The systems have the same runs if both block or neither does, and if
the states of the first one are met by the second one, in their order and with nothing else to be
seen in between (`SameRuns`).

The rule `sameRuns_of_steps` asks this of one step: the second system makes the step with its
additional ones, or it blocks in between, and then the first system blocks after its step.
-/

namespace GenMC

/-- A deterministic system with blocked states. -/
structure System (σ : Type*) where
  /-- One step; nothing if the run ends. -/
  step : σ → Option σ
  /-- The run is blocked. -/
  Blocked : σ → Prop

namespace System

variable {σ ω : Type*}

/-- A number of steps. -/
def run (S : System σ) : ℕ → σ → Option σ
  | 0, s => some s
  | n + 1, s => (run S n s).bind S.step

/-- Some run from the state is blocked. -/
def Blocks (S : System σ) (s : σ) : Prop := ∃ n t, S.run n s = some t ∧ S.Blocked t

variable {S T U : System σ}

/-- A run in two parts. -/
lemma run_add (m n : ℕ) (s : σ) : S.run (m + n) s = (S.run m s).bind (S.run n) := by
  induction n with
  | zero => cases S.run m s <;> rfl
  | succ n ih =>
    rw [← Nat.add_assoc, run, ih]
    cases S.run m s <;> rfl

/-- A run that has ended goes on no more. -/
lemma run_eq_none_of_le {m n : ℕ} {s : σ} (hle : m ≤ n) (h : S.run m s = none) :
    S.run n s = none := by
  obtain ⟨d, rfl⟩ := Nat.exists_eq_add_of_le hle
  rw [run_add, h, Option.bind_none]

/-- **The same runs.**  Both systems block or neither does; and if they do not, the second one meets
the states of the first one in their order, and what is observed in between does not change. -/
structure SameRuns (obs : σ → ω) (R : σ → σ → Prop) (S T : System σ) (s t : σ) : Prop where
  blocks_iff : S.Blocks s ↔ T.Blocks t
  meets : ¬S.Blocks s → ∃ φ : ℕ → ℕ, StrictMono φ ∧ φ 0 = 0 ∧
    (∀ n, S.run n s = none → T.run (φ n) t = none) ∧
    ∀ n s', S.run n s = some s' → (∃ t', T.run (φ n) t = some t' ∧ R s' t') ∧
      ∀ m t', φ n ≤ m → m < φ (n + 1) → T.run m t = some t' → obs t' = obs s'

/-- A number lies in one of the intervals of a strictly increasing sequence. -/
lemma exists_interval {φ : ℕ → ℕ} (hφ : StrictMono φ) (h0 : φ 0 = 0) (m : ℕ) :
    ∃ n, φ n ≤ m ∧ m < φ (n + 1) := by
  induction m with
  | zero => exact ⟨0, h0.le, lt_of_eq_of_lt h0.symm (hφ (Nat.lt_succ_self 0))⟩
  | succ m ih =>
    obtain ⟨n, hle, hlt⟩ := ih
    obtain heq | hlt := Nat.eq_or_lt_of_le hlt
    · exact ⟨n + 1, heq.symm.le, lt_of_eq_of_lt heq (hφ (Nat.lt_succ_self _))⟩
    · exact ⟨n, hle.trans (Nat.le_succ m), hlt⟩

/-- A system has its own runs. -/
lemma SameRuns.refl (obs : σ → ω) {R : σ → σ → Prop} (hR : ∀ s, R s s) (S : System σ) (s : σ) :
    SameRuns obs R S S s s := by
  refine ⟨Iff.rfl, fun _ => ⟨id, strictMono_id, rfl, fun n hn => hn, fun n s' hs' => ?_⟩⟩
  refine ⟨⟨s', hs', hR s'⟩, fun m t' hle hlt ht' => ?_⟩
  obtain rfl : m = n := by
    simp only [id] at hle hlt
    omega
  rw [Option.some.inj (ht'.symm.trans hs')]

/-- **Transitivity.** -/
theorem SameRuns.trans {obs : σ → ω} {R R' R'' : σ → σ → Prop} {s t u : σ}
    (hR : ∀ s t u, R s t → R' t u → R'' s u) (h : SameRuns obs R S T s t)
    (h' : SameRuns obs R' T U t u) : SameRuns obs R'' S U s u := by
  refine ⟨h.blocks_iff.trans h'.blocks_iff, fun hblocks => ?_⟩
  obtain ⟨φ, hφ, hφ0, hnone, hmeets⟩ := h.meets hblocks
  obtain ⟨ψ, hψ, hψ0, hnone', hmeets'⟩ := h'.meets (mt h.blocks_iff.mpr hblocks)
  refine ⟨ψ ∘ φ, hψ.comp hφ, by rw [Function.comp_apply, hφ0, hψ0],
    fun n hn => hnone' _ (hnone n hn), fun n s' hs' => ?_⟩
  obtain ⟨⟨t', ht', hst⟩, hobs⟩ := hmeets n s' hs'
  obtain ⟨⟨u', hu', htu⟩, -⟩ := hmeets' (φ n) t' ht'
  refine ⟨⟨u', hu', hR _ _ _ hst htu⟩, fun m v hle hlt hv => ?_⟩
  -- the state of the second system in whose interval `m` lies
  obtain ⟨l, hlle, hllt⟩ := exists_interval hψ hψ0 m
  have hge : φ n ≤ l := by
    by_contra hlt'
    have hle' : l + 1 ≤ φ n := by omega
    exact absurd (hle.trans_lt hllt) (not_lt.mpr (hψ.monotone hle'))
  have hlt' : l < φ (n + 1) := by
    by_contra hge'
    exact absurd (hlle.trans_lt hlt) (not_lt.mpr (hψ.monotone (not_lt.mp hge')))
  cases hl : T.run l t with
  | none =>
    have := run_eq_none_of_le hlle (hnone' l hl)
    rw [hv] at this
    cases this
  | some w => exact ((hmeets' l w hl).2 m v hlle hllt hv).trans (hobs l w hge hlt' hl)

/-- What one step needs: the second system makes the additional steps, or it blocks in between and
the first system blocks after the step. -/
structure StepsAlong (obs : σ → ω) (R : σ → σ → Prop) (extra : σ → ℕ) (S T : System σ) :
    Prop where
  blocked_iff : ∀ s t, R s t → extra s = 0 → (S.Blocked s ↔ T.Blocked t)
  ends : ∀ s t, R s t → S.step s = none → T.step t = none ∧ extra s = 0
  not_blocked : ∀ s, S.Blocked s → S.step s = none
  steps : ∀ s t s', R s t → S.step s = some s' →
    ((∃ t', T.run (extra s + 1) t = some t' ∧ R s' t') ∧
      (extra s ≠ 0 → ∀ j u, j ≤ extra s → T.run j t = some u → ¬T.Blocked u)) ∨
    (S.Blocked s' ∧ T.Blocks t)
  quiet : ∀ s t, R s t → ∀ j u, j ≤ extra s → T.run j t = some u → obs u = obs s

/-- How many steps the second system makes for the first ones of the first system. -/
def position (S : System σ) (extra : σ → ℕ) (s : σ) : ℕ → ℕ
  | 0 => 0
  | n + 1 => position S extra s n + ((S.run n s).elim 0 extra + 1)

lemma strictMono_position (extra : σ → ℕ) (s : σ) : StrictMono (position S extra s) :=
  strictMono_nat_of_lt_succ fun n => by rw [position]; omega

section Rule

variable {obs : σ → ω} {R : σ → σ → Prop} {extra : σ → ℕ} {s t : σ}

/-- A run that is blocked later. -/
lemma Blocks.of_run {n : ℕ} {u : σ} (h : S.run n s = some u) (hu : S.Blocks u) : S.Blocks s := by
  obtain ⟨m, v, hv, hblocked⟩ := hu
  exact ⟨n + m, v, by rw [run_add, h, Option.bind_some, hv], hblocked⟩

/-- The states of the first system are met, or the second system blocks. -/
lemma StepsAlong.meets (h : StepsAlong obs R extra S T) (hst : R s t) (n : ℕ) :
    (∀ s', S.run n s = some s' →
      (∃ t', T.run (position S extra s n) t = some t' ∧ R s' t') ∨
        (S.Blocks s ∧ T.Blocks t)) ∧
      (S.run n s = none → T.run (position S extra s n) t = none ∨ T.Blocks t) := by
  induction n with
  | zero => exact ⟨fun s' hs' => .inl ⟨t, rfl, Option.some.inj hs' ▸ hst⟩, nofun⟩
  | succ n ih =>
    constructor
    · intro s' hs'
      obtain ⟨s₁, hs₁, hstep⟩ := Option.bind_eq_some_iff.mp hs'
      obtain ⟨t₁, ht₁, hR⟩ | hblocks := ih.1 s₁ hs₁
      · obtain ⟨⟨t', ht', hR'⟩, -⟩ | ⟨hblocked, hblocks⟩ := h.steps s₁ t₁ s' hR hstep
        · refine .inl ⟨t', ?_, hR'⟩
          rw [position, hs₁, run_add, ht₁, Option.bind_some]
          exact ht'
        · exact .inr ⟨⟨n + 1, s', hs', hblocked⟩, hblocks.of_run ht₁⟩
      · exact .inr hblocks
    · intro hnone
      cases hs₁ : S.run n s with
      | none =>
        refine (ih.2 hs₁).imp_left fun hnone => run_eq_none_of_le ?_ hnone
        rw [position]
        omega
      | some s₁ =>
        rw [run, hs₁, Option.bind_some] at hnone
        obtain ⟨t₁, ht₁, hR⟩ | hblocks := ih.1 s₁ hs₁
        · obtain ⟨hnone', hextra⟩ := h.ends s₁ t₁ hR hnone
          refine .inl ?_
          rw [position, hs₁, Option.elim_some, hextra, run_add, ht₁, Option.bind_some, Nat.zero_add]
          exact hnone'
        · exact .inr hblocks.2

/-- **The rule.**  Runs from related states are the same if steps from related states are. -/
theorem sameRuns_of_steps (h : StepsAlong obs R extra S T) (hst : R s t) :
    SameRuns obs R S T s t := by
  have hposition := strictMono_position (S := S) extra s
  -- a blocked state of the second system is met in some interval of the first system
  have hback : T.Blocks t → S.Blocks s := by
    rintro ⟨m, v, hv, hblocked⟩
    by_contra hnot
    obtain ⟨n, hle, hlt⟩ := exists_interval hposition rfl m
    obtain ⟨hsome, -⟩ := h.meets hst n
    cases hs : S.run n s with
    | none =>
      -- the first system has ended, and its last state is blocked or the second one ended too
      obtain ⟨l, hl, hl'⟩ : ∃ l < n, ∃ s', S.run l s = some s' ∧ S.step s' = none := by
        clear hle hlt hsome
        induction n with
        | zero => cases hs
        | succ n ih =>
          cases hn : S.run n s with
          | none =>
            obtain ⟨l, hl, hl'⟩ := ih hn
            exact ⟨l, hl.trans (Nat.lt_succ_self n), hl'⟩
          | some s' =>
            rw [run, hn] at hs
            exact ⟨n, Nat.lt_succ_self n, s', hn, hs⟩
      obtain ⟨s', hs', hend⟩ := hl'
      obtain ⟨t', ht', hR⟩ | hblocks := (h.meets hst l).1 s' hs'
      · obtain ⟨hend', hextra⟩ := h.ends s' t' hR hend
        have hnone : T.run (position S extra s l + 1) t = none := by
          rw [run, ht', Option.bind_some, hend']
        have hle' : position S extra s l + 1 ≤ m :=
          (Nat.succ_le_of_lt (hposition hl)).trans hle
        rw [run_eq_none_of_le hle' hnone] at hv
        cases hv
      · exact hnot hblocks.1
    | some s' =>
      obtain ⟨t', ht', hR⟩ | hblocks := hsome s' hs
      · obtain ⟨j, rfl⟩ := Nat.exists_eq_add_of_le hle
        rw [run_add, ht', Option.bind_some] at hv
        rw [position, hs, Option.elim_some] at hlt
        have hj : j ≤ extra s' := by omega
        by_cases hextra : extra s' = 0
        · obtain rfl : j = 0 := by omega
          obtain rfl := Option.some.inj hv
          exact hnot ⟨n, s', hs, (h.blocked_iff s' t' hR hextra).mpr hblocked⟩
        · cases hstep : S.step s' with
          | none => exact hextra (h.ends s' t' hR hstep).2
          | some s'' =>
            obtain ⟨-, hfree⟩ | ⟨hblocked', -⟩ := h.steps s' t' s'' hR hstep
            · exact hfree hextra j v hj hv hblocked
            · exact hnot ⟨n + 1, s'', by rw [run, hs, Option.bind_some, hstep], hblocked'⟩
      · exact hnot hblocks.1
  have hforth : S.Blocks s → T.Blocks t := by
    rintro ⟨n, s', hs', hblocked⟩
    obtain ⟨t', ht', hR⟩ | hblocks := (h.meets hst n).1 s' hs'
    · have hextra := (h.ends s' t' hR (h.not_blocked s' hblocked)).2
      exact ⟨_, t', ht', (h.blocked_iff s' t' hR hextra).mp hblocked⟩
    · exact hblocks.2
  refine ⟨⟨hforth, hback⟩, fun hnot => ⟨position S extra s, hposition, rfl, fun n hn => ?_,
    fun n s' hs' => ?_⟩⟩
  · exact ((h.meets hst n).2 hn).resolve_right fun hblocks => hnot (hback hblocks)
  · obtain ⟨t', ht', hR⟩ | hblocks := (h.meets hst n).1 s' hs'
    · refine ⟨⟨t', ht', hR⟩, fun m v hle hlt hv => ?_⟩
      obtain ⟨j, rfl⟩ := Nat.exists_eq_add_of_le hle
      rw [run_add, ht', Option.bind_some] at hv
      rw [position, hs', Option.elim_some] at hlt
      exact h.quiet s' t' hR j v (by omega) hv
    · exact absurd hblocks.1 hnot

end Rule

end System

end GenMC
