import GenMC.Lib.PartialRun

/-!
# A sequential memory

A memory that remembers for every location which write came last.  A read names the write that it
expects to find; a run of reads and writes succeeds if every read finds the one that it names.
-/

namespace GenMC

namespace SharedMemory

variable {α ω : Type*}

/-- An operation on the memory. -/
inductive Op (α ω : Type*)
  /-- A write with its name. -/
  | write (a : α) (w : ω)
  /-- A read with the name of the write that it reads from. -/
  | read (a : α) (w : ω)
  | other
deriving DecidableEq

/-- The write that is stored at a location when an operation writes there. -/
def Op.writes [DecidableEq α] (a : α) : Op α ω → Option ω
  | .write b w => if b = a then some w else none
  | _ => none

/-- The effect of an operation on the last writes of all locations. -/
def step [DecidableEq α] [DecidableEq ω] (m : α → ω) : Op α ω → Option (α → ω)
  | .write a w => some (Function.update m a w)
  | .read a w => if m a = w then some m else none
  | .other => some m

variable [DecidableEq α]

/-- The last write at a location. -/
def lastWrite (a : α) (ops : List (Op α ω)) : Option ω := ops.reverse.findSome? (Op.writes a)

/-- No operation. -/
lemma lastWrite_nil (a : α) : lastWrite a ([] : List (Op α ω)) = none := rfl

/-- The last write is that of the rest, if this has one. -/
lemma lastWrite_cons (a : α) (op : Op α ω) (ops : List (Op α ω)) :
    lastWrite a (op :: ops) = (lastWrite a ops).or (op.writes a) := by
  unfold lastWrite
  rw [List.reverse_cons, List.findSome?_append, List.findSome?_singleton]

/-- The last write is one of the operations, and no write to the location follows it. -/
lemma lastWrite_eq_some_iff {a : α} {w : ω} {ops : List (Op α ω)} : lastWrite a ops = some w ↔
    ∃ xs ys, ops = xs ++ .write a w :: ys ∧ ∀ op ∈ ys, op.writes a = none := by
  unfold lastWrite
  rw [List.findSome?_eq_some_iff]
  constructor
  · rintro ⟨ys, op, xs, hsplit, hop, hrest⟩
    refine ⟨xs.reverse, ys.reverse, ?_, fun op hop => hrest op (List.mem_reverse.mp hop)⟩
    have hwrite : op = .write a w := by
      cases op with
      | write b w' =>
        rw [Op.writes] at hop
        split at hop
        next heq => rw [heq, Option.some.inj hop]
        next => cases hop
      | _ => cases hop
    rw [← hwrite, ← List.reverse_inj, hsplit]
    simp
  · rintro ⟨xs, ys, rfl, hrest⟩
    refine ⟨ys.reverse, .write a w, xs.reverse, by simp, if_pos rfl,
      fun op hop => hrest op (List.mem_reverse.mp hop)⟩

variable [DecidableEq ω]

/-- What a run leaves at a location. -/
lemma exec_apply {m m' : α → ω} {ops : List (Op α ω)} (h : PartialRun.exec step m ops = some m')
    (a : α) : m' a = (lastWrite a ops).getD (m a) := by
  induction ops generalizing m with
  | nil => rw [← Option.some.inj h, lastWrite_nil, Option.getD_none]
  | cons op ops ih =>
    obtain ⟨m₁, hop, hrest⟩ := Option.bind_eq_some_iff.mp h
    have hm₁ : m₁ a = (op.writes a).getD (m a) := by
      cases op with
      | write b w =>
        rw [← Option.some.inj hop, Op.writes, Function.update_apply]
        by_cases hb : b = a
        · rw [if_pos hb, if_pos hb.symm, Option.getD_some]
        · rw [if_neg hb, if_neg (Ne.symm hb), Option.getD_none]
      | read b w =>
        rw [step] at hop
        split at hop
        · rw [← Option.some.inj hop]
          rfl
        · cases hop
      | other =>
        rw [← Option.some.inj hop]
        rfl
    rw [ih hrest, hm₁, lastWrite_cons]
    cases lastWrite a ops <;> rfl

/-- **A run succeeds** if every read names the last write before it. -/
theorem exec_isSome_iff {m : α → ω} {ops : List (Op α ω)} :
    (PartialRun.exec step m ops).isSome ↔ ∀ xs a w ys, ops = xs ++ .read a w :: ys →
      (lastWrite a xs).getD (m a) = w := by
  induction ops generalizing m with
  | nil => simp [PartialRun.exec]
  | cons op ops ih =>
    cases hop : step m op with
    | none =>
      -- only a read that finds another write fails
      obtain ⟨b, w, rfl, hne⟩ : ∃ b w, op = .read b w ∧ m b ≠ w := by
        cases op with
        | read b w =>
          rw [step] at hop
          split at hop
          next => cases hop
          next hne => exact ⟨b, w, rfl, hne⟩
        | _ => cases hop
      rw [PartialRun.exec, hop, Option.bind_none]
      exact ⟨fun h => (by cases h), fun h => absurd (h [] b w ops rfl) hne⟩
    | some m₁ =>
      have hm₁ : ∀ a, m₁ a = (op.writes a).getD (m a) := by
        intro a
        have hexec : PartialRun.exec step m [op] = some m₁ := by
          rw [PartialRun.exec, hop, Option.bind_some]
          rfl
        rw [exec_apply hexec, lastWrite_cons, lastWrite_nil, Option.none_or]
      have hlast : ∀ a xs, (lastWrite a (op :: xs)).getD (m a) = (lastWrite a xs).getD (m₁ a) := by
        intro a xs
        rw [lastWrite_cons, hm₁]
        cases lastWrite a xs <;> rfl
      rw [PartialRun.exec, hop, Option.bind_some, ih]
      constructor
      · intro h xs a w ys hsplit
        cases xs with
        | nil =>
          obtain ⟨rfl, -⟩ := List.cons.inj hsplit
          rw [step] at hop
          split at hop
          next heq => exact heq
          next => cases hop
        | cons x xs =>
          obtain ⟨rfl, hrest⟩ := List.cons.inj hsplit
          exact (hlast a xs).trans (h xs a w ys hrest)
      · intro h xs a w ys hsplit
        exact (hlast a xs).symm.trans (h (op :: xs) a w ys (by rw [hsplit, List.cons_append]))

end SharedMemory

end GenMC
