import GenMC.ADT.Trie
import Mathlib.Data.List.TakeWhile

/-!
# What a trie holds

The meaning of a trie is the relation `Holds`: a sequence is held with a payload if it is the
concatenation of the edge labels on a path to a node with that payload.  A trie is well formed if
its labels are non-empty and the children of every node have pairwise distinct, increasing first
elements.

A node is read through one child at a time: `Around` splits the children around a first element,
and `Around.puts` turns a change of what is held through that child (`Puts`) into the same change
of what the node holds.
-/

namespace GenMC

namespace Trie

variable {α β : Type*}

/-- The path from the node spells the sequence and ends at a node with the payload. -/
inductive Holds : Node α β → List α → β → Prop
  | here {l d cs} : Holds (.mk l d cs) [] d
  | edge {l d cs c s e} (hc : c ∈ cs) (h : Holds c s e) : Holds (.mk l d cs) (c.label ++ s) e

/-- A non-empty label has a first element. -/
lemma exists_head {c : Node α β} (h : c.label ≠ []) : ∃ x, c.label.head? = some x := by
  cases hl : c.label with
  | nil => exact absurd hl h
  | cons x l => exact ⟨x, rfl⟩

section WellFormed

variable [LinearOrder α]

/-- The label of `c` starts with a smaller element than the label of `c'`. -/
def HeadLt (c c' : Node α β) : Prop :=
  ∀ x ∈ c.label.head?, ∀ y ∈ c'.label.head?, x < y

/-- Labels are non-empty and addressable by `unsigned` lengths, and siblings are sorted. -/
inductive WellFormed : Node α β → Prop
  | mk {l d cs} (hne : ∀ c ∈ cs, c.label ≠ []) (hlen : ∀ c ∈ cs, c.label.length < 2 ^ 32)
      (hsorted : cs.Pairwise HeadLt) (hcs : ∀ c ∈ cs, WellFormed c) : WellFormed (.mk l d cs)

/-- The empty trie is well formed. -/
lemma wellFormed_empty [Inhabited β] : WellFormed (empty : Node α β) :=
  .mk (by simp) (by simp) .nil (by simp)

/-- The payload and the label of a node do not matter for its well-formedness. -/
lemma WellFormed.relabel {n : Node α β} (h : WellFormed n) (l : List α) (d : β) :
    WellFormed (.mk l d n.children) := by
  cases h with
  | mk hne hlen hsorted hcs => exact .mk hne hlen hsorted hcs

/-- What the well-formedness of a node says about a child. -/
lemma WellFormed.child {n c : Node α β} (h : WellFormed n) (hc : c ∈ n.children) :
    WellFormed c ∧ c.label.length < 2 ^ 32 ∧ c.label ≠ [] := by
  cases h with
  | mk hne hlen hsorted hcs => exact ⟨hcs c hc, hlen c hc, hne c hc⟩

/-! ## The children of a node around a first element -/

/-- The siblings of `n` around the first element `id`: those below it, possibly one at it, and
those above it. -/
structure Around (n : Node α β) (id : α) (before : List (Node α β)) (at_ : Option (Node α β))
    (after : List (Node α β)) : Prop where
  /-- The three parts make up the children. -/
  children : n.children = before ++ at_.toList ++ after
  /-- The walk to the lower bound stops exactly there. -/
  below_eq : edgesBelow n id = before
  /-- The rest of the walk. -/
  from_eq : edgesFrom n id = at_.toList ++ after
  /-- The part before starts below `id`. -/
  before_lt : ∀ c ∈ before, ∀ x ∈ c.label.head?, x < id
  /-- The part after starts above `id`. -/
  after_gt : ∀ c ∈ after, ∀ x ∈ c.label.head?, id < x
  /-- The part in the middle starts with `id`. -/
  at_head : ∀ c ∈ at_, c.label.head? = some id

/-- Comparing a node with `id` compares the first element of its label. -/
lemma nodeCmp_eq {c : Node α β} {x : α} (h : c.label.head? = some x) (id : α) :
    nodeCmp id c = decide (x < id) := by
  unfold nodeCmp
  cases hl : c.label with
  | nil => rw [hl] at h; cases h
  | cons y l =>
    rw [hl, List.head?_cons, Option.some.injEq] at h
    rw [h]

/-- The walk to the lower bound stops at an edge that is not below `id`. -/
lemma nodeCmp_eq_false {n c : Node α β} {id : α} {rest : List (Node α β)}
    (h : edgesFrom n id = c :: rest) : nodeCmp id c = false := by
  unfold edgesFrom at h
  have hne : n.children.dropWhile (nodeCmp id) ≠ [] := by rw [h]; simp
  have hd := List.head_dropWhile_not (nodeCmp id) hne
  simpa only [h, List.head_cons] using hd

/-- The children of a well-formed node split around every first element. -/
lemma WellFormed.around {n : Node α β} (h : WellFormed n) (id : α) :
    ∃ before at_ after, Around n id before at_ after := by
  obtain @⟨l, d, cs, hne, -, hsorted, -⟩ := h
  have hsplit : edgesBelow (.mk l d cs) id ++ edgesFrom (.mk l d cs) id = cs :=
    List.takeWhile_append_dropWhile
  have hbefore : ∀ c ∈ edgesBelow (.mk l d cs) id, ∀ x ∈ c.label.head?, x < id := by
    intro c hc x hx
    have := List.mem_takeWhile_imp hc
    rw [nodeCmp_eq hx] at this
    exact of_decide_eq_true this
  cases hfrom : edgesFrom (Node.mk l d cs) id with
  | nil =>
    refine ⟨edgesBelow (.mk l d cs) id, none, [],
      ⟨?_, rfl, by simp [hfrom], hbefore, by simp, by simp⟩⟩
    rw [hfrom] at hsplit
    simpa [Node.children] using hsplit.symm
  | cons c rest =>
    have hmem : c ∈ cs := by rw [← hsplit, hfrom]; simp
    obtain ⟨x, hx⟩ := exists_head (hne c hmem)
    have hge : id ≤ x := by
      have hstop := nodeCmp_eq_false hfrom
      rw [nodeCmp_eq hx] at hstop
      exact not_lt.mp (of_decide_eq_false hstop)
    have hpair : (c :: rest).Pairwise HeadLt := by
      rw [← hsplit, hfrom] at hsorted
      exact (List.pairwise_append.mp hsorted).2.1
    have hrest : ∀ c' ∈ rest, ∀ y ∈ c'.label.head?, x < y := fun c' hc' y hy =>
      (List.pairwise_cons.mp hpair).1 c' hc' x hx y hy
    rcases eq_or_lt_of_le hge with heq | hlt
    · subst heq
      refine ⟨edgesBelow (.mk l d cs) id, some c, rest,
        ⟨?_, rfl, by simp [hfrom], hbefore, hrest, ?_⟩⟩
      · rw [hfrom] at hsplit
        simpa [Node.children] using hsplit.symm
      · intro c' hc'
        cases hc'
        exact hx
    · refine ⟨edgesBelow (.mk l d cs) id, none, c :: rest,
        ⟨?_, rfl, by simp [hfrom], hbefore, ?_, by simp⟩⟩
      · rw [hfrom] at hsplit
        simpa [Node.children] using hsplit.symm
      · intro c' hc' y hy
        rcases List.mem_cons.mp hc' with rfl | hc'
        · rw [hx, Option.mem_def, Option.some.injEq] at hy
          exact hy ▸ hlt
        · exact hlt.trans (hrest c' hc' y hy)

/-- `getEdge` finds the middle part. -/
lemma Around.getEdge {n : Node α β} {id : α} {before at_ after} (h : Around n id before at_ after) :
    getEdge n id = at_ := by
  unfold Trie.getEdge
  rw [h.from_eq]
  cases hat : at_ with
  | some c => simp [h.at_head c (by rw [hat]; rfl)]
  | none =>
    cases hafter : after with
    | nil => rfl
    | cons c rest =>
      have hgt := h.after_gt c (by rw [hafter]; simp)
      have hne : c.label.head? ≠ some id := fun hc => lt_irrefl _ (hgt id hc)
      simp [hne]

/-- `setEdge` replaces the middle part. -/
lemma Around.setEdge {n c m : Node α β} {id : α} {before after}
    (h : Around n id before (some c) after) (hm : m.label.head? = some id) :
    setEdge n m = some (n.withChildren (before ++ m :: after)) := by
  unfold Trie.setEdge
  simp [hm, h.from_eq, h.below_eq]

/-- `addEdge` fills an empty middle part. -/
lemma Around.addEdge {n m : Node α β} {id : α} {before after}
    (h : Around n id before none after) (hm : m.label.head? = some id) :
    addEdge n m = some (n.withChildren (before ++ m :: after)) := by
  unfold Trie.addEdge
  simp [hm, h.from_eq, h.below_eq]

/-- Putting a well-formed child into the middle keeps the node well formed. -/
lemma Around.wellFormed {n c : Node α β} {id : α} {before at_ after}
    (h : Around n id before at_ after) (hn : WellFormed n) (hc : WellFormed c)
    (hhead : c.label.head? = some id) (hlen : c.label.length < 2 ^ 32) :
    WellFormed (n.withChildren (before ++ c :: after)) := by
  obtain @⟨l, d, cs, hne, hl, hsorted, hcs⟩ := hn
  have hcs_eq : cs = before ++ at_.toList ++ after := h.children
  have hsub : ∀ x ∈ before ++ c :: after, x = c ∨ x ∈ cs := by
    intro x hx
    rw [hcs_eq]
    simp only [List.mem_append, List.mem_cons] at hx ⊢
    tauto
  have hcne : c.label ≠ [] := by
    intro h0
    rw [h0] at hhead
    cases hhead
  refine .mk ?_ ?_ ?_ ?_
  · intro x hx
    rcases hsub x hx with rfl | hx
    · exact hcne
    · exact hne x hx
  · intro x hx
    rcases hsub x hx with rfl | hx
    · exact hlen
    · exact hl x hx
  · rw [hcs_eq, List.pairwise_append, List.pairwise_append] at hsorted
    obtain ⟨⟨hbb, -, -⟩, haa, hba⟩ := hsorted
    rw [List.pairwise_append, List.pairwise_cons]
    refine ⟨hbb, ⟨?_, haa⟩, ?_⟩
    · intro c' hc' x hx y hy
      rw [hhead, Option.mem_def, Option.some.injEq] at hx
      exact hx ▸ h.after_gt c' hc' y hy
    · intro a ha b hb
      rcases List.mem_cons.mp hb with rfl | hb
      · intro x hx y hy
        rw [hhead, Option.mem_def, Option.some.injEq] at hy
        exact hy ▸ h.before_lt a ha x hx
      · exact hba a (List.mem_append_left _ ha) b hb
  · intro x hx
    rcases hsub x hx with rfl | hx
    · exact hc
    · exact hcs x hx

/-- The middle part is a child. -/
lemma Around.mem {n c : Node α β} {id : α} {before after}
    (h : Around n id before (some c) after) : c ∈ n.children := by
  rw [h.children]
  simp

/-- Only the middle part can start with `id`. -/
lemma Around.eq_of_head {n c : Node α β} {id : α} {before at_ after}
    (h : Around n id before at_ after) (hc : c ∈ n.children) (hhead : c.label.head? = some id) :
    at_ = some c := by
  rw [h.children, List.mem_append, List.mem_append] at hc
  rcases hc with (hc | hc) | hc
  · exact absurd (h.before_lt c hc id hhead) (lt_irrefl _)
  · exact Option.mem_toList.mp hc
  · exact absurd (h.after_gt c hc id hhead) (lt_irrefl _)

end WellFormed

/-! ## The held sequences of a node -/

/-- The empty sequence is held with the payload of the node, every other sequence below a child. -/
lemma holds_iff {n : Node α β} {s : List α} {d : β} :
    Holds n s d ↔
      (s = [] ∧ d = n.data) ∨ ∃ c ∈ n.children, ∃ t, s = c.label ++ t ∧ Holds c t d := by
  constructor
  · intro h
    cases h with
    | here => exact Or.inl ⟨rfl, rfl⟩
    | edge hc h => exact Or.inr ⟨_, hc, _, rfl, h⟩
  · cases n with
    | mk l d' cs =>
      rintro (⟨rfl, rfl⟩ | ⟨c, hc, t, rfl, h⟩)
      · exact .here
      · exact .edge hc h

/-- The held sequences do not depend on the label of the node. -/
lemma holds_relabel {n : Node α β} (l : List α) {s : List α} {e : β} :
    Holds (.mk l n.data n.children) s e ↔ Holds n s e := by
  rw [holds_iff, holds_iff (n := n)]
  rfl

/-- The sequences held through the edge into `c`, the label of the edge included. -/
def EdgeHolds (c : Node α β) (s : List α) (e : β) : Prop := ∃ t, s = c.label ++ t ∧ Holds c t e

/-- `R'` is `R` with the payload `d` stored at `s`; apart from that it may only hold some further
sequences with the default payload. -/
structure Puts [Inhabited β] (R R' : List α → β → Prop) (s : List α) (d : β) : Prop where
  /-- The sequence is held with the new payload and no other. -/
  stored : ∀ e, R' s e ↔ e = d
  /-- Other sequences keep their payloads. -/
  keeps : ∀ t ≠ s, ∀ e, R t e → R' t e
  /-- What is new is a sequence that was not held before, with the default payload. -/
  onlyDefault : ∀ t ≠ s, ∀ e, R' t e → R t e ∨ (e = default ∧ ∀ e', ¬ R t e')

/-- A sequence that starts with the first element of an edge and is held through it. -/
lemma EdgeHolds.head {c : Node α β} {s : List α} {e : β} {x : α} (h : EdgeHolds c s e)
    (hx : c.label.head? = some x) : s.head? = some x := by
  obtain ⟨t, rfl, -⟩ := h
  cases hl : c.label with
  | nil => rw [hl] at hx; cases hx
  | cons y l => rw [hl] at hx; simpa using hx

/-- Storing a payload below a child stores it through the edge into the child. -/
lemma Puts.edge [Inhabited β] {c c' : Node α β} {t : List α} {d : β}
    (h : Puts (Holds c) (Holds c') t d) (hl : c'.label = c.label) :
    Puts (fun u e => ∃ c₀ ∈ some c, EdgeHolds c₀ u e) (EdgeHolds c') (c.label ++ t) d := by
  simp only [Option.mem_some_iff, exists_eq_left']
  have hedge : ∀ (m : Node α β), m.label = c.label → ∀ u e,
      EdgeHolds m (c.label ++ u) e ↔ Holds m u e := by
    intro m hm u e
    constructor
    · rintro ⟨v, hv, hh⟩
      rw [hm, List.append_cancel_left_eq] at hv
      exact hv ▸ hh
    · intro hh
      exact ⟨u, by rw [hm], hh⟩
  refine ⟨fun e => ?_, fun u hu e hue => ?_, fun u hu e hue => ?_⟩
  · rw [hedge c' hl]
    exact h.stored e
  · obtain ⟨v, rfl, hv⟩ := hue
    rw [hedge c' hl]
    exact h.keeps v (fun hvt => hu (by rw [hvt])) e hv
  · obtain ⟨v, hv', hv⟩ := hue
    rw [hl] at hv'
    subst hv'
    rw [hedge c rfl]
    rcases h.onlyDefault v (fun hvt => hu (by rw [hvt])) e hv with hold | ⟨hd, hnone⟩
    · exact Or.inl hold
    · exact Or.inr ⟨hd, fun e' he' => hnone e' ((hedge c rfl v e').mp he')⟩

section Edges

variable [LinearOrder α]

/-- Replacing the middle part leaves the node split around the same first element. -/
lemma Around.replace {n c : Node α β} {id : α} {before at_ after}
    (h : Around n id before at_ after) (hc : c.label.head? = some id) :
    Around (n.withChildren (before ++ c :: after)) id before (some c) after := by
  have hbefore : ∀ b ∈ before, nodeCmp id b = true := by
    intro b hb
    rw [← h.below_eq] at hb
    exact List.mem_takeWhile_imp hb
  have hc' : ¬ nodeCmp id c = true := by rw [nodeCmp_eq hc]; simp
  refine ⟨by simp, ?_, ?_, h.before_lt, h.after_gt, ?_⟩
  · simp only [edgesBelow, Node.children_withChildren]
    rw [List.takeWhile_append_of_pos hbefore, List.takeWhile_cons_of_neg hc', List.append_nil]
  · simp only [edgesFrom, Node.children_withChildren]
    rw [List.dropWhile_append_of_pos hbefore, List.dropWhile_cons_of_neg hc']
    rfl
  · intro c' hc'
    cases hc'
    exact hc

/-- A sequence that starts with `id` can only be held through the middle part. -/
lemma Around.holds_of_head {n : Node α β} {id : α} {before at_ after}
    (h : Around n id before at_ after) (hn : WellFormed n) {s : List α} (hs : s.head? = some id)
    {e : β} : Holds n s e ↔ ∃ c ∈ at_, EdgeHolds c s e := by
  rw [holds_iff]
  constructor
  · rintro (⟨rfl, -⟩ | ⟨c, hc, t, rfl, ht⟩)
    · cases hs
    · obtain @⟨l, d, cs, hne, -, -, -⟩ := hn
      obtain ⟨x, hx⟩ := exists_head (hne c hc)
      have hhead := EdgeHolds.head ⟨t, rfl, ht⟩ hx
      rw [hs, Option.some.injEq] at hhead
      exact ⟨c, h.eq_of_head hc (hhead ▸ hx), t, rfl, ht⟩
  · rintro ⟨c, hc, t, rfl, ht⟩
    have hmem : c ∈ n.children := by
      rw [h.children, Option.mem_def.mp hc]
      simp
    exact Or.inr ⟨c, hmem, t, rfl, ht⟩

/-- A sequence that does not start with `id` does not notice the middle part. -/
lemma Around.holds_of_head_ne {n c : Node α β} {id : α} {before at_ after}
    (h : Around n id before at_ after) (hc : c.label.head? = some id) {s : List α}
    (hs : s.head? ≠ some id) {e : β} :
    Holds (n.withChildren (before ++ c :: after)) s e ↔ Holds n s e := by
  have hdata : (n.withChildren (before ++ c :: after)).data = n.data := by cases n; rfl
  rw [holds_iff, holds_iff (n := n), hdata, Node.children_withChildren, h.children]
  refine or_congr_right (exists_congr fun c' => ?_)
  constructor
  · rintro ⟨hc', t, rfl, ht⟩
    refine ⟨?_, t, rfl, ht⟩
    rcases List.mem_append.mp hc' with hb | hb
    · simp [hb]
    · rcases List.mem_cons.mp hb with rfl | ha
      · exact absurd (EdgeHolds.head ⟨t, rfl, ht⟩ hc) hs
      · simp [ha]
  · rintro ⟨hc', t, rfl, ht⟩
    refine ⟨?_, t, rfl, ht⟩
    rcases List.mem_append.mp hc' with hb | ha
    · rcases List.mem_append.mp hb with hb | hat
      · simp [hb]
      · exact absurd (EdgeHolds.head ⟨t, rfl, ht⟩ (h.at_head c' (Option.mem_toList.mp hat))) hs
    · simp [ha]

/-- Storing a payload through one edge stores it in the node, and keeps the node well formed. -/
lemma Around.puts [Inhabited β] {n c : Node α β} {id : α} {before at_ after}
    (h : Around n id before at_ after) (hn : WellFormed n) (hc : WellFormed c)
    (hhead : c.label.head? = some id) (hlen : c.label.length < 2 ^ 32) {s : List α}
    (hs : s.head? = some id) {d : β}
    (hputs : Puts (fun t e => ∃ c ∈ at_, EdgeHolds c t e) (EdgeHolds c) s d) :
    WellFormed (n.withChildren (before ++ c :: after)) ∧
      Puts (Holds n) (Holds (n.withChildren (before ++ c :: after))) s d := by
  have hwf := h.wellFormed hn hc hhead hlen
  -- Both nodes are read through the middle part where the sequence starts with `id`.
  have hnew : ∀ t, t.head? = some id → ∀ e,
      Holds (n.withChildren (before ++ c :: after)) t e ↔ EdgeHolds c t e := by
    intro t ht e
    rw [(h.replace hhead).holds_of_head hwf ht]
    simp
  refine ⟨hwf, fun e => ?_, fun t hts e hte => ?_, fun t hts e hte => ?_⟩
  · rw [hnew s hs]
    exact hputs.stored e
  · by_cases ht : t.head? = some id
    · rw [hnew t ht]
      exact hputs.keeps t hts e ((h.holds_of_head hn ht).mp hte)
    · exact (h.holds_of_head_ne hhead ht).mpr hte
  · by_cases ht : t.head? = some id
    · rw [hnew t ht] at hte
      rw [h.holds_of_head hn ht]
      rcases hputs.onlyDefault t hts e hte with hold | ⟨hd, hnone⟩
      · exact Or.inl hold
      · exact Or.inr ⟨hd, fun e' he' => hnone e' ((h.holds_of_head hn ht).mp he')⟩
    · exact Or.inl ((h.holds_of_head_ne hhead ht).mp hte)

end Edges

end Trie

end GenMC
