import GenMC.Lib.Precedence

/-!
# Linear extensions

A linear extension of a relation on a list of nodes is an arrangement of the nodes in which no node
comes before one that it has to follow.  It is built from the front: `Initial` holds of the
beginnings, and a node is `Available` if all nodes that it has to follow are there.  For an acyclic
relation a beginning without an available node is complete.
-/

namespace GenMC

variable {α : Type*} {r r' : α → α → Prop} {nodes ps q : List α}

/-- An arrangement of the nodes that respects the relation. -/
structure LinearExtension (r : α → α → Prop) (nodes q : List α) : Prop where
  perm : q.Perm nodes
  ordered : q.Pairwise fun a b => ¬r b a

/-- The beginning of an arrangement that respects the relation. -/
structure Initial (r : α → α → Prop) (nodes ps : List α) : Prop where
  nodup : ps.Nodup
  subset : ps ⊆ nodes
  closed : ∀ a b, r a b → b ∈ ps → a ∈ ps
  ordered : ps.Pairwise fun a b => ¬r b a

/-- A node that may come next. -/
structure Available (r : α → α → Prop) (ps : List α) (a : α) : Prop where
  notMem : a ∉ ps
  pred_mem : ∀ b, r b a → b ∈ ps

/-- The empty beginning. -/
lemma initial_nil : Initial r nodes [] :=
  ⟨List.nodup_nil, List.nil_subset _, fun _ _ _ h => absurd h List.not_mem_nil, List.Pairwise.nil⟩

/-- An available node comes next. -/
lemma Initial.concat (h : Initial r nodes ps) {a : α} (ha : Available r ps a) (hmem : a ∈ nodes) :
    Initial r nodes (ps ++ [a]) := by
  refine ⟨?_, List.append_subset.mpr ⟨h.subset, by simpa using hmem⟩, fun b c hbc hc => ?_, ?_⟩
  · refine List.nodup_append.mpr ⟨h.nodup, List.nodup_singleton _, fun b hb c hc => ?_⟩
    rintro rfl
    exact ha.notMem (List.mem_singleton.mp hc ▸ hb)
  · refine List.mem_append_left _ ?_
    obtain hc | hc := List.mem_append.mp hc
    · exact h.closed b c hbc hc
    · exact ha.pred_mem b (List.mem_singleton.mp hc ▸ hbc)
  · refine List.pairwise_append.mpr
      ⟨h.ordered, List.pairwise_singleton _ _, fun b hb c hc hcb => ?_⟩
    -- what has to come before a node that is there is there as well
    exact ha.notMem (List.mem_singleton.mp hc ▸ h.closed c b hcb hb)

/-- **Progress.**  Without an available node the beginning is complete. -/
lemma Initial.linearExtension (h : Initial r nodes ps) (hacyclic : Acyclic r) (hnodes : nodes.Nodup)
    (hpred : ∀ a b, r a b → b ∈ nodes → a ∈ nodes) (hno : ∀ a ∈ nodes, ¬Available r ps a) :
    LinearExtension r nodes ps := by
  have hall : nodes ⊆ ps := by
    intro a ha
    by_contra hmissing
    obtain ⟨b, ⟨hb, hbps⟩, hfirst⟩ := hacyclic.exists_first (s := {b | b ∈ nodes ∧ b ∉ ps})
      ((List.finite_toSet nodes).subset fun b hb => hb.1) ⟨a, ha, hmissing⟩
    refine hno b hb ⟨hbps, fun c hcb => ?_⟩
    by_contra hc
    exact hfirst c ⟨hpred c b hcb hb, hc⟩ hcb
  exact ⟨(h.nodup.subperm h.subset).antisymm (hnodes.subperm hall), h.ordered⟩

/-- **Every acyclic relation on finitely many nodes has a linear extension.** -/
theorem Acyclic.exists_linearExtension (hacyclic : Acyclic r) (hnodes : nodes.Nodup)
    (hpred : ∀ a b, r a b → b ∈ nodes → a ∈ nodes) : ∃ q, LinearExtension r nodes q := by
  -- the induction is on the number of nodes that are still missing
  suffices h : ∀ n ps, Initial r nodes ps → nodes.length - ps.length = n →
      ∃ q, LinearExtension r nodes q from h _ [] initial_nil rfl
  intro n
  induction n with
  | zero =>
    intro ps hps hlen
    refine ⟨ps, (hps.nodup.subperm hps.subset).perm_of_length_le (by omega), hps.ordered⟩
  | succ n ih =>
    intro ps hps hlen
    by_cases hav : ∃ a ∈ nodes, Available r ps a
    · obtain ⟨a, ha, hav⟩ := hav
      refine ih (ps ++ [a]) (hps.concat hav ha) ?_
      rw [List.length_append, List.length_singleton]
      omega
    · exact ⟨ps, hps.linearExtension hacyclic hnodes hpred fun a ha h => hav ⟨a, ha, h⟩⟩

/-- In a linear extension the node after a beginning is available. -/
lemma LinearExtension.available {a : α} (h : LinearExtension r nodes q) (hnodes : nodes.Nodup)
    (hacyclic : Acyclic r) (hpred : ∀ b c, r b c → c ∈ nodes → b ∈ nodes)
    (hfront : ps ++ [a] <+: q) : Available r ps a := by
  obtain ⟨rest, rfl⟩ := hfront
  have hnodup : (ps ++ [a] ++ rest).Nodup := h.perm.nodup_iff.mpr hnodes
  obtain ⟨hpa, -, -⟩ := List.nodup_append.mp hnodup
  refine ⟨fun ha => ?_, fun b hba => ?_⟩
  · exact (List.nodup_append.mp hpa).2.2 a ha a (List.mem_singleton_self a) rfl
  · have hb : b ∈ ps ++ [a] ++ rest := h.perm.mem_iff.mpr
      (hpred b a hba (h.perm.mem_iff.mp (by simp)))
    obtain hb | hb := List.mem_append.mp hb
    · obtain hb | hb := List.mem_append.mp hb
      · exact hb
      · exact absurd (List.mem_singleton.mp hb ▸ hba) (hacyclic.irrefl a)
    · exact absurd hba ((List.pairwise_append.mp h.ordered).2.2 a (by simp) b hb)

/-- A beginning that is a linear extension already has no other ones behind it. -/
lemma LinearExtension.eq_of_front (h : LinearExtension r nodes ps) (h' : LinearExtension r nodes q)
    (hfront : ps <+: q) : q = ps :=
  (hfront.eq_of_length (h.perm.length_eq.trans h'.perm.length_eq.symm)).symm

/-- The nodes at smaller positions are those in front. -/
lemma idxOf_lt_iff_mem_front [DecidableEq α] (hq : q.Nodup) {s t : List α} {a b : α}
    (hsplit : q = s ++ b :: t) : q.idxOf a < q.idxOf b ↔ a ∈ s := by
  subst hsplit
  have hbs : b ∉ s := fun h => (List.nodup_append.mp hq).2.2 b h b List.mem_cons_self rfl
  rw [List.idxOf_append_of_notMem hbs, List.idxOf_cons_self, Nat.add_zero]
  constructor
  · intro h
    by_contra ha
    rw [List.idxOf_append_of_notMem ha] at h
    omega
  · intro ha
    rw [List.idxOf_append_of_mem ha]
    exact List.idxOf_lt_length_of_mem ha

/-- Related nodes are at increasing positions. -/
lemma LinearExtension.idxOf_lt [DecidableEq α] (h : LinearExtension r nodes q)
    (hacyclic : Acyclic r) {a b : α} (hab : r a b) (ha : a ∈ nodes) (hb : b ∈ nodes) :
    q.idxOf a < q.idxOf b := by
  have ha' : q.idxOf a < q.length := List.idxOf_lt_length_of_mem (h.perm.mem_iff.mpr ha)
  have hb' : q.idxOf b < q.length := List.idxOf_lt_length_of_mem (h.perm.mem_iff.mpr hb)
  obtain hlt | heq | hgt := lt_trichotomy (q.idxOf a) (q.idxOf b)
  · exact hlt
  · have hget : q[q.idxOf a] = q[q.idxOf b] := by simp only [heq]
    rw [List.getElem_idxOf, List.getElem_idxOf] at hget
    exact absurd (hget ▸ hab) (hacyclic.irrefl b)
  · have hno := List.pairwise_iff_getElem.mp h.ordered _ _ hb' ha' hgt
    rw [List.getElem_idxOf, List.getElem_idxOf] at hno
    exact absurd hab hno

/-- **Relations with the same reachability** have the same linear extensions. -/
lemma LinearExtension.of_transGen (h : LinearExtension r nodes q) (hnodes : nodes.Nodup)
    (hacyclic : Acyclic r) (hmem : ∀ a b, r a b → a ∈ nodes ∧ b ∈ nodes)
    (hreach : ∀ a b, r' a b → Relation.TransGen r a b) : LinearExtension r' nodes q := by
  classical
  have hlt : ∀ a b, Relation.TransGen r a b → q.idxOf a < q.idxOf b := by
    intro a b hab
    induction hab with
    | single hab => exact h.idxOf_lt hacyclic hab (hmem _ _ hab).1 (hmem _ _ hab).2
    | tail _ hbc ih => exact ih.trans (h.idxOf_lt hacyclic hbc (hmem _ _ hbc).1 (hmem _ _ hbc).2)
  have hnodup : q.Nodup := h.perm.nodup_iff.mpr hnodes
  refine ⟨h.perm, List.pairwise_iff_getElem.mpr fun i j hi hj hij hr => ?_⟩
  have hback := hlt _ _ (hreach _ _ hr)
  rw [hnodup.idxOf_getElem, hnodup.idxOf_getElem] at hback
  omega

end GenMC
