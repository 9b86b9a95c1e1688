import GenMC.ADT.AdjList

/-!
# Cycle detection in adjacency lists

A graph that is built by adding nodes and edges is compared with the `AdjList` of the same calls.
The row of a node has as many bits as there were nodes when it was added, so an edge can be stored
only if its target is older than its source or both were given to the constructor, and the diagonal
bit is outside the rows of all nodes that were added later.
-/

namespace GenMC

/-! ## Directed graphs -/

/-- A directed graph; the edges are between positions of nodes. -/
structure DirectedGraph (T : Type*) where
  /-- The nodes in their order. -/
  nodes : List T
  /-- The edges in their order. -/
  edges : List (ℕ × ℕ)
deriving DecidableEq

namespace DirectedGraph

variable {T : Type*} [DecidableEq T]

omit [DecidableEq T] in
/-- There is an edge. -/
def Edge (G : DirectedGraph T) (i j : ℕ) : Prop := (i, j) ∈ G.edges

omit [DecidableEq T] in
/-- Some node can be reached from itself by one or more edges. -/
def Cyclic (G : DirectedGraph T) : Prop := ∃ i, Relation.TransGen G.Edge i i

omit [DecidableEq T] in
/-- A new edge between nodes of the graph. -/
def addEdge (G : DirectedGraph T) (a b : ℕ) : Option (DirectedGraph T) :=
  if a < G.nodes.length ∧ b < G.nodes.length then some { G with edges := G.edges ++ [(a, b)] }
  else none

/-- What a call means for the graph; an edge needs nodes that have been added. -/
def record (G : DirectedGraph T) : AdjList.Op T → Option (DirectedGraph T)
  | .addNode a => some { G with nodes := G.nodes ++ [a] }
  | .addEdge a b => (AdjList.indices G.nodes a).bind fun i =>
      (AdjList.indices G.nodes b).bind fun j => G.addEdge i j
  | .addEdgeIds a b => G.addEdge a b
  | .transClosure => some G

/-- The graph that is built from nodes given to the constructor and by calls. -/
def build (es : List T) (ops : List (AdjList.Op T)) : Option (DirectedGraph T) :=
  PartialRun.exec record ⟨es, []⟩ ops

omit [DecidableEq T] in
/-- The edges that the rows can hold: with `k` nodes given to the constructor, the row of node `a`
has `max k a` bits. -/
def FitsRows (G : DirectedGraph T) (k : ℕ) : Prop := ∀ e ∈ G.edges, e.2 < max k e.1

omit [DecidableEq T] in
/-- The inversion of a new edge. -/
lemma addEdge_eq_some {G G' : DirectedGraph T} {a b : ℕ} (h : G.addEdge a b = some G') :
    a < G.nodes.length ∧ b < G.nodes.length ∧ G' = ⟨G.nodes, G.edges ++ [(a, b)]⟩ := by
  obtain ⟨⟨ha, hb⟩, hG⟩ := Option.ite_none_right_eq_some.mp h
  exact ⟨ha, hb, (Option.some.inj hG).symm⟩

end DirectedGraph

namespace AdjList

variable {T : Type*} [DecidableEq T]

/-- The elements get their positions in the order in which they are added. -/
lemma indices_append (es : List T) (a : T) :
    indices (es ++ [a]) = Function.update (indices es) a (some es.length) := by
  simp [indices, List.zipIdx_append]

/-! ## Rows -/

/-- A bit that is set. -/
def Rel (R : List BitVector) (i j : ℕ) : Prop := (R[i]?.bind fun row => row[j]?) = some true

/-- There are `n` rows, and row `i` has `max k i` bits. -/
structure Rows (k n : ℕ) (R : List BitVector) : Prop where
  length_eq : R.length = n
  size : ∀ i row, R[i]? = some row → row.length = max k i

/-- A bit is in its row. -/
lemma Rows.lt_of_rel {k n : ℕ} {R : List BitVector} (h : Rows k n R) {i j : ℕ} (hrel : Rel R i j) :
    i < n ∧ j < max k i := by
  obtain ⟨row, hrow, hj⟩ := Option.bind_eq_some_iff.mp hrel
  exact ⟨h.length_eq ▸ (List.getElem?_eq_some_iff.mp hrow).1,
    h.size i row hrow ▸ (List.getElem?_eq_some_iff.mp hj).1⟩

/-- A bit of a row that has it can be read. -/
lemma Rows.read {k n : ℕ} {R : List BitVector} (h : Rows k n R) {i j : ℕ} (hi : i < n) :
    (j < max k i → ∃ b, (R[i]?.bind fun row => row[j]?) = some b ∧ (b = true ↔ Rel R i j)) ∧
      (¬j < max k i → (R[i]?.bind fun row => row[j]?) = none) := by
  obtain ⟨row, hrow⟩ : ∃ row, R[i]? = some row :=
    ⟨_, List.getElem?_eq_getElem (h.length_eq.symm ▸ hi)⟩
  have hsize := h.size i row hrow
  rw [Rel, hrow, Option.bind_some]
  constructor
  · intro hj
    obtain ⟨b, hb⟩ : ∃ b, row[j]? = some b := ⟨_, List.getElem?_eq_getElem (hsize.symm ▸ hj)⟩
    exact ⟨b, hb, by rw [hb, Option.some.injEq]⟩
  · intro hj
    exact List.getElem?_eq_none (by omega)

/-- A row is replaced. -/
lemma rel_set {R : List BitVector} {i : ℕ} {row : BitVector} (hi : i < R.length) (x y : ℕ) :
    Rel (R.set i row) x y ↔ if x = i then row[y]? = some true else Rel R x y := by
  rw [Rel, List.getElem?_set]
  by_cases hx : x = i
  · simp [hx, hi]
  · simp [hx, Ne.symm hx, Rel]

/-- A row is replaced by one of the same size. -/
lemma Rows.set {k n : ℕ} {R : List BitVector} (h : Rows k n R) {i : ℕ} {row : BitVector}
    (hrow : row.length = max k i) : Rows k n (R.set i row) := by
  refine ⟨(List.length_set).trans h.length_eq, fun x r hr => ?_⟩
  rw [List.getElem?_set] at hr
  split at hr
  next heq =>
    obtain ⟨-, rfl⟩ := Option.ite_none_right_eq_some.mp hr |>.imp_right Option.some.inj
    exact heq ▸ hrow
  next => exact h.size x r hr

/-- **Absorbing a successor.**  If the bit of the successor is in the row, the row gets it and the
bits of the successor's row. -/
lemma absorb_spec {k n : ℕ} {R : List BitVector} (h : Rows k n R) {i j : ℕ} (hi : i < n)
    (hj : j < n) (hfits : j < max k i) :
    ∃ R', absorb i R j = some R' ∧ Rows k n R' ∧
      ∀ x y, Rel R' x y ↔ Rel R x y ∨ x = i ∧ (y = j ∨ Rel R j y) := by
  obtain ⟨row, hrow⟩ : ∃ row, R[i]? = some row :=
    ⟨_, List.getElem?_eq_getElem (h.length_eq.symm ▸ hi)⟩
  obtain ⟨succRow, hsucc⟩ : ∃ row, R[j]? = some row :=
    ⟨_, List.getElem?_eq_getElem (h.length_eq.symm ▸ hj)⟩
  have hlen : (BitVector.orAssign row succRow).length = max k i := by
    rw [BitVector.length_orAssign, h.size i row hrow, h.size j succRow hsucc]
    omega
  have hset : BitVector.setBit (BitVector.orAssign row succRow) j
      = some ((BitVector.orAssign row succRow).set j true) :=
    if_pos (hlen ▸ hfits)
  refine ⟨_, by rw [absorb, hrow, Option.bind_some, hsucc, Option.bind_some, hset]; rfl,
    h.set ((BitVector.length_setBit hset).trans hlen), fun x y => ?_⟩
  rw [rel_set (h.length_eq.symm ▸ hi), BitVector.mem_setBit hset, BitVector.mem_orAssign]
  have hbits : ∀ {z : ℕ} {r : BitVector}, R[z]? = some r → (Rel R z y ↔ r[y]? = some true) := by
    intro z r hr
    rw [Rel, hr, Option.bind_some]
  rw [← hbits hrow, ← hbits hsucc]
  split
  next hx => subst hx; tauto
  next hx => tauto

/-- **Closing a row.**  The row of a node gets its successors and their rows. -/
lemma absorb_all_spec {k n : ℕ} {R : List BitVector} (h : Rows k n R) {i : ℕ} (hi : i < n)
    {js : List ℕ} (hjs : ∀ j ∈ js, j < n ∧ j < max k i) :
    ∃ R', js.foldlM (absorb i) R = some R' ∧ Rows k n R' ∧
      ∀ x y, Rel R' x y ↔ Rel R x y ∨ x = i ∧ ∃ j ∈ js, y = j ∨ Rel R j y := by
  refine PartialRun.foldlM_total js (fun done R' => Rows k n R' ∧
    ∀ x y, Rel R' x y ↔ Rel R x y ∨ x = i ∧ ∃ j ∈ done, y = j ∨ Rel R j y) ?_
    ⟨h, fun x y => by simp⟩
  rintro done j rest rfl R₁ ⟨hrows, hrel⟩
  obtain ⟨hj, hfits⟩ := hjs j (List.mem_append_right _ List.mem_cons_self)
  obtain ⟨R₂, hR₂, hrows₂, hrel₂⟩ := absorb_spec hrows hi hj hfits
  refine ⟨R₂, hR₂, hrows₂, fun x y => ?_⟩
  rw [hrel₂, hrel, hrel]
  simp only [List.mem_append, List.mem_singleton]
  constructor
  · rintro ((hr | ⟨rfl, j', hj', hr⟩) | ⟨rfl, rfl | hr | ⟨rfl, j', hj', hr⟩⟩)
    · exact .inl hr
    · exact .inr ⟨rfl, j', .inl hj', hr⟩
    · exact .inr ⟨rfl, y, .inr rfl, .inl rfl⟩
    · exact .inr ⟨rfl, j, .inr rfl, .inr hr⟩
    · exact .inr ⟨rfl, j', .inl hj', hr⟩
  · rintro (hr | ⟨rfl, j', hj' | rfl, hr⟩)
    · exact .inl (.inl hr)
    · exact .inl (.inr ⟨rfl, j', hj', hr⟩)
    · exact .inr ⟨rfl, hr.imp_right .inl⟩

/-! ## The search -/

section Search

variable {n k : ℕ}

/-- What holds whenever the search is between two nodes: the rows contain the edges and what was in
them at the start, the successors of a node that has been left have been seen, and the row of a
node that has been left contains the rows of its successors that have been left, unless a diagonal
bit is set already. -/
structure Searching (n k : ℕ) (Succ : ℕ → ℕ → Prop) (m : List NodeStatus)
    (R : List BitVector) : Prop where
  length_eq : m.length = n
  rows : Rows k n R
  edges : ∀ i j, Succ i j → Rel R i j
  sound : ∀ i j, Rel R i j → Relation.TransGen Succ i j
  seen : ∀ i j, m[i]? = some .left → Succ i j → m[j]? ≠ some .unseen
  closed : ∀ i j, m[i]? = some .left → Succ i j → m[j]? = some .left →
    (∀ y, Rel R j y → Rel R i y) ∨ ∃ x, Rel R x x

/-- A part of the search leaves a node. -/
def Leaves (m m' : List NodeStatus) (i : ℕ) : Prop := m[i]? = some .unseen ∧ m'[i]? = some .left

/-- What a part of the search does: no node that was seen changes its status, nodes that are entered
are left, and only the rows of nodes that are left change. -/
structure Progress (m m' : List NodeStatus) (R R' : List BitVector) : Prop where
  entered : ∀ i : ℕ, m'[i]? = some .entered ↔ m[i]? = some .entered
  left : ∀ i : ℕ, m[i]? = some .left → m'[i]? = some .left
  mono : ∀ i j, Rel R i j → Rel R' i j
  frame : ∀ i, ¬Leaves m m' i → ∀ j, Rel R' i j → Rel R i j

namespace Progress

variable {m m' m'' : List NodeStatus} {R R' R'' : List BitVector}

lemma refl (m : List NodeStatus) (R : List BitVector) : Progress m m R R :=
  ⟨fun _ => Iff.rfl, fun _ h => h, fun _ _ h => h, fun _ _ _ h => h⟩

/-- No node becomes unseen. -/
lemma unseen (h : Progress m m' R R') (hlen : m'.length = m.length) {i : ℕ}
    (hi : m'[i]? = some .unseen) : m[i]? = some .unseen := by
  have hlt : i < m.length := hlen ▸ (List.getElem?_eq_some_iff.mp hi).1
  obtain ⟨st, hst⟩ : ∃ st, m[i]? = some st := ⟨_, List.getElem?_eq_getElem hlt⟩
  cases st with
  | unseen => exact hst
  | entered => rw [(h.entered i).mpr hst] at hi; cases hi
  | left => rw [h.left i hst] at hi; cases hi

/-- What is left in two parts is left in one of them. -/
lemma leaves_or (h : Progress m m' R R') (hlen : m'.length = m.length) {i : ℕ}
    (hi : Leaves m m'' i) : Leaves m m' i ∨ Leaves m' m'' i := by
  have hlt : i < m'.length := hlen ▸ (List.getElem?_eq_some_iff.mp hi.1).1
  obtain ⟨st, hst⟩ : ∃ st, m'[i]? = some st := ⟨_, List.getElem?_eq_getElem hlt⟩
  cases st with
  | unseen => exact .inr ⟨hst, hi.2⟩
  | entered => have := (h.entered i).mp hst; rw [hi.1] at this; cases this
  | left => exact .inl ⟨hi.1, hst⟩

/-- Two parts of the search, one after the other. -/
lemma trans (h : Progress m m' R R') (h' : Progress m' m'' R' R'')
    (hlen : m'.length = m.length) : Progress m m'' R R'' := by
  refine ⟨fun i => (h'.entered i).trans (h.entered i), fun i hi => h'.left i (h.left i hi),
    fun i j hij => h'.mono i j (h.mono i j hij), fun i hi j hij => ?_⟩
  refine h.frame i (fun hl => hi ⟨hl.1, h'.left i hl.2⟩) j
    (h'.frame i (fun hl => hi ⟨?_, hl.2⟩) j hij)
  exact h.unseen hlen hl.1

end Progress

/-- The nodes that the search has not seen. -/
def unseenNodes (n : ℕ) (m : List NodeStatus) : Finset ℕ :=
  (Finset.range n).filter fun i => m[i]? = some .unseen

/-- There are never more unseen nodes. -/
lemma Progress.card_unseen_le {m m' : List NodeStatus} {R R' : List BitVector}
    (h : Progress m m' R R') (hlen : m'.length = m.length) :
    (unseenNodes n m').card ≤ (unseenNodes n m).card :=
  Finset.card_le_card (Finset.monotone_filter_right _ fun _ _ hi => h.unseen hlen hi)

/-- A status is changed. -/
lemma getElem?_setStatus {m : List NodeStatus} {i : ℕ} (hi : i < m.length) (st : NodeStatus)
    (j : ℕ) : (m.set i st)[j]? = if j = i then some st else m[j]? := by
  rw [List.getElem?_set]
  by_cases hj : j = i
  · simp [hj, hi]
  · simp [hj, Ne.symm hj]

/-- Entering a node leaves fewer unseen ones. -/
lemma card_unseenNodes_enter {m : List NodeStatus} (hlen : m.length = n) {i : ℕ}
    (hi : m[i]? = some .unseen) :
    (unseenNodes n (m.set i .entered)).card < (unseenNodes n m).card := by
  have hlt : i < m.length := (List.getElem?_eq_some_iff.mp hi).1
  refine Finset.card_lt_card ⟨fun j hj => ?_, fun hsub => ?_⟩
  · obtain ⟨hjn, hj⟩ := Finset.mem_filter.mp hj
    rw [getElem?_setStatus hlt] at hj
    split at hj
    · cases hj
    · exact Finset.mem_filter.mpr ⟨hjn, hj⟩
  · have hmem : i ∈ unseenNodes n m :=
      Finset.mem_filter.mpr ⟨Finset.mem_range.mpr (hlen ▸ hlt), hi⟩
    have hi' := (Finset.mem_filter.mp (hsub hmem)).2
    rw [getElem?_setStatus hlt, if_pos rfl] at hi'
    cases hi'

variable {Succ : ℕ → ℕ → Prop} {m m' : List NodeStatus} {R R' : List BitVector}

/-- Entering an unseen node. -/
lemma Searching.enter (h : Searching n k Succ m R) {i : ℕ} (hi : m[i]? = some .unseen) :
    Searching n k Succ (m.set i .entered) R := by
  have hlt : i < m.length := (List.getElem?_eq_some_iff.mp hi).1
  have hleft : ∀ {x : ℕ}, (m.set i .entered)[x]? = some .left → m[x]? = some .left := by
    intro x hx
    rw [getElem?_setStatus hlt] at hx
    split at hx
    · cases hx
    · exact hx
  refine ⟨List.length_set.trans h.length_eq, h.rows, h.edges, h.sound, fun x y hx hxy => ?_,
    fun x y hx hxy hy => h.closed x y (hleft hx) hxy (hleft hy)⟩
  rw [getElem?_setStatus hlt]
  split
  · nofun
  · exact h.seen x y (hleft hx) hxy

/-- **Leaving a node.**  The search from an unseen node `i` has entered it and visited its
successors; now its row gets the rows of its successors. -/
lemma Searching.leave (h₀ : Searching n k Succ m R) {i : ℕ} (hi : m[i]? = some .unseen)
    {m₁ : List NodeStatus} {R₁ R₂ : List BitVector} (h : Searching n k Succ m₁ R₁)
    (hprog : Progress (m.set i .entered) m₁ R R₁)
    (hseen : ∀ j, Succ i j → m₁[j]? ≠ some .unseen)
    (hnew : ∀ x, Leaves (m.set i .entered) m₁ x →
      ∃ j, Succ i j ∧ m₁[j]? = some .left ∧ ∀ y, Rel R₁ x y → Rel R₁ j y)
    (hrows : Rows k n R₂)
    (hrel : ∀ x y, Rel R₂ x y ↔ Rel R₁ x y ∨ x = i ∧ ∃ j, Succ i j ∧ (y = j ∨ Rel R₁ j y)) :
    Searching n k Succ (m₁.set i .left) R₂ ∧ Progress m (m₁.set i .left) R R₂ ∧
      ∀ x, Leaves m (m₁.set i .left) x → ∀ y, Rel R₂ x y → Rel R₂ i y := by
  have hlt₀ : i < m.length := (List.getElem?_eq_some_iff.mp hi).1
  have hlt : i < m₁.length := h.length_eq.symm ▸ h₀.length_eq ▸ hlt₀
  have hentered : m₁[i]? = some .entered :=
    (hprog.entered i).mpr (by rw [getElem?_setStatus hlt₀, if_pos rfl])
  have hmono : ∀ x y, Rel R₁ x y → Rel R₂ x y := fun x y hr => (hrel x y).mpr (.inl hr)
  have hother : ∀ {x y}, x ≠ i → Rel R₂ x y → Rel R₁ x y := by
    intro x y hx hr
    obtain hr | ⟨rfl, -⟩ := (hrel x y).mp hr
    · exact hr
    · exact absurd rfl hx
  have hsucc : ∀ {j y}, Succ i j → Rel R₁ j y → Rel R₂ i y := fun hj hr =>
    (hrel i _).mpr (.inr ⟨rfl, _, hj, .inr hr⟩)
  -- a node other than `i` that is left was left by the visits or before
  have hleft : ∀ {x : ℕ}, x ≠ i → (m₁.set i .left)[x]? = some .left → m₁[x]? = some .left := by
    intro x hx hxl
    rwa [getElem?_setStatus hlt, if_neg hx] at hxl
  have hleaves : ∀ {x : ℕ}, x ≠ i → Leaves m (m₁.set i .left) x →
      Leaves (m.set i .entered) m₁ x := by
    intro x hx hl
    exact ⟨by rw [getElem?_setStatus hlt₀, if_neg hx]; exact hl.1, hleft hx hl.2⟩
  have hrow : ∀ x, Leaves m (m₁.set i .left) x → ∀ y, Rel R₂ x y → Rel R₂ i y := by
    intro x hl y hr
    by_cases hx : x = i
    · exact hx ▸ hr
    · obtain ⟨j, hj, -, hsub⟩ := hnew x (hleaves hx hl)
      exact hsucc hj (hsub y (hother hx hr))
  refine ⟨⟨List.length_set.trans h.length_eq, hrows, fun x y hxy => hmono x y (h.edges x y hxy),
    fun x y hr => ?_, fun x y hx hxy => ?_, fun x y hx hxy hy => ?_⟩,
    ⟨fun x => ?_, fun x hx => ?_, fun x y hr => hmono x y (hprog.mono x y hr),
      fun x hx y hr => ?_⟩, hrow⟩
  · -- the bits are sound
    obtain hr | ⟨rfl, j, hj, rfl | hr⟩ := (hrel x y).mp hr
    · exact h.sound x y hr
    · exact .single hj
    · exact (Relation.TransGen.single hj).trans (h.sound j y hr)
  · -- successors of nodes that are left have been seen
    rw [getElem?_setStatus hlt]
    split
    · nofun
    · by_cases hxi : x = i
      · exact hseen y (hxi ▸ hxy)
      · exact h.seen x y (hleft hxi hx) hxy
  · -- rows contain the rows of the successors
    by_cases hyx : y = x
    · exact .inl fun z hz => hyx ▸ hz
    by_cases hxi : x = i
    · subst hxi
      exact .inl fun z hz => hsucc hxy (hother hyx hz)
    · by_cases hyi : y = i
      · -- an edge back to `i` from a node that was visited from it sets a diagonal bit
        subst hyi
        have hunseen : m[x]? = some .unseen := by
          obtain ⟨st, hst⟩ : ∃ st, m[x]? = some st :=
            ⟨_, List.getElem?_eq_getElem (by
              have := (h.rows.lt_of_rel (h.edges x y hxy)).1
              rw [h₀.length_eq]; exact this)⟩
          cases st with
          | unseen => exact hst
          | entered =>
            have := (hprog.entered x).mpr (by rw [getElem?_setStatus hlt₀, if_neg hxi]; exact hst)
            rw [hleft hxi hx] at this
            cases this
          | left => exact absurd hi (h₀.seen x y hst hxy)
        exact .inr ⟨y, hrow x ⟨hunseen, hx⟩ y (hmono x y (h.edges x y hxy))⟩
      · obtain hsub | ⟨z, hz⟩ := h.closed x y (hleft hxi hx) hxy (hleft hyi hy)
        · exact .inl fun z hz => hmono x z (hsub z (hother hyi hz))
        · exact .inr ⟨z, hmono z z hz⟩
  · -- no other node is entered
    rw [getElem?_setStatus hlt]
    split
    next hx => subst hx; simp [hi]
    next hx => rw [hprog.entered x, getElem?_setStatus hlt₀, if_neg hx]
  · rw [getElem?_setStatus hlt]
    split
    next => rfl
    next hne => exact hprog.left x (by rw [getElem?_setStatus hlt₀, if_neg hne]; exact hx)
  · -- the rows of the other nodes are as before
    have hxi : x ≠ i := by
      rintro rfl
      exact hx ⟨hi, by rw [getElem?_setStatus hlt, if_pos rfl]⟩
    refine hprog.frame x (fun hl => hx ⟨?_, ?_⟩) y (hother hxi hr)
    · have := hl.1
      rwa [getElem?_setStatus hlt₀, if_neg hxi] at this
    · rw [getElem?_setStatus hlt, if_neg hxi]
      exact hl.2

end Search

section DFS

variable {g : AdjList T} {n k : ℕ}

omit [DecidableEq T] in
/-- Closing the row of a node whose edges are in the rows. -/
lemma closeRow_spec (hn : g.nodeSucc.length = n) (hk : k ≤ n) {m : List NodeStatus}
    {R : List BitVector} (h : Searching n k g.Succ m R) {i : ℕ} (hi : i < n) :
    ∃ R', g.closeRow i R = some R' ∧ Rows k n R' ∧
      ∀ x y, Rel R' x y ↔ Rel R x y ∨ x = i ∧ ∃ j, g.Succ i j ∧ (y = j ∨ Rel R j y) := by
  obtain ⟨succs, hsuccs⟩ : ∃ succs, g.nodeSucc[i]? = some succs :=
    ⟨_, List.getElem?_eq_getElem (hn.symm ▸ hi)⟩
  have hfits : ∀ j ∈ succs, j < n ∧ j < max k i := by
    intro j hj
    have hlt := (h.rows.lt_of_rel (h.edges i j ⟨_, hsuccs, hj⟩)).2
    exact ⟨by omega, hlt⟩
  obtain ⟨R', hR', hrows, hrel⟩ := absorb_all_spec h.rows hi hfits
  refine ⟨R', by rw [closeRow, hsuccs, Option.bind_some, hR'], hrows, fun x y => ?_⟩
  rw [hrel]
  refine or_congr_right (and_congr_right fun _ => exists_congr fun j => and_congr_left fun _ => ?_)
  constructor
  · exact fun hj => ⟨_, hsuccs, hj⟩
  · rintro ⟨js, hjs, hj⟩
    exact Option.some.inj (hjs.symm.trans hsuccs) ▸ hj

/-- What the loop over the successors of a node has done after the successors `done`: they have been
seen, and the row of every node that was left is contained in the row of one of them. -/
structure Visited (n k : ℕ) (Succ : ℕ → ℕ → Prop) (m : List NodeStatus) (R : List BitVector)
    (done : List ℕ) (m' : List NodeStatus) (R' : List BitVector) : Prop where
  searching : Searching n k Succ m' R'
  progress : Progress m m' R R'
  seen : ∀ j ∈ done, m'[j]? ≠ some .unseen
  below : ∀ x, Leaves m m' x →
    ∃ j ∈ done, m'[j]? = some .left ∧ ∀ y, Rel R' x y → Rel R' j y

namespace Visited

variable {Succ : ℕ → ℕ → Prop} {m m' m'' : List NodeStatus} {R R' R'' : List BitVector}
  {done : List ℕ}

/-- Before the first successor. -/
lemma start (h : Searching n k Succ m R) : Visited n k Succ m R [] m R := by
  refine ⟨h, Progress.refl m R, nofun, fun x hx => ?_⟩
  have := hx.1.symm.trans hx.2
  cases this

/-- A successor that has been seen. -/
lemma skip (h : Visited n k Succ m R done m' R') {j : ℕ} (hj : m'[j]? ≠ some .unseen) :
    Visited n k Succ m R (done ++ [j]) m' R' := by
  refine ⟨h.searching, h.progress, fun l hl => ?_, fun x hx => ?_⟩
  · obtain hl | hl := List.mem_append.mp hl
    · exact h.seen l hl
    · exact List.mem_singleton.mp hl ▸ hj
  · obtain ⟨l, hl, hleft⟩ := h.below x hx
    exact ⟨l, List.mem_append_left _ hl, hleft⟩

/-- A successor that is visited. -/
lemma visit (h₀ : Searching n k Succ m R) (h : Visited n k Succ m R done m' R') {j : ℕ}
    (h' : Searching n k Succ m'' R'') (hprog : Progress m' m'' R' R'')
    (hj : m''[j]? = some .left) (hbelow : ∀ x, Leaves m' m'' x → ∀ y, Rel R'' x y → Rel R'' j y) :
    Visited n k Succ m R (done ++ [j]) m'' R'' := by
  have hlen : m'.length = m.length := h.searching.length_eq.trans h₀.length_eq.symm
  refine ⟨h', h.progress.trans hprog hlen, fun l hl hun => ?_, fun x hx => ?_⟩
  · have hun' := hprog.unseen (h'.length_eq.trans h.searching.length_eq.symm) hun
    obtain hl | hl := List.mem_append.mp hl
    · exact h.seen l hl hun'
    · rw [List.mem_singleton.mp hl, hj] at hun
      cases hun
  · obtain hx | hx := h.progress.leaves_or hlen hx
    · obtain ⟨l, hl, hleft, hsub⟩ := h.below x hx
      refine ⟨l, List.mem_append_left _ hl, hprog.left l hleft, fun y hr => ?_⟩
      have hframe : ¬Leaves m' m'' x := fun hl => by
        have := hx.2.symm.trans hl.1
        cases this
      exact hprog.mono l y (hsub y (hprog.frame x hframe y hr))
    · exact ⟨j, List.mem_append_right _ List.mem_cons_self, hj, hbelow x hx⟩

end Visited

omit [DecidableEq T] in
/-- **The search from a node.**  From an unseen node the search ends; it leaves that node, and the
row of the node contains the rows of all nodes that are left with it. -/
theorem dfsUtil_spec (hn : g.nodeSucc.length = n) (hk : k ≤ n) {fuel i : ℕ}
    {s : DFSState × List BitVector} (h : Searching n k g.Succ s.1.m s.2)
    (hi : s.1.m[i]? = some .unseen) (hfuel : (unseenNodes n s.1.m).card ≤ fuel) :
    ∃ s', g.dfsUtil g.closureVisitor fuel i s = some s' ∧ Searching n k g.Succ s'.1.m s'.2 ∧
      Progress s.1.m s'.1.m s.2 s'.2 ∧ s'.1.m[i]? = some .left ∧
      ∀ x, Leaves s.1.m s'.1.m x → ∀ y, Rel s'.2 x y → Rel s'.2 i y := by
  induction fuel generalizing i s with
  | zero =>
    have hlt := card_unseenNodes_enter h.length_eq hi
    omega
  | succ fuel ih =>
    have hcard := card_unseenNodes_enter h.length_eq hi
    have hin : i < n := h.length_eq ▸ (List.getElem?_eq_some_iff.mp hi).1
    obtain ⟨succs, hsuccs⟩ : ∃ succs, g.nodeSucc[i]? = some succs :=
      ⟨_, List.getElem?_eq_getElem (hn.symm ▸ hin)⟩
    have hmem : ∀ j, g.Succ i j → j ∈ succs := by
      rintro j ⟨js, hjs, hj⟩
      exact Option.some.inj (hjs.symm.trans hsuccs) ▸ hj
    have henter := h.enter hi
    -- each successor is visited or has been seen
    have hstep : ∀ done j rest, succs = done ++ j :: rest → ∀ s' : DFSState × List BitVector,
        Visited n k g.Succ (s.1.enter i).m s.2 done s'.1.m s'.2 →
        ∃ s'', visitEdge g.closureVisitor (g.dfsUtil g.closureVisitor fuel) i s' j = some s'' ∧
          Visited n k g.Succ (s.1.enter i).m s.2 (done ++ [j]) s''.1.m s''.2 := by
      intro done j rest hsplit s' hs'
      have hj : g.Succ i j := ⟨_, hsuccs, hsplit ▸ List.mem_append_right _ List.mem_cons_self⟩
      have hjn : j < n := by
        have := (h.rows.lt_of_rel (h.edges i j hj)).2
        omega
      obtain ⟨st, hst⟩ : ∃ st, s'.1.m[j]? = some st :=
        ⟨_, List.getElem?_eq_getElem (hs'.searching.length_eq.symm ▸ hjn)⟩
      cases st with
      | entered => exact ⟨s', by rw [visitEdge, hst]; rfl, hs'.skip (by rw [hst]; nofun)⟩
      | left => exact ⟨s', by rw [visitEdge, hst]; rfl, hs'.skip (by rw [hst]; nofun)⟩
      | unseen =>
        have hle := hs'.progress.card_unseen_le (n := n)
          (hs'.searching.length_eq.trans henter.length_eq.symm)
        obtain ⟨s₂, hvisit, hs₂, hprog, hleft, hbelow⟩ :=
          ih (i := j) (s := ({ s'.1 with p := s'.1.p.set j i }, s'.2)) hs'.searching hst
            (le_trans hle (Nat.lt_succ_iff.mp (lt_of_lt_of_le hcard hfuel)))
        exact ⟨s₂, by rw [visitEdge, hst, Option.bind_some, hvisit]; rfl,
          hs'.visit henter hs₂ hprog hleft hbelow⟩
    obtain ⟨s₁, hloop, hs₁⟩ := PartialRun.foldlM_total succs
      (fun done (s' : DFSState × List BitVector) =>
        Visited n k g.Succ (s.1.enter i).m s.2 done s'.1.m s'.2)
      hstep (s := (s.1.enter i, s.2)) (Visited.start henter)
    obtain ⟨R₂, hR₂, hrows, hrel⟩ := closeRow_spec hn hk hs₁.searching hin
    obtain ⟨hs₂, hprog₂, hbelow₂⟩ := h.leave hi hs₁.searching hs₁.progress
      (fun j hj => hs₁.seen j (hmem j hj))
      (fun x hx => by
        obtain ⟨j, hj, hleft, hsub⟩ := hs₁.below x hx
        exact ⟨j, ⟨_, hsuccs, hj⟩, hleft, hsub⟩) hrows hrel
    refine ⟨(s₁.1.leave i, R₂), ?_, hs₂, hprog₂, ?_, hbelow₂⟩
    · have hentry : g.closureVisitor.atEntryV i (s.1.enter i) s.2 = some s.2 := rfl
      have hexit : g.closureVisitor.atExitV i (s₁.1.leave i) s₁.2 = some R₂ := hR₂
      rw [dfsUtil, hentry, Option.bind_some, hsuccs, Option.bind_some, hloop, Option.bind_some,
        hexit, Option.map_some]
    · have hlt : i < s₁.1.m.length := hs₁.searching.length_eq.symm ▸ hin
      exact (getElem?_setStatus hlt .left i).trans (if_pos rfl)

/-- The rows are closed under the edges, or a diagonal bit is set. -/
def Closed (Succ : ℕ → ℕ → Prop) (R : List BitVector) : Prop :=
  (∃ x, Rel R x x) ∨ ∀ i j, Succ i j → ∀ y, Rel R j y → Rel R i y

omit [DecidableEq T] in
/-- **The search.**  It ends, and afterwards the rows are closed under the edges or a diagonal bit
is set. -/
theorem dfs_spec (hn : g.nodeSucc.length = n) (hk : k ≤ n) {R : List BitVector}
    (hrows : Rows k n R) (hedges : ∀ i j, g.Succ i j → Rel R i j)
    (hsound : ∀ i j, Rel R i j → Relation.TransGen g.Succ i j) :
    ∃ R', g.dfs g.closureVisitor R = some R' ∧ Rows k n R' ∧ (∀ i j, Rel R i j → Rel R' i j) ∧
      (∀ i j, Rel R' i j → Relation.TransGen g.Succ i j) ∧ Closed g.Succ R' := by
  have hstart : ∀ i : ℕ, (DFSState.start n).m[i]? = if i < n then some .unseen else none :=
    fun i => List.getElem?_replicate
  have hs₀ : Searching n k g.Succ (DFSState.start n).m R := by
    refine ⟨List.length_replicate, hrows, hedges, hsound, fun i j hi => ?_, fun i j hi => ?_⟩ <;>
    · rw [hstart] at hi
      split at hi <;> cases hi
  -- between two roots no node is entered, and the roots so far are left
  obtain ⟨s', hloop, hs', hprog, hleft⟩ := PartialRun.foldlM_total (List.range n)
    (f := fun (s : DFSState × List BitVector) i => s.1.m[i]?.bind fun status =>
      if status = .unseen then g.dfsUtil g.closureVisitor n i s else some s)
    (fun done s' => Searching n k g.Succ s'.1.m s'.2 ∧
      Progress (DFSState.start n).m s'.1.m R s'.2 ∧ ∀ i ∈ done, s'.1.m[i]? = some .left)
    (fun done i rest hsplit s₁ hs₁ => by
      obtain ⟨hs₁, hprog, hleft⟩ := hs₁
      have hi : i < n :=
        List.mem_range.mp (hsplit ▸ List.mem_append_right _ List.mem_cons_self)
      obtain ⟨st, hst⟩ : ∃ st, s₁.1.m[i]? = some st :=
        ⟨_, List.getElem?_eq_getElem (hs₁.length_eq.symm ▸ hi)⟩
      cases st with
      | entered =>
        have := (hprog.entered i).mp hst
        rw [hstart, if_pos hi] at this
        cases this
      | left =>
        refine ⟨s₁, by rw [hst]; rfl, hs₁, hprog, fun l hl => ?_⟩
        obtain hl | hl := List.mem_append.mp hl
        · exact hleft l hl
        · exact List.mem_singleton.mp hl ▸ hst
      | unseen =>
        have hcard : (unseenNodes n s₁.1.m).card ≤ n :=
          (Finset.card_filter_le _ _).trans_eq (Finset.card_range n)
        obtain ⟨s₂, hvisit, hs₂, hprog₂, hi₂, -⟩ := dfsUtil_spec hn hk hs₁ hst hcard
        refine ⟨s₂, by rw [hst, Option.bind_some, if_pos rfl, hvisit], hs₂,
          hprog.trans hprog₂ (hs₁.length_eq.trans hs₀.length_eq.symm), fun l hl => ?_⟩
        obtain hl | hl := List.mem_append.mp hl
        · exact hprog₂.left l (hleft l hl)
        · exact List.mem_singleton.mp hl ▸ hi₂)
    (s := (DFSState.start n, R)) ⟨hs₀, Progress.refl _ _, nofun⟩
  refine ⟨s'.2, ?_, hs'.rows, hprog.mono, hs'.sound, ?_⟩
  · rw [dfs, hn]
    exact Option.bind_eq_some_iff.mpr ⟨s', hloop, rfl⟩
  · by_cases hdiag : ∃ x, Rel s'.2 x x
    · exact .inl hdiag
    · refine .inr fun i j hij => ?_
      obtain ⟨hi, hj⟩ := hs'.rows.lt_of_rel (hs'.edges i j hij)
      obtain hsub | hx := hs'.closed i j (hleft i (List.mem_range.mpr hi)) hij
        (hleft j (List.mem_range.mpr (by omega)))
      · exact hsub
      · exact absurd hx hdiag

/-- In closed rows with the edges, a cycle sets a diagonal bit. -/
lemma Closed.rel_of_transGen {Succ : ℕ → ℕ → Prop} {R : List BitVector} (h : Closed Succ R)
    (hedges : ∀ i j, Succ i j → Rel R i j) :
    (∃ x, Rel R x x) ∨ ∀ i j, Relation.TransGen Succ i j → Rel R i j := by
  refine h.imp_right fun hsub i j hij => ?_
  induction hij using Relation.TransGen.head_induction_on with
  | single hij => exact hedges _ _ hij
  | head hil _ ih => exact hsub _ _ hil _ ih

end DFS

/-! ## Runs -/

section Runs

variable {k : ℕ} {G : DirectedGraph T} {g : AdjList T}

omit [DecidableEq T] in
/-- The stored edges reach the same nodes as all edges. -/
lemma transGen_succ_iff {g : AdjList T} {G : DirectedGraph T}
    (hsub : ∀ i j, g.Succ i j → G.Edge i j)
    (hsup : ∀ i j, G.Edge i j → Relation.TransGen g.Succ i j) (i j : ℕ) :
    Relation.TransGen g.Succ i j ↔ Relation.TransGen G.Edge i j := by
  constructor
  · exact Relation.TransGen.mono hsub i j
  · intro h
    induction h with
    | single h => exact hsup _ _ h
    | tail _ h ih => exact ih.trans (hsup _ _ h)

/-- The `AdjList` of a graph, of whose nodes `k` were given to the constructor: the vectors have the
same length, the rows have the sizes that they were built with and lie between the edges and
reachability, and an edge that is not stored was implied by the rows. -/
structure Represents (k : ℕ) (G : DirectedGraph T) (g : AdjList T) : Prop where
  elems_eq : g.elems = G.nodes
  ids_eq : g.ids = indices G.nodes
  succ_length : g.nodeSucc.length = G.nodes.length
  degree_length : g.inDegree.length = G.nodes.length
  le_length : k ≤ G.nodes.length
  rows : Rows k G.nodes.length g.transC
  succ_edge : ∀ i j, g.Succ i j → G.Edge i j
  edge_rel : ∀ i j, G.Edge i j → Rel g.transC i j
  rel_sound : ∀ i j, Rel g.transC i j → Relation.TransGen g.Succ i j
  closed : g.calculatedTransC = true → Closed g.Succ g.transC

namespace Represents

/-- The stored edges are in the rows. -/
lemma succ_rel (h : Represents k G g) (i j : ℕ) (hij : g.Succ i j) : Rel g.transC i j :=
  h.edge_rel i j (h.succ_edge i j hij)

/-- The edges are in the rows, so the rows can hold them. -/
lemma fitsRows (h : Represents k G g) : G.FitsRows k :=
  fun e he => (h.rows.lt_of_rel (h.edge_rel e.1 e.2 he)).2

/-- The stored edges reach the same nodes as all edges. -/
lemma transGen_iff (h : Represents k G g) (i j : ℕ) :
    Relation.TransGen g.Succ i j ↔ Relation.TransGen G.Edge i j :=
  transGen_succ_iff h.succ_edge (fun i j hij => h.rel_sound i j (h.edge_rel i j hij)) i j

/-- The constructor. -/
lemma ofElems (es : List T) : Represents es.length ⟨es, []⟩ (AdjList.ofElems es) := by
  have hrow : ∀ i row, (AdjList.ofElems es).transC[i]? = some row →
      i < es.length ∧ row = List.replicate es.length false := by
    intro i row hi
    rw [AdjList.ofElems, List.getElem?_replicate] at hi
    obtain ⟨hlt, hi⟩ := Option.ite_none_right_eq_some.mp hi
    exact ⟨hlt, (Option.some.inj hi).symm⟩
  have hrel : ∀ i j, ¬Rel (AdjList.ofElems es).transC i j := by
    intro i j hij
    obtain ⟨row, hi, hj⟩ := Option.bind_eq_some_iff.mp hij
    rw [(hrow i row hi).2, List.getElem?_replicate] at hj
    obtain ⟨-, hj⟩ := Option.ite_none_right_eq_some.mp hj
    cases hj
  refine ⟨rfl, rfl, List.length_replicate, List.length_replicate, le_rfl,
    ⟨List.length_replicate, fun i row hi => ?_⟩, fun i j hij => ?_, nofun,
    fun i j hij => absurd hij (hrel i j), nofun⟩
  · obtain ⟨hlt, rfl⟩ := hrow i row hi
    rw [List.length_replicate]
    omega
  · obtain ⟨succs, hsuccs, hj⟩ := hij
    rw [AdjList.ofElems, List.getElem?_replicate] at hsuccs
    obtain ⟨-, hsuccs⟩ := Option.ite_none_right_eq_some.mp hsuccs
    obtain rfl := Option.some.inj hsuccs
    cases hj

/-- A new node changes none of the old bits and successors. -/
lemma addNode (h : Represents k G g) (a : T) :
    Represents k ⟨G.nodes ++ [a], G.edges⟩ (g.addNode a) := by
  have hlen : g.elems.length = G.nodes.length := congrArg List.length h.elems_eq
  have hrel : ∀ i j, Rel (g.addNode a).transC i j ↔ Rel g.transC i j := by
    intro i j
    rw [Rel, Rel, AdjList.addNode]
    by_cases hi : i < g.transC.length
    · rw [List.getElem?_append_left hi]
    · rw [List.getElem?_eq_none (not_lt.mp hi), List.getElem?_append_right (not_lt.mp hi)]
      cases i - g.transC.length with
      | zero => simp [List.getElem?_replicate]
      | succ d => simp
  have hsucc : ∀ i j, (g.addNode a).Succ i j ↔ g.Succ i j := by
    intro i j
    rw [AdjList.Succ, AdjList.Succ, AdjList.addNode]
    by_cases hi : i < g.nodeSucc.length
    · rw [List.getElem?_append_left hi]
    · rw [List.getElem?_eq_none (not_lt.mp hi), List.getElem?_append_right (not_lt.mp hi)]
      cases i - g.nodeSucc.length with
      | zero => simp
      | succ d => simp
  have hsucc_eq : (g.addNode a).Succ = g.Succ := funext₂ fun i j => propext (hsucc i j)
  refine ⟨by rw [AdjList.addNode, h.elems_eq], ?_, ?_, ?_, ?_, ⟨?_, fun i row hi => ?_⟩, ?_, ?_, ?_,
    nofun⟩
  · rw [indices_append, AdjList.addNode, h.ids_eq, hlen]
  · rw [AdjList.addNode, List.length_append, h.succ_length, List.length_append]
    rfl
  · rw [AdjList.addNode, List.length_append, h.degree_length, List.length_append]
    rfl
  · exact h.le_length.trans (by rw [List.length_append]; exact Nat.le_add_right _ _)
  · rw [AdjList.addNode, List.length_append, h.rows.length_eq, List.length_append]
    rfl
  · -- the new row has as many bits as there were nodes
    rw [AdjList.addNode, List.getElem?_append] at hi
    split at hi
    next => exact h.rows.size i row hi
    next hge =>
      obtain ⟨hi₀, rfl⟩ : i - g.transC.length = 0 ∧ List.replicate g.elems.length false = row := by
        cases hd : i - g.transC.length with
        | zero => rw [hd] at hi; exact ⟨rfl, Option.some.inj hi⟩
        | succ d => rw [hd] at hi; cases hi
      have hle := h.le_length
      have hrows := h.rows.length_eq
      rw [List.length_replicate, hlen]
      omega
  · exact fun i j hij => h.succ_edge i j ((hsucc i j).mp hij)
  · exact fun i j hij => (hrel i j).mpr (h.edge_rel i j hij)
  · rw [hsucc_eq]
    exact fun i j hij => h.rel_sound i j ((hrel i j).mp hij)

/-- **A new edge.**  If the row of the source has a bit for the target, the edge is added or was
implied already; otherwise a bit outside the row is read. -/
lemma addEdgeIds (h : Represents k G g) {a b : ℕ} (ha : a < G.nodes.length)
    (hb : b < G.nodes.length) :
    (b < max k a → ∃ g', g.addEdgeIds a b = some g' ∧
      Represents k ⟨G.nodes, G.edges ++ [(a, b)]⟩ g') ∧
      (¬b < max k a → g.addEdgeIds a b = none) := by
  obtain ⟨hread, hbad⟩ := h.rows.read (j := b) ha
  refine ⟨fun hfits => ?_, fun hfits => by rw [AdjList.addEdgeIds, related, hbad hfits]; rfl⟩
  obtain ⟨bit, hbit, hbit_iff⟩ := hread hfits
  have hedge : ∀ i j, DirectedGraph.Edge ⟨G.nodes, G.edges ++ [(a, b)]⟩ i j ↔
      G.Edge i j ∨ i = a ∧ j = b := by
    intro i j
    simp [DirectedGraph.Edge]
  cases bit with
  | true =>
    have hrel : Rel g.transC a b := hbit_iff.mp rfl
    refine ⟨g, by rw [AdjList.addEdgeIds, related, hbit]; rfl, ?_⟩
    refine { h with
      succ_edge := fun i j hij => (hedge i j).mpr (.inl (h.succ_edge i j hij))
      edge_rel := fun i j hij => ?_ }
    obtain hij | ⟨rfl, rfl⟩ := (hedge i j).mp hij
    · exact h.edge_rel i j hij
    · exact hrel
  | false =>
    obtain ⟨succs, hsuccs⟩ : ∃ succs, g.nodeSucc[a]? = some succs :=
      ⟨_, List.getElem?_eq_getElem (h.succ_length.symm ▸ ha)⟩
    obtain ⟨row, hrow⟩ : ∃ row, g.transC[a]? = some row :=
      ⟨_, List.getElem?_eq_getElem (h.rows.length_eq.symm ▸ ha)⟩
    obtain ⟨degree, hdegree⟩ : ∃ degree, g.inDegree[b]? = some degree :=
      ⟨_, List.getElem?_eq_getElem (h.degree_length.symm ▸ hb)⟩
    have hsize := h.rows.size a row hrow
    have hset : BitVector.setBit row b = some (List.set row b true) := if_pos (hsize ▸ hfits)
    refine ⟨{ g with
      nodeSucc := g.nodeSucc.set a (succs ++ [b])
      transC := g.transC.set a (List.set row b true)
      inDegree := g.inDegree.set b (degree + 1)
      calculatedTransC := false }, ?_, ?_⟩
    · rw [AdjList.addEdgeIds, related, hbit, Option.bind_some, if_neg Bool.false_ne_true, hsuccs,
        Option.bind_some, hrow, Option.bind_some, hset, Option.bind_some, hdegree, Option.map_some]
    · have hrel : ∀ i j, Rel (g.transC.set a (List.set row b true)) i j ↔
          Rel g.transC i j ∨ i = a ∧ j = b := by
        intro i j
        rw [rel_set (h.rows.length_eq.symm ▸ ha), BitVector.mem_setBit hset]
        split
        next hi => subst hi; simp [Rel, hrow]
        next hi => simp [hi]
      have hsucc : ∀ i j, (∃ js, (g.nodeSucc.set a (succs ++ [b]))[i]? = some js ∧ j ∈ js) ↔
          g.Succ i j ∨ i = a ∧ j = b := by
        intro i j
        rw [List.getElem?_set]
        by_cases hi : a = i
        · subst hi
          have hmem : g.Succ a j ↔ j ∈ succs :=
            ⟨fun ⟨js, hjs, hj⟩ => Option.some.inj (hjs.symm.trans hsuccs) ▸ hj,
              fun hj => ⟨succs, hsuccs, hj⟩⟩
          simp [hmem, h.succ_length, ha]
        · simp [AdjList.Succ, hi, Ne.symm hi]
      refine ⟨h.elems_eq, h.ids_eq, List.length_set.trans h.succ_length,
        List.length_set.trans h.degree_length, h.le_length,
        h.rows.set (List.length_set.trans hsize), fun i j hij => ?_, fun i j hij => ?_,
        fun i j hij => ?_, nofun⟩
      · exact (hedge i j).mpr (((hsucc i j).mp hij).imp_left (h.succ_edge i j))
      · exact (hrel i j).mpr (((hedge i j).mp hij).imp_left (h.edge_rel i j))
      · obtain hij | hij := (hrel i j).mp hij
        · exact Relation.TransGen.mono (fun x y hxy => (hsucc x y).mpr (.inl hxy)) i j
            (h.rel_sound i j hij)
        · exact .single ((hsucc i j).mpr (.inr hij))

/-- **The closure.** -/
lemma transClosure (h : Represents k G g) :
    ∃ g', g.transClosure = some g' ∧ Represents k G g' ∧ g'.calculatedTransC = true := by
  by_cases hcalc : g.calculatedTransC = true
  · exact ⟨g, if_pos hcalc, h, hcalc⟩
  · obtain ⟨R, hR, hrows, hmono, hsound, hclosed⟩ :=
      dfs_spec h.succ_length h.le_length h.rows h.succ_rel h.rel_sound
    refine ⟨{ g with transC := R, calculatedTransC := true }, ?_, ?_, rfl⟩
    · rw [AdjList.transClosure, if_neg hcalc, hR, Option.map_some]
    · exact { h with
        rows := hrows
        edge_rel := fun i j hij => hmono i j (h.edge_rel i j hij)
        rel_sound := hsound
        closed := fun _ => hclosed }

end Represents

/-- A call keeps the correspondence, and it fails only if the rows cannot hold the new edge. -/
lemma apply_record (h : Represents k G g) {op : Op T} {G' : DirectedGraph T}
    (hrec : G.record op = some G') :
    (∀ g', g.apply op = some g' → Represents k G' g') ∧
      (G'.FitsRows k → (g.apply op).isSome) := by
  -- both ways to add an edge
  have hadd : ∀ {a b : ℕ}, G.addEdge a b = some G' →
      (∀ g', g.addEdgeIds a b = some g' → Represents k G' g') ∧
        (G'.FitsRows k → (g.addEdgeIds a b).isSome) := by
    intro a b hG
    obtain ⟨ha, hb, rfl⟩ := DirectedGraph.addEdge_eq_some hG
    obtain ⟨hgood, hbad⟩ := h.addEdgeIds ha hb
    by_cases hfits : b < max k a
    · obtain ⟨g', hg', hrep⟩ := hgood hfits
      exact ⟨fun g'' hg'' => Option.some.inj (hg'.symm.trans hg'') ▸ hrep,
        fun _ => by rw [hg']; rfl⟩
    · refine ⟨fun g' hg' => ?_, fun hall => absurd (hall (a, b) ?_) hfits⟩
      · rw [hbad hfits] at hg'
        cases hg'
      · exact List.mem_append_right _ List.mem_cons_self
  cases op with
  | addNode a =>
    obtain rfl := Option.some.inj hrec
    exact ⟨fun g' hg' => Option.some.inj hg' ▸ h.addNode a, fun _ => rfl⟩
  | addEdge a b =>
    obtain ⟨i, hi, hrec⟩ := Option.bind_eq_some_iff.mp hrec
    obtain ⟨j, hj, hrec⟩ := Option.bind_eq_some_iff.mp hrec
    have happly : g.apply (.addEdge a b) = g.addEdgeIds i j := by
      rw [apply, addEdge, h.ids_eq, hi, Option.bind_some, hj, Option.bind_some]
    rw [happly]
    exact hadd hrec
  | addEdgeIds a b => exact hadd hrec
  | transClosure =>
    obtain rfl := Option.some.inj hrec
    obtain ⟨g₁, hg₁, hrep, -⟩ := h.transClosure
    exact ⟨fun g' hg' => Option.some.inj (hg₁.symm.trans hg') ▸ hrep, fun _ => by
      rw [apply, hg₁]; rfl⟩

/-- A call forgets no edge. -/
lemma record_edges {op : Op T} {G' : DirectedGraph T} (h : G.record op = some G') :
    G.edges ⊆ G'.edges := by
  have hadd : ∀ {a b : ℕ}, G.addEdge a b = some G' → G.edges ⊆ G'.edges := by
    intro a b hG
    obtain ⟨-, -, rfl⟩ := DirectedGraph.addEdge_eq_some hG
    exact List.subset_append_left _ _
  cases op with
  | addNode a => exact Option.some.inj h ▸ List.Subset.refl _
  | addEdge a b =>
    obtain ⟨i, -, h⟩ := Option.bind_eq_some_iff.mp h
    obtain ⟨j, -, h⟩ := Option.bind_eq_some_iff.mp h
    exact hadd h
  | addEdgeIds a b => exact hadd h
  | transClosure => exact Option.some.inj h ▸ List.Subset.refl _

/-- Calls forget no edge. -/
lemma exec_record_edges {ops : List (Op T)} {G' : DirectedGraph T}
    (h : PartialRun.exec DirectedGraph.record G ops = some G') : G.edges ⊆ G'.edges := by
  exact PartialRun.exec_invariant (P := fun _ _ => True)
    (fun H op H' hH _ hop => List.Subset.trans hH (record_edges hop)) (List.Subset.refl _)
    (PartialRun.meets_of_forall fun _ _ => trivial) h

/-- **Runs.**  A run keeps the correspondence, and it fails only if the rows cannot hold some
edge. -/
theorem exec_record (h : Represents k G g) {ops : List (Op T)} {G' : DirectedGraph T}
    (hrec : PartialRun.exec DirectedGraph.record G ops = some G') :
    (∀ g', PartialRun.exec apply g ops = some g' → Represents k G' g') ∧
      (G'.FitsRows k → (PartialRun.exec apply g ops).isSome) := by
  induction ops generalizing G g with
  | nil =>
    obtain rfl := Option.some.inj hrec
    exact ⟨fun g' hg' => Option.some.inj hg' ▸ h, fun _ => rfl⟩
  | cons op ops ih =>
    obtain ⟨G₁, hG₁, hrest⟩ := Option.bind_eq_some_iff.mp hrec
    obtain ⟨hkeeps, htotal⟩ := apply_record h hG₁
    constructor
    · intro g' hg'
      obtain ⟨g₁, hg₁, hg'⟩ := Option.bind_eq_some_iff.mp hg'
      exact (ih (hkeeps g₁ hg₁) hrest).1 g' hg'
    · intro hfits
      obtain ⟨g₁, hg₁⟩ := Option.isSome_iff_exists.mp
        (htotal fun e he => hfits e (exec_record_edges hrest he))
      rw [PartialRun.exec, hg₁, Option.bind_some]
      exact (ih (hkeeps g₁ hg₁) hrest).2 hfits

/-- The edges of a graph that was built are between its nodes. -/
lemma lt_of_build {es : List T} {ops : List (Op T)} (h : DirectedGraph.build es ops = some G) :
    ∀ e ∈ G.edges, e.2 < G.nodes.length := by
  have hadd : ∀ {H H' : DirectedGraph T} {a b : ℕ}, (∀ e ∈ H.edges, e.2 < H.nodes.length) →
      H.addEdge a b = some H' → ∀ e ∈ H'.edges, e.2 < H'.nodes.length := by
    intro H H' a b hH hadd e he
    obtain ⟨-, hb, rfl⟩ := DirectedGraph.addEdge_eq_some hadd
    obtain he | he := List.mem_append.mp he
    · exact hH e he
    · obtain rfl := List.mem_singleton.mp he
      exact hb
  refine PartialRun.exec_invariant (P := fun _ _ => True)
    (fun (H : DirectedGraph T) op H' (hH : ∀ e ∈ H.edges, e.2 < H.nodes.length) _ hop => ?_)
    (fun e he => absurd he List.not_mem_nil) (PartialRun.meets_of_forall fun _ _ => trivial) h
  cases op with
  | addNode a =>
    obtain rfl := Option.some.inj hop
    intro e he
    have := hH e he
    rw [List.length_append]
    omega
  | addEdge a b =>
    obtain ⟨i, -, hop⟩ := Option.bind_eq_some_iff.mp hop
    obtain ⟨j, -, hop⟩ := Option.bind_eq_some_iff.mp hop
    exact hadd hH hop
  | addEdgeIds a b => exact hadd hH hop
  | transClosure => exact Option.some.inj hop ▸ hH

/-! ## Irreflexivity -/

omit [DecidableEq T] in
/-- The loop over the nodes is split. -/
lemma irreflexiveOn_append (g : AdjList T) (is js : List ℕ) :
    g.irreflexiveOn (is ++ js) =
      (g.irreflexiveOn is).bind fun b => if b then g.irreflexiveOn js else some false := by
  induction is with
  | nil => rfl
  | cons i is ih =>
    rw [List.cons_append, irreflexiveOn, irreflexiveOn, ih]
    cases g.related i i with
    | none => rfl
    | some b => cases b <;> rfl

/-- Over the nodes that were given to the constructor the loop reads their diagonal bits. -/
lemma irreflexiveOn_spec (h : Represents k G g) {is : List ℕ} (his : ∀ i ∈ is, i < k) :
    ∃ b, g.irreflexiveOn is = some b ∧ (b = true ↔ ∀ i ∈ is, ¬Rel g.transC i i) := by
  induction is with
  | nil => exact ⟨true, rfl, by simp⟩
  | cons i is ih =>
    have hi := his i List.mem_cons_self
    obtain ⟨b, hb, hb_iff⟩ :=
      (h.rows.read (j := i) (hi.trans_le h.le_length)).1 (lt_max_of_lt_left hi)
    obtain ⟨b', hb', hb'_iff⟩ := ih fun j hj => his j (List.mem_cons_of_mem _ hj)
    rw [irreflexiveOn, related, hb, Option.bind_some, List.forall_mem_cons, ← hb_iff]
    cases b with
    | true => exact ⟨false, rfl, by simp⟩
    | false => exact ⟨b', hb', by simpa using hb'_iff⟩

/-- **`isIrreflexive`.**  A diagonal bit that is set is found; without one the diagonal of the first
node that the constructor did not get is read outside its row. -/
lemma isIrreflexive_spec (h : Represents k G g) :
    ((∃ x, Rel g.transC x x) → g.isIrreflexive = some false) ∧
      ((¬∃ x, Rel g.transC x x) →
        g.isIrreflexive = if G.nodes.length = k then some true else none) := by
  have hsplit : List.range g.elems.length = List.range k ++ List.range' k (G.nodes.length - k) := by
    have happend : List.range' 0 k ++ List.range' (0 + k) (G.nodes.length - k)
        = List.range' 0 (k + (G.nodes.length - k)) := List.range'_append_1
    rw [Nat.zero_add, Nat.add_sub_cancel' h.le_length] at happend
    rw [h.elems_eq, List.range_eq_range', List.range_eq_range', happend]
  obtain ⟨b, hb, hb_iff⟩ :=
    irreflexiveOn_spec h fun i (hi : i ∈ List.range k) => List.mem_range.mp hi
  rw [isIrreflexive, hsplit, irreflexiveOn_append, hb, Option.bind_some]
  constructor
  · rintro ⟨x, hx⟩
    have hlt := (h.rows.lt_of_rel hx).2
    have hfalse : b = false := by
      refine Bool.eq_false_iff.mpr fun htrue => ?_
      exact hb_iff.mp htrue x (List.mem_range.mpr (by omega)) hx
    rw [hfalse, if_neg Bool.false_ne_true]
  · intro hx
    rw [if_pos (hb_iff.mpr fun i _ hi => hx ⟨i, hi⟩)]
    split
    next hlen => rw [hlen, Nat.sub_self]; rfl
    next hlen =>
      have hle := h.le_length
      obtain ⟨d, hd⟩ : ∃ d, G.nodes.length - k = d + 1 := ⟨G.nodes.length - k - 1, by omega⟩
      have hnone := (h.rows.read (i := k) (j := k) (by omega)).2 (by omega)
      rw [hd, List.range'_succ, irreflexiveOn, related, hnone]
      rfl

/-- What is asked of the calls that build a graph: no call reads or writes outside a row; after
`transClosure` the answer of `isIrreflexive` is whether the graph has no cycle; if it has none, the
relation is reachability by one or more edges; and no edge is lost. -/
def DetectsCycles (es : List T) (ops : List (Op T)) (G : DirectedGraph T) : Prop :=
  ∃ g g', PartialRun.exec apply (AdjList.ofElems es) ops = some g ∧
    g.transClosure = some g' ∧
    (∃ b, g'.isIrreflexive = some b ∧ (b = true ↔ ¬G.Cyclic)) ∧
    (¬G.Cyclic → ∀ i < G.nodes.length, ∀ j < G.nodes.length,
      ∃ b, g'.related i j = some b ∧ (b = true ↔ Relation.TransGen G.Edge i j)) ∧
    ∀ e ∈ G.edges, g'.related e.1 e.2 = some true

/-- The rows after a closure have a diagonal bit exactly if there is a cycle, and without one they
are reachability. -/
lemma Represents.closure_spec (h : Represents k G g) (hcalc : g.calculatedTransC = true) :
    ((∃ x, Rel g.transC x x) ↔ G.Cyclic) ∧
      (¬G.Cyclic → ∀ i j, Rel g.transC i j ↔ Relation.TransGen G.Edge i j) := by
  have hsound : ∀ i j, Rel g.transC i j → Relation.TransGen G.Edge i j := fun i j hij =>
    (h.transGen_iff i j).mp (h.rel_sound i j hij)
  have hdiag : (∃ x, Rel g.transC x x) → G.Cyclic := fun ⟨x, hx⟩ => ⟨x, hsound x x hx⟩
  obtain hx | hcomplete := (h.closed hcalc).rel_of_transGen h.succ_rel
  · exact ⟨⟨hdiag, fun _ => hx⟩, fun hacyclic => absurd (hdiag hx) hacyclic⟩
  · have hcomplete' : ∀ i j, Relation.TransGen G.Edge i j → Rel g.transC i j := fun i j hij =>
      hcomplete i j ((h.transGen_iff i j).mpr hij)
    exact ⟨⟨hdiag, fun ⟨x, hx⟩ => ⟨x, hcomplete' x x hx⟩⟩,
      fun _ i j => ⟨hsound i j, hcomplete' i j⟩⟩

/-- **Cycle detection** works exactly if all nodes were given to the constructor, or the rows can
hold all edges and there is a cycle. -/
theorem detectsCycles_iff {es : List T} {ops : List (Op T)} {G : DirectedGraph T}
    (hbuild : DirectedGraph.build es ops = some G) :
    DetectsCycles es ops G ↔
      G.nodes.length = es.length ∨ G.FitsRows es.length ∧ G.Cyclic := by
  obtain ⟨hkeeps, htotal⟩ := exec_record (Represents.ofElems es) hbuild
  constructor
  · rintro ⟨g, g', hrun, hclose, ⟨b, hb, hb_iff⟩, -, -⟩
    have hrep := hkeeps g hrun
    obtain ⟨g₁, hg₁, hrep₁, hcalc⟩ := hrep.transClosure
    obtain rfl := Option.some.inj (hg₁.symm.trans hclose)
    by_contra hcon
    obtain ⟨hlen, hacyclic⟩ := not_or.mp hcon
    have hcyclic : ¬G.Cyclic := fun hc => hacyclic ⟨hrep.fitsRows, hc⟩
    have hnone := (isIrreflexive_spec hrep₁).2 fun hx =>
      hcyclic ((hrep₁.closure_spec hcalc).1.mp hx)
    rw [if_neg hlen, hb] at hnone
    cases hnone
  · intro hcond
    have hfits : G.FitsRows es.length := by
      obtain hlen | hcond := hcond
      · exact fun e he => lt_max_of_lt_left (hlen ▸ lt_of_build hbuild e he)
      · exact hcond.1
    obtain ⟨g, hrun⟩ := Option.isSome_iff_exists.mp (htotal hfits)
    obtain ⟨g', hclose, hrep, hcalc⟩ := (hkeeps g hrun).transClosure
    obtain ⟨hdiag, hreach⟩ := hrep.closure_spec hcalc
    refine ⟨g, g', hrun, hclose, ?_, fun hacyclic i hi j hj => ?_, fun e he =>
      hrep.edge_rel e.1 e.2 he⟩
    · by_cases hcyclic : G.Cyclic
      · exact ⟨false, (isIrreflexive_spec hrep).1 (hdiag.mpr hcyclic), by simpa using hcyclic⟩
      · have hlen := hcond.resolve_right fun h => hcyclic h.2
        exact ⟨true, ((isIrreflexive_spec hrep).2 fun hx => hcyclic (hdiag.mp hx)).trans
          (if_pos hlen), by simpa using hcyclic⟩
    · have hlen := hcond.resolve_right fun h => hacyclic h.2
      obtain ⟨b, hb, hb_iff⟩ :=
        (hrep.rows.read (j := j) hi).1 (lt_max_of_lt_left (hlen ▸ hj))
      exact ⟨b, hb, hb_iff.trans (hreach hacyclic i j)⟩

/-- Two nodes and an edge between them, given to the constructor. -/
theorem detectsCycles_oneEdge :
    DirectedGraph.build ["a", "b"] [.addEdge "a" "b"] = some ⟨["a", "b"], [(0, 1)]⟩ ∧
      DetectsCycles ["a", "b"] [.addEdge "a" "b"] ⟨["a", "b"], [(0, 1)]⟩ :=
  ⟨by decide, (detectsCycles_iff (by decide)).mpr (.inl rfl)⟩

/-- A node that is added to the graph without nodes: the only bit that `isIrreflexive` reads is
outside its row.  The same node with the edges of a larger graph: the bit of the edge is outside. -/
theorem not_detectsCycles_addNode :
    DirectedGraph.build [] [.addNode "a"] = some ⟨["a"], []⟩ ∧
      ¬DetectsCycles [] [.addNode "a"] ⟨["a"], []⟩ ∧
      DirectedGraph.build [] [.addNode "a", .addNode "b", .addEdge "a" "b"]
        = some ⟨["a", "b"], [(0, 1)]⟩ ∧
      ¬DetectsCycles [] [.addNode "a", .addNode "b", .addEdge "a" "b"]
        ⟨["a", "b"], [(0, 1)]⟩ := by
  refine ⟨by decide, ?_, by decide, ?_⟩
  · rintro ⟨g, g', hrun, hclose, ⟨b, hb, -⟩, -, -⟩
    obtain rfl := Option.some.inj hrun
    obtain rfl := Option.some.inj hclose
    cases hb
  · rintro ⟨g, g', hrun, -⟩
    cases hrun

end Runs

end AdjList

end GenMC
