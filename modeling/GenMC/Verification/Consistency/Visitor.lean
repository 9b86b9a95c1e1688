import GenMC.Lib.CycleSearch
import GenMC.ExecutionGraph.Neighbours

/-!
# Generated visitors

The checkers look for cycles with visitors that are generated from automata.  A visitor is in one of
its states at every label; a transition steps to the neighbours of the label in one relation, if the
label and the neighbour pass its tests, and changes the state.  There is a table for each state,
with an entry for each stamp.
-/

namespace GenMC

open ExecutionGraph

/-- A transition of a visitor. -/
structure Transition where
  /-- The relation. -/
  step : Neighbour
  /-- The test of the label. -/
  source : Event → Bool := fun _ => true
  /-- The test of the neighbour. -/
  target : Event → Bool := fun _ => true
  /-- The next state. -/
  state : ℕ

/-- A visitor: the transitions of every state, and the states in which it counts the labels. -/
structure Visitor where
  table : List (List Transition)
  accepting : ℕ → Bool

namespace Visitor

/-! ## The visit -/

section Definitions

variable (v : Visitor) (g : ExecutionGraph)

/-- The neighbours that a transition leads to from a label. -/
def follow (lab : EventLabel) (t : Transition) : Option (List (ℕ × Event)) :=
  if t.source lab.pos then
    (g.succs lab t.step).map fun es => (es.filter t.target).map fun e => (t.state, e)
  else some []

/-- Whether the tables have an entry for the label. -/
def inTable (n : ℕ × Event) : Bool :=
  g.containsPos n.2 && decide (g.stampOf n.2 ≤ g.timestamp)

/-- The nodes that are visited from a node. -/
def succs (n : ℕ × Event) : Option (List (ℕ × Event)) := do
  let lab ← g.getEventLabel n.2
  let ts ← v.table[n.1]?
  let ns ← ts.mapM (follow g lab)
  if ns.flatten.all (inTable g) then return ns.flatten else none

/-- What the visitor searches for cycles. -/
def graph : CycleSearch.Graph (ℕ × Event) (ℕ × ℕ) where
  succs := v.succs g
  accepting n := v.accepting n.1
  key n := (n.1, g.stampOf n.2)

/-- The visit of a label in a state: whether no cycle is found. -/
def visit (q : ℕ) (e : Event) : Option Bool :=
  CycleSearch.check (v.graph g) (v.table.length * g.positions.length) (q, e)

end Definitions

/-! ## Where the visitor goes -/

/-- A step of the visitor from a label in one state to a label in another one. -/
def Goes (v : Visitor) (g : ExecutionGraph) (n n' : ℕ × Event) : Prop :=
  ∃ ts ∈ v.table[n.1]?, ∃ t ∈ ts, t.state = n'.1 ∧ t.source n.2 ∧ t.target n'.2 ∧
    g.IsNeighbour n.2 n'.2 t.step

/-- A visitor whose states have tables, and which only follows program order through states that do
not count. -/
structure Proper (v : Visitor) : Prop where
  closed : ∀ ts ∈ v.table, ∀ t ∈ ts, t.state < v.table.length
  plain : ∀ ts ∈ v.table, ∀ t ∈ ts, v.accepting t.state = false → t.step = .po

variable {v : Visitor} {g : ExecutionGraph}

/-- A loop that collects lists. -/
lemma mapM_flatten {α β : Type*} {f : α → Option (List β)} {P : α → β → Prop} (l : List α)
    (h : ∀ a ∈ l, ∃ bs, f a = some bs ∧ ∀ b, b ∈ bs ↔ P a b) :
    ∃ bss, l.mapM f = some bss ∧ ∀ b, b ∈ bss.flatten ↔ ∃ a ∈ l, P a b := by
  induction l with
  | nil => exact ⟨[], rfl, fun b => by simp⟩
  | cons a l ih =>
    obtain ⟨bs, hbs, hmem⟩ := h a List.mem_cons_self
    obtain ⟨bss, hbss, hall⟩ := ih fun a' ha' => h a' (List.mem_cons_of_mem a ha')
    refine ⟨bs :: bss, by rw [List.mapM_cons, hbs, hbss]; rfl, fun b => ?_⟩
    simp only [List.flatten_cons, List.mem_append, hmem, hall, List.mem_cons, exists_eq_or_imp]

/-- The neighbours that a transition leads to. -/
lemma follow_spec (hg : Navigable g) {e : Event} {lab : EventLabel}
    (hlab : g.getEventLabel e = some lab) (t : Transition) :
    ∃ ns, follow g lab t = some ns ∧ ∀ n, n ∈ ns ↔
      t.state = n.1 ∧ t.source e ∧ t.target n.2 ∧ g.IsNeighbour e n.2 t.step := by
  have hpos := hg.wellFormed.readerLists.positioned.pos e lab hlab
  unfold follow
  rw [hpos]
  split
  next hsource =>
    obtain ⟨es, hes, hmem⟩ := hg.succs_spec hlab t.step
    refine ⟨_, by rw [hes, Option.map_some], fun n => ?_⟩
    rw [List.mem_map]
    constructor
    · rintro ⟨e', he', rfl⟩
      obtain ⟨hin, htarget⟩ := List.mem_filter.mp he'
      exact ⟨rfl, hsource, htarget, (hmem e').mp hin⟩
    · rintro ⟨hstate, -, htarget, hn⟩
      exact ⟨n.2, List.mem_filter.mpr ⟨(hmem n.2).mpr hn, htarget⟩, Prod.ext hstate rfl⟩
  next hsource => exact ⟨[], rfl, fun n => by simp [hsource]⟩

/-- The nodes that are visited from a node. -/
lemma succs_spec (hg : Navigable g) {n : ℕ × Event} (hn : n.1 < v.table.length)
    (hpos : g.containsPos n.2) : ∃ ns, v.succs g n = some ns ∧ ∀ n', n' ∈ ns ↔ v.Goes g n n' := by
  obtain ⟨lab, hlab⟩ := containsPos_iff.mp hpos
  have hts : v.table[n.1]? = some v.table[n.1] := List.getElem?_eq_getElem hn
  obtain ⟨nss, hnss, hmem⟩ := mapM_flatten v.table[n.1] fun t _ => follow_spec hg hlab t
  have hgoes : ∀ n', n' ∈ nss.flatten ↔ v.Goes g n n' := by
    intro n'
    rw [hmem]
    unfold Goes
    rw [hts]
    simp only [Option.mem_def, Option.some.injEq, exists_eq_left']
  refine ⟨nss.flatten, ?_, hgoes⟩
  have hall : nss.flatten.all (inTable g) := by
    refine List.all_eq_true.mpr fun n' hn' => ?_
    obtain ⟨-, -, t, -, -, -, -, hneighbour⟩ := (hgoes n').mp hn'
    have hpos' := hg.containsPos_of_isNeighbour hneighbour
    unfold inTable
    rw [hpos', Bool.true_and, decide_eq_true_eq]
    exact (hg.wellFormed.bounded n'.2 hpos').le
  unfold succs
  simp only [hlab, hts, hnss, Option.bind_eq_bind, Option.bind_some, if_pos hall, Option.pure_def]

/-- A step of the search is one of the visitor. -/
lemma edge_iff (hg : Navigable g) {n n' : ℕ × Event} (hn : n.1 < v.table.length)
    (hpos : g.containsPos n.2) : CycleSearch.Edge (v.graph g) n n' ↔ v.Goes g n n' := by
  obtain ⟨ns, hns, hmem⟩ := succs_spec (v := v) hg hn hpos
  have hsuccs : (v.graph g).succs n = some ns := hns
  unfold CycleSearch.Edge
  rw [hsuccs]
  simp only [Option.mem_def, Option.some.injEq, exists_eq_left', hmem]

/-- Every step of the search starts at a label of the graph in a state of the visitor. -/
lemma of_edge {n n' : ℕ × Event} (h : CycleSearch.Edge (v.graph g) n n') :
    n.1 < v.table.length ∧ g.containsPos n.2 := by
  obtain ⟨ns, hns, -⟩ := h
  obtain ⟨lab, hlab, h⟩ := Option.bind_eq_some_iff.mp hns
  obtain ⟨ts, hts, -⟩ := Option.bind_eq_some_iff.mp h
  exact ⟨(List.getElem?_eq_some_iff.mp hts).1, containsPos_iff.mpr ⟨lab, hlab⟩⟩

/-- A step of the visitor leads to a label of the graph in a state of the visitor. -/
lemma Goes.mem (hg : Navigable g) (hv : v.Proper) {n n' : ℕ × Event} (h : v.Goes g n n') :
    n'.1 < v.table.length ∧ g.containsPos n'.2 := by
  obtain ⟨ts, hts, t, ht, hstate, -, -, hneighbour⟩ := h
  exact ⟨hstate ▸ hv.closed ts (List.mem_of_getElem? hts) t ht,
    hg.containsPos_of_isNeighbour hneighbour⟩

/-- The labels in the states. -/
def nodes (v : Visitor) (g : ExecutionGraph) : Finset (ℕ × Event) :=
  Finset.range v.table.length ×ˢ g.positions.toFinset

/-- A label of the graph in a state. -/
lemma mem_nodes {n : ℕ × Event} :
    n ∈ v.nodes g ↔ n.1 < v.table.length ∧ g.containsPos n.2 := by
  rw [nodes, Finset.mem_product, Finset.mem_range, List.mem_toFinset, mem_positions]

/-- What the visitor searches. -/
lemma searchable (hg : Navigable g) (hv : v.Proper) :
    CycleSearch.Searchable (v.graph g) (v.nodes g) := by
  refine ⟨fun n hn => ?_, fun n hn n' hn' hkey => ?_, Acyclic.of_rank (fun n => n.2.index) ?_⟩
  · obtain ⟨hq, hpos⟩ := mem_nodes.mp hn
    obtain ⟨ns, hns, hmem⟩ := succs_spec (v := v) hg hq hpos
    exact ⟨ns, hns, fun n' hn' => mem_nodes.mpr (((hmem n').mp hn').mem hg hv)⟩
  · obtain ⟨hq, hstamp⟩ := Prod.mk.inj hkey
    exact Prod.ext hq (hg.wellFormed.stampOf_injective (mem_nodes.mp hn).2 (mem_nodes.mp hn').2
      hstamp)
  · rintro n n' ⟨hedge, hplain⟩
    obtain ⟨hq, hpos⟩ := of_edge hedge
    obtain ⟨ts, hts, t, ht, hstate, -, -, hneighbour⟩ := (edge_iff hg hq hpos).mp hedge
    -- edges to states that do not count follow program order
    have hpo := hv.plain ts (List.mem_of_getElem? hts) t ht (hstate ▸ hplain)
    rw [hpo] at hneighbour
    rw [hneighbour.1]
    exact Nat.lt_succ_self _

/-- **A visitor decides** whether a cycle of its steps can be reached from a label.  Every cycle
goes through a state that counts. -/
theorem visit_spec (hg : Navigable g) (hv : v.Proper) {q : ℕ} {e : Event}
    (hq : q < v.table.length) (he : g.containsPos e) :
    ∃ b, v.visit g q e = some b ∧ (b = true ↔ ¬∃ n, v.accepting n.1 = true ∧
      Relation.ReflTransGen (v.Goes g) (q, e) n ∧ Relation.TransGen (v.Goes g) n n) := by
  have hn : (q, e) ∈ v.nodes g := mem_nodes.mpr ⟨hq, he⟩
  have hcard : (v.nodes g).card ≤ v.table.length * g.positions.length := by
    rw [nodes, Finset.card_product, Finset.card_range]
    exact Nat.mul_le_mul_left _ (List.toFinset_card_le _)
  have hsearch := searchable hg hv
  obtain ⟨b, hb, hiff⟩ := CycleSearch.check_spec hsearch hn hcard
  refine ⟨b, hb, hiff.trans (not_congr ?_)⟩
  -- both relations agree on the labels of the graph
  have hedge : ∀ {n n'}, n ∈ v.nodes g → (CycleSearch.Edge (v.graph g) n n' ↔ v.Goes g n n') :=
    fun hn => edge_iff hg (mem_nodes.mp hn).1 (mem_nodes.mp hn).2
  have hgoes : ∀ {n n'}, v.Goes g n n' → n' ∈ v.nodes g := fun h => mem_nodes.mpr (h.mem hg hv)
  have hreach : ∀ {n n'}, n ∈ v.nodes g →
      (Relation.ReflTransGen (CycleSearch.Edge (v.graph g)) n n' ↔
        Relation.ReflTransGen (v.Goes g) n n') ∧
      (Relation.ReflTransGen (v.Goes g) n n' → n' ∈ v.nodes g) := by
    intro n n' hn
    have hmem : ∀ {m}, Relation.ReflTransGen (v.Goes g) n m → m ∈ v.nodes g := by
      intro m hm
      induction hm with
      | refl => exact hn
      | tail _ hstep _ => exact hgoes hstep
    refine ⟨⟨fun h => ?_, fun h => ?_⟩, hmem⟩
    · induction h with
      | refl => exact .refl
      | tail _ hstep ih => exact ih.tail ((hedge (hmem ih)).mp hstep)
    · induction h with
      | refl => exact .refl
      | tail hm hstep ih => exact ih.tail ((hedge (hmem hm)).mpr hstep)
  have hcycle : ∀ {n}, n ∈ v.nodes g → (Relation.TransGen (CycleSearch.Edge (v.graph g)) n n ↔
      Relation.TransGen (v.Goes g) n n) := by
    intro n hn
    rw [Relation.TransGen.head'_iff, Relation.TransGen.head'_iff]
    refine exists_congr fun m => ?_
    rw [hedge hn]
    exact and_congr_right fun hstep => (hreach (hgoes hstep)).1
  constructor
  · rintro ⟨n, hr, hn'⟩
    obtain ⟨m, hacc, hnm, hm⟩ := CycleSearch.exists_accepting_of_cycle hsearch.plain hn'
    have hgoes' := (hreach hn).1.mp (hr.trans hnm)
    exact ⟨m, hacc, hgoes', (hcycle ((hreach hn).2 hgoes')).mp hm⟩
  · rintro ⟨n, -, hr, hn'⟩
    exact ⟨n, (hreach hn).1.mpr hr, (hcycle ((hreach hn).2 hr)).mpr hn'⟩

end Visitor

end GenMC
