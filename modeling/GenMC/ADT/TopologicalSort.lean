import GenMC.ADT.TransClosure
import GenMC.Lib.LinearExtension
import Mathlib.Algebra.BigOperators.Group.Finset.Basic
import Mathlib.Algebra.Order.BigOperators.Group.Finset

/-!
# All topological sortings

`allTopoSort` calls a predicate on the topological sortings of a graph until it holds.  A sorting is
built node by node.  A node may come next if it is not visited and its in-degree, from which the
edges of the visited nodes have been taken away, is zero.  After the sortings that begin so have
been tried, the in-degrees are raised again.  The search stops as soon as the predicate holds, and
then leaves its working data as they are; they are copies of those of the graph.

The sorting so far is an `Initial` list of positions, and all working data follow from it.
-/

namespace GenMC

namespace AdjList

variable {T : Type*}

/-! ## The code -/

/-- The working data of `allTopoSortUtil` that are passed by reference, and the calls of the
predicate. -/
structure TopoState (T : Type*) where
  current : List T
  inDegree : List ℤ
  found : Bool
  calls : List (List T)

/-- The loops over the successors of a node that lower and raise their in-degrees. -/
def addToDegrees (delta : ℤ) (succs : List ℕ) (inDegree : List ℤ) : Option (List ℤ) :=
  succs.foldlM (fun inDegree j => inDegree[j]?.map fun d => inDegree.set j (d + delta)) inDegree

/-- The loop of `AdjList::allTopoSortUtil` over the nodes that are left, with the flag `scheduled`.
If the predicate holds in a recursive call, the loop ends. -/
def tryNodes (g : AdjList T) (recurse : List Bool → TopoState T → Option (TopoState T)) :
    List ℕ → List Bool → Bool → TopoState T → Option (Bool × TopoState T)
  | [], _, scheduled, st => some (scheduled, st)
  | i :: is, visited, scheduled, st =>
    st.inDegree[i]?.bind fun d => visited[i]?.bind fun v =>
    if d = 0 ∧ v = false then
      g.nodeSucc[i]?.bind fun succs => (addToDegrees (-1) succs st.inDegree).bind fun inDegree =>
      g.elems[i]?.bind fun e =>
      (recurse (visited.set i true)
        { st with current := st.current ++ [e], inDegree := inDegree }).bind fun st =>
      if st.found then some (scheduled, st)
      else
        (addToDegrees 1 succs st.inDegree).bind fun inDegree =>
        tryNodes g recurse is ((visited.set i true).set i false) true
          { st with current := st.current.dropLast, inDegree := inDegree }
    else tryNodes g recurse is visited scheduled st

/-- `AdjList::allTopoSortUtil`, with a bound on the depth of the recursion.  It returns the final
value of `found`. -/
def allTopoSortUtil (g : AdjList T) (prop : List T → Bool) :
    ℕ → List Bool → TopoState T → Option (TopoState T)
  | 0, _, _ => none
  | fuel + 1, visited, st =>
    if st.found then some st
    else
      (g.tryNodes (allTopoSortUtil g prop fuel) (List.range g.elems.length) visited false st).bind
        fun r =>
      if r.2.found || r.1 then some r.2
      else some { r.2 with found := prop r.2.current, calls := r.2.calls ++ [r.2.current] }

/-- `AdjList::allTopoSort`, with the working data at its end. -/
def allTopoSort (g : AdjList T) (prop : List T → Bool) : Option (TopoState T) :=
  g.allTopoSortUtil prop (g.elems.length + 1) (List.replicate g.elems.length false)
    ⟨[], g.inDegree, false, []⟩

/-! ## In-degrees -/

/-- The successors of a node. -/
def succs (g : AdjList T) (i : ℕ) : List ℕ := g.nodeSucc.getD i []

lemma succ_iff (g : AdjList T) (i j : ℕ) : g.Succ i j ↔ j ∈ g.succs i := by
  rw [Succ, succs, List.getD_eq_getElem?_getD]
  cases g.nodeSucc[i]? with
  | none => simp
  | some js => simp

/-- The number of edges from the given nodes. -/
def degreeFrom (g : AdjList T) (s : Finset ℕ) (j : ℕ) : ℤ := ∑ i ∈ s, ((g.succs i).count j : ℤ)

/-- The edges are between nodes, and the in-degrees count them. -/
structure CountsEdges (g : AdjList T) : Prop where
  succ_length : g.nodeSucc.length = g.elems.length
  degree_length : g.inDegree.length = g.elems.length
  succ_lt : ∀ i, ∀ j ∈ g.succs i, j < g.elems.length
  degree : ∀ j < g.elems.length,
    g.inDegree[j]? = some (g.degreeFrom (Finset.range g.elems.length) j)

/-- Edges start at nodes. -/
lemma CountsEdges.lt_of_succ {g : AdjList T} (h : g.CountsEdges) {i j : ℕ} (hij : g.Succ i j) :
    i < g.elems.length := by
  obtain ⟨js, hjs, -⟩ := hij
  rw [← h.succ_length]
  exact (List.getElem?_eq_some_iff.mp hjs).1

/-- The nodes are closed under predecessors. -/
lemma CountsEdges.mem_range_of_succ {g : AdjList T} (h : g.CountsEdges) :
    ∀ i j, g.Succ i j → j ∈ List.range g.elems.length → i ∈ List.range g.elems.length :=
  fun _ _ hij _ => List.mem_range.mpr (h.lt_of_succ hij)

/-- Without edges from the nodes the number is zero. -/
lemma degreeFrom_eq_zero_iff (g : AdjList T) (s : Finset ℕ) (j : ℕ) :
    g.degreeFrom s j = 0 ↔ ∀ i ∈ s, ¬g.Succ i j := by
  rw [degreeFrom, Finset.sum_eq_zero_iff_of_nonneg fun i _ => Int.natCast_nonneg _]
  refine forall₂_congr fun i _ => ?_
  rw [succ_iff, Int.natCast_eq_zero, List.count_eq_zero]

/-- The constructor. -/
lemma countsEdges_ofElems [DecidableEq T] (es : List T) : CountsEdges (ofElems es) := by
  have hsuccs : ∀ i, (ofElems es).succs i = [] := by
    intro i
    rw [succs, ofElems, List.getD_eq_getElem?_getD, List.getElem?_replicate]
    split <;> rfl
  refine ⟨List.length_replicate, List.length_replicate, fun i j hj => ?_, fun j hj => ?_⟩
  · rw [hsuccs] at hj
    exact absurd hj List.not_mem_nil
  · have hzero : (ofElems es).degreeFrom (Finset.range (ofElems es).elems.length) j = 0 :=
      Finset.sum_eq_zero fun i _ => by rw [hsuccs, List.count_nil, Nat.cast_zero]
    have hlt : j < es.length := hj
    rw [hzero, ofElems, List.getElem?_replicate, if_pos hlt]

/-- A new node has no edges. -/
lemma CountsEdges.addNode [DecidableEq T] {g : AdjList T} (h : CountsEdges g) (a : T) :
    CountsEdges (g.addNode a) := by
  have hsuccs : ∀ i, (g.addNode a).succs i = g.succs i := by
    intro i
    rw [succs, succs, AdjList.addNode, List.getD_eq_getElem?_getD, List.getD_eq_getElem?_getD,
      List.getElem?_append]
    split
    · rfl
    · next hge =>
      rw [List.getElem?_eq_none (not_lt.mp hge)]
      cases i - g.nodeSucc.length <;> rfl
  have hlen : (g.addNode a).elems.length = g.elems.length + 1 := List.length_append
  have hnew : g.succs g.elems.length = [] := by
    rw [succs, List.getD_eq_getElem?_getD, List.getElem?_eq_none h.succ_length.le]
    rfl
  refine ⟨?_, ?_, fun i j hj => ?_, fun j hj => ?_⟩
  · rw [AdjList.addNode, List.length_append, List.length_append, h.succ_length]
    rfl
  · rw [AdjList.addNode, List.length_append, List.length_append, h.degree_length]
    rfl
  · rw [hsuccs] at hj
    have := h.succ_lt i j hj
    omega
  · have hdegree : (g.addNode a).degreeFrom (Finset.range (g.addNode a).elems.length) j =
        g.degreeFrom (Finset.range g.elems.length) j := by
      rw [degreeFrom, hlen, Finset.sum_range_succ, hsuccs, hnew, List.count_nil, Nat.cast_zero,
        add_zero]
      exact Finset.sum_congr rfl fun i _ => by rw [hsuccs]
    rw [hdegree, AdjList.addNode, List.getElem?_append]
    split
    next hlt => exact h.degree j (h.degree_length ▸ hlt)
    next hge =>
      rw [h.degree_length] at hge ⊢
      obtain rfl : j = g.elems.length := by omega
      rw [Nat.sub_self, List.getElem?_cons_zero, (g.degreeFrom_eq_zero_iff _ _).mpr]
      intro i _ hij
      exact lt_irrefl _ (h.succ_lt i _ ((g.succ_iff _ _).mp hij))

/-- An edge that is stored is counted. -/
lemma CountsEdges.insertEdge {g g' : AdjList T} (h : CountsEdges g) {a b : ℕ} {js : List ℕ}
    {degree : ℤ} (hjs : g.nodeSucc[a]? = some js) (hdegree : g.inDegree[b]? = some degree)
    (helems : g'.elems = g.elems) (hsucc : g'.nodeSucc = g.nodeSucc.set a (js ++ [b]))
    (hdeg : g'.inDegree = g.inDegree.set b (degree + 1)) : CountsEdges g' := by
  obtain ⟨ha, -⟩ := List.getElem?_eq_some_iff.mp hjs
  have hb : b < g.inDegree.length := (List.getElem?_eq_some_iff.mp hdegree).1
  have hsuccs : ∀ i, g'.succs i = if i = a then g.succs i ++ [b] else g.succs i := by
    intro i
    rw [succs, succs, hsucc, List.getD_eq_getElem?_getD, List.getD_eq_getElem?_getD]
    by_cases hi : i = a
    · rw [if_pos hi, hi, List.getElem?_set_self ha, hjs]
      rfl
    · rw [if_neg hi, List.getElem?_set_ne (Ne.symm hi)]
  have hcount : ∀ j, g'.degreeFrom (Finset.range g.elems.length) j =
      g.degreeFrom (Finset.range g.elems.length) j + if b = j then 1 else 0 := by
    intro j
    have hone : ∀ i, ((g'.succs i).count j : ℤ) =
        (g.succs i).count j + if i = a then (if b = j then 1 else 0) else 0 := by
      intro i
      rw [hsuccs]
      split
      · rw [List.count_append, List.count_singleton', Nat.cast_add]
        split <;> rfl
      · rw [add_zero]
    have ha' : a ∈ Finset.range g.elems.length := Finset.mem_range.mpr (h.succ_length ▸ ha)
    rw [degreeFrom, Finset.sum_congr rfl fun i _ => hone i, Finset.sum_add_distrib,
      Finset.sum_ite_eq', if_pos ha', degreeFrom]
  refine ⟨?_, ?_, fun i j hj => ?_, fun j hj => ?_⟩
  · rw [hsucc, List.length_set, h.succ_length, helems]
  · rw [hdeg, List.length_set, h.degree_length, helems]
  · rw [helems]
    rw [hsuccs] at hj
    split at hj
    · obtain hj | hj := List.mem_append.mp hj
      · exact h.succ_lt i j hj
      · rw [List.mem_singleton.mp hj, ← h.degree_length]
        exact hb
    · exact h.succ_lt i j hj
  · rw [helems] at hj
    rw [helems, hcount, hdeg]
    by_cases hbj : b = j
    · subst hbj
      have hold := h.degree b hj
      rw [hdegree] at hold
      rw [List.getElem?_set_self hb, if_pos rfl, Option.some.inj hold]
    · rw [List.getElem?_set_ne hbj, if_neg hbj, add_zero, h.degree j hj]

/-- A new edge is counted. -/
lemma CountsEdges.addEdgeIds {g g' : AdjList T} (h : CountsEdges g) {a b : ℕ}
    (hadd : g.addEdgeIds a b = some g') : CountsEdges g' := by
  rw [AdjList.addEdgeIds] at hadd
  obtain ⟨r, -, hadd⟩ := Option.bind_eq_some_iff.mp hadd
  split at hadd
  · exact Option.some.inj hadd ▸ h
  · obtain ⟨js, hjs, hadd⟩ := Option.bind_eq_some_iff.mp hadd
    obtain ⟨row, -, hadd⟩ := Option.bind_eq_some_iff.mp hadd
    obtain ⟨row', -, hadd⟩ := Option.bind_eq_some_iff.mp hadd
    obtain ⟨degree, hdegree, rfl⟩ := Option.map_eq_some_iff.mp hadd
    exact h.insertEdge hjs hdegree rfl rfl rfl

/-- **In every run** the in-degrees count the edges. -/
lemma countsEdges_exec [DecidableEq T] {es : List T} {ops : List (Op T)} {g : AdjList T}
    (hrun : PartialRun.exec apply (ofElems es) ops = some g) : CountsEdges g := by
  refine PartialRun.exec_invariant (P := fun _ _ => True) (fun (g : AdjList T) op g' hg _ hop => ?_)
    (countsEdges_ofElems es) (PartialRun.meets_of_forall fun _ _ => trivial) hrun
  cases op with
  | addNode a => exact Option.some.inj hop ▸ hg.addNode a
  | addEdge a b =>
    obtain ⟨i, -, hop⟩ := Option.bind_eq_some_iff.mp hop
    obtain ⟨j, -, hop⟩ := Option.bind_eq_some_iff.mp hop
    exact hg.addEdgeIds hop
  | addEdgeIds a b => exact hg.addEdgeIds hop
  | transClosure =>
    rw [apply, AdjList.transClosure] at hop
    split at hop
    · exact Option.some.inj hop ▸ hg
    · obtain ⟨R, -, rfl⟩ := Option.map_eq_some_iff.mp hop
      exact ⟨hg.succ_length, hg.degree_length, hg.succ_lt, hg.degree⟩

/-! ## Working data -/

section Working

variable (g : AdjList T)

/-- The elements at positions. -/
def names (ps : List ℕ) : List T := ps.filterMap fun i => g.elems[i]?

/-- The in-degrees without the edges of the nodes in `ps`. -/
def degrees (ps : List ℕ) : List ℤ :=
  (List.range g.elems.length).map (g.degreeFrom (Finset.range g.elems.length \ ps.toFinset))

/-- The flags of the nodes in `ps`. -/
def flags (ps : List ℕ) : List Bool := (List.range g.elems.length).map fun i => decide (i ∈ ps)

/-- The working data when the sorting so far is `ps`. -/
def working (ps : List ℕ) (calls : List (List T)) : TopoState T :=
  ⟨g.names ps, g.degrees ps, false, calls⟩

variable {g} {ps : List ℕ} {i : ℕ}

lemma getElem?_flags (hi : i < g.elems.length) : (g.flags ps)[i]? = some (decide (i ∈ ps)) := by
  rw [flags, List.getElem?_map, List.getElem?_range hi, Option.map_some]

lemma getElem?_degrees (hi : i < g.elems.length) : (g.degrees ps)[i]? =
    some (g.degreeFrom (Finset.range g.elems.length \ ps.toFinset) i) := by
  rw [degrees, List.getElem?_map, List.getElem?_range hi, Option.map_some]

/-- An entry of a vector that is given by a function is changed. -/
lemma set_map_range {β : Type*} (f : ℕ → β) (n i : ℕ) (x : β) :
    ((List.range n).map f).set i x = (List.range n).map (Function.update f i x) := by
  refine List.ext_getElem (by simp) fun j hj hj' => ?_
  by_cases hij : i = j
  · simp [hij]
  · simp [hij, Function.update_of_ne (Ne.symm hij)]

/-- A node is marked as visited. -/
lemma flags_concat (ps : List ℕ) (i : ℕ) : (g.flags ps).set i true = g.flags (ps ++ [i]) := by
  rw [flags, set_map_range, flags]
  congr 1
  funext j
  by_cases hij : j = i <;> simp [hij]

/-- The mark is taken back. -/
lemma flags_of_concat (hi : i ∉ ps) : (g.flags (ps ++ [i])).set i false = g.flags ps := by
  rw [flags, set_map_range, flags]
  congr 1
  funext j
  by_cases hij : j = i <;> simp [hij, hi]

/-- The loop over the successors adds to their entries. -/
lemma addToDegrees_map (delta : ℤ) {js : List ℕ} {n : ℕ} (hjs : ∀ j ∈ js, j < n) (f : ℕ → ℤ) :
    addToDegrees delta js ((List.range n).map f) =
      some ((List.range n).map fun k => f k + delta * js.count k) := by
  induction js generalizing f with
  | nil => simp [addToDegrees]
  | cons j js ih =>
    have hj : ((List.range n).map f)[j]? = some (f j) := by
      rw [List.getElem?_map, List.getElem?_range (hjs j List.mem_cons_self), Option.map_some]
    have hrest := ih (fun k hk => hjs k (List.mem_cons_of_mem _ hk))
      (Function.update f j (f j + delta))
    rw [addToDegrees, List.foldlM_cons, hj, Option.map_some, set_map_range]
    refine hrest.trans (congrArg some (List.map_congr_left fun k _ => ?_))
    by_cases hjk : k = j
    · subst hjk
      rw [Function.update_self, List.count_cons_self]
      push_cast
      ring
    · rw [Function.update_of_ne hjk, List.count_cons_of_ne (Ne.symm hjk)]

/-- The edges of a node that is not visited yet. -/
lemma degreeFrom_concat (hi : i < g.elems.length) (hps : i ∉ ps) (k : ℕ) :
    g.degreeFrom (Finset.range g.elems.length \ ps.toFinset) k =
      g.degreeFrom (Finset.range g.elems.length \ (ps ++ [i]).toFinset) k +
        (g.succs i).count k := by
  have hmem : i ∈ Finset.range g.elems.length \ ps.toFinset :=
    Finset.mem_sdiff.mpr ⟨Finset.mem_range.mpr hi, fun h => hps (List.mem_toFinset.mp h)⟩
  have herase : Finset.range g.elems.length \ (ps ++ [i]).toFinset =
      (Finset.range g.elems.length \ ps.toFinset).erase i := by
    ext j
    simp only [Finset.mem_sdiff, Finset.mem_erase, List.mem_toFinset, List.mem_append,
      List.mem_singleton]
    tauto
  rw [herase, degreeFrom, degreeFrom, Finset.sum_erase_add _ _ hmem]

/-- The in-degrees are lowered for a node that comes next. -/
lemma lower_degrees (h : g.CountsEdges) (hi : i < g.elems.length) (hps : i ∉ ps) :
    addToDegrees (-1) (g.succs i) (g.degrees ps) = some (g.degrees (ps ++ [i])) := by
  rw [degrees, addToDegrees_map (-1) (h.succ_lt i), degrees]
  refine congrArg some (List.map_congr_left fun k _ => ?_)
  rw [degreeFrom_concat hi hps]
  ring

/-- The in-degrees are raised again. -/
lemma raise_degrees (h : g.CountsEdges) (hi : i < g.elems.length) (hps : i ∉ ps) :
    addToDegrees 1 (g.succs i) (g.degrees (ps ++ [i])) = some (g.degrees ps) := by
  rw [degrees, addToDegrees_map 1 (h.succ_lt i), degrees]
  refine congrArg some (List.map_congr_left fun k _ => ?_)
  rw [degreeFrom_concat hi hps]
  ring

lemma names_concat {e : T} (he : g.elems[i]? = some e) :
    g.names (ps ++ [i]) = g.names ps ++ [e] := by
  rw [names, List.filterMap_append, names]
  simp [he]

/-- The test of the loop: the node is available. -/
lemma available_iff (h : g.CountsEdges) (ps : List ℕ) (i : ℕ) :
    g.degreeFrom (Finset.range g.elems.length \ ps.toFinset) i = 0 ∧ decide (i ∈ ps) = false ↔
      Available g.Succ ps i := by
  rw [degreeFrom_eq_zero_iff, decide_eq_false_iff_not]
  constructor
  · rintro ⟨hzero, hmem⟩
    refine ⟨hmem, fun j hj => ?_⟩
    by_contra hjps
    exact hzero j (Finset.mem_sdiff.mpr ⟨Finset.mem_range.mpr (h.lt_of_succ hj), fun hm =>
      hjps (List.mem_toFinset.mp hm)⟩) hj
  · rintro ⟨hmem, hpred⟩
    refine ⟨fun j hj hji => ?_, hmem⟩
    exact (Finset.mem_sdiff.mp hj).2 (List.mem_toFinset.mpr (hpred j hji))

end Working

/-! ## The search -/

section Search

variable {g : AdjList T} {prop : List T → Bool}

/-- A topological sorting: a linear extension of the stored edges. -/
def Sorting (g : AdjList T) (q : List ℕ) : Prop :=
  LinearExtension g.Succ (List.range g.elems.length) q

/-- What a part of the search has done, from the calls made before it: it has called the predicate
on some of the sortings that it is about, on none twice, and it has found one of them if there
is one. -/
structure Tried (g : AdjList T) (prop : List T → Bool) (calls : List (List T))
    (about : List ℕ → Prop) (st : TopoState T) : Prop where
  exists_calls : ∃ qs : List (List ℕ), st.calls = calls ++ qs.map g.names ∧ qs.Nodup ∧
    ∀ q ∈ qs, g.Sorting q ∧ about q
  found_iff : st.found = true ↔ ∃ q, g.Sorting q ∧ about q ∧ prop (g.names q) = true

namespace Tried

variable {calls : List (List T)} {about about' : List ℕ → Prop} {st st' : TopoState T}

/-- The same sortings. -/
lemma congr (h : Tried g prop calls about st) (hiff : ∀ q, g.Sorting q → (about q ↔ about' q)) :
    Tried g prop calls about' st := by
  obtain ⟨qs, hcalls, hnodup, hqs⟩ := h.exists_calls
  refine ⟨⟨qs, hcalls, hnodup, fun q hq => ⟨(hqs q hq).1, (hiff q (hqs q hq).1).mp (hqs q hq).2⟩⟩,
    h.found_iff.trans (exists_congr fun q => ?_)⟩
  exact and_congr_right fun hq => and_congr_left' (hiff q hq)

/-- There are no sortings to try. -/
lemma nothing (ps : List ℕ) (hno : ∀ q, g.Sorting q → ¬about q) :
    Tried g prop calls about (g.working ps calls) := by
  refine ⟨⟨[], (List.append_nil _).symm, List.nodup_nil, fun q hq => absurd hq List.not_mem_nil⟩,
    iff_of_false Bool.false_ne_true ?_⟩
  rintro ⟨q, hq, habout, -⟩
  exact hno q hq habout

/-- A sorting that is found is one of more sortings. -/
lemma of_found (h : Tried g prop calls about st) (hfound : st.found = true)
    (himp : ∀ q, about q → about' q) : Tried g prop calls about' st := by
  obtain ⟨qs, hcalls, hnodup, hqs⟩ := h.exists_calls
  obtain ⟨q, hq, habout, hprop⟩ := h.found_iff.mp hfound
  exact ⟨⟨qs, hcalls, hnodup, fun q hq => (hqs q hq).imp_right (himp q)⟩,
    iff_of_true hfound ⟨q, hq, himp q habout, hprop⟩⟩

/-- Other sortings are tried after none has been found. -/
lemma append (h : Tried g prop calls about st) (hfound : st.found = false)
    (h' : Tried g prop st.calls about' st') (hdisjoint : ∀ q, about q → ¬about' q) :
    Tried g prop calls (fun q => about q ∨ about' q) st' := by
  obtain ⟨qs, hcalls, hnodup, hqs⟩ := h.exists_calls
  obtain ⟨qs', hcalls', hnodup', hqs'⟩ := h'.exists_calls
  refine ⟨⟨qs ++ qs', ?_, ?_, fun q hq => ?_⟩, h'.found_iff.trans ⟨?_, ?_⟩⟩
  · rw [hcalls', hcalls, List.map_append, List.append_assoc]
  · refine List.nodup_append.mpr ⟨hnodup, hnodup', fun q hq q' hq' heq => ?_⟩
    exact hdisjoint q (hqs q hq).2 (heq ▸ (hqs' q' hq').2)
  · obtain hq | hq := List.mem_append.mp hq
    · exact (hqs q hq).imp_right .inl
    · exact (hqs' q hq).imp_right .inr
  · rintro ⟨q, hq, habout, hprop⟩
    exact ⟨q, hq, .inr habout, hprop⟩
  · rintro ⟨q, hq, habout | habout, hprop⟩
    · rw [h.found_iff.mpr ⟨q, hq, habout, hprop⟩] at hfound
      cases hfound
    · exact ⟨q, hq, habout, hprop⟩

end Tried

/-- A search from a beginning tries the sortings that begin so.  If it finds none, the working data
are as before. -/
def Explores (g : AdjList T) (prop : List T → Bool)
    (recurse : List Bool → TopoState T → Option (TopoState T)) (ps : List ℕ) : Prop :=
  ∀ calls, ∃ st, recurse (g.flags ps) (g.working ps calls) = some st ∧
    Tried g prop calls (fun q => ps <+: q) st ∧
    (st.found = false → st = g.working ps st.calls)

lemma getElem?_nodeSucc {i : ℕ} (hi : i < g.nodeSucc.length) :
    g.nodeSucc[i]? = some (g.succs i) := by
  rw [succs, List.getD_eq_getElem?_getD, List.getElem?_eq_getElem hi]
  rfl

/-- Two different nodes do not come next in the same sorting. -/
lemma eq_of_front {ps q : List ℕ} {i j : ℕ} (hi : ps ++ [i] <+: q) (hj : ps ++ [j] <+: q) :
    i = j := by
  obtain ⟨rest, rfl⟩ := hi
  obtain ⟨rest', heq⟩ := hj
  rw [List.append_assoc, List.append_assoc] at heq
  exact (List.cons.inj (List.append_cancel_left heq)).1.symm

/-- **The loop** tries the sortings in which one of the nodes left comes next. -/
lemma tryNodes_spec (h : g.CountsEdges) (hacyclic : Acyclic g.Succ)
    {recurse : List Bool → TopoState T → Option (TopoState T)} {ps : List ℕ}
    (hrec : ∀ i < g.elems.length, Available g.Succ ps i → Explores g prop recurse (ps ++ [i]))
    {is : List ℕ} (hnodup : is.Nodup) (hlt : ∀ i ∈ is, i < g.elems.length) (scheduled : Bool)
    (calls : List (List T)) :
    ∃ b st, g.tryNodes recurse is (g.flags ps) scheduled (g.working ps calls) = some (b, st) ∧
      Tried g prop calls (fun q => ∃ i ∈ is, ps ++ [i] <+: q) st ∧
      (st.found = false → st = g.working ps st.calls ∧
        (b = true ↔ scheduled = true ∨ ∃ i ∈ is, Available g.Succ ps i)) := by
  induction is generalizing scheduled calls with
  | nil =>
    refine ⟨scheduled, g.working ps calls, rfl, .nothing ps ?_, fun _ => ⟨rfl, by simp⟩⟩
    rintro q - ⟨i, hi, -⟩
    exact List.not_mem_nil hi
  | cons i is ih =>
    obtain ⟨hi, hlt'⟩ := List.forall_mem_cons.mp hlt
    obtain ⟨hnotMem, hnodup'⟩ := List.nodup_cons.mp hnodup
    have hdegree : (g.working ps calls).inDegree[i]? = _ := getElem?_degrees hi
    rw [tryNodes, hdegree, Option.bind_some, getElem?_flags hi, Option.bind_some]
    split
    next hav =>
      replace hav := (available_iff h ps i).mp hav
      obtain ⟨st₁, hst₁, htried₁, hback₁⟩ := hrec i hi hav calls
      have hsuccs : g.nodeSucc[i]? = some (g.succs i) := getElem?_nodeSucc (h.succ_length ▸ hi)
      have hlower : addToDegrees (-1) (g.succs i) (g.working ps calls).inDegree = _ :=
        lower_degrees h hi hav.notMem
      have hwork : (⟨(g.working ps calls).current ++ [g.elems[i]], g.degrees (ps ++ [i]),
          (g.working ps calls).found, (g.working ps calls).calls⟩ : TopoState T) =
            g.working (ps ++ [i]) calls := by
        rw [working, working, names_concat (List.getElem?_eq_getElem hi)]
      rw [hsuccs, Option.bind_some, hlower, Option.bind_some, List.getElem?_eq_getElem hi,
        Option.bind_some, flags_concat, hwork, hst₁, Option.bind_some]
      split
      next hfound =>
        refine ⟨scheduled, st₁, rfl, ?_, fun hno => ?_⟩
        · exact htried₁.of_found hfound fun q hq => ⟨i, List.mem_cons_self, hq⟩
        · rw [hfound] at hno
          cases hno
      next hfound =>
        -- everything is taken back
        replace hfound := Bool.eq_false_of_not_eq_true hfound
        have hst₁' := hback₁ hfound
        have hraise : addToDegrees 1 (g.succs i) st₁.inDegree = some (g.degrees ps) := by
          rw [hst₁']
          exact raise_degrees h hi hav.notMem
        have hcurrent : st₁.current.dropLast = g.names ps := by
          rw [hst₁', working, names_concat (List.getElem?_eq_getElem hi), List.dropLast_concat]
        have hwork₁ : (⟨st₁.current.dropLast, g.degrees ps, st₁.found, st₁.calls⟩ : TopoState T) =
            g.working ps st₁.calls := by
          rw [hcurrent, hfound]
          rfl
        rw [hraise, Option.bind_some, flags_of_concat hav.notMem, hwork₁]
        obtain ⟨b, st, hst, htried, hback⟩ := ih hnodup' hlt' true st₁.calls
        refine ⟨b, st, hst, ?_, fun hno => ?_⟩
        · refine (htried₁.append hfound htried ?_).congr fun q _ => ?_
          · rintro q hq ⟨j, hj, hqj⟩
            exact hnotMem (eq_of_front hq hqj ▸ hj)
          · rw [List.exists_mem_cons_iff]
        · obtain ⟨hwork₂, hb⟩ := hback hno
          refine ⟨hwork₂, iff_of_true (hb.mpr (.inl rfl)) (.inr ⟨i, List.mem_cons_self, hav⟩)⟩
    next hav =>
      replace hav := mt (available_iff h ps i).mpr hav
      obtain ⟨b, st, hst, htried, hback⟩ := ih hnodup' hlt' scheduled calls
      refine ⟨b, st, hst, htried.congr fun q hq => ?_, fun hfound => ?_⟩
      · -- no sorting goes on with a node that is not available
        rw [List.exists_mem_cons_iff]
        refine (or_iff_right fun hfront => hav ?_).symm
        exact LinearExtension.available hq List.nodup_range hacyclic h.mem_range_of_succ hfront
      · obtain ⟨hwork, hb⟩ := hback hfound
        refine ⟨hwork, hb.trans (or_congr_right ?_)⟩
        rw [List.exists_mem_cons_iff]
        exact (or_iff_right hav).symm

variable (prop) in
/-- **The recursion** explores all sortings that begin like the one so far, if it may go as deep as
there are nodes left. -/
theorem allTopoSortUtil_spec (h : g.CountsEdges) (hacyclic : Acyclic g.Succ) {fuel : ℕ}
    {ps : List ℕ} (hps : Initial g.Succ (List.range g.elems.length) ps)
    (hfuel : g.elems.length < fuel + ps.length) :
    Explores g prop (g.allTopoSortUtil prop fuel) ps := by
  induction fuel generalizing ps with
  | zero =>
    have hle := (hps.nodup.subperm hps.subset).length_le
    rw [List.length_range] at hle
    omega
  | succ fuel ih =>
    intro calls
    have hrec : ∀ i < g.elems.length, Available g.Succ ps i →
        Explores g prop (g.allTopoSortUtil prop fuel) (ps ++ [i]) := fun i hi hav =>
      ih (hps.concat hav (List.mem_range.mpr hi)) (by rw [List.length_append]; simp; omega)
    obtain ⟨b, st, hst, htried, hback⟩ := tryNodes_spec h hacyclic hrec List.nodup_range
      (fun i hi => List.mem_range.mp hi) false calls
    have hutil : g.allTopoSortUtil prop (fuel + 1) (g.flags ps) (g.working ps calls) =
        if st.found || b then some st
        else some { st with found := prop st.current, calls := st.calls ++ [st.current] } := by
      rw [allTopoSortUtil, if_neg (by exact Bool.false_ne_true), hst, Option.bind_some]
    rw [hutil]
    have hlonger : ∀ q, (∃ i ∈ List.range g.elems.length, ps ++ [i] <+: q) → ps <+: q := by
      rintro q ⟨i, -, hq⟩
      exact (List.prefix_append ps [i]).trans hq
    cases hfound : st.found with
    | true =>
      refine ⟨st, by simp, htried.of_found hfound hlonger, fun hno => ?_⟩
      rw [hfound] at hno
      cases hno
    | false =>
      obtain ⟨hwork, hb⟩ := hback hfound
      cases b with
      | true =>
        -- some node was available, so the sorting so far is not complete
        obtain ⟨i, hi, hav⟩ := (hb.mp rfl).resolve_left Bool.false_ne_true
        refine ⟨st, by simp, htried.congr fun q hq => ⟨hlonger q, ?_⟩, fun _ => hwork⟩
        rintro ⟨rest, rfl⟩
        have hmem : i ∈ ps ++ rest := hq.perm.mem_iff.mpr hi
        cases rest with
        | nil => exact absurd (List.append_nil ps ▸ hmem) hav.notMem
        | cons j rest =>
          refine ⟨j, hq.perm.mem_iff.mp (by simp), rest, ?_⟩
          rw [List.append_assoc, List.singleton_append]
      | false =>
        have hno : ∀ i ∈ List.range g.elems.length, ¬Available g.Succ ps i := fun i hi hav =>
          Bool.false_ne_true (hb.mpr (.inr ⟨i, hi, hav⟩))
        have hsorting : g.Sorting ps :=
          hps.linearExtension hacyclic List.nodup_range h.mem_range_of_succ hno
        have hcall : Tried g prop st.calls (fun q => q = ps)
            { st with found := prop st.current, calls := st.calls ++ [st.current] } := by
          rw [hwork]
          refine ⟨⟨[ps], rfl, List.nodup_singleton _, fun q hq => ?_⟩, ?_⟩
          · obtain rfl := List.mem_singleton.mp hq
            exact ⟨hsorting, rfl⟩
          · exact ⟨fun hprop => ⟨ps, hsorting, rfl, hprop⟩, fun ⟨q, _, hq, hprop⟩ => hq ▸ hprop⟩
        refine ⟨_, rfl, (htried.append hfound hcall ?_).congr fun q hq => ?_, fun hno' => ?_⟩
        · rintro q ⟨i, -, hq⟩ rfl
          have hlen := hq.length_le
          rw [List.length_append, List.length_singleton] at hlen
          omega
        · refine ⟨?_, fun hfront => .inr (hsorting.eq_of_front hq hfront)⟩
          rintro (hq' | rfl)
          · exact hlonger q hq'
          · exact List.prefix_refl _
        · dsimp only at hno' ⊢
          rw [hno', hwork]
          rfl

variable (prop) in
/-- **The whole search**, for a graph whose in-degrees count its edges. -/
lemma allTopoSort_tried (h : g.CountsEdges) (hacyclic : Acyclic g.Succ) :
    ∃ st, g.allTopoSort prop = some st ∧ Tried g prop [] (fun _ => True) st ∧
      (st.found = false → st.current = [] ∧ st.inDegree = g.inDegree) := by
  have hdegrees : g.degrees [] = g.inDegree := by
    refine List.ext_getElem? fun j => ?_
    by_cases hj : j < g.elems.length
    · rw [getElem?_degrees hj, h.degree j hj, List.toFinset_nil, Finset.sdiff_empty]
    · rw [List.getElem?_eq_none, List.getElem?_eq_none]
      · exact h.degree_length ▸ not_lt.mp hj
      · rw [degrees, List.length_map, List.length_range]
        exact not_lt.mp hj
  have hflags : g.flags [] = List.replicate g.elems.length false := by
    rw [flags]
    simp
  obtain ⟨st, hst, htried, hback⟩ :=
    allTopoSortUtil_spec prop h hacyclic initial_nil (Nat.lt_succ_self _) []
  rw [hflags, working, hdegrees] at hst
  refine ⟨st, hst, htried.congr fun q _ => iff_of_true (List.nil_prefix) trivial, fun hfound => ?_⟩
  rw [hback hfound, working, hdegrees]
  exact ⟨rfl, rfl⟩

end Search

/-! ## The graph of the calls -/

variable [DecidableEq T] {G : DirectedGraph T} {g : AdjList T}

omit [DecidableEq T] in
/-- A topological sorting of a graph, as positions of its nodes. -/
def IsLinearExtension (G : DirectedGraph T) (q : List ℕ) : Prop :=
  LinearExtension G.Edge (List.range G.nodes.length) q

omit [DecidableEq T] in
/-- The nodes at positions. -/
def nodesAt (G : DirectedGraph T) (q : List ℕ) : List T := q.filterMap fun i => G.nodes[i]?

/-- Edges that are not stored, because they were implied, do not change the sortings. -/
lemma sorting_iff {k : ℕ} (hrep : Represents k G g) (h : g.CountsEdges) (hacyclic : ¬G.Cyclic)
    (q : List ℕ) : g.Sorting q ↔ IsLinearExtension G q := by
  have hreach := hrep.transGen_iff
  have hacyclic' : Acyclic g.Succ := fun i hi => hacyclic ⟨i, (hreach i i).mp hi⟩
  rw [Sorting, IsLinearExtension, hrep.elems_eq]
  constructor
  · intro hq
    refine hq.of_transGen List.nodup_range hacyclic' (fun i j hij => ?_) fun i j hij =>
      (hreach i j).mpr (.single hij)
    have hj := h.succ_lt i j ((g.succ_iff i j).mp hij)
    have hi := h.lt_of_succ hij
    rw [hrep.elems_eq] at hi hj
    exact ⟨List.mem_range.mpr hi, List.mem_range.mpr hj⟩
  · exact fun hq => ⟨hq.perm, hq.ordered.imp fun hno hij => hno (hrep.succ_edge _ _ hij)⟩

/-- Different sortings have different lists of nodes if the nodes are distinct. -/
lemma nodesAt_injOn (hnodes : G.nodes.Nodup) {q q' : List ℕ} (hq : IsLinearExtension G q)
    (hq' : IsLinearExtension G q') (heq : nodesAt G q = nodesAt G q') : q = q' := by
  have hmap : ∀ p, IsLinearExtension G p → p = (nodesAt G p).map G.nodes.idxOf := by
    intro p hp
    have hlt : ∀ i ∈ p, i < G.nodes.length := fun i hi =>
      List.mem_range.mp (hp.perm.mem_iff.mp hi)
    clear hp
    induction p with
    | nil => rfl
    | cons i p ih =>
      obtain ⟨hi, hlt'⟩ := List.forall_mem_cons.mp hlt
      rw [nodesAt, List.filterMap_cons, List.getElem?_eq_getElem hi]
      simp only [List.map_cons, hnodes.idxOf_getElem, List.cons.injEq, true_and]
      exact ih hlt'
  rw [hmap q hq, hmap q' hq', heq]

/-- What is asked of `allTopoSort`: it calls the predicate on linear extensions only, and on none
twice; it finds one that satisfies the predicate if there is one; and if there is none, the working
data are as in the beginning. -/
structure EnumeratesExtensions (G : DirectedGraph T) (g : AdjList T) (prop : List T → Bool)
    (st : TopoState T) : Prop where
  calls_eq : ∃ qs : List (List ℕ), st.calls = qs.map (nodesAt G) ∧ qs.Nodup ∧
    ∀ q ∈ qs, IsLinearExtension G q
  calls_nodup : G.nodes.Nodup → st.calls.Nodup
  found_iff : st.found = true ↔ ∃ q, IsLinearExtension G q ∧ prop (nodesAt G q) = true
  restored : st.found = false → st.current = [] ∧ st.inDegree = g.inDegree

/-- **Topological enumeration** of every acyclic graph that is built by calls. -/
theorem enumeratesExtensions_allTopoSort {es : List T} {ops : List (Op T)}
    (hbuild : DirectedGraph.build es ops = some G)
    (hrun : PartialRun.exec apply (ofElems es) ops = some g) (hacyclic : ¬G.Cyclic)
    (prop : List T → Bool) :
    ∃ st, g.allTopoSort prop = some st ∧ EnumeratesExtensions G g prop st := by
  have hrep : Represents es.length G g := (exec_record (Represents.ofElems es) hbuild).1 g hrun
  have h := countsEdges_exec hrun
  have hacyclic' : Acyclic g.Succ := fun i hi => hacyclic ⟨i, (hrep.transGen_iff i i).mp hi⟩
  obtain ⟨st, hst, htried, hback⟩ := allTopoSort_tried prop h hacyclic'
  have hnames : g.names = nodesAt G := by
    funext q
    rw [names, nodesAt, hrep.elems_eq]
  obtain ⟨qs, hcalls, hnodup, hqs⟩ := htried.exists_calls
  rw [List.nil_append, hnames] at hcalls
  have hqs' : ∀ q ∈ qs, IsLinearExtension G q := fun q hq =>
    (sorting_iff hrep h hacyclic q).mp (hqs q hq).1
  refine ⟨st, hst, ⟨qs, hcalls, hnodup, hqs'⟩, fun hnodes => ?_, ?_, hback⟩
  · rw [hcalls]
    exact hnodup.map_on fun q hq q' hq' heq => nodesAt_injOn hnodes (hqs' q hq) (hqs' q' hq') heq
  · rw [htried.found_iff]
    refine exists_congr fun q => ?_
    rw [sorting_iff hrep h hacyclic, true_and, hnames]

/-- Two nodes with an edge, and a predicate that does not hold. -/
theorem enumeratesExtensions_twoNodes :
    ∃ g st, PartialRun.exec apply (ofElems ["a", "b"]) [.addEdge "a" "b"] = some g ∧
      g.allTopoSort (fun _ => false) = some st ∧
      EnumeratesExtensions ⟨["a", "b"], [(0, 1)]⟩ g (fun _ => false) st := by
  have hedge : ∀ i j, DirectedGraph.Edge (⟨["a", "b"], [(0, 1)]⟩ : DirectedGraph String) i j →
      i < j := by
    intro i j hij
    obtain ⟨rfl, rfl⟩ := Prod.mk.inj (List.mem_singleton.mp hij)
    exact Nat.zero_lt_one
  have hacyclic : ¬DirectedGraph.Cyclic (⟨["a", "b"], [(0, 1)]⟩ : DirectedGraph String) := by
    rintro ⟨i, hi⟩
    have hlt : ∀ j, Relation.TransGen (DirectedGraph.Edge ⟨["a", "b"], [(0, 1)]⟩) i j → i < j := by
      intro j hij
      induction hij with
      | single h => exact hedge _ _ h
      | tail _ h ih => exact ih.trans (hedge _ _ h)
    exact lt_irrefl i (hlt i hi)
  have hbuild : DirectedGraph.build ["a", "b"] [.addEdge "a" "b"] =
      some ⟨["a", "b"], [(0, 1)]⟩ := by decide
  obtain ⟨g, hrun⟩ : ∃ g, PartialRun.exec apply (ofElems ["a", "b"]) [.addEdge "a" "b"] = some g :=
    Option.isSome_iff_exists.mp (by decide)
  obtain ⟨st, hst, hall⟩ := enumeratesExtensions_allTopoSort hbuild hrun hacyclic fun _ => false
  exact ⟨g, st, hrun, hst, hall⟩

/-- After a sorting is found the in-degrees are not raised again: two nodes with an edge, and a
predicate that holds. -/
theorem allTopoSort_not_restored :
    ∃ g st, PartialRun.exec apply (ofElems ["a", "b"]) [.addEdge "a" "b"] = some g ∧
      g.allTopoSort (fun _ => true) = some st ∧ st.found = true ∧ st.calls = [["a", "b"]] ∧
      g.inDegree = [0, 1] ∧ st.inDegree = [0, 0] :=
  ⟨_, _, rfl, rfl, rfl, rfl, rfl, rfl⟩

end AdjList

end GenMC
