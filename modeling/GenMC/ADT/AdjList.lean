import GenMC.Lib.PartialRun
import Mathlib.Logic.Function.Basic
import Mathlib.Logic.Relation
import Mathlib.Tactic

/-!
# Adjacency lists

An `AdjList` stores a directed graph in parallel vectors: the elements, the successor lists, the
in-degrees, and one row of bits for every node, in which the edges are recorded as they are added
and which `transClosure` completes in a depth-first search.

A node is known by its position.  Reading or writing a row beyond its size is an error of the
program, which is a missing result here.
-/

namespace GenMC

/-! ## Rows of bits -/

/-- The bits of a row; its size is fixed when it is built and grows only in `|=`. -/
abbrev BitVector := List Bool

namespace BitVector

/-- `BitVector::set`. -/
def setBit (r : BitVector) (j : ℕ) : Option BitVector :=
  if j < r.length then some (List.set r j true) else none

/-- `BitVector::operator|=`, which grows the row to the size of the other. -/
def orAssign (r s : BitVector) : BitVector :=
  (List.range (max r.length s.length)).map fun j => r.getD j false || s.getD j false

/-- The bit that is set. -/
lemma mem_setBit {r r' : BitVector} {j : ℕ} (h : setBit r j = some r') (k : ℕ) :
    r'[k]? = some true ↔ r[k]? = some true ∨ k = j := by
  obtain ⟨hlt, rfl⟩ := Option.ite_none_right_eq_some.mp h |>.imp_right Option.some.inj
  rw [List.getElem?_set]
  by_cases hk : j = k
  · simp [hk, hk ▸ hlt]
  · simp [hk, Ne.symm hk]

/-- Setting a bit keeps the size. -/
lemma length_setBit {r r' : BitVector} {j : ℕ} (h : setBit r j = some r') :
    r'.length = r.length := by
  obtain ⟨-, rfl⟩ := Option.ite_none_right_eq_some.mp h |>.imp_right Option.some.inj
  exact List.length_set

@[simp] lemma length_orAssign (r s : BitVector) :
    (orAssign r s).length = max r.length s.length := by
  simp [orAssign]

/-- A bit that is set, read with a default. -/
lemma getD_eq_true_iff (r : BitVector) (j : ℕ) : r.getD j false = true ↔ r[j]? = some true := by
  rw [List.getD_eq_getElem?_getD]
  cases r[j]? <;> simp

/-- The bits of either row. -/
lemma mem_orAssign (r s : BitVector) (k : ℕ) :
    (orAssign r s)[k]? = some true ↔ r[k]? = some true ∨ s[k]? = some true := by
  rw [orAssign, List.getElem?_map, ← getD_eq_true_iff r, ← getD_eq_true_iff s]
  by_cases hk : k < max r.length s.length
  · simp [List.getElem?_range hk]
  · have hr : r[k]? = none := List.getElem?_eq_none (by omega)
    have hs : s[k]? = none := List.getElem?_eq_none (by omega)
    have hrange : (List.range (max r.length s.length))[k]? = none :=
      List.getElem?_eq_none (by rw [List.length_range]; omega)
    simp [hrange, List.getD_eq_getElem?_getD, hr, hs]

end BitVector

/-! ## The graph -/

/-- `AdjList`. -/
structure AdjList (T : Type*) where
  /-- The nodes. -/
  elems : List T
  /-- The successors of every node. -/
  nodeSucc : List (List ℕ)
  /-- The in-degree of every node. -/
  inDegree : List ℤ
  /-- The position of every node. -/
  ids : T → Option ℕ
  /-- The rows are those of the transitive closure. -/
  calculatedTransC : Bool
  /-- One row for every node. -/
  transC : List BitVector

namespace AdjList

variable {T : Type*} [DecidableEq T]

/-- The map `ids` of the nodes in their order; of equal elements the last counts. -/
def indices (es : List T) : T → Option ℕ :=
  es.zipIdx.foldl (fun ids e => Function.update ids e.1 (some e.2)) fun _ => none

/-- The constructor from a vector of elements; without elements it is the default one. -/
def ofElems (es : List T) : AdjList T where
  elems := es
  nodeSucc := List.replicate es.length []
  inDegree := List.replicate es.length 0
  ids := indices es
  calculatedTransC := false
  transC := List.replicate es.length (List.replicate es.length false)

/-- `AdjList::addNode`.  The new row has as many bits as there were nodes before, and the other rows
stay as they are. -/
def addNode (g : AdjList T) (a : T) : AdjList T where
  elems := g.elems ++ [a]
  nodeSucc := g.nodeSucc ++ [[]]
  inDegree := g.inDegree ++ [0]
  ids := Function.update g.ids a (some g.elems.length)
  calculatedTransC := false
  transC := g.transC ++ [List.replicate g.elems.length false]

omit [DecidableEq T] in
/-- `AdjList::operator()` on positions. -/
def related (g : AdjList T) (a b : ℕ) : Option Bool := g.transC[a]?.bind fun row => row[b]?

omit [DecidableEq T] in
/-- `AdjList::addEdge` on positions. -/
def addEdgeIds (g : AdjList T) (a b : ℕ) : Option (AdjList T) :=
  (g.related a b).bind fun r =>
    if r then some g else
      g.nodeSucc[a]?.bind fun succs => g.transC[a]?.bind fun row =>
        (BitVector.setBit row b).bind fun row => g.inDegree[b]?.map fun degree =>
          { g with
            nodeSucc := g.nodeSucc.set a (succs ++ [b])
            transC := g.transC.set a row
            inDegree := g.inDegree.set b (degree + 1)
            calculatedTransC := false }

omit [DecidableEq T] in
/-- `AdjList::addEdge`. -/
def addEdge (g : AdjList T) (a b : T) : Option (AdjList T) :=
  (g.ids a).bind fun i => (g.ids b).bind fun j => g.addEdgeIds i j

omit [DecidableEq T] in
/-- The successors that are stored. -/
def Succ (g : AdjList T) (i j : ℕ) : Prop := ∃ succs, g.nodeSucc[i]? = some succs ∧ j ∈ succs

/-! ## Depth-first search -/

/-- `AdjList::NodeStatus`. -/
inductive NodeStatus where
  | unseen | entered | left
deriving DecidableEq, Repr

/-- What a search keeps for the nodes: the time, and the statuses, the parents, and the times of the
first and of the last visit. -/
structure DFSState where
  t : ℕ
  m : List NodeStatus
  p : List ℕ
  d : List ℕ
  f : List ℕ

/-- The callbacks of a search, which work on a state of their own. -/
structure Visitor (σ : Type*) where
  atEntryV : ℕ → DFSState → σ → Option σ := fun _ _ x => some x
  atTreeE : ℕ → ℕ → DFSState → σ → Option σ := fun _ _ _ x => some x
  atBackE : ℕ → ℕ → DFSState → σ → Option σ := fun _ _ _ x => some x
  atForwE : ℕ → ℕ → DFSState → σ → Option σ := fun _ _ _ x => some x
  atExitV : ℕ → DFSState → σ → Option σ := fun _ _ x => some x
  atEnd : DFSState → σ → Option σ := fun _ x => some x

namespace DFSState

/-- The state before a search of `n` nodes; the parents are set to -42. -/
def start (n : ℕ) : DFSState where
  t := 0
  m := List.replicate n .unseen
  p := List.replicate n (2 ^ 32 - 42)
  d := List.replicate n 0
  f := List.replicate n 0

/-- Enters a node. -/
def enter (s : DFSState) (i : ℕ) : DFSState :=
  { s with m := s.m.set i .entered, t := s.t + 1, d := s.d.set i (s.t + 1) }

/-- Leaves a node. -/
def leave (s : DFSState) (i : ℕ) : DFSState :=
  { s with m := s.m.set i .left, t := s.t + 1, f := s.f.set i (s.t + 1) }

end DFSState

section Search

variable {σ : Type*} (g : AdjList T) (v : Visitor σ)

omit [DecidableEq T] in
/-- The body of the loop of `AdjList::dfsUtil`. -/
def visitEdge (visit : ℕ → DFSState × σ → Option (DFSState × σ)) (i : ℕ) (s : DFSState × σ)
    (j : ℕ) : Option (DFSState × σ) :=
  s.1.m[j]?.bind fun
    | .unseen => (visit j ({ s.1 with p := s.1.p.set j i }, s.2)).bind fun s =>
        (v.atTreeE i j s.1 s.2).map fun x => (s.1, x)
    | .entered => (v.atBackE i j s.1 s.2).map fun x => (s.1, x)
    | .left => (v.atForwE i j s.1 s.2).map fun x => (s.1, x)

omit [DecidableEq T] in
/-- `AdjList::dfsUtil`, with a bound on the depth of the recursion. -/
def dfsUtil : ℕ → ℕ → DFSState × σ → Option (DFSState × σ)
  | 0, _, _ => none
  | fuel + 1, i, s =>
    (v.atEntryV i (s.1.enter i) s.2).bind fun x =>
      g.nodeSucc[i]?.bind fun succs =>
        (succs.foldlM (visitEdge v (dfsUtil fuel) i) (s.1.enter i, x)).bind fun s =>
          (v.atExitV i (s.1.leave i) s.2).map fun x => (s.1.leave i, x)

omit [DecidableEq T] in
/-- `AdjList::dfs`. -/
def dfs (x : σ) : Option σ :=
  let n := g.nodeSucc.length
  ((List.range n).foldlM (fun s i => s.1.m[i]?.bind fun status =>
      if status = .unseen then g.dfsUtil v n i s else some s) (DFSState.start n, x)).bind
    fun s => v.atEnd s.1 s.2

end Search

/-! ## Transitive closure -/

omit [DecidableEq T] in
/-- The body of the loop that `transClosure` runs when a node is left: the row of `i` gets the bits
of the row of its successor `j` and the bit of `j`. -/
def absorb (i : ℕ) (transC : List BitVector) (j : ℕ) : Option (List BitVector) :=
  transC[i]?.bind fun row => transC[j]?.bind fun succRow =>
    (BitVector.setBit (BitVector.orAssign row succRow) j).map fun row => transC.set i row

omit [DecidableEq T] in
/-- The callback of `transClosure` for a node that is left. -/
def closeRow (g : AdjList T) (i : ℕ) (transC : List BitVector) : Option (List BitVector) :=
  g.nodeSucc[i]?.bind fun succs => succs.foldlM (absorb i) transC

omit [DecidableEq T] in
/-- The callbacks of `transClosure`. -/
def closureVisitor (g : AdjList T) : Visitor (List BitVector) where
  atExitV i _ transC := g.closeRow i transC

omit [DecidableEq T] in
/-- `AdjList::transClosure`. -/
def transClosure (g : AdjList T) : Option (AdjList T) :=
  if g.calculatedTransC then some g else
    (g.dfs g.closureVisitor g.transC).map fun transC =>
      { g with transC := transC, calculatedTransC := true }

omit [DecidableEq T] in
/-- The loop of `AdjList::isIrreflexive` over the nodes that are left. -/
def irreflexiveOn (g : AdjList T) : List ℕ → Option Bool
  | [] => some true
  | i :: is => (g.related i i).bind fun b => if b then some false else irreflexiveOn g is

omit [DecidableEq T] in
/-- `AdjList::isIrreflexive`. -/
def isIrreflexive (g : AdjList T) : Option Bool := g.irreflexiveOn (List.range g.elems.length)

/-! ## Runs -/

/-- The calls that build a graph. -/
inductive Op (T : Type*) where
  /-- `addNode(a)`. -/
  | addNode (a : T)
  /-- `addEdge(a, b)` on elements. -/
  | addEdge (a b : T)
  /-- `addEdge(a, b)` on positions. -/
  | addEdgeIds (a b : ℕ)
  /-- `transClosure()`. -/
  | transClosure
deriving DecidableEq, Repr

/-- One call. -/
def apply (g : AdjList T) : Op T → Option (AdjList T)
  | .addNode a => some (g.addNode a)
  | .addEdge a b => g.addEdge a b
  | .addEdgeIds a b => g.addEdgeIds a b
  | .transClosure => g.transClosure

end AdjList

end GenMC
