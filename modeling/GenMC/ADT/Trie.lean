import Mathlib.Order.Basic
import Mathlib.Tactic

/-!
# The prefix trie

A `Trie` stores payloads under sequences.  Its edges are compressed: every node but the root
carries the non-empty part of the sequences that separates it from its parent, and the children of
a node are kept sorted by the first element of their labels.

`query` compares the rest of a sequence with an edge label and answers with a signed byte: three
negative codes for "equal", "sequence is a prefix of the label" and "label is a prefix of the
sequence", and otherwise the length of the common part.  `lookup` and `addSeq` walk down the trie
driven by that answer.  The pointers into the trie are modelled as values: a `Payload *` is its
target together with the write through it, and a mutation of a child rebuilds its parent.

The walks carry a step bound, which is the length of the sequence: every step down consumes a
non-empty label.  `none` stands for a run that the C++ code does not survive (an internal bug
report, or an iterator moved past the end of the sequence).
-/

namespace GenMC

namespace Trie

variable {α β : Type*}

/-- A node: the label of the edge into it, its payload and its children. -/
inductive Node (α β : Type*)
  | mk (lab : List α) (dat : β) (children : List (Node α β))

namespace Node

/-- `Node::label`. -/
def label : Node α β → List α
  | mk l _ _ => l

/-- `Node::data`. -/
def data : Node α β → β
  | mk _ d _ => d

/-- The outgoing edges, sorted by the first element of their labels. -/
def children : Node α β → List (Node α β)
  | mk _ _ cs => cs

/-- `Node::setData`. -/
def setData : Node α β → β → Node α β
  | mk l _ cs, d => mk l d cs

/-- The node with another list of children. -/
def withChildren : Node α β → List (Node α β) → Node α β
  | mk l d _, cs => mk l d cs

@[simp] lemma label_withChildren (n : Node α β) (cs : List (Node α β)) :
    (n.withChildren cs).label = n.label := by
  cases n; rfl

@[simp] lemma children_withChildren (n : Node α β) (cs : List (Node α β)) :
    (n.withChildren cs).children = cs := by
  cases n; rfl

@[simp] lemma withChildren_withChildren (n : Node α β) (cs cs' : List (Node α β)) :
    (n.withChildren cs).withChildren cs' = n.withChildren cs' := by
  cases n; rfl

end Node

/-- The answer of `Node::query`, an enumeration over `int8_t`. -/
abbrev QueryResult := Int8

/-- The sequence and the label are equal. -/
def QueryResult.same : QueryResult := -3

/-- The sequence is a prefix of the label. -/
def QueryResult.stringIsPrefix : QueryResult := -2

/-- The label is a prefix of the sequence. -/
def QueryResult.labelIsPrefix : QueryResult := -1

/-- The sequence and the label have nothing in common. -/
def QueryResult.dontMatch : QueryResult := 0

section Walks

variable [LinearOrder α]

/-- `NodeCmp`: the label of `n` starts below `id`. -/
def nodeCmp (id : α) (n : Node α β) : Bool :=
  match n.label with
  | [] => false
  | x :: _ => decide (x < id)

/-- The edges before the lower bound of `id`. -/
def edgesBelow (n : Node α β) (id : α) : List (Node α β) := n.children.takeWhile (nodeCmp id)

/-- The edges from the lower bound of `id` on. -/
def edgesFrom (n : Node α β) (id : α) : List (Node α β) := n.children.dropWhile (nodeCmp id)

/-- `Node::getEdge`: the child whose label starts with `id`, if there is one. -/
def getEdge (n : Node α β) (id : α) : Option (Node α β) :=
  match edgesFrom n id with
  | [] => none
  | c :: _ => if c.label.head? = some id then some c else none

/-- `Node::addEdge`: inserts the child at the lower bound of its first element. -/
def addEdge (n c : Node α β) : Option (Node α β) :=
  c.label.head?.map fun id => n.withChildren (edgesBelow n id ++ c :: edgesFrom n id)

/-- `Node::setEdge`: replaces the child at the lower bound; it is a bug if there is none. -/
def setEdge (n c : Node α β) : Option (Node α β) :=
  c.label.head?.bind fun id =>
    match edgesFrom n id with
    | [] => none
    | _ :: rest => some (n.withChildren (edgesBelow n id ++ c :: rest))

/-- The loop of `Node::query`: the number of equal elements among the first `l`. -/
def commonPart : ℕ → List α → List α → ℕ
  | l + 1, x :: s, y :: t => if x = y then commonPart l s t + 1 else 0
  | _, _, _ => 0

/-- `Node::query`: compares a sequence with the label.  The lengths are `unsigned`, and the length
of the common part is converted to the signed byte of the result. -/
def query (n : Node α β) (s : List α) : QueryResult :=
  let l1 := s.length % 2 ^ 32
  let l2 := n.label.length % 2 ^ 32
  let l := min l1 l2
  let i := commonPart l s n.label
  if i = l then
    if l1 = l2 then QueryResult.same
    else if i = l1 then QueryResult.stringIsPrefix
    else QueryResult.labelIsPrefix
  else Int8.ofNat i

/-- The conversion of a signed index to `size_t`. -/
def toSizeT (i : ℤ) : ℕ := (i % 2 ^ 64).toNat

/-- `Trie::splitEdge`: cuts the edge of `n` that starts with `id` after `index` elements and puts a
node with the default payload there.  Returns `n` and the new node. -/
def splitEdge [Inhabited β] (n : Node α β) (id : α) (index : ℕ) :
    Option (Node α β × Node α β) := do
  let eNode ← getEdge n id
  let l := eNode.label
  if index ≤ 0 ∨ l.length ≤ index then none
  else
    let l1 := l.take index
    let l2 := l.drop index
    let nNode ← addEdge (.mk l1 default []) (.mk l2 eNode.data eNode.children)
    let n ← setEdge n nNode
    return (n, nNode)

/-- A pointer to a payload: the value it points at and the trie after a write through it. -/
structure PayloadPtr (α β : Type*) where
  /-- The payload pointed at. -/
  val : β
  /-- The node with another payload written through the pointer. -/
  store : β → Option (Node α β)

/-- The loop of `Trie::lookup` from the node `cNode`; `none` inside is the null pointer. -/
def lookupLoop : ℕ → Node α β → List α → Option (Option (PayloadPtr α β))
  | _, _, [] => none
  | 0, _, _ :: _ => none
  | fuel + 1, cNode, id :: s =>
    match getEdge cNode id with
    | none => some none
    | some nNode =>
      let r := query nNode (id :: s)
      if r = QueryResult.same then
        some (some ⟨nNode.data, fun d => setEdge cNode (nNode.setData d)⟩)
      else if r = QueryResult.stringIsPrefix then some none
      else if r = QueryResult.dontMatch then none
      else if r = QueryResult.labelIsPrefix then
        if (id :: s).length < nNode.label.length then none
        else
          (lookupLoop fuel nNode ((id :: s).drop nNode.label.length)).map fun p =>
            p.map fun p => ⟨p.val, fun d => (p.store d).bind (setEdge cNode)⟩
      else some none

/-- `Trie::lookup`. -/
def lookup (root : Node α β) (s : List α) : Option (Option (PayloadPtr α β)) :=
  match s with
  | [] => some (some ⟨root.data, fun d => some (root.setData d)⟩)
  | _ => lookupLoop s.length root s

/-- The loop of `Trie::addSeq` from the node `cNode`: whether the sequence was added, and the node
afterwards. -/
def addSeqLoop [Inhabited β] (data : β) : ℕ → Node α β → List α → Option (Bool × Node α β)
  | _, _, [] => none
  | 0, _, _ :: _ => none
  | fuel + 1, cNode, id :: s =>
    match getEdge cNode id with
    | some nNode =>
      let r := query nNode (id :: s)
      if r = QueryResult.same then some (false, cNode)
      else if r = QueryResult.stringIsPrefix then do
        let (cNode, nNode) ← splitEdge cNode id (id :: s).length
        let cNode ← setEdge cNode (nNode.setData data)
        return (true, cNode)
      else if r = QueryResult.dontMatch then none
      else if r = QueryResult.labelIsPrefix then
        if (id :: s).length < nNode.label.length then none
        else do
          let (b, nNode) ← addSeqLoop data fuel nNode ((id :: s).drop nNode.label.length)
          let cNode ← setEdge cNode nNode
          return (b, cNode)
      else do
        let index := r.toInt
        let (cNode, nNode) ← splitEdge cNode id (toSizeT index)
        let nNode ← addEdge nNode (.mk ((id :: s).drop index.toNat) data [])
        let cNode ← setEdge cNode nNode
        return (true, cNode)
    | none => do
      let cNode ← addEdge cNode (.mk (id :: s) data [])
      return (true, cNode)

/-- `Trie::addSeq`. -/
def addSeq [Inhabited β] (root : Node α β) (s : List α) (data : β) : Option (Bool × Node α β) :=
  match s with
  | [] => some (false, root)
  | _ => addSeqLoop data s.length root s

/-- The empty trie: a root with the default payload. -/
def empty [Inhabited β] : Node α β := .mk [] default []

/-- The way the driver uses a trie: look the sequence up, insert it if the answer is null, and
write through the returned pointer otherwise. -/
def put [Inhabited β] (root : Node α β) (s : List α) (d : β) : Option (Node α β) := do
  match ← lookup root s with
  | none => (addSeq root s d).map Prod.snd
  | some p => p.store d

/-- A sequence of insertions and overwrites. -/
def putAll [Inhabited β] (root : Node α β) : List (List α × β) → Option (Node α β)
  | [] => some root
  | (s, d) :: ops => do
    let root' ← put root s d
    putAll root' ops

end Walks

end Trie

end GenMC
