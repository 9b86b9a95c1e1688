import GenMC.Lib.DepthFirst
import GenMC.Lib.Precedence

/-!
# Searching for cycles

A depth-first search that stops at the first edge back to a node that it has entered and not left
yet.  Some nodes are accepting; the search counts how many of them are on the path to each node, and
an edge back only counts if it closes a cycle through an accepting node.  The table of the search is
indexed by keys, which have to tell the nodes apart.

If the edges to nodes that are not accepting form no cycle by themselves, then the search finds a
cycle if and only if one can be reached (`check_spec`).
-/

namespace GenMC

namespace CycleSearch

open DepthFirst (Status)

/-- Why a search stops early. -/
inductive Stop
  | cycleFound | fault | outOfFuel
deriving DecidableEq

/-- Where the search is with a node, and how many accepting nodes the path to it has. -/
structure Visit where
  count : ℕ := 0
  status : Status := .unseen
deriving DecidableEq

/-- The table of the search, and the number of accepting nodes on the current path. -/
structure Search (κ : Type*) where
  /-- What the search knows of the node with a key. -/
  table : κ → Visit
  /-- The number of accepting nodes that have been entered and not left. -/
  accepting : ℕ

/-- What is searched; computing the successors of a node may fail. -/
structure Graph (ν κ : Type*) where
  /-- The successors of a node, in the order in which the search looks at them. -/
  succs : ν → Option (List ν)
  /-- Whether a cycle through the node counts. -/
  accepting : ν → Bool
  /-- The place of the node in the table. -/
  key : ν → κ

variable {ν κ : Type*} (g : Graph ν κ)

/-! ## What is searched for -/

/-- The edges. -/
def Edge (n m : ν) : Prop := ∃ ms ∈ g.succs n, m ∈ ms

/-- The edges to nodes that are not accepting. -/
def Plain (n m : ν) : Prop := Edge g n m ∧ g.accepting m = false

/-- A cycle can be reached from the node. -/
def ReachesCycle (n : ν) : Prop :=
  ∃ a, Relation.ReflTransGen (Edge g) n a ∧ Relation.TransGen (Edge g) a a

/-- Where the search may run: finitely many nodes with different keys, whose successors can be
computed, and every cycle counts. -/
structure Searchable (nodes : Finset ν) : Prop where
  /-- The successors of a node are nodes. -/
  closed : ∀ n ∈ nodes, ∃ ms ∈ g.succs n, ∀ m ∈ ms, m ∈ nodes
  /-- Nodes have different keys. -/
  keys : Set.InjOn g.key nodes
  /-- Every cycle has an accepting node. -/
  plain : Acyclic (Plain g)

variable {g} {nodes : Finset ν} {n m : ν}

/-- A cycle goes through an accepting node. -/
lemma exists_accepting_of_cycle (hplain : Acyclic (Plain g)) {a : ν}
    (h : Relation.TransGen (Edge g) a a) :
    ∃ b, g.accepting b = true ∧ Relation.ReflTransGen (Edge g) a b ∧
      Relation.TransGen (Edge g) b b := by
  by_contra hno
  have hnot : ∀ b, Relation.TransGen (Edge g) a b → Relation.ReflTransGen (Edge g) b a →
      g.accepting b = false := by
    intro b hab hba
    rw [Bool.eq_false_iff]
    intro hacc
    exact hno ⟨b, hacc, hab.to_reflTransGen, Relation.TransGen.trans_right hba hab⟩
  -- so all edges of the cycle are plain
  have hall : ∀ b, Relation.TransGen (Edge g) a b → Relation.ReflTransGen (Edge g) b a →
      Relation.TransGen (Plain g) a b := by
    intro b hab
    induction hab with
    | single hedge => exact fun hba => .single ⟨hedge, hnot _ (.single hedge) hba⟩
    | tail hac hedge ih =>
      exact fun hba => (ih (.head hedge hba)).tail ⟨hedge, hnot _ (.tail hac hedge) hba⟩
  exact hplain a (hall a h .refl)

/-- A cycle that can be reached from a successor. -/
lemma ReachesCycle.of_edge (h : ReachesCycle g m) (hedge : Edge g n m) : ReachesCycle g n := by
  obtain ⟨a, hma, hcycle⟩ := h
  exact ⟨a, .head hedge hma, hcycle⟩

/-- The successors of a node are nodes. -/
lemma Searchable.mem_of_edge (hg : Searchable g nodes) (hn : n ∈ nodes) (h : Edge g n m) :
    m ∈ nodes := by
  obtain ⟨ms, hms, hm⟩ := h
  obtain ⟨ms', hms', hall⟩ := hg.closed n hn
  obtain rfl := Option.some.inj (hms.symm.trans hms')
  exact hall m hm

/-! ## The search -/

variable [DecidableEq κ] (g)

/-- The search before it has seen a node. -/
def start : Search κ := ⟨fun _ => {}, 0⟩

/-- Changes what is known of a node. -/
def Search.set (s : Search κ) (k : κ) (v : Visit) : Search κ :=
  { s with table := fun k' => if k' = k then v else s.table k' }

/-- Enters a node. -/
def enter (n : ν) (s : Search κ) : Search κ :=
  let c := if g.accepting n then s.accepting + 1 else s.accepting
  { s.set (g.key n) ⟨c, .entered⟩ with accepting := c }

/-- Leaves a node. -/
def leave (n : ν) (s : Search κ) : Search κ :=
  let c := if g.accepting n then s.accepting - 1 else s.accepting
  { s.set (g.key n) ⟨c, .left⟩ with accepting := c }

/-- Looks at a successor, which is visited unless the search has seen it. -/
def look (visit : ν → Search κ → Except Stop (Search κ)) (s : Search κ) (m : ν) :
    Except Stop (Search κ) :=
  match (s.table (g.key m)).status with
  | .unseen => visit m s
  | .entered =>
    if (s.table (g.key m)).count < s.accepting || g.accepting m then .error .cycleFound else .ok s
  | .left => .ok s

/-- The search from a node. -/
def visit : ℕ → ν → Search κ → Except Stop (Search κ)
  | 0, _, _ => .error .outOfFuel
  | fuel + 1, n, s =>
    match g.succs n with
    | none => .error .fault
    | some ms => (ms.foldlM (look g (visit fuel)) (enter g n s)).map (leave g n)

/-- The answer of the search from a node: whether it has found no cycle. -/
def check (fuel : ℕ) (n : ν) : Option Bool :=
  match visit g fuel n start with
  | .ok _ => some true
  | .error .cycleFound => some false
  | .error _ => none

variable {g} {s s' s'' : Search κ} {fuel : ℕ}

/-- The status of a node. -/
def Search.statusOf (g : Graph ν κ) (s : Search κ) (n : ν) : Status := (s.table (g.key n)).status

/-- The number of accepting nodes after entering a node. -/
lemma accepting_enter :
    (enter g n s).accepting = if g.accepting n then s.accepting + 1 else s.accepting :=
  rfl

/-- The number of accepting nodes after leaving a node. -/
lemma accepting_leave :
    (leave g n s).accepting = if g.accepting n then s.accepting - 1 else s.accepting :=
  rfl

/-- What is known of the node that is entered. -/
lemma table_enter_self :
    (enter g n s).table (g.key n) = ⟨(enter g n s).accepting, .entered⟩ :=
  if_pos rfl

/-- The node that is left. -/
lemma statusOf_leave_self : (leave g n s).statusOf g n = .left :=
  congrArg Visit.status (if_pos rfl)

/-- Entering a node changes what is known of this node only. -/
lemma Searchable.table_enter (hg : Searchable g nodes) (hn : n ∈ nodes) {a : ν} (ha : a ∈ nodes)
    (hne : a ≠ n) : (enter g n s).table (g.key a) = s.table (g.key a) :=
  if_neg fun hkey => hne (hg.keys ha hn hkey)

/-- Leaving a node changes what is known of this node only. -/
lemma Searchable.table_leave (hg : Searchable g nodes) (hn : n ∈ nodes) {a : ν} (ha : a ∈ nodes)
    (hne : a ≠ n) : (leave g n s).table (g.key a) = s.table (g.key a) :=
  if_neg fun hkey => hne (hg.keys ha hn hkey)

/-- A node that is not the one that is left. -/
lemma Searchable.statusOf_leave (hg : Searchable g nodes) (hn : n ∈ nodes) {a : ν} (ha : a ∈ nodes)
    (hne : a ≠ n) : (leave g n s).statusOf g a = s.statusOf g a :=
  congrArg Visit.status (hg.table_leave hn ha hne)

/-- A node that is not the one that is entered. -/
lemma Searchable.statusOf_enter (hg : Searchable g nodes) (hn : n ∈ nodes) {a : ν} (ha : a ∈ nodes)
    (hne : a ≠ n) : (enter g n s).statusOf g a = s.statusOf g a :=
  congrArg Visit.status (hg.table_enter hn ha hne)

/-! ## The path of the search -/

/-- The nodes that have been entered lead to the current node, which is one of them; over plain
edges if no accepting node has been entered after them. -/
def Path (g : Graph ν κ) (nodes : Finset ν) (s : Search κ) (n : ν) : Prop :=
  ∀ a ∈ nodes, s.statusOf g a = .entered → (s.table (g.key a)).count ≤ s.accepting ∧
    Relation.ReflTransGen (Edge g) a n ∧
    ((s.table (g.key a)).count = s.accepting → Relation.ReflTransGen (Plain g) a n)

/-- The nodes that have been entered lead to the node that is entered next. -/
def LeadsTo (g : Graph ν κ) (nodes : Finset ν) (s : Search κ) (n : ν) : Prop :=
  ∀ a ∈ nodes, s.statusOf g a = .entered → (s.table (g.key a)).count ≤ s.accepting ∧
    Relation.ReflTransGen (Edge g) a n ∧
    ((s.table (g.key a)).count = s.accepting → g.accepting n = false →
      Relation.ReflTransGen (Plain g) a n)

/-- Entering the next node extends the path to it. -/
lemma Searchable.path_enter (hg : Searchable g nodes) (hn : n ∈ nodes) (h : LeadsTo g nodes s n) :
    Path g nodes (enter g n s) n := by
  intro a ha hstatus
  by_cases heq : a = n
  · subst heq
    rw [table_enter_self]
    exact ⟨le_rfl, .refl, fun _ => .refl⟩
  · rw [hg.statusOf_enter hn ha heq] at hstatus
    rw [hg.table_enter hn ha heq, accepting_enter]
    obtain ⟨hle, hreach, hplain⟩ := h a ha hstatus
    refine ⟨?_, hreach, fun hmax => ?_⟩
    · split <;> omega
    · split at hmax
      next => omega
      next hacc => exact hplain hmax (Bool.eq_false_iff.mpr hacc)

omit [DecidableEq κ] in
/-- The path leads to the successors of the current node. -/
lemma Path.leadsTo (h : Path g nodes s n) (hedge : Edge g n m) : LeadsTo g nodes s m := by
  intro a ha hstatus
  obtain ⟨hle, hreach, hplain⟩ := h a ha hstatus
  exact ⟨hle, hreach.tail hedge, fun hmax hacc => (hplain hmax).tail ⟨hedge, hacc⟩⟩

omit [DecidableEq κ] in
/-- An edge back to the path closes a cycle, which counts. -/
lemma Path.counts (h : Path g nodes s n) (hg : Searchable g nodes) (hm : m ∈ nodes)
    (hedge : Edge g n m) (hstatus : s.statusOf g m = .entered) :
    ((s.table (g.key m)).count < s.accepting ∨ g.accepting m = true) ∧
      Relation.TransGen (Edge g) n n := by
  obtain ⟨hle, hreach, hplain⟩ := h m hm hstatus
  refine ⟨?_, Relation.TransGen.head' hedge hreach⟩
  by_contra hno
  obtain ⟨hcount, hacc⟩ := not_or.mp hno
  have hback : Plain g n m := ⟨hedge, Bool.eq_false_iff.mpr hacc⟩
  exact hg.plain n (Relation.TransGen.head' hback (hplain (by omega)))

/-! ## Nodes that have been left -/

/-- The nodes that have been left are done: so are their successors, and they are on no cycle. -/
def Done (g : Graph ν κ) (nodes : Finset ν) (s : Search κ) : Prop :=
  ∀ a ∈ nodes, s.statusOf g a = .left →
    (∀ b, Edge g a b → s.statusOf g b = .left) ∧ ¬Relation.TransGen (Edge g) a a

omit [DecidableEq κ] in
/-- Chains from a node that has been left stay among such nodes. -/
lemma Done.of_reflTransGen (h : Done g nodes s) (hg : Searchable g nodes) (hn : n ∈ nodes)
    (hleft : s.statusOf g n = .left) (hnm : Relation.ReflTransGen (Edge g) n m) :
    m ∈ nodes ∧ s.statusOf g m = .left := by
  induction hnm with
  | refl => exact ⟨hn, hleft⟩
  | tail _ hedge ih => exact ⟨hg.mem_of_edge ih.1 hedge, (h _ ih.1 ih.2).1 _ hedge⟩

omit [DecidableEq κ] in
/-- Nothing can be reached from a node that has been left but nodes on no cycle. -/
lemma Done.not_reachesCycle (h : Done g nodes s) (hg : Searchable g nodes) (hn : n ∈ nodes)
    (hleft : s.statusOf g n = .left) : ¬ReachesCycle g n := by
  rintro ⟨a, hna, hcycle⟩
  obtain ⟨ha, hal⟩ := h.of_reflTransGen hg hn hleft hna
  exact (h a ha hal).2 hcycle

/-- Entering a node does not change which nodes are done. -/
lemma Done.enter (h : Done g nodes s) (hg : Searchable g nodes) (hn : n ∈ nodes)
    (hunseen : s.statusOf g n = .unseen) : Done g nodes (enter g n s) := by
  have hne : ∀ {a}, s.statusOf g a = .left → a ≠ n := by
    rintro a ha rfl
    rw [hunseen] at ha
    cases ha
  intro a ha hleft
  have han : a ≠ n := by
    rintro rfl
    rw [Search.statusOf, table_enter_self] at hleft
    cases hleft
  rw [hg.statusOf_enter hn ha han] at hleft
  obtain ⟨hsucc, hacyclic⟩ := h a ha hleft
  refine ⟨fun b hb => ?_, hacyclic⟩
  rw [hg.statusOf_enter hn (hg.mem_of_edge ha hb) (hne (hsucc b hb))]
  exact hsucc b hb

/-- A node is done when it is left after its successors. -/
lemma Done.leave (h : Done g nodes s) (hg : Searchable g nodes) (hn : n ∈ nodes)
    (hentered : s.statusOf g n = .entered) (hsuccs : ∀ m, Edge g n m → s.statusOf g m = .left) :
    Done g nodes (leave g n s) := by
  have hstays : ∀ {b}, b ∈ nodes → s.statusOf g b = .left →
      (CycleSearch.leave g n s).statusOf g b = .left := by
    intro b hb hleft
    by_cases hbn : b = n
    · rw [hbn, statusOf_leave_self]
    · rw [hg.statusOf_leave hn hb hbn, hleft]
  intro a ha hleft
  by_cases han : a = n
  · subst han
    refine ⟨fun b hb => hstays (hg.mem_of_edge ha hb) (hsuccs b hb), fun hcycle => ?_⟩
    -- a cycle would lead back to the node from one that had been left before it
    obtain ⟨b, hab, hba⟩ := Relation.TransGen.head'_iff.mp hcycle
    have hback := (h.of_reflTransGen hg (hg.mem_of_edge ha hab) (hsuccs b hab) hba).2
    rw [hentered] at hback
    cases hback
  · rw [hg.statusOf_leave hn ha han] at hleft
    obtain ⟨hsucc, hacyclic⟩ := h a ha hleft
    exact ⟨fun b hb => hstays (hg.mem_of_edge ha hb) (hsucc b hb), hacyclic⟩

/-! ## What a visit changes -/

/-- What a visit changes: nodes are left that had not been seen. -/
structure Extends (g : Graph ν κ) (nodes : Finset ν) (s s' : Search κ) : Prop where
  /-- The path has as many accepting nodes as before. -/
  accepting : s'.accepting = s.accepting
  /-- No node is entered that is not left. -/
  entered : ∀ a ∈ nodes, s'.statusOf g a = .entered → s.statusOf g a = .entered
  /-- The nodes on the path stay there. -/
  path : ∀ a ∈ nodes, s.statusOf g a = .entered → s'.table (g.key a) = s.table (g.key a)
  /-- What has been left stays so. -/
  left : ∀ a ∈ nodes, s.statusOf g a = .left → s'.statusOf g a = .left

namespace Extends

omit [DecidableEq κ] in
/-- Nothing happens. -/
lemma refl : Extends g nodes s s := ⟨rfl, fun _ _ h => h, fun _ _ _ => rfl, fun _ _ h => h⟩

omit [DecidableEq κ] in
/-- Two visits, one after the other. -/
lemma trans (h : Extends g nodes s s') (h' : Extends g nodes s' s'') : Extends g nodes s s'' := by
  refine ⟨h'.accepting.trans h.accepting, fun a ha hent => h.entered a ha (h'.entered a ha hent),
    fun a ha hent => ?_, fun a ha hleft => h'.left a ha (h.left a ha hleft)⟩
  have htable := h.path a ha hent
  have hent' : s'.statusOf g a = .entered := by
    unfold Search.statusOf at hent ⊢
    rw [htable, hent]
  rw [h'.path a ha hent', htable]

omit [DecidableEq κ] in
/-- No node is forgotten. -/
lemma seen (h : Extends g nodes s s') {a : ν} (ha : a ∈ nodes)
    (hunseen : s'.statusOf g a = .unseen) : s.statusOf g a = .unseen := by
  cases hst : s.statusOf g a with
  | unseen => rfl
  | entered =>
    rw [Search.statusOf, h.path a ha hst] at hunseen
    exact hst.symm.trans hunseen
  | left =>
    rw [h.left a ha hst] at hunseen
    cases hunseen

omit [DecidableEq κ] in
/-- The path still leads to the current node. -/
lemma onPath (h : Extends g nodes s s') (hpath : Path g nodes s n) : Path g nodes s' n := by
  intro a ha hent
  have hent' := h.entered a ha hent
  rw [h.path a ha hent', h.accepting]
  exact hpath a ha hent'

/-- Entering a node, visiting others and leaving the node again. -/
lemma leave (hg : Searchable g nodes) (hn : n ∈ nodes) (hunseen : s.statusOf g n = .unseen)
    (h : Extends g nodes (enter g n s) s') : Extends g nodes s (leave g n s') := by
  have hne : ∀ {a st}, s.statusOf g a = st → st ≠ .unseen → a ≠ n := by
    rintro a st ha hst rfl
    exact hst (ha.symm.trans hunseen)
  refine ⟨?_, fun a ha hent => ?_, fun a ha hent => ?_, fun a ha hleft => ?_⟩
  · rw [accepting_leave, h.accepting, accepting_enter]
    split <;> omega
  · by_cases han : a = n
    · rw [han, statusOf_leave_self] at hent
      cases hent
    · rw [hg.statusOf_leave hn ha han] at hent
      have hbefore := h.entered a ha hent
      rwa [hg.statusOf_enter hn ha han] at hbefore
  · have han := hne hent (fun h => by cases h)
    have henter := hg.table_enter (s := s) hn ha han
    rw [hg.table_leave hn ha han, h.path a ha ((congrArg Visit.status henter).trans hent), henter]
  · have han := hne hleft (fun h => by cases h)
    rw [hg.statusOf_leave hn ha han]
    exact h.left a ha ((hg.statusOf_enter hn ha han).trans hleft)

end Extends

/-- The nodes that have not been seen. -/
def unseen (g : Graph ν κ) (nodes : Finset ν) (s : Search κ) : Finset ν :=
  nodes.filter fun n => s.statusOf g n = .unseen

omit [DecidableEq κ] in
/-- A visit does not add to the unseen nodes. -/
lemma Extends.card_unseen_le (h : Extends g nodes s s') :
    (unseen g nodes s').card ≤ (unseen g nodes s).card := by
  refine Finset.card_le_card fun a ha => ?_
  obtain ⟨hmem, hunseen⟩ := Finset.mem_filter.mp ha
  exact Finset.mem_filter.mpr ⟨hmem, h.seen hmem hunseen⟩

/-- Entering an unseen node. -/
lemma Searchable.card_unseen_enter (hg : Searchable g nodes) (hn : n ∈ nodes)
    (hunseen : s.statusOf g n = .unseen) :
    (unseen g nodes (enter g n s)).card < (unseen g nodes s).card := by
  refine Finset.card_lt_card (Finset.ssubset_iff_of_subset ?_ |>.mpr
    ⟨n, Finset.mem_filter.mpr ⟨hn, hunseen⟩, fun hmem => ?_⟩)
  · intro a ha
    obtain ⟨hmem, hst⟩ := Finset.mem_filter.mp ha
    by_cases han : a = n
    · exact han ▸ Finset.mem_filter.mpr ⟨hn, hunseen⟩
    · exact Finset.mem_filter.mpr ⟨hmem, (hg.statusOf_enter hn hmem han).symm.trans hst⟩
  · have hst := (Finset.mem_filter.mp hmem).2
    rw [Search.statusOf, table_enter_self] at hst
    cases hst

/-! ## The answer -/

/-- What a search that has to end does: it returns a result with `P`, or it finds a cycle, and then
`Q` holds. -/
def Ends {σ : Type*} (P : σ → Prop) (Q : Prop) (x : Except Stop σ) : Prop :=
  (∃ s, x = .ok s ∧ P s) ∨ (x = .error .cycleFound ∧ Q)

/-- The rule for loops: `P` speaks about the part of the list that is done. -/
lemma Ends.foldlM {σ ι : Type*} {f : σ → ι → Except Stop σ} {Q : Prop} {P : List ι → σ → Prop}
    (l : List ι) (hstep : ∀ done i rest, l = done ++ i :: rest → ∀ s, P done s →
      Ends (P (done ++ [i])) Q (f s i)) {s : σ} (hs : P [] s) : Ends (P l) Q (l.foldlM f s) := by
  suffices h : ∀ rest done s, l = done ++ rest → P done s → Ends (P l) Q (rest.foldlM f s) from
    h l [] s rfl hs
  intro rest
  induction rest with
  | nil =>
    intro done s hl hs
    rw [List.append_nil] at hl
    exact .inl ⟨s, rfl, hl ▸ hs⟩
  | cons i rest ih =>
    intro done s hl hs
    rw [List.foldlM_cons]
    obtain ⟨s₁, h₁, hs₁⟩ | ⟨h₁, hq⟩ := hstep done i rest hl s hs
    · rw [h₁]
      exact ih (done ++ [i]) s₁ (by rw [hl, List.append_assoc]; rfl) hs₁
    · rw [h₁]
      exact .inr ⟨rfl, hq⟩

/-- What a visit of a node leads to. -/
structure Visited (g : Graph ν κ) (nodes : Finset ν) (n : ν) (s s' : Search κ) : Prop where
  ext : Extends g nodes s s'
  done : Done g nodes s'
  self : s'.statusOf g n = .left

/-- **The search from a node** leaves the node and everything that can be reached from it, unless
it finds a cycle. -/
theorem visit_spec (hg : Searchable g nodes) (hn : n ∈ nodes) (hunseen : s.statusOf g n = .unseen)
    (hfuel : (unseen g nodes s).card ≤ fuel) (hlead : LeadsTo g nodes s n)
    (hdone : Done g nodes s) :
    Ends (Visited g nodes n s) (ReachesCycle g n) (visit g fuel n s) := by
  induction fuel generalizing n s with
  | zero =>
    have hpos : 0 < (unseen g nodes s).card :=
      Finset.card_pos.mpr ⟨n, Finset.mem_filter.mpr ⟨hn, hunseen⟩⟩
    omega
  | succ fuel ih =>
    have hcard := hg.card_unseen_enter hn hunseen
    have hpath := hg.path_enter hn hlead
    obtain ⟨ms, hms, hmem⟩ := hg.closed n hn
    -- after the successors `seen`, all of them have been left
    have hloop := Ends.foldlM (f := look g (visit g fuel)) (Q := ReachesCycle g n)
      (P := fun seen t => Extends g nodes (enter g n s) t ∧ Done g nodes t ∧
        ∀ m ∈ seen, t.statusOf g m = .left) ms ?_
      ⟨.refl, hdone.enter hg hn hunseen, fun m hm => absurd hm List.not_mem_nil⟩
    · rw [visit, hms]
      obtain ⟨t, ht, hext, htdone, hleft⟩ | ⟨ht, hcycle⟩ := hloop
      · refine .inl ⟨CycleSearch.leave g n t, congrArg (Except.map _) ht,
          hext.leave hg hn hunseen, htdone.leave hg hn ?_ ?_, statusOf_leave_self⟩
        · have hent : (enter g n s).statusOf g n = .entered := by
            rw [Search.statusOf, table_enter_self]
          exact (congrArg Visit.status (hext.path n hn hent)).trans hent
        · rintro m ⟨ms', hms', hm⟩
          obtain rfl := Option.some.inj (hms.symm.trans hms')
          exact hleft m hm
      · exact .inr ⟨congrArg (Except.map _) ht, hcycle⟩
    · rintro seen m rest hsplit t ⟨hext, htdone, hleft⟩
      have hin : m ∈ ms := hsplit ▸ List.mem_append_right _ List.mem_cons_self
      have hm := hmem m hin
      have hedge : Edge g n m := ⟨ms, hms, hin⟩
      have htpath := hext.onPath hpath
      have hnext : ∀ {t'}, Extends g nodes t t' → Done g nodes t' → t'.statusOf g m = .left →
          Extends g nodes (enter g n s) t' ∧ Done g nodes t' ∧
            ∀ k ∈ seen ++ [m], t'.statusOf g k = .left := by
        intro t' hext' hdone' hself
        refine ⟨hext.trans hext', hdone', fun k hk => ?_⟩
        obtain hk | hk := List.mem_append.mp hk
        · exact hext'.left k (hmem k (hsplit ▸ List.mem_append_left _ hk)) (hleft k hk)
        · exact List.mem_singleton.mp hk ▸ hself
      unfold look
      split
      next hst =>
        have hle := hext.card_unseen_le
        obtain ⟨t', ht', hvis⟩ | ⟨ht', hcycle⟩ :=
          ih hm hst (by omega) (htpath.leadsTo hedge) htdone
        · exact .inl ⟨t', ht', hnext hvis.ext hvis.done hvis.self⟩
        · exact .inr ⟨ht', hcycle.of_edge hedge⟩
      next hst =>
        obtain ⟨hcounts, hcycle⟩ := htpath.counts hg hm hedge hst
        refine .inr ⟨if_pos ?_, n, .refl, hcycle⟩
        rw [Bool.or_eq_true, decide_eq_true_eq]
        exact hcounts
      next hst => exact .inl ⟨t, rfl, hnext .refl htdone hst⟩

/-- **The search decides** whether a cycle can be reached from a node, if it has fuel for all
nodes. -/
theorem check_spec (hg : Searchable g nodes) (hn : n ∈ nodes) (hfuel : nodes.card ≤ fuel) :
    ∃ b, check g fuel n = some b ∧ (b = true ↔ ¬ReachesCycle g n) := by
  have hnone : ∀ {st : Status} {a : ν}, st ≠ .unseen → (start : Search κ).statusOf g a ≠ st :=
    fun hst h => hst h.symm
  have hspec := visit_spec (s := start) hg hn rfl
    ((Finset.card_filter_le _ _).trans hfuel)
    (fun a _ ha => absurd ha (hnone (fun h => by cases h)))
    (fun a _ ha => absurd ha (hnone (fun h => by cases h)))
  unfold check
  obtain ⟨s', hs', hvis⟩ | ⟨hstop, hcycle⟩ := hspec
  · rw [hs']
    exact ⟨true, rfl, fun _ => hvis.done.not_reachesCycle hg hn hvis.self, fun _ => rfl⟩
  · rw [hstop]
    exact ⟨false, rfl, fun h => (by cases h), fun h => absurd hcycle h⟩

end CycleSearch

end GenMC
