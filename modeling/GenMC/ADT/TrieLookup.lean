import GenMC.ADT.TrieMap

/-!
# The trie is a finite map

`query` packs the length of a common part into a signed byte, so a walk is only right as long as a
sequence that leaves an edge label in its middle does so early enough (`Departs`).  Under that
condition `lookupLoop_spec` and `addSeqLoop_spec` say what one walk finds and changes, `put_spec`
puts the two together, and the run theorem `putAll_readsBack` reads the trie as the map of the
payloads stored last.
-/

namespace GenMC

namespace Trie

variable {α β : Type*}

/-- `Reaches n s m t`: walking down from `n` along whole edge labels of `s` arrives at `m` with the
rest `t`. -/
inductive Reaches : Node α β → List α → Node α β → List α → Prop
  | refl {n s} : Reaches n s n s
  | step {n c s m t} (hc : c ∈ n.children) (h : Reaches c s m t) : Reaches n (c.label ++ s) m t

/-- Walking down does not make the rest longer. -/
lemma Reaches.length_le {n m : Node α β} {s t : List α} (h : Reaches n s m t) :
    t.length ≤ s.length := by
  induction h with
  | refl => exact le_rfl
  | step hc h ih =>
    rw [List.length_append]
    omega

/-- Wherever the sequence departs from the inside of an edge label of the trie, it does so after a
number of elements that is `ok`; and the sequence has fewer than `2 ^ 32` elements. -/
def Departs (ok : ℕ → Prop) (n : Node α β) (s : List α) : Prop :=
  s.length < 2 ^ 32 ∧
    ∀ m t c, Reaches n s m t → c ∈ m.children → ∀ p x y t' l', t = p ++ x :: t' →
      c.label = p ++ y :: l' → x ≠ y → p ≠ [] → ok p.length

/-- The numbers that a signed byte can tell from the codes of `QueryResult`. -/
def FitsQueryResult (i : ℕ) : Prop := i < 128

/-- The numbers that `lookup` does not mistake for a match or for a bug: as a byte they are none of
`same`, `labelIsPrefix` and `dontMatch`. -/
def HarmlessForLookup (i : ℕ) : Prop := i % 256 ≠ 253 ∧ i % 256 ≠ 255 ∧ i % 256 ≠ 0

/-- The rest of a sequence below a child departs as the whole sequence does. -/
lemma Departs.child {ok : ℕ → Prop} {n c : Node α β} {s : List α} (hc : c ∈ n.children)
    (h : Departs ok n (c.label ++ s)) : Departs ok c s := by
  refine ⟨by have := h.1; rw [List.length_append] at this; omega, ?_⟩
  intro m t c' hr
  exact h.2 m t c' (.step hc hr)

/-- A departure that an insertion survives is harmless for a lookup. -/
lemma Departs.harmless {n : Node α β} {s : List α} (h : Departs FitsQueryResult n s) :
    Departs HarmlessForLookup n s := by
  refine ⟨h.1, fun m t c hr hc p x y t' l' ht hl hxy hp => ?_⟩
  have hfits : p.length < 128 := h.2 m t c hr hc p x y t' l' ht hl hxy hp
  have hpos : 0 < p.length := List.length_pos_iff.mpr hp
  unfold HarmlessForLookup
  omega

/-- Short sequences depart early. -/
lemma departs_of_short {n : Node α β} {s : List α} (hs : s.length ≤ 128) :
    Departs FitsQueryResult n s := by
  refine ⟨by omega, fun m t c hr hc p x y t' l' ht hl hxy hp => ?_⟩
  have hlen := hr.length_le
  rw [ht, List.length_append, List.length_cons] at hlen
  unfold FitsQueryResult
  omega

/-! ## The comparison of a sequence with a label -/

/-- The four ways in which a sequence and a label compare. -/
inductive Compared : List α → List α → Prop
  | same (s) : Compared s s
  | stringIsPrefix (s : List α) (y : α) (l : List α) : Compared s (s ++ y :: l)
  | labelIsPrefix (l : List α) (x : α) (s : List α) : Compared (l ++ x :: s) l
  | diverge (p : List α) {x y : α} (s l : List α) (hne : x ≠ y) :
      Compared (p ++ x :: s) (p ++ y :: l)

/-- A comparison below a common first element. -/
lemma Compared.cons (x : α) {s l : List α} (h : Compared s l) : Compared (x :: s) (x :: l) := by
  cases h with
  | same s => exact .same (x :: s)
  | stringIsPrefix s y l => exact .stringIsPrefix (x :: s) y l
  | labelIsPrefix l y s => exact .labelIsPrefix (x :: l) y s
  | diverge p s l hne => exact .diverge (x :: p) s l hne

/-- Every sequence compares with every label. -/
lemma compared (s l : List α) : Compared s l := by
  induction s generalizing l with
  | nil =>
    cases l with
    | nil => exact .same []
    | cons y l => exact .stringIsPrefix [] y l
  | cons x s ih =>
    cases l with
    | nil => exact .labelIsPrefix [] x s
    | cons y l =>
      by_cases hxy : x = y
      · subst hxy
        exact (ih l).cons x
      · exact .diverge [] s l hxy

/-- A sequence that is shorter than an edge label or departs from it is not held through it. -/
lemma not_edgeHolds {c : Node α β} {s p l : List α} {y : α} (hl : c.label = p ++ y :: l)
    (hs : s = p ∨ ∃ x s', s = p ++ x :: s' ∧ x ≠ y) (e : β) : ¬ EdgeHolds c s e := by
  rintro ⟨t, ht, -⟩
  rw [hl, List.append_assoc, List.cons_append] at ht
  rcases hs with rfl | ⟨x, s', rfl, hne⟩
  · simp at ht
  · rw [List.append_cancel_left_eq, List.cons.injEq] at ht
    exact hne ht.1

section Walks

variable [LinearOrder α]

/-- The loop of `query` runs through a common part. -/
lemma commonPart_append (p s t : List α) (k : ℕ) :
    commonPart (p.length + k) (p ++ s) (p ++ t) = p.length + commonPart k s t := by
  induction p with
  | nil => simp
  | cons x p ih =>
    have hlen : (x :: p).length + k = (p.length + k) + 1 := by rw [List.length_cons]; omega
    rw [hlen, List.cons_append, List.cons_append, commonPart, if_pos rfl, ih, List.length_cons]
    omega

/-- The loop of `query` ends with a common part that is as long as allowed. -/
lemma commonPart_prefix (p s t : List α) : commonPart p.length (p ++ s) (p ++ t) = p.length := by
  have hzero : commonPart 0 s t = 0 := by unfold commonPart; rfl
  simpa only [hzero, Nat.add_zero] using commonPart_append p s t 0

/-- The loop of `query` ends at the first difference. -/
lemma commonPart_diverge (p s t : List α) {x y : α} (hne : x ≠ y) (k : ℕ) :
    commonPart (p.length + (k + 1)) (p ++ x :: s) (p ++ y :: t) = p.length := by
  rw [commonPart_append, commonPart, if_neg hne, Nat.add_zero]

/-- `query` where no length overflows, in terms of the number of common elements. -/
lemma query_eq {n : Node α β} {s l : List α} (hl : n.label = l) (hs : s.length < 2 ^ 32)
    (hlen : l.length < 2 ^ 32) {i : ℕ} (hi : commonPart (min s.length l.length) s l = i) :
    query n s =
      if i = min s.length l.length then
        if s.length = l.length then QueryResult.same
        else if i = s.length then QueryResult.stringIsPrefix
        else QueryResult.labelIsPrefix
      else Int8.ofNat i := by
  unfold query
  simp only [hl, Nat.mod_eq_of_lt hs, Nat.mod_eq_of_lt hlen, hi]

/-- `query` recognises equal sequences. -/
lemma query_same {n : Node α β} {s : List α} (hl : n.label = s) (hlen : s.length < 2 ^ 32) :
    query n s = .same := by
  have hcommon := commonPart_prefix s [] []
  rw [List.append_nil, ← Nat.min_self s.length] at hcommon
  rw [query_eq hl hlen hlen hcommon, if_pos (by simp), if_pos rfl]

/-- `query` recognises a proper prefix of the label. -/
lemma query_stringIsPrefix {n : Node α β} {s l : List α} {y : α} (hl : n.label = s ++ y :: l)
    (hlen : n.label.length < 2 ^ 32) : query n s = .stringIsPrefix := by
  have hcommon := commonPart_prefix s [] (y :: l)
  have hlt : s.length < (s ++ y :: l).length := by
    rw [List.length_append, List.length_cons]
    omega
  rw [List.append_nil] at hcommon
  nth_rewrite 1 [← min_eq_left hlt.le] at hcommon
  rw [hl] at hlen
  rw [query_eq hl (hlt.trans hlen) hlen hcommon, if_pos (min_eq_left hlt.le).symm,
    if_neg hlt.ne, if_pos rfl]

/-- `query` recognises a label that is a proper prefix. -/
lemma query_labelIsPrefix {n : Node α β} {s : List α} {x : α}
    (hlen : (n.label ++ x :: s).length < 2 ^ 32) :
    query n (n.label ++ x :: s) = .labelIsPrefix := by
  have hcommon := commonPart_prefix n.label (x :: s) []
  have hlt : n.label.length < (n.label ++ x :: s).length := by
    rw [List.length_append, List.length_cons]
    omega
  rw [List.append_nil] at hcommon
  nth_rewrite 1 [← min_eq_right hlt.le] at hcommon
  rw [query_eq rfl hlen (hlt.trans hlen) hcommon, if_pos (min_eq_right hlt.le).symm,
    if_neg hlt.ne', if_neg hlt.ne]

/-- Otherwise `query` answers with the length of the common part, as a signed byte. -/
lemma query_diverge {n : Node α β} {p s l : List α} {x y : α} (hne : x ≠ y)
    (hl : n.label = p ++ y :: l) (hs : (p ++ x :: s).length < 2 ^ 32)
    (hlen : n.label.length < 2 ^ 32) : query n (p ++ x :: s) = Int8.ofNat p.length := by
  have hmin : min (p ++ x :: s).length (p ++ y :: l).length
      = p.length + (min s.length l.length + 1) := by
    simp only [List.length_append, List.length_cons]
    omega
  have hcommon := commonPart_diverge p s l hne (min s.length l.length)
  rw [← hmin] at hcommon
  rw [hl] at hlen
  rw [query_eq hl hs hlen hcommon, if_neg (by omega)]

/-- The byte of a number that fits is the number. -/
lemma toInt_ofNat_of_fits {i : ℕ} (hi : FitsQueryResult i) : (Int8.ofNat i).toInt = i :=
  Int8.toInt_ofNat_of_lt (by simpa [FitsQueryResult] using hi)

/-- Two numbers have the same byte if they are equal modulo 256. -/
lemma ofNat_eq_iff {i k : ℕ} : Int8.ofNat i = Int8.ofNat k ↔ i % 256 = k % 256 := by
  rw [← Int8.toBitVec_inj, Int8.toBitVec_ofNat', Int8.toBitVec_ofNat', ← BitVec.toNat_inj]
  simp

/-- A number that fits is not the code of a prefix. -/
lemma ofNat_ne_stringIsPrefix {i : ℕ} (hi : FitsQueryResult i) :
    Int8.ofNat i ≠ QueryResult.stringIsPrefix := by
  intro h
  have hmod := ofNat_eq_iff (k := 254) |>.mp h
  unfold FitsQueryResult at hi
  omega

/-- A small index survives the conversion to `size_t`. -/
lemma toSizeT_natCast {i : ℕ} (hi : FitsQueryResult i) : toSizeT i = i := by
  unfold toSizeT
  unfold FitsQueryResult at hi
  omega

/-- A harmless number is none of the codes that `lookup` acts on. -/
lemma HarmlessForLookup.ne_codes {i : ℕ} (hi : HarmlessForLookup i) :
    Int8.ofNat i ≠ QueryResult.same ∧ Int8.ofNat i ≠ QueryResult.labelIsPrefix ∧
      Int8.ofNat i ≠ QueryResult.dontMatch :=
  ⟨fun h => hi.1 (ofNat_eq_iff (k := 253) |>.mp h),
    fun h => hi.2.1 (ofNat_eq_iff (k := 255) |>.mp h),
    fun h => hi.2.2 (ofNat_eq_iff (k := 0) |>.mp h)⟩

/-! ## Walking down for a lookup -/

/-- A pointer to the payload of the sequence: it shows the payload that is held, and a write
through it stores another one. -/
structure PointsAt [Inhabited β] (n : Node α β) (s : List α) (p : PayloadPtr α β) : Prop where
  /-- The payload pointed at is the one that is held. -/
  val : ∀ e, Holds n s e ↔ e = p.val
  /-- A write stores the new payload. -/
  store : ∀ d, ∃ n', p.store d = some n' ∧ n'.label = n.label ∧ WellFormed n' ∧
    Puts (Holds n) (Holds n') s d

/-- What a finished lookup says: a null pointer for a sequence that is not held. -/
def Finds [Inhabited β] (n : Node α β) (s : List α) : Option (PayloadPtr α β) → Prop
  | none => ∀ e, ¬ Holds n s e
  | some p => PointsAt n s p

/-- The root payload is the payload of the empty sequence. -/
lemma pointsAt_nil [Inhabited β] {n : Node α β} (hn : WellFormed n) :
    PointsAt n [] ⟨n.data, fun d => some (n.setData d)⟩ := by
  cases n with
  | mk l e cs =>
    cases hn with
    | mk hne hlen hsorted hcs =>
      have hnil : ∀ (d e' : β), Holds (.mk l d cs) [] e' ↔ e' = d := by
        intro d e'
        rw [holds_iff]
        constructor
        · rintro (⟨-, rfl⟩ | ⟨c, hc, t, ht, -⟩)
          · rfl
          · exact absurd (List.append_eq_nil_iff.mp ht.symm).1 (hne c hc)
        · rintro rfl
          exact Or.inl ⟨rfl, rfl⟩
      have hcons : ∀ (d d' : β) (t : List α), t ≠ [] → ∀ e',
          Holds (.mk l d cs) t e' → Holds (.mk l d' cs) t e' := by
        intro d d' t ht e' h
        cases h with
        | here => exact absurd rfl ht
        | edge hc h => exact .edge hc h
      refine ⟨hnil e, fun d => ⟨_, rfl, rfl, .mk hne hlen hsorted hcs, hnil d, ?_, ?_⟩⟩
      · exact fun t ht e' => hcons e d t ht e'
      · exact fun t ht e' h => Or.inl (hcons d e t ht e' h)

/-- A pointer into a child is a pointer into the node. -/
lemma PointsAt.lift [Inhabited β] {n c : Node α β} {id : α} {before after} {s t : List α}
    (ha : Around n id before (some c) after) (hn : WellFormed n) (hlen : c.label.length < 2 ^ 32)
    (hs : s = c.label ++ t) (hhead : s.head? = some id) {p : PayloadPtr α β}
    (hp : PointsAt c t p) :
    PointsAt n s ⟨p.val, fun d => (p.store d).bind (setEdge n)⟩ := by
  have hchead := ha.at_head c rfl
  refine ⟨fun e => ?_, fun d => ?_⟩
  · rw [ha.holds_of_head hn hhead, ← hp.val e]
    simp [EdgeHolds, hs]
  · obtain ⟨c', hstore, hlabel, hwf, hputs⟩ := hp.store d
    have hset := ha.setEdge (m := c') (by rw [hlabel]; exact hchead)
    refine ⟨_, (congrArg (·.bind (setEdge n)) hstore).trans hset, Node.label_withChildren _ _, ?_⟩
    refine ha.puts hn hwf (by rw [hlabel]; exact hchead) (by rw [hlabel]; exact hlen) hhead ?_
    rw [hs]
    exact hputs.edge hlabel

/-- One step of the walk of `lookup` along an edge. -/
lemma lookupLoop_edge {n c : Node α β} {id : α} {s : List α} (hs : s.head? = some id)
    (hc : getEdge n id = some c) (fuel : ℕ) :
    lookupLoop (fuel + 1) n s =
      if query c s = QueryResult.same then
        some (some ⟨c.data, fun d => setEdge n (c.setData d)⟩)
      else if query c s = QueryResult.stringIsPrefix then some none
      else if query c s = QueryResult.dontMatch then none
      else if query c s = QueryResult.labelIsPrefix then
        if s.length < c.label.length then none
        else
          (lookupLoop fuel c (s.drop c.label.length)).map fun p =>
            p.map fun p => ⟨p.val, fun d => (p.store d).bind (setEdge n)⟩
      else some none := by
  obtain ⟨s', rfl⟩ := List.head?_eq_some_iff.mp hs
  rw [lookupLoop, hc]

/-- The walk of `lookup` finds exactly the held sequences. -/
lemma lookupLoop_spec [Inhabited β] (fuel : ℕ) {n : Node α β} {s : List α} (hn : WellFormed n)
    (hd : Departs HarmlessForLookup n s) (hs : s ≠ []) (hfuel : s.length ≤ fuel) :
    ∃ r, lookupLoop fuel n s = some r ∧ Finds n s r := by
  induction fuel generalizing n s with
  | zero => exact absurd (List.length_eq_zero_iff.mp (Nat.le_zero.mp hfuel)) hs
  | succ fuel ih =>
    obtain ⟨id, hhead⟩ : ∃ id, s.head? = some id := by
      obtain ⟨id, s', rfl⟩ := List.exists_cons_of_ne_nil hs
      exact ⟨id, rfl⟩
    obtain ⟨before, at_, after, ha⟩ := hn.around id
    have hheld : ∀ e, Holds n s e ↔ ∃ c ∈ at_, EdgeHolds c s e := fun e =>
      ha.holds_of_head hn hhead
    cases at_ with
    | none =>
      refine ⟨none, ?_, fun e he => by simpa using (hheld e).mp he⟩
      obtain ⟨s', rfl⟩ := List.head?_eq_some_iff.mp hhead
      rw [lookupLoop, ha.getEdge]
    | some c =>
      simp only [Option.mem_some_iff, exists_eq_left'] at hheld
      obtain ⟨hc, hclen, hcne⟩ := hn.child ha.mem
      have hchead := ha.at_head c rfl
      rw [lookupLoop_edge hhead ha.getEdge]
      generalize hl : c.label = l at *
      cases compared s l with
      | same s =>
        refine ⟨_, by rw [query_same hl hclen, if_pos rfl], ?_⟩
        have hp := (pointsAt_nil hc).lift ha hn (hl ▸ hclen) (by rw [hl, List.append_nil]) hhead
        exact hp
      | stringIsPrefix s y l =>
        refine ⟨none, ?_, fun e he => not_edgeHolds hl (Or.inl rfl) e ((hheld e).mp he)⟩
        rw [query_stringIsPrefix hl (hl ▸ hclen), if_neg (by decide), if_pos rfl]
      | labelIsPrefix l x s =>
        subst hl
        have hdrop : (c.label ++ x :: s).drop c.label.length = x :: s := by simp
        obtain ⟨r, hr, hfinds⟩ := ih hc (hd.child ha.mem) (List.cons_ne_nil x s) (by
          have := List.length_pos_iff.mpr hcne
          simp only [List.length_append, List.length_cons] at hfuel ⊢
          omega)
        rw [query_labelIsPrefix hd.1, if_neg (by decide), if_neg (by decide), if_neg (by decide),
          if_pos rfl, if_neg (by simp), hdrop, hr]
        refine ⟨_, rfl, ?_⟩
        cases r with
        | none =>
          intro e he
          obtain ⟨t, ht, hh⟩ := (hheld e).mp he
          rw [List.append_cancel_left_eq] at ht
          exact hfinds e (ht ▸ hh)
        | some p => exact PointsAt.lift ha hn hclen rfl hhead hfinds
      | diverge p s l hne =>
        have hpne : p ≠ [] := by
          rintro rfl
          simp only [List.nil_append, List.head?_cons, Option.some.injEq] at hhead hchead
          exact hne (hhead.trans hchead.symm)
        have hharm := hd.2 n _ c .refl ha.mem p _ _ s l rfl hl hne hpne
        refine ⟨none, ?_, fun e he =>
          not_edgeHolds hl (Or.inr ⟨_, s, rfl, hne⟩) e ((hheld e).mp he)⟩
        obtain ⟨h₁, h₂, h₃⟩ := hharm.ne_codes
        rw [query_diverge hne hl hd.1 (hl ▸ hclen), if_neg h₁, if_neg h₃, if_neg h₂, ite_self]

/-- `lookup` finds exactly the held sequences. -/
lemma lookup_spec [Inhabited β] {root : Node α β} {s : List α} (hn : WellFormed root)
    (hd : Departs HarmlessForLookup root s) : ∃ r, lookup root s = some r ∧ Finds root s r := by
  cases s with
  | nil => exact ⟨_, rfl, pointsAt_nil hn⟩
  | cons id s => exact lookupLoop_spec _ hn hd (List.cons_ne_nil id s) le_rfl

end Walks

/-! ## Changing what is held through one edge -/

/-- What is held through the edge into a node. -/
lemma edgeHolds_mk {p : List α} {d : β} {cs : List (Node α β)} {t : List α} {e : β} :
    EdgeHolds (.mk p d cs) t e ↔
      (t = p ∧ e = d) ∨ ∃ c ∈ cs, ∃ u, t = p ++ (c.label ++ u) ∧ Holds c u e := by
  constructor
  · rintro ⟨u, rfl, h⟩
    rcases holds_iff.mp h with ⟨rfl, rfl⟩ | ⟨c, hc, v, rfl, hv⟩
    · exact Or.inl ⟨List.append_nil _, rfl⟩
    · exact Or.inr ⟨c, hc, v, rfl, hv⟩
  · rintro (⟨rfl, rfl⟩ | ⟨c, hc, u, rfl, hu⟩)
    · exact ⟨[], (List.append_nil _).symm, .here⟩
    · exact ⟨c.label ++ u, rfl, .edge hc hu⟩

/-- The lower half of a split edge holds what the whole edge held. -/
lemma edgeHolds_split {c : Node α β} {p l : List α} {y : α} (hl : c.label = p ++ y :: l)
    {t : List α} {e : β} :
    (∃ u, t = p ++ ((y :: l) ++ u) ∧ Holds (.mk (y :: l) c.data c.children) u e) ↔
      EdgeHolds c t e := by
  unfold EdgeHolds
  simp only [holds_relabel, hl, List.append_assoc]

/-- The node that `splitEdge` puts after the first part `p` of the edge into `c`. -/
def splitNode [Inhabited β] (p : List α) (y : α) (l : List α) (c : Node α β) : Node α β :=
  .mk p default [.mk (y :: l) c.data c.children]

/-- A leaf holds the empty sequence only. -/
lemma holds_leaf {l : List α} {d : β} {t : List α} {e : β} :
    Holds (.mk l d []) t e ↔ t = [] ∧ e = d := by
  rw [holds_iff]
  simp [Node.data, Node.children]

/-- What is held through the edge into a leaf. -/
lemma edgeHolds_leaf {l : List α} {d : β} {t : List α} {e : β} :
    EdgeHolds (.mk l d []) t e ↔ t = l ∧ e = d := by
  simp [edgeHolds_mk]

/-- Adding a leaf where no edge starts with the first element of the sequence. -/
lemma puts_leaf [Inhabited β] (s : List α) (d : β) :
    Puts (fun t e => ∃ c ∈ (none : Option (Node α β)), EdgeHolds c t e)
      (EdgeHolds (.mk s d [])) s d := by
  refine ⟨fun e => ?_, fun t _ e h => ?_, fun t hts e h => ?_⟩
  · simp [edgeHolds_leaf]
  · simp at h
  · exact absurd (edgeHolds_leaf.mp h).1 hts

/-- Splitting an edge at the end of the sequence and storing the payload there. -/
lemma puts_split [Inhabited β] {c : Node α β} {s l : List α} {y : α} (hl : c.label = s ++ y :: l)
    (d : β) :
    Puts (fun t e => ∃ c₀ ∈ some c, EdgeHolds c₀ t e)
      (EdgeHolds ((splitNode s y l c).setData d)) s d := by
  have hnew : ∀ t e, EdgeHolds ((splitNode s y l c).setData d) t e ↔
      (t = s ∧ e = d) ∨ EdgeHolds c t e := by
    intro t e
    rw [← edgeHolds_split hl]
    exact edgeHolds_mk.trans (or_congr_right (by simp [Node.label]))
  simp only [Option.mem_some_iff, exists_eq_left']
  refine ⟨fun e => ?_, fun t _ e h => (hnew t e).mpr (Or.inr h), fun t hts e h => ?_⟩
  · rw [hnew]
    simp [not_edgeHolds hl (Or.inl rfl) e]
  · rcases (hnew t e).mp h with ⟨rfl, -⟩ | h
    · exact absurd rfl hts
    · exact Or.inl h

/-- Splitting an edge where the sequence departs from it and adding a leaf for the rest. -/
lemma puts_diverge [Inhabited β] {c m : Node α β} {p s l : List α} {x y : α}
    (hl : c.label = p ++ y :: l) (hne : x ≠ y) {d : β} {cs : List (Node α β)}
    (hcs : ∀ c', c' ∈ cs ↔ c' = .mk (x :: s) d [] ∨ c' = .mk (y :: l) c.data c.children)
    (hm : m = .mk p default cs) :
    Puts (fun t e => ∃ c₀ ∈ some c, EdgeHolds c₀ t e) (EdgeHolds m) (p ++ x :: s) d := by
  have hnew : ∀ t e, EdgeHolds m t e ↔
      (t = p ∧ e = default) ∨ (t = p ++ x :: s ∧ e = d) ∨ EdgeHolds c t e := by
    intro t e
    rw [hm, edgeHolds_mk, ← edgeHolds_split hl]
    simp only [hcs, or_and_right, exists_or, exists_eq_left]
    refine or_congr_right (or_congr_left ?_)
    simp [holds_leaf, Node.label]
  simp only [Option.mem_some_iff, exists_eq_left']
  refine ⟨fun e => ?_, fun t _ e h => (hnew t e).mpr (Or.inr (Or.inr h)), fun t hts e h => ?_⟩
  · rw [hnew]
    simp [not_edgeHolds hl (Or.inr ⟨x, s, rfl, hne⟩) e]
  · rcases (hnew t e).mp h with ⟨rfl, rfl⟩ | ⟨rfl, -⟩ | h
    · exact Or.inr ⟨rfl, not_edgeHolds hl (Or.inl rfl)⟩
    · exact absurd rfl hts
    · exact Or.inl h

/-! ## The map that a trie represents -/

/-- The trie reads as the map: a stored payload is the one that is held, and apart from these only
default payloads are held. -/
structure Represents [Inhabited β] (root : Node α β) (m : List α → Option β) : Prop where
  /-- Stored payloads are held, and no other payload at the same sequence. -/
  stored : ∀ s d, m s = some d → ∀ e, Holds root s e ↔ e = d
  /-- At other sequences only the default payload is held. -/
  default : ∀ s, m s = none → ∀ e, Holds root s e → e = default

/-- The empty trie represents the empty map. -/
lemma represents_empty [Inhabited β] : Represents (empty : Node α β) fun _ => none := by
  refine ⟨fun s d h => (nomatch h), fun s _ e h => ?_⟩
  exact (holds_leaf.mp h).2

section Insertion

variable [LinearOrder α]

/-! ## Walking down for an insertion -/

/-- A leaf is well formed. -/
lemma wellFormed_leaf (l : List α) (d : β) : WellFormed (.mk l d []) :=
  .mk (by simp) (by simp) .nil (by simp)

/-- Splitting an edge puts the new node in the place of the old child. -/
lemma splitEdge_eq [Inhabited β] {n c : Node α β} {id y : α} {p l : List α} {before after}
    (ha : Around n id before (some c) after) (hl : c.label = p ++ y :: l)
    (hp : p.head? = some id) :
    splitEdge n id p.length =
      some (n.withChildren (before ++ splitNode p y l c :: after), splitNode p y l c) := by
  have hlen : ¬ (p.length ≤ 0 ∨ (p ++ y :: l).length ≤ p.length) := by
    obtain ⟨p', rfl⟩ := List.head?_eq_some_iff.mp hp
    simp
  have hadd : addEdge (.mk p default []) (.mk (y :: l) c.data c.children)
      = some (splitNode p y l c) := rfl
  have hset : setEdge n (splitNode p y l c)
      = some (n.withChildren (before ++ splitNode p y l c :: after)) := ha.setEdge hp
  unfold splitEdge
  rw [ha.getEdge]
  simp only [Option.bind_eq_bind, Option.bind_some, hl, if_neg hlen, List.take_left, List.drop_left,
    hadd, hset]
  rfl

/-- One step of the walk of `addSeq` along an edge. -/
lemma addSeqLoop_edge [Inhabited β] {n c : Node α β} {id : α} {s : List α} {d : β}
    (hs : s.head? = some id) (hc : getEdge n id = some c) (fuel : ℕ) :
    addSeqLoop d (fuel + 1) n s =
      if query c s = QueryResult.same then some (false, n)
      else if query c s = QueryResult.stringIsPrefix then do
        let (n, m) ← splitEdge n id s.length
        let n ← setEdge n (m.setData d)
        return (true, n)
      else if query c s = QueryResult.dontMatch then none
      else if query c s = QueryResult.labelIsPrefix then
        if s.length < c.label.length then none
        else do
          let (b, m) ← addSeqLoop d fuel c (s.drop c.label.length)
          let n ← setEdge n m
          return (b, n)
      else do
        let (n, m) ← splitEdge n id (toSizeT (query c s).toInt)
        let m ← addEdge m (.mk (s.drop (query c s).toInt.toNat) d [])
        let n ← setEdge n m
        return (true, n) := by
  obtain ⟨s', rfl⟩ := List.head?_eq_some_iff.mp hs
  rw [addSeqLoop, hc]

/-- What an insertion of a sequence that is not held does. -/
def Inserts [Inhabited β] (n : Node α β) (s : List α) (d : β) (r : Option (Bool × Node α β)) :
    Prop :=
  ∃ n', r = some (true, n') ∧ n'.label = n.label ∧ WellFormed n' ∧ Puts (Holds n) (Holds n') s d

/-- An insertion through one edge is an insertion into the node. -/
lemma Around.inserts [Inhabited β] {n c : Node α β} {id : α} {before at_ after} {s : List α}
    {d : β} (ha : Around n id before at_ after) (hn : WellFormed n) (hc : WellFormed c)
    (hhead : c.label.head? = some id) (hlen : c.label.length < 2 ^ 32) (hs : s.head? = some id)
    (hputs : Puts (fun t e => ∃ c ∈ at_, EdgeHolds c t e) (EdgeHolds c) s d) :
    Inserts n s d (some (true, n.withChildren (before ++ c :: after))) :=
  ⟨_, rfl, Node.label_withChildren _ _, ha.puts hn hc hhead hlen hs hputs⟩

/-- The node after a split edge is well formed. -/
lemma wellFormed_splitNode [Inhabited β] {c : Node α β} {p l : List α} {y : α} (hc : WellFormed c)
    (hl : c.label = p ++ y :: l) (hlen : c.label.length < 2 ^ 32) :
    WellFormed (splitNode p y l c) := by
  rw [hl, List.length_append] at hlen
  refine .mk (by simp [Node.label]) ?_ (List.pairwise_singleton _ _) ?_
  · simp only [List.mem_singleton, forall_eq, Node.label]
    omega
  · simp only [List.mem_singleton, forall_eq]
    exact hc.relabel _ _

/-- Replacing the middle part of the children twice. -/
lemma Around.setEdge_replace {n c m : Node α β} {id : α} {before at_ after}
    (ha : Around n id before at_ after) (hc : c.label.head? = some id)
    (hm : m.label.head? = some id) :
    Trie.setEdge (n.withChildren (before ++ c :: after)) m
      = some (n.withChildren (before ++ m :: after)) := by
  rw [(ha.replace hc).setEdge hm, Node.withChildren_withChildren]

/-- Adding a leaf to the node after a split edge, where the sequence departs from the edge. -/
lemma addEdge_splitNode [Inhabited β] {c : Node α β} {p s l : List α} {x y : α} (d : β)
    (hwf : WellFormed (splitNode p y l c)) (hne : x ≠ y) (hlen : (x :: s).length < 2 ^ 32) :
    ∃ cs, addEdge (splitNode p y l c) (.mk (x :: s) d []) = some (.mk p default cs) ∧
      WellFormed (.mk p default cs : Node α β) ∧
      ∀ c', c' ∈ cs ↔ c' = .mk (x :: s) d [] ∨ c' = .mk (y :: l) c.data c.children := by
  obtain ⟨before, at_, after, ha⟩ := hwf.around x
  have hchildren : [Node.mk (y :: l) c.data c.children] = before ++ at_.toList ++ after :=
    ha.children
  cases at_ with
  | some c' =>
    have hmem : c' ∈ [Node.mk (y :: l) c.data c.children] := by rw [hchildren]; simp
    have hhead := ha.at_head c' rfl
    rw [List.mem_singleton.mp hmem, Node.label, List.head?_cons, Option.some.injEq] at hhead
    exact absurd hhead.symm hne
  | none =>
    refine ⟨before ++ .mk (x :: s) d [] :: after, ha.addEdge rfl,
      ha.wellFormed hwf (wellFormed_leaf _ d) rfl hlen, fun c' => ?_⟩
    rw [← List.mem_singleton (b := Node.mk (y :: l) c.data c.children), hchildren]
    simp only [Option.toList_none, List.mem_append, List.mem_cons, List.not_mem_nil, or_false]
    tauto

/-- The walk of `addSeq` inserts a sequence that is not held. -/
lemma addSeqLoop_spec [Inhabited β] (d : β) (fuel : ℕ) {n : Node α β} {s : List α}
    (hn : WellFormed n) (hd : Departs FitsQueryResult n s) (hs : s ≠ []) (hfuel : s.length ≤ fuel)
    (hnone : ∀ e, ¬ Holds n s e) : Inserts n s d (addSeqLoop d fuel n s) := by
  induction fuel generalizing n s with
  | zero => exact absurd (List.length_eq_zero_iff.mp (Nat.le_zero.mp hfuel)) hs
  | succ fuel ih =>
    obtain ⟨id, hhead⟩ : ∃ id, s.head? = some id := by
      obtain ⟨id, s', rfl⟩ := List.exists_cons_of_ne_nil hs
      exact ⟨id, rfl⟩
    obtain ⟨before, at_, after, ha⟩ := hn.around id
    cases at_ with
    | none =>
      have hadd : addSeqLoop d (fuel + 1) n s
          = some (true, n.withChildren (before ++ .mk s d [] :: after)) := by
        obtain ⟨s', rfl⟩ := List.head?_eq_some_iff.mp hhead
        rw [addSeqLoop, ha.getEdge]
        simp only [ha.addEdge (m := .mk (id :: s') d []) rfl]
        rfl
      rw [hadd]
      exact ha.inserts hn (wellFormed_leaf s d) hhead hd.1 hhead (puts_leaf s d)
    | some c =>
      obtain ⟨hc, hclen, hcne⟩ := hn.child ha.mem
      have hchead := ha.at_head c rfl
      rw [addSeqLoop_edge hhead ha.getEdge]
      generalize hl : c.label = l at *
      cases compared s l with
      | same s =>
        refine absurd ((ha.holds_of_head hn hhead).mpr ⟨c, rfl, [], ?_, ?_⟩) (hnone c.data)
        · rw [hl, List.append_nil]
        · exact holds_iff.mpr (Or.inl ⟨rfl, rfl⟩)
      | stringIsPrefix s y l =>
        have hwf := wellFormed_splitNode hc hl (hl ▸ hclen)
        have hset := ha.setEdge_replace (c := splitNode s y l c)
          (m := (splitNode s y l c).setData d) hhead hhead
        rw [query_stringIsPrefix hl (hl ▸ hclen), if_neg (by decide), if_pos rfl,
          splitEdge_eq ha hl hhead]
        simp only [Option.bind_eq_bind, Option.bind_some, hset]
        exact ha.inserts hn (hwf.relabel _ d) hhead hd.1 hhead (puts_split hl d)
      | labelIsPrefix l x s =>
        subst hl
        have hdrop : (c.label ++ x :: s).drop c.label.length = x :: s := by simp
        obtain ⟨m, hm, hlabel, hwf, hputs⟩ :=
          ih hc (hd.child ha.mem) (List.cons_ne_nil x s) (by
            have := List.length_pos_iff.mpr hcne
            simp only [List.length_append, List.length_cons] at hfuel ⊢
            omega) (fun e he => hnone e ((ha.holds_of_head hn hhead).mpr ⟨c, rfl, _, rfl, he⟩))
        rw [← hlabel] at hchead
        rw [query_labelIsPrefix hd.1, if_neg (by decide), if_neg (by decide), if_neg (by decide),
          if_pos rfl, if_neg (by simp), hdrop, hm]
        simp only [Option.bind_eq_bind, Option.bind_some, ha.setEdge hchead]
        exact ha.inserts hn hwf hchead (hlabel ▸ hclen) hhead (hputs.edge hlabel)
      | @diverge p x y s l hne =>
        have hpne : p ≠ [] := by
          rintro rfl
          simp only [List.nil_append, List.head?_cons, Option.some.injEq] at hhead hchead
          exact hne (hhead.trans hchead.symm)
        have hphead : p.head? = some id := by
          obtain ⟨z, p, rfl⟩ := List.exists_cons_of_ne_nil hpne
          simpa using hhead
        have hfits := hd.2 n _ c .refl ha.mem p x y s l rfl hl hne hpne
        have hlen : (x :: s).length < 2 ^ 32 := by
          have := hd.1
          rw [List.length_append] at this
          omega
        obtain ⟨h₁, h₂, h₃⟩ := (hd.harmless.2 n _ c .refl ha.mem p x y s l rfl hl hne hpne).ne_codes
        obtain ⟨cs, hadd, hwf, hcs⟩ :=
          addEdge_splitNode d (wellFormed_splitNode hc hl (hl ▸ hclen)) hne hlen
        have hset := ha.setEdge_replace (c := splitNode p y l c) (m := .mk p default cs)
          hphead hphead
        rw [query_diverge hne hl hd.1 (hl ▸ hclen), if_neg h₁,
          if_neg (ofNat_ne_stringIsPrefix hfits),
          if_neg h₃, if_neg h₂, toInt_ofNat_of_fits hfits, toSizeT_natCast hfits,
          Int.toNat_natCast, List.drop_left, splitEdge_eq ha hl hphead]
        simp only [Option.bind_eq_bind, Option.bind_some, hadd, hset]
        refine ha.inserts hn hwf hphead ?_ hhead (puts_diverge hl hne hcs rfl)
        have hplen := hd.1
        rw [List.length_append] at hplen
        exact (Nat.le_add_right _ _).trans_lt hplen

/-! ## Runs of insertions and overwrites -/

/-- One insertion or overwrite stores the payload. -/
lemma put_spec [Inhabited β] {root : Node α β} {s : List α} (d : β) (hn : WellFormed root)
    (hd : Departs FitsQueryResult root s) :
    ∃ root', put root s d = some root' ∧ WellFormed root' ∧
      Puts (Holds root) (Holds root') s d := by
  obtain ⟨r, hr, hfinds⟩ := lookup_spec hn hd.harmless
  unfold put
  rw [hr]
  cases r with
  | some p =>
    obtain ⟨root', hstore, -, hwf, hputs⟩ := hfinds.store d
    exact ⟨root', hstore, hwf, hputs⟩
  | none =>
    cases s with
    | nil => exact absurd (holds_iff.mpr (Or.inl ⟨rfl, rfl⟩)) (hfinds root.data)
    | cons id s =>
      obtain ⟨root', hadd, -, hwf, hputs⟩ :=
        addSeqLoop_spec d _ hn hd (List.cons_ne_nil id s) le_rfl hfinds
      refine ⟨root', ?_, hwf, hputs⟩
      simp only [Option.bind_eq_bind, Option.bind_some, addSeq, hadd, Option.map_some]

/-- Storing a payload in the trie stores it in the map. -/
lemma Represents.update [Inhabited β] {root root' : Node α β} {m : List α → Option β} {s : List α}
    {d : β} (h : Represents root m) (hputs : Puts (Holds root) (Holds root') s d) :
    Represents root' (Function.update m s (some d)) := by
  refine ⟨fun t e hte e' => ?_, fun t ht e hte => ?_⟩
  · by_cases hts : t = s
    · subst hts
      rw [Function.update_self, Option.some.injEq] at hte
      exact hte ▸ hputs.stored e'
    · rw [Function.update_of_ne hts] at hte
      have hold := h.stored t e hte
      constructor
      · intro h'
        rcases hputs.onlyDefault t hts e' h' with h' | ⟨-, hnone⟩
        · exact (hold e').mp h'
        · exact absurd ((hold e).mpr rfl) (hnone e)
      · rintro rfl
        exact hputs.keeps t hts e' ((hold e').mpr rfl)
  · by_cases hts : t = s
    · subst hts
      rw [Function.update_self] at ht
      cases ht
    · rw [Function.update_of_ne hts] at ht
      rcases hputs.onlyDefault t hts e hte with h' | ⟨he, -⟩
      · exact h.default t ht e h'
      · exact he

/-- The payloads stored last by a sequence of operations. -/
def stored (ops : List (List α × β)) : List α → Option β :=
  ops.foldl (fun m op => Function.update m op.1 (some op.2)) fun _ => none

/-- Every operation of the run finds a trie whose edges its sequence leaves early. -/
def RunDeparts [Inhabited β] : Node α β → List (List α × β) → Prop
  | _, [] => True
  | root, (s, d) :: ops =>
    Departs FitsQueryResult root s ∧ ∀ root', put root s d = some root' → RunDeparts root' ops

/-- A run keeps the trie well formed and in step with the map. -/
lemma putAll_spec [Inhabited β] (ops : List (List α × β)) {root : Node α β}
    {m : List α → Option β} (hn : WellFormed root) (hm : Represents root m)
    (hops : RunDeparts root ops) :
    ∃ root', putAll root ops = some root' ∧ WellFormed root' ∧
      Represents root' (ops.foldl (fun m op => Function.update m op.1 (some op.2)) m) := by
  induction ops generalizing root m with
  | nil => exact ⟨root, rfl, hn, hm⟩
  | cons op ops ih =>
    obtain ⟨s, d⟩ := op
    obtain ⟨hd, hrest⟩ := hops
    obtain ⟨root₁, hput, hwf, hputs⟩ := put_spec d hn hd
    obtain ⟨root', hall, hwf', hm'⟩ := ih hwf (hm.update hputs) (hrest root₁ hput)
    refine ⟨root', ?_, hwf', hm'⟩
    simp only [putAll, hput, Option.bind_eq_bind, Option.bind_some, hall]

/-- `lookup` answers with the payload stored last, and with a null pointer or a default payload for
a sequence that was never stored. -/
def ReadsBack [Inhabited β] (root : Node α β) (ops : List (List α × β)) (s : List α) : Prop :=
  ∃ r, lookup root s = some r ∧
    match stored ops s with
    | some d => r.map PayloadPtr.val = some d
    | none => ∀ p ∈ r, p.val = default

/-- **The trie is a finite map.**  After a run in which no sequence leaves an edge label after more
common elements than a signed byte can count, `lookup` reads back what was stored. -/
theorem putAll_readsBack [Inhabited β] (ops : List (List α × β))
    (hops : RunDeparts (empty : Node α β) ops) :
    ∃ root, putAll (empty : Node α β) ops = some root ∧
      ∀ s, Departs HarmlessForLookup root s → ReadsBack root ops s := by
  obtain ⟨root, hall, hwf, hm⟩ := putAll_spec ops wellFormed_empty represents_empty hops
  refine ⟨root, hall, fun s hs => ?_⟩
  obtain ⟨r, hr, hfinds⟩ := lookup_spec hwf hs
  refine ⟨r, hr, ?_⟩
  cases hst : stored ops s with
  | some d =>
    have hheld := (hm.stored s d hst d).mpr rfl
    cases r with
    | none => exact absurd hheld (hfinds d)
    | some p => exact congrArg some ((hfinds.val d).mp hheld).symm
  | none =>
    rintro p hp
    rw [Option.mem_def] at hp
    subst hp
    exact hm.default s hst _ ((hfinds.val _).mpr rfl)

/-- A run of short sequences leaves every edge label early. -/
lemma runDeparts_of_short [Inhabited β] (ops : List (List α × β)) (root : Node α β)
    (hops : ∀ op ∈ ops, op.1.length ≤ 128) : RunDeparts root ops := by
  induction ops generalizing root with
  | nil => trivial
  | cons op ops ih =>
    exact ⟨departs_of_short (hops op (by simp)),
      fun root' _ => ih root' fun op' h => hops op' (List.mem_cons_of_mem _ h)⟩

end Insertion

/-- A stored sequence, a proper prefix of it, a sequence that departs from it, and an overwrite. -/
def shortOps : List (List ℕ × ℕ) := [([1, 2, 3], 7), ([1, 2], 8), ([1, 5], 9), ([1, 2, 3], 4)]

/-- The run theorem at `shortOps`. -/
theorem putAll_shortOps : ∃ root, putAll (empty : Node ℕ ℕ) shortOps = some root ∧
    ReadsBack root shortOps [1, 2, 3] ∧ ReadsBack root shortOps [1] := by
  obtain ⟨root, hall, hread⟩ :=
    putAll_readsBack shortOps (runDeparts_of_short shortOps empty (by decide))
  exact ⟨root, hall, hread _ (departs_of_short (by decide)).harmless,
    hread _ (departs_of_short (by decide)).harmless⟩

/-- The values that a thread has seen so far, as the keys of the label cache. -/
abbrev Values := List (Fin (2 ^ 64))

/-- A stored history of 254 equal values. -/
def longStored : Values := List.replicate 254 0

/-- A history that departs from `longStored` after 253 values. -/
def longQuery : Values := List.replicate 253 0 ++ [1]

set_option maxRecDepth 4000 in
/-- The byte of 253 is the code of `same`: a history that was never stored reads back the payload
of another one. -/
theorem longQuery_not_readsBack :
    ∃ root, putAll (empty : Node (Fin (2 ^ 64)) ℕ) [(longStored, 7)] = some root ∧
      ¬ ReadsBack root [(longStored, 7)] longQuery := by
  have hread : (putAll (empty : Node (Fin (2 ^ 64)) ℕ) [(longStored, 7)]).bind
      (fun root => (lookup root longQuery).map (Option.map PayloadPtr.val)) = some (some 7) := by
    decide
  obtain ⟨root, hall, hroot⟩ := Option.bind_eq_some_iff.mp hread
  refine ⟨root, hall, ?_⟩
  rintro ⟨r, hr, hstored⟩
  have hnone : stored [(longStored, 7)] longQuery = none := by decide
  rw [hr, Option.map_some, Option.some.injEq] at hroot
  obtain ⟨p, rfl, hp⟩ := Option.map_eq_some_iff.mp hroot
  rw [hnone] at hstored
  exact absurd (hp.symm.trans (hstored p rfl)) (by decide)

end Trie

end GenMC
