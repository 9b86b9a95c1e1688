import GenMC.Lib.Warren

/-!
# The closure of a matrix

A `Matrix2D` stores a relation on its elements row by row in one vector.  `transClosure` is Warren's
algorithm on this vector.  It computes positions in the vector with the type `int`, and the last
position of the first pass is the square of the size, less two.  Therefore it computes the closure
of a matrix with up to 46340 elements, and has undefined behaviour for larger ones.
-/

namespace GenMC

/-- `Matrix2D`.  A vector holds less than `2 ^ 63` values. -/
structure Matrix2D (T : Type*) where
  elems : List T
  matrix : List Bool
  length_matrix : matrix.length = elems.length * elems.length
  length_lt : elems.length * elems.length < 2 ^ 63

namespace Matrix2D

variable {T : Type*}

/-- `Matrix2D::Matrix2D`: a matrix without edges. -/
def ofElems (es : List T) (h : es.length * es.length < 2 ^ 63) : Matrix2D T :=
  ⟨es, List.replicate (es.length * es.length) false, List.length_replicate, h⟩

/-- `Matrix2D::size`. -/
def size (m : Matrix2D T) : ℕ := m.elems.length

/-- An entry of the vector is written. -/
def set (m : Matrix2D T) (pos : ℕ) (b : Bool) : Matrix2D T :=
  { m with
    matrix := m.matrix.set pos b
    length_matrix := by rw [List.length_set, m.length_matrix] }

/-- `i * len + j` with the arithmetic of `int`; `none` is an overflow. -/
def intIndex (i len j : ℕ) : Option ℕ :=
  if i * len + j < 2 ^ 31 then some (i * len + j) else none

/-- The innermost loop of `transClosure`: the row of `k` is added to that of `i`. -/
def orRow (m : Matrix2D T) (len i k : ℕ) : Option (Matrix2D T) :=
  (List.range len).foldlM (fun m j =>
    (intIndex i len j).bind fun ij => (intIndex k len j).bind fun kj =>
    m.matrix[ij]?.bind fun x => m.matrix[kj]?.map fun y => m.set ij (x || y)) m

/-- The body of the two loops over `k`. -/
def visit (m : Matrix2D T) (len i k : ℕ) : Option (Matrix2D T) :=
  (intIndex i len k).bind fun ik => m.matrix[ik]?.bind fun b =>
  if b then m.orRow len i k else some m

/-- `(int) size()`. -/
def intSize (m : Matrix2D T) : ℤ := (BitVec.ofNat 32 m.size).toInt

/-- `Matrix2D::transClosure`; `none` stands for undefined behaviour. -/
def transClosure (m : Matrix2D T) : Option (Matrix2D T) :=
  -- `len - 1` overflows for the smallest `int`, and no loop is entered for other negative ones
  if m.intSize = -2 ^ 31 then none
  else
    let len := m.intSize.toNat
    ((List.range' 1 (len - 1)).foldlM (fun m i =>
      (List.range i).foldlM (fun m k => visit m len i k) m) m).bind fun m =>
    (List.range (len - 1)).foldlM (fun m i =>
      (List.range' (i + 1) (len - (i + 1))).foldlM (fun m k => visit m len i k) m) m

/-- The relation that a matrix stores, on the indices of its elements. -/
def rel (m : Matrix2D T) (a b : ℕ) : Prop :=
  a < m.size ∧ b < m.size ∧ m.matrix[a * m.size + b]? = some true

/-- The closure is computed: the elements stay, and the relation is the transitive closure of the
one before. -/
def ComputesClosure (m : Matrix2D T) : Prop :=
  ∃ m', m.transClosure = some m' ∧ m'.elems = m.elems ∧
    ∀ a b, m'.rel a b ↔ Relation.TransGen m.rel a b

/-! ### Rows -/

/-- Positions tell rows and columns apart. -/
lemma index_inj {n a b i j : ℕ} (hb : b < n) (hj : j < n) :
    a * n + b = i * n + j ↔ a = i ∧ b = j := by
  constructor
  · intro h
    have ha : (a * n + b) / n = a := by
      rw [Nat.mul_comm, Nat.mul_add_div (by omega), Nat.div_eq_of_lt hb, Nat.add_zero]
    have hi : (i * n + j) / n = i := by
      rw [Nat.mul_comm, Nat.mul_add_div (by omega), Nat.div_eq_of_lt hj, Nat.add_zero]
    obtain rfl : a = i := by rw [← ha, h, hi]
    exact ⟨rfl, Nat.add_left_cancel h⟩
  · rintro ⟨rfl, rfl⟩
    rfl

lemma index_lt {n a b : ℕ} (ha : a < n) (hb : b < n) : a * n + b < n * n := by
  have hmul := Nat.mul_le_mul_right n (Nat.succ_le_of_lt ha)
  rw [Nat.succ_mul] at hmul
  omega

/-- Sizes for which every position is an `int`. -/
lemma mul_self_lt {n : ℕ} (hn : n ≤ 46340) : n * n < 2 ^ 31 :=
  (Nat.mul_le_mul hn hn).trans_lt (by norm_num)

lemma intIndex_eq {n a b : ℕ} (hn : n ≤ 46340) (ha : a < n) (hb : b < n) :
    intIndex a n b = some (a * n + b) :=
  if_pos ((index_lt ha hb).trans (mul_self_lt hn))

/-- An entry of the vector tells about the relation. -/
lemma exists_entry (m : Matrix2D T) {a b : ℕ} (ha : a < m.size) (hb : b < m.size) :
    ∃ x, m.matrix[a * m.size + b]? = some x ∧ (x = true ↔ m.rel a b) := by
  have hlt : a * m.size + b < m.matrix.length := by
    rw [m.length_matrix]
    exact index_lt ha hb
  refine ⟨m.matrix[a * m.size + b], List.getElem?_eq_getElem hlt, ?_⟩
  rw [rel, List.getElem?_eq_getElem hlt, Option.some.injEq]
  exact ⟨fun h => ⟨ha, hb, h⟩, fun h => h.2.2⟩

/-- The relation after an entry is written. -/
lemma rel_set (m : Matrix2D T) {i j : ℕ} (hi : i < m.size) (hj : j < m.size) (x : Bool) (a b : ℕ) :
    (m.set (i * m.size + j) x).rel a b ↔
      (a = i ∧ b = j ∧ x = true) ∨ (¬(a = i ∧ b = j) ∧ m.rel a b) := by
  have hlt : i * m.size + j < m.matrix.length := by
    rw [m.length_matrix]
    exact index_lt hi hj
  have hrel : (m.set (i * m.size + j) x).rel a b ↔ a < m.size ∧ b < m.size ∧
      (m.matrix.set (i * m.size + j) x)[a * m.size + b]? = some true := Iff.rfl
  rw [hrel, List.getElem?_set, rel]
  by_cases hb : b < m.size
  · by_cases heq : a = i ∧ b = j
    · obtain ⟨rfl, rfl⟩ := heq
      simp [hi, hj, hlt]
    · have hne : i * m.size + j ≠ a * m.size + b := fun h => heq ((index_inj hb hj).mp h.symm)
      rw [if_neg hne]
      constructor
      · exact fun h => .inr ⟨heq, h⟩
      · rintro (⟨ha, hb', -⟩ | h)
        · exact absurd ⟨ha, hb'⟩ heq
        · exact h.2
  · constructor
    · exact fun h => absurd h.2.1 hb
    · rintro (⟨-, rfl, -⟩ | h)
      · exact absurd hj hb
      · exact absurd h.2.2.1 hb

/-- **The innermost loop** adds a row to another one. -/
lemma orRow_spec (m : Matrix2D T) (hn : m.size ≤ 46340) {i k : ℕ} (hi : i < m.size)
    (hk : k < m.size) (hne : i ≠ k) : ∃ m', m.orRow m.size i k = some m' ∧ m'.elems = m.elems ∧
      ∀ a b, m'.rel a b ↔ m.rel a b ∨ (a = i ∧ m.rel k b) := by
  -- the columns before `len` are done
  have hloop : ∀ len, len ≤ m.size → ∃ m', (List.range len).foldlM (fun m' j =>
      (intIndex i m.size j).bind fun ij => (intIndex k m.size j).bind fun kj =>
      m'.matrix[ij]?.bind fun x => m'.matrix[kj]?.map fun y => m'.set ij (x || y)) m = some m' ∧
      m'.elems = m.elems ∧ ∀ a b, m'.rel a b ↔ m.rel a b ∨ (a = i ∧ b < len ∧ m.rel k b) := by
    intro len hlen
    induction len with
    | zero => exact ⟨m, rfl, rfl, fun a b => by simp⟩
    | succ j ih =>
      obtain ⟨m', hm', helems, hrel⟩ := ih (by omega)
      have hsize : m'.size = m.size := by rw [size, helems, size]
      rw [List.range_succ, List.foldlM_append, hm', Option.bind_eq_bind, Option.bind_some,
        List.foldlM_cons, intIndex_eq hn hi hlen, intIndex_eq hn hk hlen, ← hsize]
      rw [← hsize] at hi hk hlen
      obtain ⟨x, hx, hxrel⟩ := m'.exists_entry hi hlen
      obtain ⟨y, hy, hyrel⟩ := m'.exists_entry hk hlen
      refine ⟨m'.set (i * m'.size + j) (x || y), ?_, helems, fun a b => ?_⟩
      · simp [hx, hy]
      · rw [rel_set m' hi hlen, Bool.or_eq_true, hxrel, hyrel, hrel, hrel, hrel]
        by_cases heq : a = i ∧ b = j
        · obtain ⟨rfl, rfl⟩ := heq
          simp [Ne.symm hne]
        · have hlt : a = i → (b < j + 1 ↔ b < j) := by
            rintro rfl
            have : b ≠ j := fun h => heq ⟨rfl, h⟩
            omega
          grind
  obtain ⟨m', hm', helems, hrel⟩ := hloop m.size le_rfl
  refine ⟨m', hm', helems, fun a b => (hrel a b).trans (or_congr_right ?_)⟩
  exact and_congr_right fun _ => ⟨And.right, fun h => ⟨h.2.1, h⟩⟩

/-- The body of the loops over `k`. -/
lemma visit_spec (m : Matrix2D T) (hn : m.size ≤ 46340) {i k : ℕ} (hi : i < m.size)
    (hk : k < m.size) (hne : i ≠ k) : ∃ m', visit m m.size i k = some m' ∧ m'.elems = m.elems ∧
      m'.rel = addRow m.rel i k := by
  obtain ⟨x, hx, hxrel⟩ := m.exists_entry hi hk
  have hvisit : visit m m.size i k = if x then m.orRow m.size i k else some m := by
    rw [visit, intIndex_eq hn hi hk, Option.bind_some, hx, Option.bind_some]
  cases x with
  | true =>
    obtain ⟨m', hm', helems, hrel⟩ := m.orRow_spec hn hi hk hne
    refine ⟨m', by rw [hvisit, if_pos rfl, hm'], helems, ?_⟩
    funext a b
    simp only [addRow, hrel, hxrel.mp rfl, true_and]
  | false =>
    refine ⟨m, by rw [hvisit, if_neg Bool.false_ne_true], rfl, ?_⟩
    funext a b
    have hno : ¬m.rel i k := fun h => Bool.false_ne_true (hxrel.mpr h)
    simp only [addRow, hno, false_and, and_false, or_false]

/-! ### The two passes -/

/-- A loop whose body changes the relation in a known way. -/
lemma foldlM_spec {f : Matrix2D T → ℕ → Option (Matrix2D T)}
    {g : (ℕ → ℕ → Prop) → ℕ → ℕ → ℕ → Prop} {es : List T} {xs : List ℕ}
    (hf : ∀ x ∈ xs, ∀ m : Matrix2D T, m.elems = es →
      ∃ m', f m x = some m' ∧ m'.elems = es ∧ m'.rel = g m.rel x)
    {m : Matrix2D T} (hm : m.elems = es) :
    ∃ m', xs.foldlM f m = some m' ∧ m'.elems = es ∧ m'.rel = xs.foldl g m.rel := by
  induction xs generalizing m with
  | nil => exact ⟨m, rfl, hm, rfl⟩
  | cons x xs ih =>
    obtain ⟨m', hm', helems, hrel⟩ := hf x List.mem_cons_self m hm
    obtain ⟨m'', hm'', helems', hrel'⟩ := ih (fun x hx => hf x (List.mem_cons_of_mem _ hx)) helems
    refine ⟨m'', ?_, helems', ?_⟩
    · rw [List.foldlM_cons, hm']
      exact hm''
    · rw [hrel', hrel, List.foldl_cons]

/-- The loop over the entries of a row. -/
lemma foldlM_visit {es : List T} (hn : es.length ≤ 46340) {i : ℕ} (hi : i < es.length) {ks : List ℕ}
    (hks : ∀ k ∈ ks, k < es.length ∧ i ≠ k) {m : Matrix2D T} (hm : m.elems = es) :
    ∃ m', ks.foldlM (fun m k => visit m es.length i k) m = some m' ∧ m'.elems = es ∧
      m'.rel = addRows i ks m.rel := by
  refine foldlM_spec (fun k hk m hm => ?_) hm
  subst hm
  exact m.visit_spec hn hi (hks k hk).1 (hks k hk).2

/-- Sizes up to `2 ^ 31` are kept by the cast to `int`. -/
lemma intSize_of_lt (m : Matrix2D T) (h : m.size < 2 ^ 31) : m.intSize = m.size := by
  rw [intSize, BitVec.toInt_eq_toNat_of_lt] <;> rw [BitVec.toNat_ofNat] <;> omega

/-- The first pass follows the algorithm. -/
lemma exists_passBelow (m : Matrix2D T) (hn : m.elems.length ≤ 46340) :
    ∃ m', (List.range' 1 (m.elems.length - 1)).foldlM (fun m' i =>
        (List.range i).foldlM (fun m' k => visit m' m.elems.length i k) m') m = some m' ∧
      m'.elems = m.elems ∧ m'.rel = passBelow m.elems.length m.rel := by
  refine foldlM_spec (fun i hi m' hm' => foldlM_visit hn ?_ (fun k hk => ?_) hm') rfl
  · rw [List.mem_range'_1] at hi
    omega
  · rw [List.mem_range'_1] at hi
    rw [List.mem_range] at hk
    omega

/-- The second pass follows the algorithm. -/
lemma exists_passAbove (m : Matrix2D T) (hn : m.elems.length ≤ 46340) :
    ∃ m', (List.range (m.elems.length - 1)).foldlM (fun m' i =>
        (List.range' (i + 1) (m.elems.length - (i + 1))).foldlM
          (fun m' k => visit m' m.elems.length i k) m') m = some m' ∧
      m'.elems = m.elems ∧ m'.rel = passAbove m.elems.length m.rel := by
  refine foldlM_spec (fun i hi m' hm' => foldlM_visit hn ?_ (fun k hk => ?_) hm') rfl
  · rw [List.mem_range] at hi
    omega
  · rw [List.mem_range] at hi
    rw [List.mem_range'_1] at hk
    omega

/-- **The code follows the algorithm** as long as positions are small. -/
theorem transClosure_eq_warren (m : Matrix2D T) (hn : m.size ≤ 46340) :
    ∃ m', m.transClosure = some m' ∧ m'.elems = m.elems ∧ m'.rel = warren m.size m.rel := by
  have hsize : m.intSize = m.elems.length := m.intSize_of_lt (by omega)
  obtain ⟨m₁, hm₁, helems₁, hrel₁⟩ := m.exists_passBelow hn
  obtain ⟨m₂, hm₂, helems₂, hrel₂⟩ := m₁.exists_passAbove (helems₁ ▸ hn)
  rw [helems₁] at hm₂ helems₂ hrel₂
  refine ⟨m₂, ?_, helems₂, ?_⟩
  · rw [transClosure, if_neg (by omega)]
    simp only [hsize, Int.toNat_natCast, hm₁, Option.bind_some, hm₂]
  · rw [hrel₂, hrel₁]
    rfl

/-! ### Large matrices -/

/-- The position of the last entry before the diagonal is no `int`. -/
lemma visit_eq_none {n : ℕ} (hn : 46341 ≤ n) (m : Matrix2D T) :
    visit m n (n - 1) (n - 2) = none := by
  obtain ⟨d, rfl⟩ := Nat.exists_eq_add_of_le hn
  have hlarge : ¬(46341 + d - 1) * (46341 + d) + (46341 + d - 2) < 2 ^ 31 := by
    have hmul : 46340 * 46341 ≤ (46341 + d - 1) * (46341 + d) :=
      Nat.mul_le_mul (by omega) (by omega)
    omega
  rw [visit, intIndex, if_neg hlarge, Option.bind_none]

/-- A loop in which some round fails. -/
lemma foldlM_eq_none {α β : Type*} {f : β → α → Option β} {xs : List α} {x : α} (hx : x ∈ xs)
    (hf : ∀ b, f b x = none) (b : β) : xs.foldlM f b = none := by
  obtain ⟨front, back, rfl⟩ := List.append_of_mem hx
  rw [List.foldlM_append]
  cases front.foldlM f b with
  | none => rfl
  | some b' =>
    rw [Option.bind_eq_bind, Option.bind_some, List.foldlM_cons, hf]
    rfl

/-- From 46341 elements on the first pass overflows. -/
lemma transClosure_eq_none (m : Matrix2D T) (hn : 46341 ≤ m.size) (hlt : m.size ≤ 2 ^ 31) :
    m.transClosure = none := by
  rw [transClosure]
  split
  · rfl
  · next hne =>
    have hlt' : m.size < 2 ^ 31 := by
      refine lt_of_le_of_ne hlt fun heq => hne ?_
      rw [intSize, heq]
      rfl
    have hsize : m.intSize = m.size := m.intSize_of_lt hlt'
    have hpass : (List.range' 1 (m.size - 1)).foldlM (fun m' i =>
        (List.range i).foldlM (fun m' k => visit m' m.size i k) m') m = none := by
      refine foldlM_eq_none (x := m.size - 1) (List.mem_range'_1.mpr (by omega)) (fun m' => ?_) m
      exact foldlM_eq_none (x := m.size - 2) (List.mem_range.mpr (by omega))
        (fun m' => visit_eq_none hn m') m'
    simp only [hsize, Int.toNat_natCast, hpass, Option.bind_none]

/-- Beyond the range of `int` the size is negative, and nothing happens. -/
lemma transClosure_eq_self (m : Matrix2D T) (hn : 2 ^ 31 < m.size) : m.transClosure = some m := by
  have hlt : m.size < 2 ^ 32 := by
    by_contra hge
    have hmul := Nat.mul_le_mul (not_lt.mp hge) (not_lt.mp hge)
    have hfits := m.length_lt
    rw [size] at hmul
    omega
  have hsize : m.intSize = (m.size : ℤ) - 2 ^ 32 := by
    rw [intSize, BitVec.toInt_eq_toNat_cond, BitVec.toNat_ofNat, Nat.mod_eq_of_lt hlt,
      if_neg (by omega)]
    norm_num
  have hlen : m.intSize.toNat = 0 := by omega
  rw [transClosure, if_neg (by omega)]
  simp only [hlen]
  rfl

/-- **When the closure is computed**: for up to 46340 elements.  For more than `2 ^ 31` elements the
matrix is left as it is. -/
theorem computesClosure_iff (m : Matrix2D T) :
    m.ComputesClosure ↔ m.size ≤ 46340 ∨
      (2 ^ 31 < m.size ∧ ∀ a b c, m.rel a b → m.rel b c → m.rel a c) := by
  obtain hsmall | hlarge := Nat.lt_or_ge 46340 m.size |>.symm
  · refine iff_of_true ?_ (.inl hsmall)
    obtain ⟨m', hm', helems, hrel⟩ := m.transClosure_eq_warren hsmall
    refine ⟨m', hm', helems, fun a b => ?_⟩
    rw [hrel]
    exact warren_iff_transGen (fun a b h => h.1) a b
  obtain hle | hgt := Nat.lt_or_ge (2 ^ 31) m.size |>.symm
  · refine iff_of_false ?_ (by omega)
    rintro ⟨m', hm', -⟩
    rw [m.transClosure_eq_none hlarge hle] at hm'
    cases hm'
  · constructor
    · rintro ⟨m', hm', -, hrel⟩
      rw [m.transClosure_eq_self hgt] at hm'
      obtain rfl := Option.some.inj hm'
      exact .inr ⟨hgt, fun a b c hab hbc => (hrel a c).mpr (.tail (.single hab) hbc)⟩
    · rintro (hle | ⟨-, htrans⟩)
      · omega
      · refine ⟨m, m.transClosure_eq_self hgt, rfl, fun a b => ⟨.single, fun h => ?_⟩⟩
        induction h with
        | single h => exact h
        | tail _ hbc ih => exact htrans _ _ _ ih hbc

@[simp]
lemma size_ofElems (es : List T) (h : es.length * es.length < 2 ^ 63) :
    (ofElems es h).size = es.length := rfl

lemma length_range_large : (List.range 46341).length * (List.range 46341).length < 2 ^ 63 := by
  rw [List.length_range]
  norm_num

/-- A matrix of 46341 elements, without any edge. -/
theorem not_computesClosure_large :
    ¬(ofElems (List.range 46341) length_range_large).ComputesClosure := by
  rintro ⟨m', hm', -⟩
  rw [transClosure_eq_none _ (by rw [size_ofElems, List.length_range])
    (by rw [size_ofElems, List.length_range]; norm_num)] at hm'
  cases hm'

end Matrix2D

end GenMC
