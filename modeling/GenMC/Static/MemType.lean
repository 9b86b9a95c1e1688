import GenMC.Lib.ByteMemory
import GenMC.Static.SSAFunction

/-!
# Types of objects in memory

The objects of a program are integers, pointers, arrays and structs.  A layout says where the
scalars of an object are: an array holds its elements one after the other, and a struct its
elements at the next aligned offset, unless it is packed.  The bytes of an object that belong to
no scalar are its padding.

A scalar is reached by a path of indices.  `getelementptr` takes the indices of arrays as signed
numbers, and an index of 32 bits therefore reaches the element only below `2 ^ 31`.
-/

namespace GenMC

/-- `Type`: the types of objects in memory. -/
inductive MemType where
  | integer (width : ℕ+)
  | pointer
  | array (numElements : ℕ) (elementType : MemType)
  | struct (packed : Bool) (elements : List MemType)

/-- Structural induction: in the case of a struct the statement may be assumed for every
element. -/
@[elab_as_elim, induction_eliminator]
theorem MemType.inductionOn {motive : MemType → Prop}
    (integer : ∀ width, motive (integer width))
    (pointer : motive pointer)
    (array : ∀ numElements elementType, motive elementType →
      motive (array numElements elementType))
    (struct : ∀ packed elements, (∀ typ ∈ elements, motive typ) → motive (struct packed elements))
    (typ : MemType) : motive typ := by
  refine @MemType.rec motive (fun elements => ∀ typ ∈ elements, motive typ)
    integer pointer array struct ?_ ?_ typ
  · exact fun typ htyp => absurd htyp List.not_mem_nil
  · intro typ elements htyp helements t ht
    obtain rfl | ht := List.mem_cons.mp ht
    · exact htyp
    · exact helements t ht

namespace MemType

mutual

/-- No array has more elements than an `i32` can count. -/
def IndicesFit : MemType → Prop
  | .integer _ => True
  | .pointer => True
  | .array numElements elementType => numElements ≤ 2 ^ 31 ∧ IndicesFit elementType
  | .struct _ elements => ElementsFit elements

/-- The same of all elements of a struct. -/
def ElementsFit : List MemType → Prop
  | [] => True
  | typ :: elements => IndicesFit typ ∧ ElementsFit elements

end

lemma IndicesFit.of_mem {packed : Bool} {elements : List MemType} {typ : MemType}
    (h : IndicesFit (.struct packed elements)) (htyp : typ ∈ elements) : typ.IndicesFit := by
  rw [IndicesFit] at h
  induction elements with
  | nil => exact absurd htyp List.not_mem_nil
  | cons first elements ih =>
    rw [ElementsFit] at h
    obtain rfl | htyp := List.mem_cons.mp htyp
    · exact h.1
    · exact ih h.2 htyp

end MemType

/-- The data layout of a target. -/
structure TargetLayout extends DataLayout where
  pointer_pos : 0 < pointerSizeInBits
  align_pos : ∀ typ, 0 < abiAlignment typ

/-- A scalar inside of an object. -/
structure Scalar where
  /-- The indices that lead to it. -/
  path : List ℕ
  /-- Its distance from the beginning of the object, in bytes. -/
  offset : ℕ
  /-- An integer or a pointer. -/
  typ : MemType

/-- A scalar of an element is a scalar of the aggregate. -/
def Scalar.under (index start : ℕ) (sc : Scalar) : Scalar :=
  ⟨index :: sc.path, start + sc.offset, sc.typ⟩

/-- `alignTo`. -/
def alignTo (size alignment : ℕ) : ℕ := (size + alignment - 1) / alignment * alignment

lemma le_alignTo (size : ℕ) {alignment : ℕ} (h : 0 < alignment) :
    size ≤ alignTo size alignment := by
  have hmod := Nat.div_add_mod (size + alignment - 1) alignment
  have hlt := Nat.mod_lt (size + alignment - 1) h
  rw [Nat.mul_comm] at hmod
  unfold alignTo
  omega

/-- An `i32` as an index of an array. -/
def signedIndex (index : ℕ) : ℤ := (BitVec.ofNat 32 index).toInt

lemma signedIndex_of_lt {index : ℕ} (h : index < 2 ^ 31) : signedIndex index = index := by
  rw [signedIndex, BitVec.toInt_eq_toNat_of_lt] <;> rw [BitVec.toNat_ofNat] <;> omega

namespace TargetLayout

variable (DL : TargetLayout)

mutual

/-- `DataLayout::getABITypeAlign`. -/
def getABITypeAlign : MemType → ℕ
  | .integer width => DL.abiAlignment (.integer width)
  | .pointer => DL.abiAlignment .pointer
  | .array _ elementType => getABITypeAlign elementType
  | .struct packed elements => if packed then 1 else getMaxAlign elements

/-- The largest alignment of the elements of a struct. -/
def getMaxAlign : List MemType → ℕ
  | [] => 1
  | typ :: elements => max (getABITypeAlign typ) (getMaxAlign elements)

end

/-- The offset of an element of a struct, where the ones before it end at an offset. -/
def elementStart (packed : Bool) (stop : ℕ) (typ : MemType) : ℕ :=
  if packed then stop else alignTo stop (DL.getABITypeAlign typ)

/-- `DataLayout::getTypeSizeInBits` of an integer or a pointer. -/
def scalarBits : MemType → ℕ
  | .integer width => width
  | .pointer => DL.pointerSizeInBits
  | _ => 0

mutual

/-- `DataLayout::getTypeAllocSize`. -/
def getTypeAllocSize : MemType → ℕ
  | .integer width => alignTo (Memory.storeSize width) (DL.abiAlignment (.integer width))
  | .pointer => alignTo (Memory.storeSize DL.pointerSizeInBits) (DL.abiAlignment .pointer)
  | .array numElements elementType => numElements * getTypeAllocSize elementType
  | .struct packed elements =>
    alignTo (structEnd packed elements 0) (if packed then 1 else DL.getMaxAlign elements)

/-- Where the elements of a struct end that begin at an offset. -/
def structEnd (packed : Bool) : List MemType → ℕ → ℕ
  | [], stop => stop
  | typ :: elements, stop =>
    structEnd packed elements (DL.elementStart packed stop typ + getTypeAllocSize typ)

end

mutual

/-- The scalars of an object, in the order of their offsets. -/
def scalars : MemType → List Scalar
  | .integer width => [⟨[], 0, .integer width⟩]
  | .pointer => [⟨[], 0, .pointer⟩]
  | .array numElements elementType => (List.range numElements).flatMap fun index =>
    (scalars elementType).map (Scalar.under index (index * DL.getTypeAllocSize elementType))
  | .struct packed elements => structScalars packed elements 0 0

/-- The scalars of the elements of a struct from an index on. -/
def structScalars (packed : Bool) : List MemType → ℕ → ℕ → List Scalar
  | [], _, _ => []
  | typ :: elements, index, stop =>
    let start := DL.elementStart packed stop typ
    (scalars typ).map (Scalar.under index start) ++
      structScalars packed elements (index + 1) (start + DL.getTypeAllocSize typ)

end

mutual

/-- The distance that `getelementptr` adds for the indices after the first one. -/
def getElementOffset : MemType → List ℕ → Option ℤ
  | _, [] => some 0
  | .array _ elementType, index :: rest => (getElementOffset elementType rest).map fun offset =>
    signedIndex index * DL.getTypeAllocSize elementType + offset
  | .struct packed elements, index :: rest => structElementOffset packed elements index 0 rest
  | _, _ :: _ => none

/-- The distance for an index of a struct and the indices after it. -/
def structElementOffset (packed : Bool) : List MemType → ℕ → ℕ → List ℕ → Option ℤ
  | [], _, _, _ => none
  | typ :: _, 0, stop, rest => (getElementOffset typ rest).map fun offset =>
    DL.elementStart packed stop typ + offset
  | typ :: elements, index + 1, stop, rest => structElementOffset packed elements index
    (DL.elementStart packed stop typ + DL.getTypeAllocSize typ) rest

end

/-- The distance that `getelementptr` adds to its pointer. -/
def gepOffset (typ : MemType) : List ℕ → Option ℤ
  | [] => none
  | first :: indices => (DL.getElementOffset typ indices).map fun offset =>
    first * DL.getTypeAllocSize typ + offset

/-- The bytes of a scalar. -/
def scalarSize (sc : Scalar) : ℕ := Memory.storeSize (DL.scalarBits sc.typ)

/-- A byte belongs to a scalar. -/
def Covers (sc : Scalar) (k : ℤ) : Prop := sc.offset ≤ k ∧ k < sc.offset + DL.scalarSize sc

instance (sc : Scalar) (k : ℤ) : Decidable (DL.Covers sc k) :=
  inferInstanceAs (Decidable (_ ∧ _))

/-- A byte of an object belongs to none of its scalars. -/
def Padding (typ : MemType) (k : ℤ) : Prop :=
  0 ≤ k ∧ k < DL.getTypeAllocSize typ ∧ ∀ sc ∈ DL.scalars typ, ¬DL.Covers sc k

lemma getABITypeAlign_pos (typ : MemType) : 0 < DL.getABITypeAlign typ := by
  induction typ with
  | integer width => exact DL.align_pos _
  | pointer => exact DL.align_pos _
  | array n elementType ih => simpa only [getABITypeAlign] using ih
  | struct packed elements ih =>
    have hmax : 0 < DL.getMaxAlign elements := by
      cases elements with
      | nil => exact Nat.one_pos
      | cons typ elements =>
        rw [getMaxAlign]
        exact lt_max_of_lt_left (ih typ List.mem_cons_self)
    rw [getABITypeAlign]
    split
    · exact Nat.one_pos
    · exact hmax

lemma le_elementStart (packed : Bool) (stop : ℕ) (typ : MemType) :
    stop ≤ DL.elementStart packed stop typ := by
  unfold elementStart
  split
  · exact le_rfl
  · exact le_alignTo _ (DL.getABITypeAlign_pos typ)

/-- The elements of a struct end after they begin. -/
lemma le_structEnd (packed : Bool) (elements : List MemType) (stop : ℕ) :
    stop ≤ DL.structEnd packed elements stop := by
  induction elements generalizing stop with
  | nil => exact le_rfl
  | cons typ elements ih =>
    rw [structEnd]
    have hstart := DL.le_elementStart packed stop typ
    have hrest := ih (DL.elementStart packed stop typ + DL.getTypeAllocSize typ)
    omega

lemma structEnd_le (packed : Bool) (elements : List MemType) :
    DL.structEnd packed elements 0 ≤ DL.getTypeAllocSize (.struct packed elements) := by
  rw [getTypeAllocSize]
  refine le_alignTo _ ?_
  have hpos := DL.getABITypeAlign_pos (.struct packed elements)
  rwa [getABITypeAlign] at hpos

section

variable {DL : TargetLayout}

/-- A scalar of a struct is a scalar of one of the elements, which has a place of its own. -/
lemma mem_structScalars {packed : Bool} {elements : List MemType} {index stop : ℕ} {sc : Scalar}
    (h : sc ∈ DL.structScalars packed elements index stop) :
    ∃ k start, ∃ typ ∈ elements, ∃ sub ∈ DL.scalars typ, sc = sub.under (index + k) start ∧
      stop ≤ start ∧ start + DL.getTypeAllocSize typ ≤ DL.structEnd packed elements stop ∧
      ∀ rest, DL.structElementOffset packed elements k stop rest =
        (DL.getElementOffset typ rest).map fun offset => (start : ℤ) + offset := by
  induction elements generalizing index stop with
  | nil => exact absurd h List.not_mem_nil
  | cons typ elements ih =>
    rw [structScalars, List.mem_append] at h
    have hstart := DL.le_elementStart packed stop typ
    rcases h with h | h
    · obtain ⟨sub, hsub, rfl⟩ := List.mem_map.mp h
      refine ⟨0, DL.elementStart packed stop typ, typ, List.mem_cons_self, sub, hsub, rfl, hstart,
        ?_, fun rest => by rw [structElementOffset]⟩
      rw [structEnd]
      exact DL.le_structEnd _ _ _
    · obtain ⟨k, start, typ', htyp', sub, hsub, rfl, hstop, hend, hoffset⟩ := ih h
      refine ⟨k + 1, start, typ', List.mem_cons_of_mem _ htyp', sub, hsub, ?_, by omega, ?_,
        fun rest => ?_⟩
      · rw [show index + (k + 1) = index + 1 + k by omega]
      · rwa [structEnd]
      · rw [structElementOffset]
        exact hoffset rest

/-- A scalar of an array is a scalar of one of its elements. -/
lemma mem_scalars_array {n : ℕ} {elementType : MemType} {sc : Scalar} :
    sc ∈ DL.scalars (.array n elementType) ↔ ∃ index < n, ∃ sub ∈ DL.scalars elementType,
      sub.under index (index * DL.getTypeAllocSize elementType) = sc := by
  simp only [scalars, List.mem_flatMap, List.mem_range, List.mem_map]

/-- A scalar has at least one bit. -/
lemma scalarBits_pos {typ : MemType} {sc : Scalar} (h : sc ∈ DL.scalars typ) :
    0 < DL.scalarBits sc.typ := by
  induction typ generalizing sc with
  | integer width =>
    rw [scalars, List.mem_singleton] at h
    subst h
    exact width.pos
  | pointer =>
    rw [scalars, List.mem_singleton] at h
    subst h
    exact DL.pointer_pos
  | array n elementType ih =>
    obtain ⟨index, -, sub, hsub, rfl⟩ := mem_scalars_array.mp h
    have hpos := ih hsub
    exact hpos
  | struct packed elements ih =>
    rw [scalars] at h
    obtain ⟨k, start, typ, htyp, sub, hsub, rfl, -⟩ := mem_structScalars h
    have hpos := ih typ htyp hsub
    exact hpos

lemma scalarSize_pos {typ : MemType} {sc : Scalar} (h : sc ∈ DL.scalars typ) :
    0 < DL.scalarSize sc :=
  Memory.storeSize_pos (scalarBits_pos h)

@[simp]
lemma scalarSize_under (sc : Scalar) (index start : ℕ) :
    DL.scalarSize (sc.under index start) = DL.scalarSize sc := rfl

/-- The scalars lie inside of the object. -/
lemma scalar_le_allocSize {typ : MemType} {sc : Scalar} (h : sc ∈ DL.scalars typ) :
    sc.offset + DL.scalarSize sc ≤ DL.getTypeAllocSize typ := by
  induction typ generalizing sc with
  | integer width =>
    rw [scalars, List.mem_singleton] at h
    subst h
    rw [getTypeAllocSize, Nat.zero_add]
    exact le_alignTo _ (DL.align_pos _)
  | pointer =>
    rw [scalars, List.mem_singleton] at h
    subst h
    rw [getTypeAllocSize, Nat.zero_add]
    exact le_alignTo _ (DL.align_pos _)
  | array n elementType ih =>
    obtain ⟨index, hindex, sub, hsub, rfl⟩ := mem_scalars_array.mp h
    have hsub := ih hsub
    have hmul := Nat.mul_le_mul_right (DL.getTypeAllocSize elementType) hindex
    rw [Nat.succ_mul] at hmul
    rw [getTypeAllocSize, scalarSize_under]
    simp only [Scalar.under]
    omega
  | struct packed elements ih =>
    rw [scalars] at h
    obtain ⟨k, start, typ, htyp, sub, hsub, rfl, -, hend, -⟩ := mem_structScalars h
    have hsub := ih typ htyp hsub
    have hstruct := DL.structEnd_le packed elements
    rw [scalarSize_under]
    simp only [Scalar.under]
    omega

/-- One scalar ends before another one begins. -/
def Before (DL : TargetLayout) (sc sc' : Scalar) : Prop :=
  sc.offset + DL.scalarSize sc ≤ sc'.offset

lemma pairwise_under {scs : List Scalar} (h : scs.Pairwise DL.Before) (index start : ℕ) :
    (scs.map (Scalar.under index start)).Pairwise DL.Before := by
  refine List.pairwise_map.mpr (h.imp fun {sc sc'} hle => ?_)
  rw [Before] at hle ⊢
  rw [scalarSize_under]
  simp only [Scalar.under]
  omega

lemma pairwise_structScalars (packed : Bool) {elements : List MemType}
    (h : ∀ typ ∈ elements, (DL.scalars typ).Pairwise DL.Before) (index stop : ℕ) :
    (DL.structScalars packed elements index stop).Pairwise DL.Before := by
  induction elements generalizing index stop with
  | nil => exact List.Pairwise.nil
  | cons typ elements ih =>
    rw [structScalars, List.pairwise_append]
    refine ⟨pairwise_under (h typ List.mem_cons_self) _ _,
      ih (fun typ htyp => h typ (List.mem_cons_of_mem _ htyp)) _ _, ?_⟩
    intro sc hsc sc' hsc'
    obtain ⟨sub, hsub, rfl⟩ := List.mem_map.mp hsc
    obtain ⟨k, start, -, -, sub', -, rfl, hstop, -⟩ := mem_structScalars hsc'
    have hsub := scalar_le_allocSize hsub
    rw [Before, scalarSize_under]
    simp only [Scalar.under]
    omega

/-- The scalars of an object follow each other. -/
lemma pairwise_scalars (typ : MemType) : (DL.scalars typ).Pairwise DL.Before := by
  induction typ with
  | integer width => exact List.pairwise_singleton _ _
  | pointer => exact List.pairwise_singleton _ _
  | array n elementType ih =>
    rw [scalars, List.pairwise_flatMap]
    refine ⟨fun index _ => pairwise_under ih _ _, List.pairwise_lt_range.imp fun {i j} hij => ?_⟩
    intro sc hsc sc' hsc'
    obtain ⟨sub, hsub, rfl⟩ := List.mem_map.mp hsc
    obtain ⟨sub', -, rfl⟩ := List.mem_map.mp hsc'
    have hsub := scalar_le_allocSize hsub
    have hmul := Nat.mul_le_mul_right (DL.getTypeAllocSize elementType) (Nat.succ_le_of_lt hij)
    rw [Nat.succ_mul] at hmul
    rw [Before, scalarSize_under]
    simp only [Scalar.under]
    omega
  | struct packed elements ih =>
    rw [scalars]
    exact pairwise_structScalars packed ih 0 0

/-- The indices of a scalar lead to it, where no index is too large. -/
lemma getElementOffset_path {typ : MemType} (hfits : typ.IndicesFit) {sc : Scalar}
    (h : sc ∈ DL.scalars typ) : DL.getElementOffset typ sc.path = some (sc.offset : ℤ) := by
  induction typ generalizing sc with
  | integer width =>
    rw [scalars, List.mem_singleton] at h
    subst h
    rfl
  | pointer =>
    rw [scalars, List.mem_singleton] at h
    subst h
    rfl
  | array n elementType ih =>
    obtain ⟨index, hindex, sub, hsub, rfl⟩ := mem_scalars_array.mp h
    rw [MemType.IndicesFit] at hfits
    rw [Scalar.under, getElementOffset, ih hfits.2 hsub, Option.map_some,
      signedIndex_of_lt (by omega)]
    push_cast
    rfl
  | struct packed elements ih =>
    rw [scalars] at h
    obtain ⟨k, start, typ, htyp, sub, hsub, rfl, -, -, hoffset⟩ := mem_structScalars h
    rw [Scalar.under, Nat.zero_add, getElementOffset, hoffset,
      ih typ htyp (hfits.of_mem htyp) hsub, Option.map_some]
    push_cast
    rfl

end

end TargetLayout

end GenMC
