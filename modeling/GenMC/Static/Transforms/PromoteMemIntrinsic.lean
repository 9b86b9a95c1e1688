import GenMC.Static.MemType

/-!
# Promotion of memory intrinsics

The pass replaces a `memcpy` or a `memset` of constant length by one load and store, or one store,
for each scalar of the type that the destination points to.  The intrinsic works on the bytes of a
range, and the replacement on the scalars of a type; the length takes no part in it.

The replacement leaves every byte outside of the padding as the intrinsic does if and only if the
length covers exactly the scalars of the destination, all scalars consist of whole bytes, and the
source has them at the same offsets, or the fill byte is the byte of every stored constant
(`promotion_preserves_iff`).
-/

namespace GenMC

/-- The operands that the pass distinguishes. -/
inductive PromotionOperand where
  | globalVariable (valueType : MemType)
  | alloca (allocatedType : MemType)
  | getElementPtr (resultElementType : MemType)
  -- a constant that is not a global variable
  | constant
  | other

/-- `MemIntrinsic`; a length is given where it is a constant, and the fill byte is one. -/
inductive MemIntrinsic where
  | memCpy (dest source : PromotionOperand) (length : Option ℕ)
  | memSet (dest : PromotionOperand) (value : BitVec 8) (length : Option ℕ)

namespace MemIntrinsic

/-- `getDest`. -/
def getDest : MemIntrinsic → PromotionOperand
  | memCpy dest _ _ => dest
  | memSet dest _ _ => dest

/-- `getLength`. -/
def getLength : MemIntrinsic → Option ℕ
  | memCpy _ _ length => length
  | memSet _ _ length => length

/-- The memory after the intrinsic. -/
def apply (MI : MemIntrinsic) (dest source : ℤ) (len : ℕ) (mem : Memory) : Memory :=
  match MI with
  | memCpy _ _ _ => mem.copy dest source len
  | memSet _ value _ => mem.fill dest value len

end MemIntrinsic

/-- What is emitted for a scalar: the distances are added to the pointers of the intrinsic. -/
inductive PromotedInst where
  -- a load from the source and a store to the destination
  | loadStore (typ : MemType) (srcGEP dstGEP : ℤ)
  | store {width : ℕ} (value : BitVec width) (dstGEP : ℤ)

/-- The memory after what is emitted for a scalar. -/
def PromotedInst.exec (DL : TargetLayout) (dest source : ℤ) (mem : Memory) :
    PromotedInst → Memory
  | loadStore typ srcGEP dstGEP =>
    mem.store (mem.load (DL.scalarBits typ) (source + srcGEP)) (dest + dstGEP)
  | store value dstGEP => mem.store value (dest + dstGEP)

/-- The memory after all that is emitted. -/
def runPromoted (DL : TargetLayout) (dest source : ℤ) (code : List PromotedInst) (mem : Memory) :
    Memory :=
  code.foldl (PromotedInst.exec DL dest source) mem

/-! ## The pass -/

section

variable (DL : TargetLayout)

/-- `isPromotableMemIntrinsicOperand`. -/
def isPromotableMemIntrinsicOperand : PromotionOperand → Bool
  | .other => false
  | _ => true

/-- `getPromotionGEPType`; there is no result where it reports a bug. -/
def getPromotionGEPType : PromotionOperand → Option MemType
  | .globalVariable valueType => some valueType
  | .alloca allocatedType => some allocatedType
  | .getElementPtr resultElementType => some resultElementType
  | .constant => none
  | .other => none

/-- `promoteMemCpy`. -/
def promoteMemCpy (dst src : PromotionOperand) (typ : MemType) (args : List ℕ) :
    Option (List PromotedInst) := do
  let srcGEP ← DL.gepOffset (← getPromotionGEPType src) args
  let dstGEP ← DL.gepOffset (← getPromotionGEPType dst) args
  return [.loadStore typ srcGEP dstGEP]

/-- The constant that `promoteMemSet` stores: `APInt(sizeInBits, ival)` takes the 64 bits of `ival`
as a number without a sign. -/
def memSetConstant (value : BitVec 8) (sizeInBits : ℕ) : BitVec sizeInBits :=
  (value.signExtend 64).setWidth sizeInBits

/-- `promoteMemSet`. -/
def promoteMemSet (dst : PromotionOperand) (value : BitVec 8) (typ : MemType) (args : List ℕ) :
    Option (List PromotedInst) := do
  let dstGEP ← DL.gepOffset (← getPromotionGEPType dst) args
  return [.store (memSetConstant value (DL.scalarBits typ)) dstGEP]

/-- What a function emits for all elements of a list. -/
def emitAll {α β : Type*} (emit : α → Option (List β)) : List α → Option (List β)
  | [] => some []
  | a :: l => do return (← emit a) ++ (← emitAll emit l)

mutual

/-- `promoteMemIntrinsic`.  The index of an array is a number of 32 bits, so that the loop does not
end for `2 ^ 32` elements. -/
def promoteMemIntrinsic (promoteFun : MemType → List ℕ → Option (List PromotedInst)) :
    MemType → List ℕ → Option (List PromotedInst)
  | .integer width, args => promoteFun (.integer width) args
  | .pointer, args => promoteFun .pointer args
  | .array numElements elementType, args =>
    if numElements < 2 ^ 32 then
      emitAll (fun i => promoteMemIntrinsic promoteFun elementType (args ++ [i]))
        (List.range numElements)
    else none
  | .struct _ elements, args => promoteElements promoteFun elements 0 args

/-- The loop over the elements of a struct. -/
def promoteElements (promoteFun : MemType → List ℕ → Option (List PromotedInst)) :
    List MemType → ℕ → List ℕ → Option (List PromotedInst)
  | [], _, _ => some []
  | typ :: elements, i, args => do
    return (← promoteMemIntrinsic promoteFun typ (args ++ [i])) ++
      (← promoteElements promoteFun elements (i + 1) args)

end

/-- `canPromoteMemIntrinsic`. -/
def canPromoteMemIntrinsic (MI : MemIntrinsic) : Bool :=
  match MI.getLength with
  | none => false
  | some size =>
    if size = 0 then false
    else
      match MI with
      | .memCpy dest source _ =>
        isPromotableMemIntrinsicOperand dest && isPromotableMemIntrinsicOperand source
      | .memSet dest _ _ => isPromotableMemIntrinsicOperand dest

/-- `tryPromoteMemCpy` and `tryPromoteMemSet`: whether the intrinsic is promoted, and what is
emitted for it. -/
def tryPromote (MI : MemIntrinsic) : Option (Bool × List PromotedInst) :=
  if canPromoteMemIntrinsic MI then do
    let dstTyp ← getPromotionGEPType MI.getDest
    let promoteFun := match MI with
      | .memCpy dest source _ => promoteMemCpy DL dest source
      | .memSet dest value _ => promoteMemSet DL dest value
    return (true, ← promoteMemIntrinsic promoteFun dstTyp [0])
  else some (false, [])

end

/-! ## What the promotion keeps -/

/-- The source of a `memcpy` is the destination, or their ranges are disjoint. -/
def OverlapAllowed (dest source : ℤ) (len : ℕ) : Prop :=
  dest = source ∨ dest + len ≤ source ∨ source + len ≤ dest

/-- What is emitted leaves every byte outside of the padding as the intrinsic does. -/
def PromotionPreserves (DL : TargetLayout) (MI : MemIntrinsic) : Prop :=
  ∃ len code, MI.getLength = some len ∧ tryPromote DL MI = some (true, code) ∧
    ∀ dstTyp, getPromotionGEPType MI.getDest = some dstTyp →
      ∀ mem dest source, OverlapAllowed dest source len → ∀ k, ¬DL.Padding dstTyp k →
        runPromoted DL dest source code mem (dest + k) = MI.apply dest source len mem (dest + k)

/-- No array of the destination has more elements than an `i32` can count. -/
def MemIntrinsic.IndicesFit (MI : MemIntrinsic) : Prop :=
  ∀ dstTyp, getPromotionGEPType MI.getDest = some dstTyp → dstTyp.IndicesFit

/-- A length covers the scalars of an object and stays inside of it. -/
structure Spans (DL : TargetLayout) (typ : MemType) (len : ℕ) : Prop where
  length_le : len ≤ DL.getTypeAllocSize typ
  scalar_le : ∀ sc ∈ DL.scalars typ, sc.offset + DL.scalarSize sc ≤ len

/-- The constant of a fill byte for a scalar consists of this byte. -/
def FillsScalar (value : BitVec 8) (sizeInBits : ℕ) : Prop :=
  value = 0 ∨ (sizeInBits ≤ 8 ∧ value.toNat < 2 ^ sizeInBits) ∨
    (value = 255 ∧ 8 ∣ sizeInBits ∧ sizeInBits ≤ 64)

/-- The condition for a scalar of the destination. -/
def ScalarPromotes (DL : TargetLayout) (sc : Scalar) : MemIntrinsic → Prop
  | .memCpy _ source _ => 8 ∣ DL.scalarBits sc.typ ∧ ∃ srcTyp,
    getPromotionGEPType source = some srcTyp ∧
      DL.gepOffset srcTyp (0 :: sc.path) = some (sc.offset : ℤ)
  | .memSet _ value _ => FillsScalar value (DL.scalarBits sc.typ)

/-- The condition under which the promotion keeps the meaning. -/
def PromotesExactly (DL : TargetLayout) (MI : MemIntrinsic) : Prop :=
  ∃ len dstTyp, MI.getLength = some len ∧ getPromotionGEPType MI.getDest = some dstTyp ∧
    dstTyp.IndicesFit ∧ Spans DL dstTyp len ∧ ∀ sc ∈ DL.scalars dstTyp, ScalarPromotes DL sc MI

/-! ## What is emitted -/

section

variable {α β γ : Type*} {emit : α → Option (List β)}

lemma emitAll_append (l l' : List α) :
    emitAll emit (l ++ l') = (do return (← emitAll emit l) ++ (← emitAll emit l')) := by
  induction l with
  | nil => cases h : emitAll emit l' <;> simp [emitAll, h]
  | cons a l ih =>
    rw [List.cons_append, emitAll, emitAll, ih]
    cases emit a <;> cases emitAll emit l <;> cases emitAll emit l' <;> simp

lemma emitAll_map (g : γ → α) (l : List γ) :
    emitAll emit (l.map g) = emitAll (fun c => emit (g c)) l := by
  induction l with
  | nil => rfl
  | cons a l ih => rw [List.map_cons, emitAll, emitAll, ih]

lemma emitAll_flatMap (g : γ → List α) (l : List γ) :
    emitAll emit (l.flatMap g) = emitAll (fun c => emitAll emit (g c)) l := by
  induction l with
  | nil => rfl
  | cons a l ih => rw [List.flatMap_cons, emitAll_append, emitAll, ih]

lemma exists_emit_of_emitAll {l : List α} {out : List β} (h : emitAll emit l = some out) {a : α}
    (ha : a ∈ l) : ∃ out', emit a = some out' := by
  induction l generalizing out with
  | nil => exact absurd ha List.not_mem_nil
  | cons b l ih =>
    rw [emitAll] at h
    cases hb : emit b with
    | none => simp [hb] at h
    | some outb =>
      cases hl : emitAll emit l with
      | none => simp [hb, hl] at h
      | some outl =>
        obtain rfl | ha := List.mem_cons.mp ha
        · exact ⟨outb, hb⟩
        · exact ih hl ha

lemma emitAll_eq_map {l : List α} {g : α → β} (h : ∀ a ∈ l, emit a = some [g a]) :
    emitAll emit l = some (l.map g) := by
  induction l with
  | nil => rfl
  | cons a l ih =>
    rw [emitAll, h a List.mem_cons_self, ih fun b hb => h b (List.mem_cons_of_mem _ hb)]
    rfl

end

section

variable (DL : TargetLayout) {promoteFun : MemType → List ℕ → Option (List PromotedInst)}

/-- The function is called for the scalars of the elements of a struct in their order. -/
lemma promoteElements_eq {elements : List MemType} (args : List ℕ)
    (h : ∀ typ ∈ elements, ∀ args, promoteMemIntrinsic promoteFun typ args =
      emitAll (fun sc => promoteFun sc.typ (args ++ sc.path)) (DL.scalars typ))
    (packed : Bool) (i stop : ℕ) :
    promoteElements promoteFun elements i args =
      emitAll (fun sc => promoteFun sc.typ (args ++ sc.path))
        (DL.structScalars packed elements i stop) := by
  induction elements generalizing i stop with
  | nil => rfl
  | cons typ elements ih =>
    rw [promoteElements, TargetLayout.structScalars, emitAll_append, emitAll_map,
      h typ List.mem_cons_self, ih (fun typ htyp => h typ (List.mem_cons_of_mem _ htyp)) (i + 1)
        (DL.elementStart packed stop typ + DL.getTypeAllocSize typ)]
    simp only [Scalar.under, List.append_assoc, List.singleton_append]

/-- The recursion over the type calls the function for the scalars in their order. -/
lemma promoteMemIntrinsic_eq {typ : MemType} (hfits : typ.IndicesFit) (args : List ℕ) :
    promoteMemIntrinsic promoteFun typ args =
      emitAll (fun sc => promoteFun sc.typ (args ++ sc.path)) (DL.scalars typ) := by
  induction typ generalizing args with
  | integer width =>
    rw [promoteMemIntrinsic, TargetLayout.scalars, emitAll, emitAll, List.append_nil]
    cases promoteFun (.integer width) args <;> simp
  | pointer =>
    rw [promoteMemIntrinsic, TargetLayout.scalars, emitAll, emitAll, List.append_nil]
    cases promoteFun .pointer args <;> simp
  | array n elementType ih =>
    rw [MemType.IndicesFit] at hfits
    rw [promoteMemIntrinsic, if_pos (by omega), TargetLayout.scalars, emitAll_flatMap]
    congr 1
    funext i
    rw [ih hfits.2, emitAll_map]
    simp only [Scalar.under, List.append_assoc, List.singleton_append]
  | struct packed elements ih =>
    rw [promoteMemIntrinsic, TargetLayout.scalars]
    exact promoteElements_eq DL args (fun typ htyp args => ih typ htyp (hfits.of_mem htyp) args)
      packed 0 0

end

/-! ## Runs of what is emitted -/

section

variable {DL : TargetLayout} {dest source : ℤ} {inst : Scalar → PromotedInst}
  {byte : Scalar → Memory → ℤ → BitVec 8}

/-- What is emitted for a scalar writes the bytes of the scalar, and only them. -/
def WritesScalars (DL : TargetLayout) (dest source : ℤ) (inst : Scalar → PromotedInst)
    (byte : Scalar → Memory → ℤ → BitVec 8) : Prop :=
  ∀ sc mem k, (inst sc).exec DL dest source mem (dest + k) =
    if DL.Covers sc k then byte sc mem k else mem (dest + k)

/-- A byte of no scalar keeps its value. -/
lemma runPromoted_of_not_covers (hwrites : WritesScalars DL dest source inst byte)
    {scs : List Scalar} {k : ℤ} (hk : ∀ sc ∈ scs, ¬DL.Covers sc k) (mem : Memory) :
    runPromoted DL dest source (scs.map inst) mem (dest + k) = mem (dest + k) := by
  induction scs generalizing mem with
  | nil => rfl
  | cons sc scs ih =>
    have hrest := ih (fun sc hsc => hk sc (List.mem_cons_of_mem _ hsc))
      ((inst sc).exec DL dest source mem)
    rw [hwrites, if_neg (hk sc List.mem_cons_self)] at hrest
    exact hrest

/-- A byte of a scalar has the value that is emitted for it, where this value does not depend on
the other scalars. -/
lemma runPromoted_of_covers (hwrites : WritesScalars DL dest source inst byte)
    {scs : List Scalar} (hpairwise : scs.Pairwise DL.Before)
    (hbyte : ∀ sc ∈ scs, ∀ sc' ∈ scs, ∀ mem k, DL.Covers sc k →
      byte sc ((inst sc').exec DL dest source mem) k = byte sc mem k)
    {sc : Scalar} (hsc : sc ∈ scs) {k : ℤ} (hk : DL.Covers sc k) (mem : Memory) :
    runPromoted DL dest source (scs.map inst) mem (dest + k) = byte sc mem k := by
  induction scs generalizing mem with
  | nil => exact absurd hsc List.not_mem_nil
  | cons first scs ih =>
    obtain ⟨hfirst, hrest⟩ := List.pairwise_cons.mp hpairwise
    obtain rfl | hsc := List.mem_cons.mp hsc
    · -- the scalars after it begin after the byte
      have hlater : ∀ sc' ∈ scs, ¬DL.Covers sc' k := by
        intro sc' hsc' hk'
        have hbefore := hfirst sc' hsc'
        rw [TargetLayout.Before] at hbefore
        rw [TargetLayout.Covers] at hk hk'
        omega
      have hrun := runPromoted_of_not_covers hwrites hlater ((inst sc).exec DL dest source mem)
      rw [hwrites, if_pos hk] at hrun
      exact hrun
    · have hrun := ih hrest (fun sc hsc sc' hsc' => hbyte sc (List.mem_cons_of_mem _ hsc) sc'
        (List.mem_cons_of_mem _ hsc')) hsc ((inst first).exec DL dest source mem)
      rw [hbyte sc (List.mem_cons_of_mem _ hsc) first List.mem_cons_self mem k hk] at hrun
      exact hrun

/-- The load and the store of a scalar. -/
def copyInst (srcGEP : Scalar → ℤ) (sc : Scalar) : PromotedInst :=
  .loadStore sc.typ (srcGEP sc) sc.offset

/-- The byte that the load and the store of a scalar leave. -/
def copiedByte (DL : TargetLayout) (source : ℤ) (srcGEP : Scalar → ℤ) (sc : Scalar) (mem : Memory)
    (k : ℤ) : BitVec 8 :=
  Memory.byteOf (mem.load (DL.scalarBits sc.typ) (source + srcGEP sc)) (k - sc.offset).toNat

/-- The store of a constant in a scalar. -/
def setInst (DL : TargetLayout) (value : BitVec 8) (sc : Scalar) : PromotedInst :=
  .store (memSetConstant value (DL.scalarBits sc.typ)) sc.offset

/-- A store at the place of a scalar. -/
lemma store_scalar (sc : Scalar) (v : BitVec (DL.scalarBits sc.typ)) (mem : Memory) (k : ℤ) :
    mem.store v (dest + sc.offset) (dest + k) =
      if DL.Covers sc k then Memory.byteOf v (k - sc.offset).toNat else mem (dest + k) := by
  have hadd := mem.store_add v (dest + sc.offset) (k - sc.offset)
  rw [show dest + sc.offset + (k - sc.offset) = dest + k by ring] at hadd
  rw [hadd]
  refine if_congr ?_ rfl rfl
  rw [TargetLayout.Covers, TargetLayout.scalarSize]
  omega

variable (DL dest source)

lemma writesScalars_copyInst (srcGEP : Scalar → ℤ) :
    WritesScalars DL dest source (copyInst srcGEP) (copiedByte DL source srcGEP) :=
  fun sc mem k => store_scalar sc _ mem k

lemma writesScalars_setInst (value : BitVec 8) :
    WritesScalars DL dest source (setInst DL value) fun sc _ k =>
      Memory.byteOf (memSetConstant value (DL.scalarBits sc.typ)) (k - sc.offset).toNat :=
  fun sc mem k => store_scalar sc _ mem k

end

/-! ## The promotion of `memcpy` -/

section

variable {DL : TargetLayout} {dst src : PromotionOperand} {dstTyp : MemType} {len : ℕ}
  {srcGEP : Scalar → ℤ}

lemma gepOffset_path (hfits : dstTyp.IndicesFit) {sc : Scalar} (hsc : sc ∈ DL.scalars dstTyp) :
    DL.gepOffset dstTyp (0 :: sc.path) = some (sc.offset : ℤ) := by
  rw [TargetLayout.gepOffset, TargetLayout.getElementOffset_path hfits hsc]
  simp

/-- The distance of a scalar in the source, by its indices in the destination. -/
def sourceGEP (DL : TargetLayout) (src : PromotionOperand) (sc : Scalar) : Option ℤ := do
  DL.gepOffset (← getPromotionGEPType src) (0 :: sc.path)

lemma promoteMemCpy_eq (hdst : getPromotionGEPType dst = some dstTyp) (hfits : dstTyp.IndicesFit)
    {sc : Scalar} (hsc : sc ∈ DL.scalars dstTyp) :
    promoteMemCpy DL dst src sc.typ ([0] ++ sc.path) =
      (sourceGEP DL src sc).map fun offset => [.loadStore sc.typ offset sc.offset] := by
  rw [promoteMemCpy, sourceGEP, List.singleton_append, hdst]
  cases getPromotionGEPType src with
  | none => rfl
  | some srcTyp =>
    simp only [Option.bind_eq_bind, Option.bind_some, gepOffset_path hfits hsc]
    cases DL.gepOffset srcTyp (0 :: sc.path) <;> rfl

/-- What is emitted for a `memcpy` where the source has all scalars of the destination. -/
lemma tryPromote_memCpy (hcan : canPromoteMemIntrinsic (.memCpy dst src (some len)) = true)
    (hdst : getPromotionGEPType dst = some dstTyp) (hfits : dstTyp.IndicesFit)
    (hsrc : ∀ sc ∈ DL.scalars dstTyp, sourceGEP DL src sc = some (srcGEP sc)) :
    tryPromote DL (.memCpy dst src (some len)) =
      some (true, (DL.scalars dstTyp).map (copyInst srcGEP)) := by
  have hemit : emitAll (fun sc => promoteMemCpy DL dst src sc.typ ([0] ++ sc.path))
      (DL.scalars dstTyp) = some ((DL.scalars dstTyp).map (copyInst srcGEP)) :=
    emitAll_eq_map fun sc hsc => by
      rw [promoteMemCpy_eq hdst hfits hsc, hsrc sc hsc]
      rfl
  rw [tryPromote, if_pos hcan]
  simp only [MemIntrinsic.getDest, hdst, Option.bind_eq_bind, Option.bind_some,
    promoteMemIntrinsic_eq DL hfits, hemit]
  rfl

/-- Where something is emitted, the source has all scalars of the destination. -/
lemma exists_sourceGEP {code : List PromotedInst}
    (hcan : canPromoteMemIntrinsic (.memCpy dst src (some len)) = true)
    (hdst : getPromotionGEPType dst = some dstTyp) (hfits : dstTyp.IndicesFit)
    (hcode : tryPromote DL (.memCpy dst src (some len)) = some (true, code)) :
    ∃ srcGEP : Scalar → ℤ, (∀ sc ∈ DL.scalars dstTyp, sourceGEP DL src sc = some (srcGEP sc)) ∧
      code = (DL.scalars dstTyp).map (copyInst srcGEP) := by
  have hemit : ∃ out, emitAll (fun sc => promoteMemCpy DL dst src sc.typ ([0] ++ sc.path))
      (DL.scalars dstTyp) = some out := by
    rw [tryPromote, if_pos hcan] at hcode
    simp only [MemIntrinsic.getDest, hdst, Option.bind_eq_bind, Option.bind_some,
      promoteMemIntrinsic_eq DL hfits] at hcode
    exact Option.isSome_iff_exists.mp (Option.isSome_of_isSome_bind (by rw [hcode]; rfl))
  obtain ⟨out, hout⟩ := hemit
  have hsrc : ∀ sc ∈ DL.scalars dstTyp,
      sourceGEP DL src sc = some ((sourceGEP DL src sc).getD 0) := by
    intro sc hsc
    obtain ⟨out', hout'⟩ := exists_emit_of_emitAll hout hsc
    rw [promoteMemCpy_eq hdst hfits hsc] at hout'
    cases hgep : sourceGEP DL src sc with
    | none => simp [hgep] at hout'
    | some offset => rfl
  refine ⟨fun sc => (sourceGEP DL src sc).getD 0, hsrc, ?_⟩
  rw [tryPromote_memCpy hcan hdst hfits hsrc] at hcode
  exact (congrArg Prod.snd (Option.some.inj hcode)).symm

/-- Loads and stores of whole bytes copy the bytes of the scalars. -/
lemma runPromoted_copy {dest source : ℤ} (hoverlap : OverlapAllowed dest source len)
    {scs : List Scalar} (hpairwise : scs.Pairwise DL.Before)
    (hle : ∀ sc ∈ scs, sc.offset + DL.scalarSize sc ≤ len)
    (hwhole : ∀ sc ∈ scs, 8 ∣ DL.scalarBits sc.typ) {sc : Scalar} (hsc : sc ∈ scs) {k : ℤ}
    (hk : DL.Covers sc k) (mem : Memory) :
    runPromoted DL dest source (scs.map (copyInst fun sc => sc.offset)) mem (dest + k) =
      mem (source + k) := by
  have hbyte : ∀ sc ∈ scs, ∀ mem k, DL.Covers sc k →
      copiedByte DL source (fun sc => sc.offset) sc mem k = mem (source + k) := by
    intro sc hsc mem k hk
    rw [TargetLayout.Covers] at hk
    rw [copiedByte, Memory.byteOf_load _ _ (hwhole sc hsc) _ (by
      rw [TargetLayout.scalarSize] at hk
      omega)]
    congr 1
    omega
  have hwrites := writesScalars_copyInst DL dest source fun sc => (sc.offset : ℤ)
  rw [runPromoted_of_covers hwrites hpairwise ?_ hsc hk mem, hbyte sc hsc mem k hk]
  -- the stores of the scalars change no byte of the source, or put it where it was
  intro sc hsc sc' hsc' mem k hk
  rw [hbyte sc hsc _ k hk, hbyte sc hsc _ k hk,
    show source + k = dest + (source - dest + k) by ring, hwrites]
  split
  · rename_i hcovers
    rw [hbyte sc' hsc' _ _ hcovers]
    have hle' := hle sc' hsc'
    have hle := hle sc hsc
    rw [TargetLayout.Covers] at hk hcovers
    rcases hoverlap with heq | hdisjoint
    · congr 1
      omega
    · omega
  · rfl

/-- The condition is enough for `memcpy`. -/
lemma preserves_memCpy (hcan : canPromoteMemIntrinsic (.memCpy dst src (some len)) = true)
    (hdst : getPromotionGEPType dst = some dstTyp) (hfits : dstTyp.IndicesFit)
    (hspans : Spans DL dstTyp len)
    (hscalars : ∀ sc ∈ DL.scalars dstTyp, ScalarPromotes DL sc (.memCpy dst src (some len))) :
    PromotionPreserves DL (.memCpy dst src (some len)) := by
  have hsrc : ∀ sc ∈ DL.scalars dstTyp, sourceGEP DL src sc = some (sc.offset : ℤ) := by
    intro sc hsc
    obtain ⟨-, srcTyp, hsrcTyp, hgep⟩ := hscalars sc hsc
    rw [sourceGEP, hsrcTyp]
    exact hgep
  refine ⟨len, _, rfl, tryPromote_memCpy hcan hdst hfits hsrc, ?_⟩
  intro typ htyp mem dest source hoverlap k hk
  obtain rfl := Option.some.inj (hdst.symm.trans htyp)
  rw [MemIntrinsic.apply, Memory.copy_add]
  by_cases hcovers : ∃ sc ∈ DL.scalars dstTyp, DL.Covers sc k
  · obtain ⟨sc, hsc, hcovers⟩ := hcovers
    rw [runPromoted_copy hoverlap (TargetLayout.pairwise_scalars dstTyp) hspans.scalar_le
      (fun sc hsc => (hscalars sc hsc).1) hsc hcovers, if_pos]
    have hle := hspans.scalar_le sc hsc
    rw [TargetLayout.Covers] at hcovers
    omega
  · -- outside of the scalars and of the padding, and so outside of the object
    simp only [not_exists, not_and] at hcovers
    rw [runPromoted_of_not_covers (writesScalars_copyInst _ _ _ _) hcovers, if_neg]
    have hle := hspans.length_le
    exact fun hlt => hk ⟨hlt.1, by omega, hcovers⟩

/-- Where the source is far away from the destination, every load reads what was there before. -/
lemma runPromoted_far {dest source : ℤ}
    (hfar : ∀ sc ∈ DL.scalars dstTyp, dest + DL.getTypeAllocSize dstTyp ≤ source + srcGEP sc)
    {sc : Scalar} (hsc : sc ∈ DL.scalars dstTyp) {k : ℤ} (hk : DL.Covers sc k) (mem : Memory) :
    runPromoted DL dest source ((DL.scalars dstTyp).map (copyInst srcGEP)) mem (dest + k) =
      copiedByte DL source srcGEP sc mem k := by
  have hwrites := writesScalars_copyInst DL dest source srcGEP
  refine runPromoted_of_covers hwrites (TargetLayout.pairwise_scalars dstTyp) ?_ hsc hk mem
  intro sc hsc sc' hsc' mem k hk
  rw [copiedByte, copiedByte, Memory.load_congr (source + srcGEP sc)]
  intro j hj
  have hle := TargetLayout.scalar_le_allocSize hsc'
  have hfar := hfar sc hsc
  rw [show source + srcGEP sc + j = dest + (source + srcGEP sc + j - dest) by ring, hwrites,
    if_neg]
  rw [TargetLayout.Covers]
  omega

/-- There is room beyond finitely many distances. -/
lemma exists_far (bound : ℤ) (scs : List Scalar) (f : Scalar → ℤ) :
    ∃ source, bound ≤ source ∧ ∀ sc ∈ scs, bound ≤ source + f sc := by
  induction scs with
  | nil => exact ⟨bound, le_rfl, fun sc hsc => absurd hsc List.not_mem_nil⟩
  | cons sc scs ih =>
    obtain ⟨source, hsource, hall⟩ := ih
    refine ⟨max source (bound - f sc), le_max_of_le_left hsource, fun sc' hsc' => ?_⟩
    obtain rfl | hsc' := List.mem_cons.mp hsc'
    · have hle := le_max_right source (bound - f sc')
      omega
    · have hle := le_max_left source (bound - f sc)
      have hsc' := hall sc' hsc'
      omega

lemma getLsbD_255 : ∀ i < 8, (255 : BitVec 8).getLsbD i = true := by decide

/-- A memory that has only zeros below an address. -/
def stepMemory (bound : ℤ) : Memory := fun a => if a < bound then 0 else 255

/-- A memory with one byte that is not zero. -/
def pointMemory (a : ℤ) : Memory := fun x => if x = a then 255 else 0

/-- The destination is at zero, the source is far away from it, and what is emitted leaves every
byte outside of the padding as a `memcpy` does. -/
structure FarCopy (DL : TargetLayout) (dstTyp : MemType) (len : ℕ) (srcGEP : Scalar → ℤ)
    (source : ℤ) : Prop where
  room : (DL.getTypeAllocSize dstTyp : ℤ) + len + 1 ≤ source
  far : ∀ sc ∈ DL.scalars dstTyp,
    (DL.getTypeAllocSize dstTyp : ℤ) + len + 1 ≤ source + srcGEP sc
  keeps : ∀ mem k, ¬DL.Padding dstTyp k →
    runPromoted DL 0 source ((DL.scalars dstTyp).map (copyInst srcGEP)) mem (0 + k) =
      mem.copy 0 source len (0 + k)

namespace FarCopy

variable {source : ℤ} (h : FarCopy DL dstTyp len srcGEP source) {sc : Scalar}
include h

/-- A byte of a scalar, which is no padding. -/
lemma copiedByte_eq (hsc : sc ∈ DL.scalars dstTyp) (mem : Memory) {k : ℤ} (hk : DL.Covers sc k) :
    copiedByte DL source srcGEP sc mem k = mem.copy 0 source len (0 + k) := by
  have hfar : ∀ sc ∈ DL.scalars dstTyp,
      (0 : ℤ) + DL.getTypeAllocSize dstTyp ≤ source + srcGEP sc := by
    intro sc hsc
    have hfar := h.far sc hsc
    omega
  rw [← runPromoted_far hfar hsc hk]
  exact h.keeps mem k fun hpadding => hpadding.2.2 sc hsc hk

/-- A bit of the last byte of a scalar, where the destination has only zeros and the source only
ones. -/
lemma getLsbD_last (hsc : sc ∈ DL.scalars dstTyp) {i : ℕ} (hi : i < 8) :
    ((stepMemory (DL.getTypeAllocSize dstTyp + len + 1)).copy 0 source len
      (0 + (sc.offset + (DL.scalarSize sc - 1 : ℕ)))).getLsbD i =
        decide (8 * (DL.scalarSize sc - 1) + i < DL.scalarBits sc.typ) := by
  have hpos := TargetLayout.scalarSize_pos hsc
  have hfar := h.far sc hsc
  rw [← h.copiedByte_eq hsc _ ⟨by omega, by omega⟩, copiedByte, add_sub_cancel_left,
    Int.toNat_natCast, Memory.getLsbD_byteOf_load _ _ _ _ hi, stepMemory, if_neg (by omega),
    getLsbD_255 i hi, Bool.and_true]

/-- The length covers the scalars. -/
lemma scalar_le (hsc : sc ∈ DL.scalars dstTyp) : sc.offset + DL.scalarSize sc ≤ len := by
  by_contra hlt
  have hpos := TargetLayout.scalarBits_pos hsc
  have hle := TargetLayout.scalar_le_allocSize hsc
  have hbit := h.getLsbD_last hsc (show 0 < 8 by omega)
  rw [Memory.copy_add, if_neg (by omega), stepMemory, if_pos (by omega),
    decide_eq_true (by rw [TargetLayout.scalarSize, Memory.storeSize]; omega)] at hbit
  exact absurd hbit (by decide)

/-- The length stays inside of the object: the byte after it is written by the intrinsic only. -/
lemma length_le : len ≤ DL.getTypeAllocSize dstTyp := by
  by_contra hlt
  have hroom := h.room
  have hbyte := h.keeps (stepMemory (DL.getTypeAllocSize dstTyp + len + 1))
    (DL.getTypeAllocSize dstTyp) fun hpadding => absurd hpadding.2.1 (lt_irrefl _)
  rw [runPromoted_of_not_covers (writesScalars_copyInst _ _ _ _), Memory.copy_add,
    if_pos (by omega), stepMemory, stepMemory, if_pos (by omega), if_neg (by omega)] at hbyte
  · exact absurd hbyte (by decide)
  · intro sc hsc
    have hle := TargetLayout.scalar_le_allocSize hsc
    rw [TargetLayout.Covers]
    omega

/-- The scalars consist of whole bytes: the highest bit of the last byte is copied. -/
lemma dvd_scalarBits (hsc : sc ∈ DL.scalars dstTyp) : 8 ∣ DL.scalarBits sc.typ := by
  have hpos := TargetLayout.scalarSize_pos hsc
  have hle := h.scalar_le hsc
  have hroom := h.room
  have hbit := h.getLsbD_last hsc (show 7 < 8 by omega)
  rw [Memory.copy_add, if_pos (by omega), stepMemory, if_neg (by omega)] at hbit
  have hlt := of_decide_eq_true hbit.symm
  rw [TargetLayout.scalarSize, Memory.storeSize] at hlt hpos
  omega

/-- The source has the scalars at the same offsets: the first byte is copied from there. -/
lemma srcGEP_eq (hsc : sc ∈ DL.scalars dstTyp) : srcGEP sc = sc.offset := by
  have hpos := TargetLayout.scalarSize_pos hsc
  have hle := h.scalar_le hsc
  have hbyte := h.copiedByte_eq hsc (pointMemory (source + sc.offset)) ⟨le_rfl, by omega⟩
  rw [Memory.copy_add, if_pos (by omega), pointMemory, if_pos rfl, copiedByte, sub_self] at hbyte
  have hbit := congrArg (fun b : BitVec 8 => b.getLsbD 0) hbyte
  simp only [Int.toNat_zero] at hbit
  rw [Memory.getLsbD_byteOf_load _ _ _ _ (by omega)] at hbit
  by_contra hne
  rw [pointMemory, if_neg (by omega)] at hbit
  simp at hbit

end FarCopy

/-- The condition is necessary for `memcpy`. -/
lemma promotes_of_preserves_memCpy
    (hcan : canPromoteMemIntrinsic (.memCpy dst src (some len)) = true)
    (hdst : getPromotionGEPType dst = some dstTyp) (hfits : dstTyp.IndicesFit)
    (h : PromotionPreserves DL (.memCpy dst src (some len))) :
    Spans DL dstTyp len ∧
      ∀ sc ∈ DL.scalars dstTyp, ScalarPromotes DL sc (.memCpy dst src (some len)) := by
  obtain ⟨len', code, hlen, hcode, hkeep⟩ := h
  obtain rfl := Option.some.inj hlen
  obtain ⟨srcGEP, hsrc, rfl⟩ := exists_sourceGEP hcan hdst hfits hcode
  obtain ⟨source, hsource, hfar⟩ := exists_far (DL.getTypeAllocSize dstTyp + len + 1)
    (DL.scalars dstTyp) srcGEP
  have hcopy : FarCopy DL dstTyp len srcGEP source :=
    ⟨hsource, hfar, fun mem k hk => hkeep dstTyp hdst mem 0 source (.inr (.inl (by omega))) k hk⟩
  refine ⟨⟨hcopy.length_le, fun sc hsc => hcopy.scalar_le hsc⟩, fun sc hsc =>
    ⟨hcopy.dvd_scalarBits hsc, ?_⟩⟩
  have hgep := hsrc sc hsc
  rw [sourceGEP, hcopy.srcGEP_eq hsc] at hgep
  obtain ⟨srcTyp, hsrcTyp, hgep⟩ := Option.bind_eq_some_iff.mp hgep
  exact ⟨srcTyp, hsrcTyp, hgep⟩

end

/-! ## The promotion of `memset` -/

section

variable {value : BitVec 8} {sizeInBits : ℕ}

/-- A bit of a byte of the constant. -/
lemma getLsbD_memSetConstant (j i : ℕ) (hi : i < 8) :
    (Memory.byteOf (memSetConstant value sizeInBits) j).getLsbD i =
      (decide (8 * j + i < sizeInBits) && (decide (8 * j + i < 64) &&
        if j = 0 then value.getLsbD i else value.msb)) := by
  rw [Memory.getLsbD_byteOf, decide_eq_true hi, Bool.true_and, memSetConstant,
    BitVec.getLsbD_setWidth, BitVec.getLsbD_signExtend]
  congr 2
  by_cases hj : j = 0
  · rw [if_pos hj, if_pos (by omega), hj, Nat.mul_zero, Nat.zero_add]
  · rw [if_neg hj, if_neg (by omega)]

lemma byte_ext_iff {b : BitVec 8} : b = value ↔ ∀ i < 8, b.getLsbD i = value.getLsbD i :=
  ⟨fun h i _ => by rw [h], fun h => BitVec.eq_of_getLsbD_eq h⟩

/-- The lowest byte of the constant is the fill byte if the fill byte has not more bits than the
scalar. -/
lemma byteOf_memSetConstant_zero :
    Memory.byteOf (memSetConstant value sizeInBits) 0 = value ↔
      8 ≤ sizeInBits ∨ value.toNat < 2 ^ sizeInBits := by
  rw [byte_ext_iff]
  constructor
  · intro h
    rw [or_iff_not_imp_left, not_le]
    intro hlt
    refine Nat.lt_pow_two_of_testBit _ fun i hi => ?_
    by_cases hi8 : i < 8
    · have hbit := h i hi8
      rw [getLsbD_memSetConstant _ _ hi8, Nat.mul_zero, Nat.zero_add,
        decide_eq_false (by omega), Bool.false_and] at hbit
      exact hbit.symm
    · exact BitVec.getLsbD_of_ge value i (by omega)
  · intro h i hi
    rw [getLsbD_memSetConstant _ _ hi, Nat.mul_zero, Nat.zero_add, if_pos rfl,
      decide_eq_true (show i < 64 by omega), Bool.true_and]
    by_cases hlt : i < sizeInBits
    · rw [decide_eq_true hlt, Bool.true_and]
    · rw [decide_eq_false hlt, Bool.false_and]
      have hvalue : value.toNat < 2 ^ i := (h.resolve_left (by omega)).trans_le
        (Nat.pow_le_pow_right (by omega) (by omega))
      exact (Nat.testBit_lt_two_pow hvalue).symm

/-- All bytes of the constant are the fill byte. -/
lemma fillsScalar_iff (hpos : 0 < sizeInBits) :
    FillsScalar value sizeInBits ↔ ∀ j < Memory.storeSize sizeInBits,
      Memory.byteOf (memSetConstant value sizeInBits) j = value := by
  rw [Memory.storeSize]
  constructor
  · rintro (rfl | ⟨hle, hlt⟩ | ⟨rfl, hwhole, hle⟩) j hj
    · refine byte_ext_iff.mpr fun i hi => ?_
      rw [getLsbD_memSetConstant _ _ hi]
      simp
    · obtain rfl : j = 0 := by omega
      exact byteOf_memSetConstant_zero.mpr (.inr hlt)
    · refine byte_ext_iff.mpr fun i hi => ?_
      rw [getLsbD_memSetConstant _ _ hi, decide_eq_true (by omega), decide_eq_true (by omega),
        getLsbD_255 i hi, show (255 : BitVec 8).msb = true from rfl, ite_self]
      rfl
  · intro h
    have hzero := byteOf_memSetConstant_zero.mp (h 0 (by omega))
    by_cases hsmall : sizeInBits ≤ 8
    · refine .inr (.inl ⟨hsmall, hzero.elim (fun hle => ?_) id⟩)
      exact value.isLt.trans_le (Nat.pow_le_pow_right (by omega) hle)
    -- the bits after the first byte are the sign
    have hbit : ∀ j i, 0 < j → i < 8 → j < (sizeInBits + 7) / 8 →
        (decide (8 * j + i < sizeInBits) && (decide (8 * j + i < 64) && value.msb)) =
          value.getLsbD i := by
      intro j i hj hi hlt
      rw [← byte_ext_iff.mp (h j hlt) i hi, getLsbD_memSetConstant _ _ hi, if_neg (by omega)]
    cases hmsb : value.msb with
    | false =>
      refine .inl (BitVec.eq_of_getLsbD_eq fun i hi => ?_)
      rw [← hbit 1 i (by omega) hi (by omega), hmsb]
      simp
    | true =>
      have hmsb7 : value.getLsbD 7 = true := by
        rw [← hmsb, BitVec.msb_eq_getLsbD_last]
      have hlast := hbit ((sizeInBits + 7) / 8 - 1) 7 (by omega) (by omega) (by omega)
      rw [hmsb7, Bool.and_eq_true, Bool.and_eq_true, decide_eq_true_iff,
        decide_eq_true_iff] at hlast
      refine .inr (.inr ⟨BitVec.eq_of_getLsbD_eq fun i hi => ?_, by omega, by omega⟩)
      rw [← hbit 1 i (by omega) hi (by omega), hmsb, decide_eq_true (by omega),
        decide_eq_true (by omega), getLsbD_255 i hi]
      rfl

variable {DL : TargetLayout} {dst : PromotionOperand} {dstTyp : MemType} {len : ℕ}

/-- What is emitted for a `memset`. -/
lemma tryPromote_memSet (hcan : canPromoteMemIntrinsic (.memSet dst value (some len)) = true)
    (hdst : getPromotionGEPType dst = some dstTyp) (hfits : dstTyp.IndicesFit) :
    tryPromote DL (.memSet dst value (some len)) =
      some (true, (DL.scalars dstTyp).map (setInst DL value)) := by
  have hemit : emitAll (fun sc => promoteMemSet DL dst value sc.typ ([0] ++ sc.path))
      (DL.scalars dstTyp) = some ((DL.scalars dstTyp).map (setInst DL value)) :=
    emitAll_eq_map fun sc hsc => by
      rw [promoteMemSet, List.singleton_append, hdst]
      simp only [Option.bind_eq_bind, Option.bind_some, gepOffset_path hfits hsc]
      rfl
  rw [tryPromote, if_pos hcan]
  simp only [MemIntrinsic.getDest, hdst, Option.bind_eq_bind, Option.bind_some,
    promoteMemIntrinsic_eq DL hfits, hemit]
  rfl

/-- The stores of the constants. -/
lemma runPromoted_set {dest source : ℤ} {sc : Scalar} (hsc : sc ∈ DL.scalars dstTyp) {k : ℤ}
    (hk : DL.Covers sc k) (mem : Memory) :
    runPromoted DL dest source ((DL.scalars dstTyp).map (setInst DL value)) mem (dest + k) =
      Memory.byteOf (memSetConstant value (DL.scalarBits sc.typ)) (k - sc.offset).toNat :=
  runPromoted_of_covers (writesScalars_setInst DL dest source value)
    (TargetLayout.pairwise_scalars dstTyp) (fun _ _ _ _ _ _ _ => rfl) hsc hk mem

/-- The condition is enough for `memset`. -/
lemma preserves_memSet (hcan : canPromoteMemIntrinsic (.memSet dst value (some len)) = true)
    (hdst : getPromotionGEPType dst = some dstTyp) (hfits : dstTyp.IndicesFit)
    (hspans : Spans DL dstTyp len)
    (hscalars : ∀ sc ∈ DL.scalars dstTyp, ScalarPromotes DL sc (.memSet dst value (some len))) :
    PromotionPreserves DL (.memSet dst value (some len)) := by
  refine ⟨len, _, rfl, tryPromote_memSet hcan hdst hfits, ?_⟩
  intro typ htyp mem dest source _ k hk
  obtain rfl := Option.some.inj (hdst.symm.trans htyp)
  rw [MemIntrinsic.apply, Memory.fill_add]
  by_cases hcovers : ∃ sc ∈ DL.scalars dstTyp, DL.Covers sc k
  · obtain ⟨sc, hsc, hcovers⟩ := hcovers
    have hfills := (fillsScalar_iff (TargetLayout.scalarBits_pos hsc)).mp (hscalars sc hsc)
    have hle := hspans.scalar_le sc hsc
    rw [runPromoted_set hsc hcovers]
    rw [TargetLayout.Covers, TargetLayout.scalarSize] at hcovers
    rw [TargetLayout.scalarSize] at hle
    rw [if_pos (by omega), hfills _ (by omega)]
  · simp only [not_exists, not_and] at hcovers
    rw [runPromoted_of_not_covers (writesScalars_setInst _ _ _ _) hcovers, if_neg]
    have hle := hspans.length_le
    exact fun hlt => hk ⟨hlt.1, by omega, hcovers⟩

/-- The condition is necessary for `memset`. -/
lemma promotes_of_preserves_memSet
    (hcan : canPromoteMemIntrinsic (.memSet dst value (some len)) = true)
    (hdst : getPromotionGEPType dst = some dstTyp) (hfits : dstTyp.IndicesFit)
    (h : PromotionPreserves DL (.memSet dst value (some len))) :
    Spans DL dstTyp len ∧
      ∀ sc ∈ DL.scalars dstTyp, ScalarPromotes DL sc (.memSet dst value (some len)) := by
  obtain ⟨len', code, hlen, hcode, hkeep⟩ := h
  obtain rfl := Option.some.inj hlen
  rw [tryPromote_memSet hcan hdst hfits] at hcode
  obtain rfl := congrArg Prod.snd (Option.some.inj hcode)
  have hkeep := fun mem => hkeep dstTyp hdst mem 0 0 (.inl rfl)
  -- the bytes of the scalars, which are no padding
  have hbyte : ∀ sc ∈ DL.scalars dstTyp, ∀ (mem : Memory), ∀ j < DL.scalarSize sc,
      Memory.byteOf (memSetConstant value (DL.scalarBits sc.typ)) j =
        mem.fill 0 value len (0 + (sc.offset + j)) := by
    intro sc hsc mem j hj
    have hcovers : DL.Covers sc (sc.offset + j) := ⟨by omega, by omega⟩
    have hrun := hkeep mem (sc.offset + j) fun hpadding => hpadding.2.2 sc hsc hcovers
    rw [runPromoted_set hsc hcovers, add_sub_cancel_left, Int.toNat_natCast] at hrun
    exact hrun
  have hne : ∀ b : BitVec 8, b ≠ ~~~b := by decide
  have hscalar_le : ∀ sc ∈ DL.scalars dstTyp, sc.offset + DL.scalarSize sc ≤ len := by
    intro sc hsc
    by_contra hlt
    have hpos := TargetLayout.scalarSize_pos hsc
    have hlast := hbyte sc hsc (fun _ => ~~~(Memory.byteOf
      (memSetConstant value (DL.scalarBits sc.typ)) (DL.scalarSize sc - 1)))
      (DL.scalarSize sc - 1) (by omega)
    rw [Memory.fill_add, if_neg (by omega)] at hlast
    exact hne _ hlast
  refine ⟨⟨?_, hscalar_le⟩, fun sc hsc => ?_⟩
  · by_contra hlt
    -- the byte after the object
    have hafter := hkeep (fun _ => ~~~value) (DL.getTypeAllocSize dstTyp) fun hpadding =>
      absurd hpadding.2.1 (lt_irrefl _)
    rw [runPromoted_of_not_covers (writesScalars_setInst _ _ _ _), MemIntrinsic.apply,
      Memory.fill_add, if_pos (by omega)] at hafter
    · exact hne _ hafter.symm
    · intro sc hsc
      have hle := TargetLayout.scalar_le_allocSize hsc
      rw [TargetLayout.Covers]
      omega
  · refine (fillsScalar_iff (TargetLayout.scalarBits_pos hsc)).mpr fun j hj => ?_
    have hle := hscalar_le sc hsc
    rw [hbyte sc hsc (fun _ => 0) j hj, Memory.fill_add]
    rw [TargetLayout.scalarSize] at hle
    exact if_pos (by omega)

end

/-! ## Both intrinsics -/

lemma exists_length_of_canPromote {MI : MemIntrinsic} (hcan : canPromoteMemIntrinsic MI = true) :
    ∃ len, MI.getLength = some len := by
  unfold canPromoteMemIntrinsic at hcan
  cases hlen : MI.getLength with
  | none => simp [hlen] at hcan
  | some len => exact ⟨len, rfl⟩

lemma exists_dstTyp_of_preserves {DL : TargetLayout} {MI : MemIntrinsic}
    (hcan : canPromoteMemIntrinsic MI = true) (h : PromotionPreserves DL MI) :
    ∃ dstTyp, getPromotionGEPType MI.getDest = some dstTyp := by
  obtain ⟨len, code, -, hcode, -⟩ := h
  unfold tryPromote at hcode
  rw [if_pos hcan] at hcode
  cases hdst : getPromotionGEPType MI.getDest with
  | none => simp [hdst] at hcode
  | some dstTyp => exact ⟨dstTyp, rfl⟩

/-- The promotion keeps what an intrinsic does to the bytes outside of the padding if and only if
the length covers the scalars of the destination and nothing beyond it, and every scalar is
promoted exactly: for a `memcpy` it consists of whole bytes and is at the same offset in the
source, and for a `memset` all bytes of its constant are the fill byte. -/
theorem promotion_preserves_iff (DL : TargetLayout) (MI : MemIntrinsic)
    (hcan : canPromoteMemIntrinsic MI = true) :
    PromotionPreserves DL MI ∧ MI.IndicesFit ↔ PromotesExactly DL MI := by
  obtain ⟨len, hlen⟩ := exists_length_of_canPromote hcan
  constructor
  · rintro ⟨hkeep, hall⟩
    obtain ⟨dstTyp, hdst⟩ := exists_dstTyp_of_preserves hcan hkeep
    have hfits := hall dstTyp hdst
    refine ⟨len, dstTyp, hlen, hdst, hfits, ?_⟩
    cases MI with
    | memCpy dst src length =>
      obtain rfl : length = some len := hlen
      exact promotes_of_preserves_memCpy hcan hdst hfits hkeep
    | memSet dst value length =>
      obtain rfl : length = some len := hlen
      exact promotes_of_preserves_memSet hcan hdst hfits hkeep
  · rintro ⟨len, dstTyp, hlen, hdst, hfits, hspans, hscalars⟩
    refine ⟨?_, fun typ htyp => Option.some.inj (hdst.symm.trans htyp) ▸ hfits⟩
    cases MI with
    | memCpy dst src length =>
      obtain rfl : length = some len := hlen
      exact preserves_memCpy hcan hdst hfits hspans hscalars
    | memSet dst value length =>
      obtain rfl : length = some len := hlen
      exact preserves_memSet hcan hdst hfits hspans hscalars

/-- The layout of a target with 64-bit pointers and no padding. -/
def unpaddedTarget : TargetLayout :=
  { DataLayout.unpadded with pointer_pos := by decide, align_pos := fun _ => Nat.one_pos }

/-- A struct of two 32-bit integers. -/
def integerPair : MemType := .struct false [.integer 32, .integer 32]

lemma scalars_integerPair : unpaddedTarget.scalars integerPair =
    [⟨[0], 0, .integer 32⟩, ⟨[1], 4, .integer 32⟩] := rfl

lemma indicesFit_integerPair : integerPair.IndicesFit := ⟨trivial, trivial, trivial⟩

/-- The copy of a whole struct. -/
theorem promotion_preserves_iff_integerPair :
    PromotionPreserves unpaddedTarget
      (.memCpy (.alloca integerPair) (.globalVariable integerPair) (some 8)) := by
  refine ((promotion_preserves_iff unpaddedTarget _ (by decide)).mpr
    ⟨8, integerPair, rfl, rfl, indicesFit_integerPair, ⟨by decide, by decide⟩, ?_⟩).1
  rw [scalars_integerPair]
  simp only [List.mem_cons, List.not_mem_nil, or_false]
  rintro sc (rfl | rfl)
  · exact ⟨by decide, integerPair, rfl, rfl⟩
  · exact ⟨by decide, integerPair, rfl, rfl⟩

/-- A `memset` with 1 of an integer stores 1, and a `memcpy` of the first integer of a pair copies
both. -/
theorem promotion_not_preserves :
    (canPromoteMemIntrinsic (.memSet (.alloca (.integer 32)) 1 (some 4)) = true ∧
      ¬PromotionPreserves unpaddedTarget (.memSet (.alloca (.integer 32)) 1 (some 4))) ∧
    (canPromoteMemIntrinsic (.memCpy (.alloca integerPair) (.globalVariable integerPair) (some 4)) =
        true ∧
      ¬PromotionPreserves unpaddedTarget
        (.memCpy (.alloca integerPair) (.globalVariable integerPair) (some 4))) := by
  refine ⟨⟨by decide, fun h => ?_⟩, by decide, fun h => ?_⟩
  · have hdst : getPromotionGEPType (.alloca (.integer 32)) = some (.integer 32) := rfl
    have hfills := (promotes_of_preserves_memSet (by decide) hdst trivial h).2
      ⟨[], 0, .integer 32⟩ (List.mem_singleton_self _)
    rw [ScalarPromotes, FillsScalar] at hfills
    exact absurd hfills (by decide)
  · have hdst : getPromotionGEPType (.alloca integerPair) = some integerPair := rfl
    have hspans := (promotes_of_preserves_memCpy (by decide) hdst indicesFit_integerPair h).1
    have hle := hspans.scalar_le ⟨[1], 4, .integer 32⟩ (by
      rw [scalars_integerPair]
      exact List.mem_cons_of_mem _ List.mem_cons_self)
    exact absurd hle (by decide)

end GenMC
