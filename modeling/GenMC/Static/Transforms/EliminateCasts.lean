import GenMC.Static.SSAFunction

/-!
# Stack slots with one type

This is `introduceCasts`, the pass for LLVM 15 and later.  A stack slot that is accessed at several
types of the same allocation size gets accesses of its own type only: what is stored is cast to the
type of the slot, and what is loaded is cast back.  The casts work on bits, but the test
`isPromotable` compares sizes in bytes, padding included.  A value comes back if and only if it fits
into the bits of the slot's type (`loads_eq_iff`).
-/

namespace GenMC

/-- `isIntOrPtrTy`. -/
def LLVMType.isIntOrPtrTy : LLVMType → Bool
  | integer _ => true
  | pointer => true
  | _ => false

/-- `CastInst::getCastOpcode` for unsigned integers and pointers. -/
def CastOps.getCastOpcode : LLVMType → LLVMType → Option CastOps
  | .integer source, .integer dest =>
    some (if dest < source then .trunc else if source < dest then .zext else .bitCast)
  | .pointer, .integer _ => some .ptrToInt
  | .integer _, .pointer => some .intToPtr
  | .pointer, .pointer => some .bitCast
  | _, _ => none

/-- A user of a stack slot. -/
inductive AllocaUser where
  | load (typ : LLVMType) (isVolatile : Bool)
  | store (valueType : LLVMType) (isVolatile storesAddress : Bool)
  | intrinsic (lifetimeOrDroppable : Bool)
  | getElementPtr (zeroIndices onlyMarkers : Bool)
  | addrSpaceCast (onlyMarkers : Bool)
  | other
deriving DecidableEq

/-- What becomes of a user; the casts are before a store and after a load. -/
inductive RetypedUser where
  | load (typ : LLVMType) (cast : Option CastOps)
  | store (cast : Option CastOps) (typ : LLVMType)
  | unchanged (user : AllocaUser)
deriving DecidableEq

namespace AllocaUser

/-- What `isUserPure` adds to `useTypes`. -/
def useType? : AllocaUser → Option LLVMType
  | load typ _ => some typ
  | store valueType _ _ => some valueType
  | _ => none

/-- `isUserPure`. -/
def isUserPure : AllocaUser → Bool
  | load _ isVolatile => !isVolatile
  | store _ isVolatile storesAddress => !isVolatile && !storesAddress
  | intrinsic lifetimeOrDroppable => lifetimeOrDroppable
  | getElementPtr zeroIndices onlyMarkers => zeroIndices && onlyMarkers
  | addrSpaceCast onlyMarkers => onlyMarkers
  | other => false

variable (DL : DataLayout) (allocated : LLVMType)

/-- `isPromotable`, for the users of a slot of a type. -/
def isPromotable (users : List AllocaUser) : Bool :=
  allocated.isIntOrPtrTy && users.all isUserPure &&
    (users.filterMap useType?).all fun typ =>
      DL.getTypeAllocSize typ = DL.getTypeAllocSize allocated && typ.isIntOrPtrTy

/-- The cast between two types, if they are different. -/
def castBetween (source dest : LLVMType) : Option CastOps :=
  if source = dest then none else CastOps.getCastOpcode source dest

/-- `introduceAllocaCasts`, for one user. -/
def introduceAllocaCasts : AllocaUser → RetypedUser
  | load typ _ => .load allocated (castBetween allocated typ)
  | store valueType _ _ => .store (castBetween valueType allocated) allocated
  | user => .unchanged user

end AllocaUser

/-! ## Executions -/

/-- A store or a load through the slot. -/
inductive SlotAccess (DL : DataLayout) where
  | store (typ : LLVMType) (value : BitVec (DL.getTypeSizeInBits typ))
  | load (typ : LLVMType)

/-- The type of the value that is stored or loaded. -/
def SlotAccess.typ {DL : DataLayout} : SlotAccess DL → LLVMType
  | store typ _ => typ
  | load typ => typ

namespace AllocaUser

variable {DL : DataLayout} (allocated : LLVMType)

/-- The slot before: the last value that has been stored, with its type. -/
def original (accesses : List (SlotAccess DL)) :
    Option ((typ : LLVMType) × BitVec (DL.getTypeSizeInBits typ)) :=
  accesses.foldl (fun slot access =>
    match access with
    | .store typ value => some ⟨typ, value⟩
    | .load _ => slot) none

/-- The value of a load before, if what it loads has been stored at the same type. -/
def loadOriginal (accesses : List (SlotAccess DL)) (typ : LLVMType) :
    Option (BitVec (DL.getTypeSizeInBits typ)) :=
  (original accesses).bind fun slot => if h : slot.1 = typ then some (h ▸ slot.2) else none

/-- The value of a cast; without a cast the types must be the same. -/
def castValue (cast : Option CastOps) (source dest : LLVMType)
    (v : BitVec (DL.getTypeSizeInBits source)) : Option (BitVec (DL.getTypeSizeInBits dest)) :=
  match cast with
  | some op => some (op.apply DL source dest v)
  | none => if h : source = dest then some (h ▸ v) else none

/-- The slot after: a value of its type, which a store has cast before. -/
def retyped (accesses : List (SlotAccess DL)) :
    Option (BitVec (DL.getTypeSizeInBits allocated)) :=
  accesses.foldl (fun slot access =>
    match access with
    | .store typ value =>
      match introduceAllocaCasts allocated (.store typ false false) with
      | .store cast _ => castValue cast typ allocated value
      | _ => slot
    | .load _ => slot) none

/-- The value of a load and the cast after it. -/
def loadRetyped (accesses : List (SlotAccess DL)) (typ : LLVMType) :
    Option (BitVec (DL.getTypeSizeInBits typ)) :=
  match introduceAllocaCasts allocated (.load typ false) with
  | .load _ cast => (retyped allocated accesses).bind (castValue cast allocated typ)
  | _ => none

variable {allocated}

/-- The casts between integers and pointers cut bits or add zeros. -/
lemma castValue_eq {source dest : LLVMType} (hsource : source.isIntOrPtrTy = true)
    (hdest : dest.isIntOrPtrTy = true) (v : BitVec (DL.getTypeSizeInBits source)) :
    castValue (castBetween source dest) source dest v = some (v.setWidth _) := by
  by_cases h : source = dest
  · subst h
    have hnone : castBetween source source = none := if_pos rfl
    rw [hnone, BitVec.setWidth_eq]
    exact dif_pos rfl
  · have hcast : castBetween source dest = CastOps.getCastOpcode source dest := if_neg h
    rw [hcast]
    cases source with
    | integer width =>
      cases dest with
      | integer width' =>
        simp only [CastOps.getCastOpcode]
        split
        · rfl
        · split <;> rfl
      | pointer => rfl
      | _ => cases hdest
    | pointer =>
      cases dest with
      | integer width => rfl
      | pointer => exact absurd rfl h
      | _ => cases hdest
    | _ => cases hsource

lemma isIntOrPtrTy_of_isPromotable {users : List AllocaUser}
    (hprom : isPromotable DL allocated users = true) : allocated.isIntOrPtrTy = true ∧
      ∀ typ ∈ users.filterMap useType?, typ.isIntOrPtrTy = true := by
  simp only [isPromotable, Bool.and_eq_true, List.all_eq_true] at hprom
  exact ⟨hprom.1.1, fun typ htyp => (hprom.2 typ htyp).2⟩

/-- The slot holds the last value, cast to its type. -/
lemma retyped_eq {users : List AllocaUser} (hprom : isPromotable DL allocated users = true)
    {accesses : List (SlotAccess DL)}
    (htypes : ∀ access ∈ accesses, access.typ ∈ users.filterMap useType?) :
    retyped allocated accesses = (original accesses).map fun slot => slot.2.setWidth _ := by
  obtain ⟨hallocated, husers⟩ := isIntOrPtrTy_of_isPromotable hprom
  -- one more access at the end
  induction accesses using List.reverseRecOn with
  | nil => rfl
  | append_singleton accesses access ih =>
    have ih := ih fun a ha => htypes a (List.mem_append_left _ ha)
    rw [retyped, original, List.foldl_append, List.foldl_append]
    cases access with
    | store typ value =>
      have htyp := husers typ (htypes (.store typ value) (by simp))
      exact castValue_eq htyp hallocated value
    | load typ => exact ih

/-- A value comes back if it fits. -/
lemma setWidth_setWidth_eq_iff {m : ℕ} (n : ℕ) (v : BitVec m) :
    (v.setWidth n).setWidth m = v ↔ v.toNat < 2 ^ n := by
  rw [← BitVec.toNat_inj, BitVec.toNat_setWidth, BitVec.toNat_setWidth]
  constructor
  · intro h
    calc v.toNat = v.toNat % 2 ^ n % 2 ^ m := h.symm
      _ ≤ v.toNat % 2 ^ n := Nat.mod_le _ _
      _ < 2 ^ n := Nat.mod_lt _ (Nat.two_pow_pos n)
  · intro h
    rw [Nat.mod_eq_of_lt h, Nat.mod_eq_of_lt v.isLt]

/-- What a load gets after the pass if it has got a value before. -/
lemma loadRetyped_eq {users : List AllocaUser} (hprom : isPromotable DL allocated users = true)
    {accesses : List (SlotAccess DL)}
    (htypes : ∀ access ∈ accesses, access.typ ∈ users.filterMap useType?) {typ : LLVMType}
    (htyp : typ ∈ users.filterMap useType?) {v : BitVec (DL.getTypeSizeInBits typ)}
    (h : loadOriginal accesses typ = some v) : loadRetyped allocated accesses typ =
      some ((v.setWidth (DL.getTypeSizeInBits allocated)).setWidth _) := by
  obtain ⟨hallocated, husers⟩ := isIntOrPtrTy_of_isPromotable hprom
  obtain ⟨⟨typ', v'⟩, hslot, h⟩ := Option.bind_eq_some_iff.mp h
  obtain ⟨rfl, hv⟩ := Option.dite_none_right_eq_some.mp h
  obtain rfl := Option.some.inj hv
  rw [loadRetyped, introduceAllocaCasts, retyped_eq hprom htypes, hslot]
  exact castValue_eq hallocated (husers typ' htyp) _

/-- **When values come back.**  Whatever is stored and loaded through a slot that is promotable, the
loads of values that have been stored at the same type yield these values if and only if the values
fit into the bits of the type of the slot. -/
theorem loads_eq_iff (DL : DataLayout) (allocated : LLVMType) (users : List AllocaUser)
    (hprom : isPromotable DL allocated users = true) (accesses : List (SlotAccess DL))
    (htypes : ∀ access ∈ accesses, access.typ ∈ users.filterMap useType?) :
    (∀ before typ after v, accesses = before ++ .load typ :: after →
        loadOriginal before typ = some v → loadRetyped allocated before typ = some v) ↔
      ∀ before typ after v, accesses = before ++ .load typ :: after →
        loadOriginal before typ = some v → v.toNat < 2 ^ DL.getTypeSizeInBits allocated := by
  refine forall₄_congr fun before typ after v => forall₂_congr fun hsplit hload => ?_
  subst hsplit
  have htyp : typ ∈ users.filterMap useType? := htypes (.load typ) (by simp)
  rw [loadRetyped_eq hprom (fun a ha => htypes a (List.mem_append_left _ ha)) htyp hload,
    Option.some.injEq, setWidth_setWidth_eq_iff]

/-- A slot of a single bit that is accessed as a byte. -/
def bitUsers : List AllocaUser := [.store (.integer 8) false false, .load (.integer 8) false]

/-- A byte is stored. -/
def storedByte (v : BitVec 8) : List (SlotAccess .unpadded) := [.store (.integer 8) v]

/-- The byte 1 comes back from a slot of a single bit. -/
theorem loads_eq_one : loadOriginal (storedByte 1) (.integer 8) = some (1 : BitVec 8) ∧
    loadRetyped (.integer 1) (storedByte 1) (.integer 8) = some (1 : BitVec 8) := by
  refine ⟨rfl, (loads_eq_iff .unpadded (.integer 1) bitUsers (by decide)
    (storedByte 1 ++ [.load (.integer 8)]) ?_).mpr ?_ _ _ [] _ rfl rfl⟩
  · intro access haccess
    rcases List.mem_cons.mp haccess with rfl | haccess
    · decide
    · rw [List.mem_singleton.mp haccess]
      decide
  · intro before typ after v hsplit hload
    cases before with
    | nil => cases hsplit
    | cons access before =>
      obtain ⟨rfl, hrest⟩ := List.cons.inj hsplit
      cases before with
      | nil =>
        obtain rfl : LLVMType.integer 8 = typ := SlotAccess.load.inj (List.cons.inj hrest).1
        obtain rfl : (1 : BitVec 8) = v := Option.some.inj hload
        decide
      | cons access before => simp at hrest

/-- The byte 2 does not come back: the slot has a single bit, but one byte like the accesses. -/
theorem loads_ne_two : isPromotable .unpadded (.integer 1) bitUsers = true ∧
    loadOriginal (storedByte 2) (.integer 8) = some (2 : BitVec 8) ∧
      loadRetyped (.integer 1) (storedByte 2) (.integer 8) = some (0 : BitVec 8) :=
  ⟨by decide, rfl, rfl⟩

end AllocaUser

end GenMC
