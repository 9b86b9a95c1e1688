import GenMC.Static.VarType
import GenMC.Support.NameInfo

/-!
# Collecting the names of a variable

`collectVarName` walks through the type of a variable and its debug information side by side and
registers the name of every scalar at an offset.  It differs from the layout in two places.

* The offset in a struct grows by the sizes of the elements only.  Padding between them is not
  counted, so that a component is registered before its place.
* The debug information of an array is entered only if it is a composite type.  If it is a typedef
  or a qualifier of one, it stays where it is for all dimensions, and a struct below finds the
  subranges of the array in place of its members: none of its names is registered.

`namesFollowLayout_iff` says that these are the only reasons for a wrong name.
-/

namespace GenMC

namespace DIType

/-- `newDit` of `collectVarName`: the debug information for the elements of an array. -/
def newDit : DIType → DIType
  | .composite (some base) _ => base
  | dit => dit

/-- The loop over derived types; `none` stands for a cast of a null pointer. -/
def stripDerived : DIType → Option DIType
  | .derived _ (some base) => stripDerived base
  | .derived _ none => none
  | dit => some dit

/-- `dictElems` of `collectVarName`.  A derived type that leads to no composite type is reported,
and nothing is collected. -/
def dictElems : DIType → Option (List DIType)
  | .composite _ elements => some elements
  | .derived name base => (stripDerived (.derived name base)).map fun
    | .composite _ elements => elements
    | _ => []
  | .other => some []

end DIType

mutual

/-- `collectVarName`: the names of the scalars of a type, from an offset on.  The result is `none`
if the loop over an array does not end, whose index has 32 bits, or a null pointer is cast. -/
def collectVarNameFrom : VarType → ℕ → DIType → String → NameInfo → Option NameInfo
  | .scalar _ _, ptr, _, nameBuilder, info => some (info.addOffsetInfo ptr nameBuilder)
  | .array numElements elementType, ptr, dit, nameBuilder, info =>
    if 2 ^ 32 ≤ numElements then none
    else
      ((List.range numElements).foldlM (fun (st : NameInfo × ℕ) i =>
        (collectVarNameFrom elementType ((ptr + st.2) % 2 ^ 32) dit.newDit
            (nameBuilder ++ "[" ++ toString i ++ "]") st.1).map fun info =>
          (info, (st.2 + elementType.getTypeAllocSize) % 2 ^ 32)) (info, 0)).map Prod.fst
  | .struct _ elements, ptr, dit, nameBuilder, info =>
    dit.dictElems.bind fun dictElems => collectMembers elements dictElems ptr 0 nameBuilder info

/-- The loop of `collectVarName` over the elements of a struct. -/
def collectMembers : List VarType → List DIType → ℕ → ℕ → String → NameInfo → Option NameInfo
  | typ :: elements, didt :: dictElems, ptr, offset, nameBuilder, info =>
    (match didt with
      | .derived _ none => none
      | .derived name (some ditb) =>
        collectVarNameFrom typ ((ptr + offset) % 2 ^ 32) ditb (nameBuilder ++ "." ++ name) info
      | _ => some info).bind fun info =>
    collectMembers elements dictElems ptr ((offset + typ.getTypeAllocSize) % 2 ^ 32) nameBuilder
      info
  | _, _, _, _, _, info => some info

end

/-- `collectVarName` for a whole variable. -/
def collectVarName (typ : VarType) (dit : DIType) : Option NameInfo :=
  collectVarNameFrom typ 0 dit "" []

/-- Every scalar component gets its access path at its offset in the layout. -/
def NamesFollowLayout (typ : VarType) (dit : DIType) : Prop :=
  ∃ info, collectVarName typ dit = some info ∧ ∀ c ∈ typ.components dit,
    info.getNameAtOffset (c.offset % 2 ^ 32) = some c.path

namespace VarType

mutual

/-- No array has more elements than an `unsigned` can count. -/
def CountsFit : VarType → Prop
  | .scalar _ _ => True
  | .array numElements elementType => numElements < 2 ^ 32 ∧ CountsFit elementType
  | .struct _ elements => ElementCountsFit elements

/-- The same for all elements of a struct. -/
def ElementCountsFit : List VarType → Prop
  | [] => True
  | typ :: elements => CountsFit typ ∧ ElementCountsFit elements

end

/-- The type is small enough for offsets of 32 bits. -/
def Fits (typ : VarType) : Prop := typ.CountsFit ∧ typ.getTypeAllocSize ≤ 2 ^ 32

/-- Scalars, and arrays of them. -/
def holdsScalars : VarType → Bool
  | .scalar _ _ => true
  | .array _ elementType => holdsScalars elementType
  | .struct _ _ => false

mutual

/-- No array that holds components of structs has its debug information behind a derived type. -/
def Named : VarType → DIType → Prop
  | .scalar _ _, _ => True
  | .array numElements elementType, dit => numElements = 0 ∨ ∀ elem, dit.element? = some elem →
    Named elementType elem ∧ (dit.isDerived = true →
      elementType.holdsScalars = true ∨ elementType.components elem = [])
  | .struct _ elements, dit => ∀ members, dit.members? = some members →
    MembersNamed elements members

/-- The same for the elements of a struct. -/
def MembersNamed : List VarType → List DIType → Prop
  | typ :: elements, .derived _ (some base) :: members =>
    Named typ base ∧ MembersNamed elements members
  | _, _ => True

end

/-- The padding before a component is smaller than the distance to the next one without padding:
the place of a component in the layout is before the start of every later one. -/
def Spaced (typ : VarType) (dit : DIType) : Prop :=
  ∀ c ∈ typ.components dit, ∀ d ∈ typ.components dit, c.start < d.start → c.offset < d.start

/-- Different components have different access paths. -/
def DistinctPaths (typ : VarType) (dit : DIType) : Prop :=
  ∀ c ∈ typ.components dit, ∀ d ∈ typ.components dit, c.path = d.path → c = d

end VarType

/-! ### What is registered -/

/-- The entries for components, from an offset on. -/
def addComponents (ptr : ℕ) (nameBuilder : String) (cs : List Component) (info : NameInfo) :
    NameInfo :=
  cs.foldl (fun info c => info.addOffsetInfo ((ptr + c.start) % 2 ^ 32) (nameBuilder ++ c.path))
    info

/-- With this debug information the components `cs` of the type are registered. -/
def Collects (typ : VarType) (dit : DIType) (cs : List Component) : Prop :=
  ∀ ptr nameBuilder info, ptr < 2 ^ 32 →
    collectVarNameFrom typ ptr dit nameBuilder info = some (addComponents ptr nameBuilder cs info)

/-- The same for the elements of a struct, from an offset in the struct on. -/
def CollectsMembers (elements : List VarType) (dictElems : List DIType) (offset : ℕ)
    (cs : List Component) : Prop :=
  ∀ ptr nameBuilder info, ptr < 2 ^ 32 →
    collectMembers elements dictElems ptr (offset % 2 ^ 32) nameBuilder info =
      some (addComponents ptr nameBuilder cs info)

lemma addComponents_append (ptr : ℕ) (nameBuilder : String) (cs ds : List Component)
    (info : NameInfo) : addComponents ptr nameBuilder (cs ++ ds) info =
      addComponents ptr nameBuilder ds (addComponents ptr nameBuilder cs info) :=
  List.foldl_append

/-- The entries of an element of an aggregate. -/
lemma addComponents_under (ptr : ℕ) (nameBuilder step : String) (start offset : ℕ)
    (cs : List Component) (info : NameInfo) :
    addComponents ptr nameBuilder (cs.map (Component.under step start offset)) info =
      addComponents ((ptr + start) % 2 ^ 32) (nameBuilder ++ step) cs info := by
  rw [addComponents, List.foldl_map, addComponents]
  congr 1
  funext info c
  have hstart : (ptr + (start + c.start)) % 2 ^ 32 =
      ((ptr + start) % 2 ^ 32 + c.start) % 2 ^ 32 := by omega
  simp only [Component.under, hstart, String.append_assoc]

lemma collects_scalar (storeSize alignment : ℕ+) (dit : DIType) :
    Collects (.scalar storeSize alignment) dit [⟨0, 0, ""⟩] := by
  intro ptr nameBuilder info hptr
  rw [collectVarNameFrom, addComponents, List.foldl_cons, List.foldl_nil, Nat.add_zero,
    Nat.mod_eq_of_lt hptr, String.append_empty]

/-- The components of an array: the same ones of every element. -/
lemma Collects.array {n : ℕ} {elementType : VarType} {dit : DIType} {cs : List Component}
    (hn : n < 2 ^ 32) (h : Collects elementType dit.newDit cs) :
    Collects (.array n elementType) dit ((List.range n).flatMap fun i =>
      cs.map (Component.under ("[" ++ toString i ++ "]") (i * elementType.getTypeAllocSize)
        (i * elementType.getTypeAllocSize))) := by
  intro ptr nameBuilder info hptr
  rw [collectVarNameFrom, if_neg (not_le.mpr hn)]
  refine Option.map_eq_some_iff.mpr
    ⟨(addComponents ptr nameBuilder _ info, n * elementType.getTypeAllocSize % 2 ^ 32), ?_, rfl⟩
  clear hn
  induction n with
  | zero => rw [Nat.zero_mul]; rfl
  | succ n ih =>
    rw [List.range_succ, List.foldlM_append, ih, List.flatMap_append, addComponents_append,
      List.flatMap_singleton, addComponents_under]
    have hptr' : (ptr + n * elementType.getTypeAllocSize % 2 ^ 32) % 2 ^ 32 < 2 ^ 32 :=
      Nat.mod_lt _ (by norm_num)
    have hplace : (ptr + n * elementType.getTypeAllocSize) % 2 ^ 32 =
        (ptr + n * elementType.getTypeAllocSize % 2 ^ 32) % 2 ^ 32 := by omega
    have hnext : (n * elementType.getTypeAllocSize % 2 ^ 32 + elementType.getTypeAllocSize) % 2 ^ 32
        = (n + 1) * elementType.getTypeAllocSize % 2 ^ 32 := by
      rw [Nat.succ_mul]
      omega
    simp only [List.foldlM_cons, List.foldlM_nil, Option.bind_eq_bind, Option.bind_some,
      h _ _ _ hptr', Option.map_some, Option.pure_def, hnext, hplace, String.append_assoc]

/-- The components of the elements of a struct. -/
lemma CollectsMembers.cons {typ : VarType} {elements : List VarType} {name : String}
    {base : DIType} {members : List DIType} {start : ℕ} {cs ds : List Component}
    (h : Collects typ base cs)
    (hrest : CollectsMembers elements members (start + typ.getTypeAllocSize) ds) (offset : ℕ) :
    CollectsMembers (typ :: elements) (.derived name (some base) :: members) start
      (cs.map (Component.under ("." ++ name) start offset) ++ ds) := by
  intro ptr nameBuilder info hptr
  have hptr' : (ptr + start % 2 ^ 32) % 2 ^ 32 < 2 ^ 32 := Nat.mod_lt _ (by norm_num)
  have hplace : (ptr + start) % 2 ^ 32 = (ptr + start % 2 ^ 32) % 2 ^ 32 := by omega
  have hnext : (start % 2 ^ 32 + typ.getTypeAllocSize) % 2 ^ 32 =
      (start + typ.getTypeAllocSize) % 2 ^ 32 := by omega
  rw [collectMembers, addComponents_append, addComponents_under, hplace, ← String.append_assoc]
  simp only [h _ _ _ hptr', Option.bind_some, hnext]
  exact hrest _ _ _ hptr

/-! ### Debug information behind derived types -/

namespace DIType

/-- Debug information of an array behind a derived type: the loop over the dimensions leaves it
where it is, and a struct finds subranges. -/
def Stuck (dit : DIType) : Prop :=
  dit.isDerived = true ∧ ∃ base dims, dit.stripDerived = some (.composite (some base) dims) ∧
    dims.all isSubrange = true

lemma newDit_eq_self {dit : DIType} (h : dit.isDerived = true) : dit.newDit = dit := by
  cases dit with
  | derived name base => rfl
  | other => cases h
  | composite base elements => cases h

/-- The debug information of an array leads to subranges. -/
lemma stripDerived_of_element {dit elem : DIType} (h : dit.element? = some elem) :
    ∃ base dims, dit.stripDerived = some (.composite (some base) dims) ∧
      dims.all isSubrange = true := by
  fun_induction element? dit with
  | case1 name base ih => exact ih h
  | case2 base dim dims hall => exact ⟨base, dim :: dims, rfl, hall⟩
  | case3 => cases h
  | case4 => cases h

lemma stuck_of_element {dit elem : DIType} (h : dit.element? = some elem)
    (hderived : dit.isDerived = true) : dit.Stuck :=
  ⟨hderived, stripDerived_of_element h⟩

/-- The members of a struct are found behind derived types. -/
lemma dictElems_of_members {dit : DIType} {members : List DIType}
    (h : dit.members? = some members) : dit.dictElems = some members := by
  have hstrip : dit.stripDerived = some (.composite none members) := by
    fun_induction members? dit with
    | case1 name base ih => exact ih h
    | case2 elements => rw [Option.some.inj h, stripDerived.eq_def]
    | case3 => cases h
  cases dit with
  | derived name base => rw [dictElems, hstrip]; rfl
  | other => cases h
  | composite base elements =>
    cases base with
    | none => exact h
    | some base => cases h

/-- The debug information of a struct is no array, and has no base type. -/
lemma newDit_of_members {dit : DIType} {members : List DIType}
    (h : dit.members? = some members) : dit.newDit = dit := by
  cases dit with
  | derived name base => rfl
  | other => rfl
  | composite base elements =>
    cases base with
    | none => rfl
    | some base => cases h

/-- Debug information for which the loop over the dimensions went ahead: it has left the composite
type with the first dimension. -/
def Ahead (dit cur : DIType) : Prop := ∃ k, cur = newDit^[k] dit

/-- The next dimension, if the composite type is met. -/
lemma Ahead.element {dit cur elem : DIType} (h : Ahead dit cur) (helem : dit.element? = some elem)
    (hderived : dit.isDerived = false) : Ahead elem cur.newDit := by
  obtain ⟨k, rfl⟩ := h
  rw [← Function.iterate_succ_apply' newDit k dit, Function.iterate_succ_apply]
  match dit with
  | .composite (some base) (dim :: dims) =>
    rw [element?] at helem
    split at helem
    · cases dims with
      | nil => exact ⟨k, by rw [← Option.some.inj helem]; rfl⟩
      | cons dim' dims =>
        -- the loop leaves the composite type, whose other dimensions are still to come
        refine ⟨k + 1, ?_⟩
        rw [Function.iterate_succ_apply, ← Option.some.inj helem]
        rfl
    · cases helem
  | .composite (some _) [] | .composite none _ | .other =>
    rw [element?.eq_def] at helem
    cases helem
  | .derived _ _ => cases hderived

/-- Nothing goes ahead of a struct. -/
lemma Ahead.eq_of_members {dit cur : DIType} {members : List DIType} (h : Ahead dit cur)
    (hmembers : dit.members? = some members) : cur = dit := by
  obtain ⟨k, rfl⟩ := h
  exact Function.iterate_fixed (newDit_of_members hmembers) k

/-- Nothing goes ahead of a derived type. -/
lemma Ahead.eq_of_derived {dit cur : DIType} (h : Ahead dit cur)
    (hderived : dit.isDerived = true) : cur = dit := by
  obtain ⟨k, rfl⟩ := h
  exact Function.iterate_fixed (newDit_eq_self hderived) k

end DIType

/-- In place of members, subranges register nothing. -/
lemma collectMembers_subranges {dims : List DIType} (h : dims.all DIType.isSubrange = true)
    (elements : List VarType) (ptr offset : ℕ) (nameBuilder : String) (info : NameInfo) :
    collectMembers elements dims ptr offset nameBuilder info = some info := by
  induction elements generalizing dims offset with
  | nil => rw [collectMembers.eq_def]
  | cons typ elements ih =>
    match dims with
    | [] => rw [collectMembers.eq_def]
    | .other :: dims =>
      rw [collectMembers.eq_def]
      exact ih (List.all_cons.symm.trans h) _
    | .derived _ _ :: _ | .composite _ _ :: _ => cases h

namespace VarType

variable {typ : VarType} {dit : DIType}

lemma CountsFit.of_mem {packed : Bool} {elements : List VarType}
    (h : CountsFit (.struct packed elements)) (htyp : typ ∈ elements) : typ.CountsFit := by
  rw [CountsFit] at h
  induction elements with
  | nil => exact absurd htyp List.not_mem_nil
  | cons first elements ih =>
    rw [ElementCountsFit] at h
    obtain rfl | htyp := List.mem_cons.mp htyp
    · exact h.1
    · exact ih h.2 htyp

/-- The components of an array whose debug information is known. -/
lemma components_array {n : ℕ} {elem : DIType} (helem : dit.element? = some elem) :
    components (.array n typ) dit = (List.range n).flatMap fun i =>
      (typ.components elem).map (Component.under ("[" ++ toString i ++ "]")
        (i * typ.getTypeAllocSize) (i * typ.getTypeAllocSize)) := by
  rw [components, helem]

/-- **With debug information behind a derived type** only scalars are registered, and arrays of
them. -/
lemma collects_of_stuck {cur : DIType} (hstuck : cur.Stuck) (hmatch : typ.Matches dit)
    (hcounts : typ.CountsFit) :
    Collects typ cur (if typ.holdsScalars then typ.components dit else []) := by
  induction typ generalizing dit with
  | scalar storeSize alignment => exact collects_scalar storeSize alignment cur
  | array n elementType ih =>
    rw [Matches] at hmatch
    obtain ⟨elem, helem, hmatch⟩ := hmatch
    rw [CountsFit] at hcounts
    have helement := ih hmatch hcounts.2
    rw [← DIType.newDit_eq_self hstuck.1] at helement
    have harray := helement.array hcounts.1
    rw [components_array helem, holdsScalars]
    cases hscalars : elementType.holdsScalars with
    | true => rwa [hscalars] at harray
    | false =>
      have hnil : ((List.range n).flatMap fun i => ([] : List Component).map (Component.under
          ("[" ++ toString i ++ "]") (i * elementType.getTypeAllocSize)
          (i * elementType.getTypeAllocSize))) = [] :=
        List.flatMap_eq_nil_iff.mpr fun _ _ => rfl
      rw [hscalars] at harray
      rwa [if_neg Bool.false_ne_true, hnil] at harray
  | struct packed elements ih =>
    intro ptr nameBuilder info hptr
    obtain ⟨hderived, base, dims, hstrip, hdims⟩ := hstuck
    have hdict : cur.dictElems = some dims := by
      cases cur with
      | derived name base => rw [DIType.dictElems, hstrip]; rfl
      | other => cases hderived
      | composite base elements => cases hderived
    rw [collectVarNameFrom, hdict]
    exact collectMembers_subranges hdims _ _ _ _ _

/-- Scalars and arrays of them are named, whatever is before their debug information. -/
lemma named_of_holdsScalars (h : typ.holdsScalars = true) : Named typ dit := by
  induction typ generalizing dit with
  | scalar storeSize alignment => rw [Named]; trivial
  | array n elementType ih =>
    rw [Named]
    exact .inr fun elem _ => ⟨ih h, fun _ => .inl h⟩
  | struct packed elements ih => cases h

lemma membersNamed_of_eq_nil {packed : Bool} {elements : List VarType}
    (h : ∀ typ ∈ elements, ∀ dit, typ.components dit = [] → Named typ dit)
    {members : List DIType} {start stop : ℕ}
    (hnil : memberComponents packed elements members start stop = []) :
    MembersNamed elements members := by
  induction elements generalizing members start stop with
  | nil => rw [MembersNamed.eq_def]; trivial
  | cons typ elements ih =>
    match members with
    | .derived name (some base) :: members =>
      rw [memberComponents, List.append_eq_nil_iff] at hnil
      rw [MembersNamed]
      exact ⟨h typ List.mem_cons_self base (List.map_eq_nil_iff.mp hnil.1),
        ih (fun typ htyp => h typ (List.mem_cons_of_mem _ htyp)) hnil.2⟩
    | [] | .other :: _ | .derived _ none :: _ | .composite _ _ :: _ =>
      rw [MembersNamed.eq_def]
      trivial

/-- Where there are no components there are no names to lose. -/
lemma named_of_components_eq_nil (h : typ.components dit = []) : Named typ dit := by
  induction typ generalizing dit with
  | scalar storeSize alignment => rw [components] at h; cases h
  | array n elementType ih =>
    rw [Named]
    refine (Nat.eq_zero_or_pos n).imp_right fun hn elem helem => ?_
    rw [components_array helem, List.flatMap_eq_nil_iff] at h
    have hnil := List.map_eq_nil_iff.mp (h 0 (List.mem_range.mpr hn))
    exact ⟨ih hnil, fun _ => .inr hnil⟩
  | struct packed elements ih =>
    rw [Named]
    intro members hmembers
    rw [components, hmembers] at h
    exact membersNamed_of_eq_nil (fun typ htyp dit => ih typ htyp) h

end VarType

/-! ### All components or too few -/

/-- A part of the components of a type is registered, and all of them just if the debug
information is in the right place. -/
def CollectsPart (typ : VarType) (dit cur : DIType) : Prop :=
  ∃ cs, Collects typ cur cs ∧ cs.Sublist (typ.components dit) ∧
    (cs = typ.components dit ↔ typ.Named dit)

/-- Parts of two lists make up all of both. -/
lemma append_eq_append_iff_of_sublist {α : Type*} {l l' m m' : List α} (hl : l.Sublist l')
    (hm : m.Sublist m') : l ++ m = l' ++ m' ↔ l = l' ∧ m = m' := by
  constructor
  · intro heq
    have hlen := congrArg List.length heq
    have hllen := hl.length_le
    have hmlen := hm.length_le
    rw [List.length_append, List.length_append] at hlen
    exact ⟨hl.eq_of_length (by omega), hm.eq_of_length (by omega)⟩
  · rintro ⟨rfl, rfl⟩
    rfl

lemma map_eq_map_iff_of_sublist {α β : Type*} {l l' : List α} (h : l.Sublist l') (f : α → β) :
    l.map f = l'.map f ↔ l = l' := by
  refine ⟨fun heq => h.eq_of_length ?_, fun heq => heq ▸ rfl⟩
  have hlen := congrArg List.length heq
  rwa [List.length_map, List.length_map] at hlen

/-- Parts of a component's list, repeated for every element of an array. -/
lemma flatMap_eq_flatMap_iff_of_sublist {cs ds : List Component} (h : cs.Sublist ds) (n : ℕ)
    (f : ℕ → Component → Component) :
    (List.range n).flatMap (fun i => cs.map (f i)) = (List.range n).flatMap (fun i => ds.map (f i))
      ↔ n = 0 ∨ cs = ds := by
  constructor
  · intro heq
    have hlen := congrArg List.length heq
    simp only [List.length_flatMap, List.length_map, List.map_const', List.length_range,
      List.sum_replicate, smul_eq_mul, mul_eq_mul_left_iff] at hlen
    exact hlen.symm.imp_right fun hlen => h.eq_of_length hlen
  · rintro (rfl | rfl) <;> rfl

lemma sublist_flatMap {cs ds : List Component} (h : cs.Sublist ds) (n : ℕ)
    (f : ℕ → Component → Component) :
    ((List.range n).flatMap fun i => cs.map (f i)).Sublist
      ((List.range n).flatMap fun i => ds.map (f i)) := by
  induction n with
  | zero => exact List.Sublist.refl _
  | succ n ih =>
    rw [List.range_succ, List.flatMap_append, List.flatMap_append]
    refine ih.append ?_
    rw [List.flatMap_singleton, List.flatMap_singleton]
    exact h.map _

/-- The elements of a struct. -/
lemma collectsMembers_part {elements : List VarType} {members : List DIType}
    (h : ∀ typ ∈ elements, ∀ dit, typ.Matches dit → CollectsPart typ dit dit)
    (hmatch : VarType.MembersMatch elements members) (packed : Bool) (start stop : ℕ) :
    ∃ cs, CollectsMembers elements members start cs ∧
      cs.Sublist (VarType.memberComponents packed elements members start stop) ∧
      (cs = VarType.memberComponents packed elements members start stop ↔
        VarType.MembersNamed elements members) := by
  induction elements generalizing members start stop with
  | nil =>
    refine ⟨[], fun ptr nameBuilder info _ => ?_, List.nil_sublist _, ?_⟩
    · rw [collectMembers.eq_def]
      rfl
    · rw [VarType.memberComponents.eq_def, VarType.MembersNamed.eq_def]
      exact iff_of_true rfl trivial
  | cons typ elements ih =>
    obtain ⟨name, base, members, rfl, hbase, hmembers⟩ := VarType.exists_of_membersMatch hmatch
    obtain ⟨cs, hcs, hsub, hall⟩ := h typ List.mem_cons_self base hbase
    obtain ⟨ds, hds, hsub', hall'⟩ := ih (fun typ htyp => h typ (List.mem_cons_of_mem _ htyp))
      hmembers (start + typ.getTypeAllocSize)
      (VarType.elementStart packed stop typ + typ.getTypeAllocSize)
    refine ⟨_, CollectsMembers.cons hcs hds (VarType.elementStart packed stop typ), ?_, ?_⟩
    · rw [VarType.memberComponents]
      exact (hsub.map _).append hsub'
    · rw [VarType.memberComponents, append_eq_append_iff_of_sublist (hsub.map _) hsub',
        map_eq_map_iff_of_sublist hsub, hall, hall', VarType.MembersNamed]

/-- **What is registered** is a part of the components, where the loop over the dimensions may have
gone ahead. -/
theorem collectsPart {typ : VarType} {dit cur : DIType} (hmatch : typ.Matches dit)
    (hcounts : typ.CountsFit) (hahead : dit.Ahead cur) : CollectsPart typ dit cur := by
  induction typ generalizing dit cur with
  | scalar storeSize alignment =>
    refine ⟨_, collects_scalar storeSize alignment cur, ?_, ?_⟩
    · rw [VarType.components]
    · rw [VarType.components, VarType.Named]
      exact iff_of_true rfl trivial
  | array n elementType ih =>
    rw [VarType.Matches] at hmatch
    obtain ⟨elem, helem, hmatch⟩ := hmatch
    rw [VarType.CountsFit] at hcounts
    rw [CollectsPart, VarType.components_array helem, VarType.Named]
    cases hderived : dit.isDerived with
    | false =>
      obtain ⟨cs, hcs, hsub, hall⟩ := ih hmatch hcounts.2 (hahead.element helem hderived)
      refine ⟨_, Collects.array hcounts.1 hcs, sublist_flatMap hsub n _, ?_⟩
      rw [flatMap_eq_flatMap_iff_of_sublist hsub, hall]
      simp [helem]
    | true =>
      -- the debug information stays behind the derived type from here on
      obtain rfl := hahead.eq_of_derived hderived
      have hcs := VarType.collects_of_stuck (DIType.stuck_of_element helem hderived) hmatch
        hcounts.2
      rw [← DIType.newDit_eq_self hderived] at hcs
      have hsub : (if elementType.holdsScalars = true then elementType.components elem else
          []).Sublist (elementType.components elem) := by
        split
        · exact List.Sublist.refl _
        · exact List.nil_sublist _
      refine ⟨_, Collects.array hcounts.1 hcs, sublist_flatMap hsub n _, ?_⟩
      rw [flatMap_eq_flatMap_iff_of_sublist hsub]
      refine or_congr_right ⟨fun heq elem' helem' => ?_, fun h => ?_⟩
      · obtain rfl := Option.some.inj (helem.symm.trans helem')
        split at heq
        next hscalars =>
          exact ⟨VarType.named_of_holdsScalars hscalars, fun _ => .inl hscalars⟩
        next => exact ⟨VarType.named_of_components_eq_nil heq.symm, fun _ => .inr heq.symm⟩
      · obtain hscalars | hnil := (h elem helem).2 rfl
        · rw [if_pos hscalars]
        · rw [hnil, ite_self]
  | struct packed elements ih =>
    rw [VarType.Matches] at hmatch
    obtain ⟨members, hmembers, hmatch⟩ := hmatch
    obtain rfl := hahead.eq_of_members hmembers
    have helements : ∀ typ ∈ elements, ∀ dit, typ.Matches dit → CollectsPart typ dit dit :=
      fun typ htyp dit hmatch => ih typ htyp hmatch (hcounts.of_mem htyp) ⟨0, rfl⟩
    obtain ⟨cs, hcs, hsub, hall⟩ := collectsMembers_part helements hmatch packed 0 0
    refine ⟨cs, fun ptr nameBuilder info hptr => ?_, ?_, ?_⟩
    · rw [collectVarNameFrom, DIType.dictElems_of_members hmembers]
      exact hcs ptr nameBuilder info hptr
    · rw [VarType.components, hmembers]
      exact hsub
    · rw [VarType.components, hmembers, VarType.Named]
      simp [hmembers, hall]

/-! ### Looking names up -/

/-- The entries for components, under their starts. -/
def entries (cs : List Component) : NameInfo := cs.map fun c => (c.start, c.path)

/-- Components that start one after the other are registered in the order of their starts. -/
lemma addComponents_eq_entries {cs : List Component} (hstarts : cs.Pairwise VarType.Starts)
    (hfits : ∀ c ∈ cs, c.start < 2 ^ 32) :
    addComponents 0 "" cs [] = entries cs ∧ NameInfo.Ordered (entries cs) := by
  have hordered : NameInfo.Ordered (entries cs) := List.pairwise_map.mpr hstarts
  refine ⟨?_, hordered⟩
  induction cs using List.reverseRecOn with
  | nil => rfl
  | append_singleton cs c ih =>
    obtain ⟨hcs, -, hlt⟩ := List.pairwise_append.mp hstarts
    have hordered' : NameInfo.Ordered (entries cs) := List.pairwise_map.mpr hcs
    specialize ih hcs (fun c hc => hfits c (List.mem_append_left _ hc)) hordered'
    rw [addComponents_append, ih, addComponents, List.foldl_cons, List.foldl_nil, Nat.zero_add,
      Nat.mod_eq_of_lt (hfits c (by simp)), String.empty_append,
      NameInfo.addOffsetInfo_of_lt hordered']
    · rw [entries, entries, List.map_append]
      rfl
    · intro e he
      obtain ⟨c', hc', rfl⟩ := List.mem_map.mp he
      exact hlt c' hc' c (List.mem_singleton_self c)

section Lookup

variable {typ : VarType} {dit : DIType}

/-- Where the offsets of a type fit, a variable has the entries of the registered components. -/
lemma collectVarName_eq_entries (hfits : typ.Fits) {cs : List Component} (h : Collects typ dit cs)
    (hsub : cs.Sublist (typ.components dit)) :
    collectVarName typ dit = some (entries cs) ∧ NameInfo.Ordered (entries cs) := by
  have hstarts := (VarType.pairwise_components typ dit).sublist hsub
  have hfit : ∀ c ∈ cs, c.start < 2 ^ 32 := fun c hc =>
    (VarType.start_le_offset (hsub.subset hc)).trans_lt
      ((VarType.offset_lt_allocSize (hsub.subset hc)).trans_le hfits.2)
  obtain ⟨hentries, hordered⟩ := addComponents_eq_entries hstarts hfit
  rw [collectVarName, h 0 "" [] (by norm_num), hentries]
  exact ⟨rfl, hordered⟩

lemma offset_mod_eq (hfits : typ.Fits) {c : Component} (hc : c ∈ typ.components dit) :
    c.offset % 2 ^ 32 = c.offset :=
  Nat.mod_eq_of_lt ((VarType.offset_lt_allocSize hc).trans_le hfits.2)

/-- If all components are registered and the padding is small, every name is found. -/
lemma namesFollowLayout_of_spaced (hfits : typ.Fits) (h : Collects typ dit (typ.components dit))
    (hspaced : typ.Spaced dit) : NamesFollowLayout typ dit := by
  obtain ⟨hinfo, hordered⟩ := collectVarName_eq_entries hfits h (List.Sublist.refl _)
  refine ⟨_, hinfo, fun c hc => ?_⟩
  rw [offset_mod_eq hfits hc]
  have hentry : (c.start, c.path) ∈ entries (typ.components dit) := List.mem_map_of_mem hc
  refine hordered.getNameAtOffset hentry (VarType.start_le_offset hc) fun e he hle => ?_
  obtain ⟨d, hd, rfl⟩ := List.mem_map.mp he
  by_contra hlt
  exact absurd (hspaced c hc d hd (not_le.mp hlt)) (not_lt.mpr hle)

/-- A name that is found belongs to a registered component, behind which no other one starts
before the place looked for. -/
lemma exists_of_getNameAtOffset_entries {cs : List Component}
    (hordered : NameInfo.Ordered (entries cs)) (hsub : cs.Sublist (typ.components dit))
    (hscalar : typ.holdsScalars = true → cs = typ.components dit) {c : Component}
    (hc : c ∈ typ.components dit) (hfound : (entries cs).getNameAtOffset c.offset = some c.path) :
    ∃ d ∈ cs, d.path = c.path ∧ ∀ d' ∈ cs, d'.start ≤ c.offset → d'.start ≤ d.start := by
  have hne : entries cs ≠ [] := by
    intro hnil
    rw [hnil] at hfound
    -- an empty vector gives the empty name, which is the path of a scalar variable only
    obtain ⟨storeSize, alignment, rfl⟩ :=
      VarType.eq_scalar_of_path_eq_empty hc (Option.some.inj hfound).symm
    rw [← hscalar rfl, List.map_eq_nil_iff.mp hnil] at hc
    exact List.not_mem_nil hc
  obtain ⟨e, he, hname, hgreatest⟩ := hordered.exists_of_getNameAtOffset hne hfound
  obtain ⟨d, hd, rfl⟩ := List.mem_map.mp he
  exact ⟨d, hd, hname, fun d' hd' hle => hgreatest _ (List.mem_map_of_mem hd') hle⟩

/-- **When the names follow the layout.**  For a variable whose offsets fit into 32 bits, it is
enough that no debug information of structs is lost behind a derived type and that the padding is
small.  If different components have different paths, it is also needed. -/
theorem namesFollowLayout_iff (hmatch : typ.Matches dit) (hfits : typ.Fits) :
    (typ.Named dit ∧ typ.Spaced dit → NamesFollowLayout typ dit) ∧
      (typ.DistinctPaths dit →
        (NamesFollowLayout typ dit ↔ typ.Named dit ∧ typ.Spaced dit)) := by
  obtain ⟨cs, hcs, hsub, hall⟩ := collectsPart hmatch hfits.1 ⟨0, rfl⟩
  have henough : typ.Named dit ∧ typ.Spaced dit → NamesFollowLayout typ dit := by
    rintro ⟨hnamed, hspaced⟩
    rw [hall.mpr hnamed] at hcs
    exact namesFollowLayout_of_spaced hfits hcs hspaced
  refine ⟨henough, fun hpaths => ⟨?_, henough⟩⟩
  rintro ⟨info, hinfo, hnames⟩
  obtain ⟨hentries, hordered⟩ := collectVarName_eq_entries hfits hcs hsub
  obtain rfl := Option.some.inj (hentries.symm.trans hinfo)
  have hregistered : ∀ c ∈ typ.components dit,
      c ∈ cs ∧ ∀ d' ∈ cs, d'.start ≤ c.offset → d'.start ≤ c.start := by
    intro c hc
    have hfound := hnames c hc
    rw [offset_mod_eq hfits hc] at hfound
    obtain ⟨d, hd, hpath, hgreatest⟩ := exists_of_getNameAtOffset_entries hordered hsub
      (fun hscalars => hall.mpr (VarType.named_of_holdsScalars hscalars)) hc hfound
    obtain rfl := hpaths d (hsub.subset hd) c hc hpath
    exact ⟨hd, hgreatest⟩
  have heq : cs = typ.components dit := by
    have hnodup : (typ.components dit).Nodup :=
      (VarType.pairwise_components typ dit).imp fun hlt heq => (heq ▸ hlt).false
    exact hsub.eq_of_length_le
      (hnodup.subperm fun c hc => (hregistered c hc).1).length_le
  refine ⟨hall.mp heq, fun c hc d hd hlt => ?_⟩
  by_contra hge
  exact absurd ((hregistered c hc).2 d (hregistered d hd).1 (not_lt.mp hge)) (not_le.mpr hlt)

end Lookup

/-- The debug information of a struct with members of basic types. -/
def structInfo (names : List String) : DIType :=
  .composite none (names.map fun name => .derived name (some .other))

/-- `struct { int a; int b; char c; }` has padding at its end only. -/
theorem namesFollowLayout_struct :
    NamesFollowLayout (.struct false [.scalar 4 4, .scalar 4 4, .scalar 1 1])
      (structInfo ["a", "b", "c"]) := by
  have hcomponents : VarType.components (.struct false [.scalar 4 4, .scalar 4 4, .scalar 1 1])
      (structInfo ["a", "b", "c"]) = [⟨0, 0, ".a"⟩, ⟨4, 4, ".b"⟩, ⟨8, 8, ".c"⟩] := by rfl
  have hmatch : VarType.Matches (.struct false [.scalar 4 4, .scalar 4 4, .scalar 1 1])
      (structInfo ["a", "b", "c"]) := by
    simp [structInfo, VarType.Matches, VarType.MembersMatch, DIType.members?]
  have hcounts : VarType.CountsFit (.struct false [.scalar 4 4, .scalar 4 4, .scalar 1 1]) := by
    simp [VarType.CountsFit, VarType.ElementCountsFit]
  refine (namesFollowLayout_iff hmatch ⟨hcounts, by decide⟩).1 ⟨?_, ?_⟩
  · simp [structInfo, VarType.Named, VarType.MembersNamed, DIType.members?]
  · simp [VarType.Spaced, hcomponents]

/-- In `struct { char a; int b; char c; char d; }` the name of `d` is found at the place of `c`. -/
theorem not_namesFollowLayout_struct :
    ¬NamesFollowLayout (.struct false [.scalar 1 1, .scalar 4 4, .scalar 1 1, .scalar 1 1])
      (structInfo ["a", "b", "c", "d"]) := by
  rintro ⟨info, hinfo, hnames⟩
  have hcollected : collectVarName (.struct false [.scalar 1 1, .scalar 4 4, .scalar 1 1,
      .scalar 1 1]) (structInfo ["a", "b", "c", "d"]) =
        some [(0, ".a"), (1, ".b"), (5, ".c"), (6, ".d")] := by rfl
  have hcomponent : (⟨5, 8, ".c"⟩ : Component) ∈ VarType.components
      (.struct false [.scalar 1 1, .scalar 4 4, .scalar 1 1, .scalar 1 1])
      (structInfo ["a", "b", "c", "d"]) := List.mem_of_getElem? (by rfl : _[2]? = _)
  obtain rfl := Option.some.inj (hcollected.symm.trans hinfo)
  have hfound := hnames _ hcomponent
  revert hfound
  decide

end GenMC
