import GenMC.Static.MemType

/-!
# Variables and their debug information

The type of a variable is built from scalars of any size and alignment, and a layout says where
its scalar components are.  The debug information describes the same variable in the words of the
source: `derived` is a typedef, a qualifier or the member of a struct, and `composite` an array,
with one subrange for every dimension, or a struct, with its members.

`components` puts the two together: every scalar component has an access path.  Besides the offset
that the layout gives to a component there is its `start`, the sum of the sizes of what is before
it, without the padding inside of structs.
-/

namespace GenMC

/-- `Type`: the type of a variable. -/
inductive VarType where
  | scalar (storeSize alignment : ℕ+)
  | array (numElements : ℕ) (elementType : VarType)
  | struct (packed : Bool) (elements : List VarType)

/-- Structural induction: in the case of a struct the statement may be assumed for every
element. -/
@[elab_as_elim, induction_eliminator]
theorem VarType.inductionOn {motive : VarType → Prop}
    (scalar : ∀ storeSize alignment, motive (scalar storeSize alignment))
    (array : ∀ numElements elementType, motive elementType →
      motive (array numElements elementType))
    (struct : ∀ packed elements, (∀ typ ∈ elements, motive typ) → motive (struct packed elements))
    (typ : VarType) : motive typ := by
  refine @VarType.rec motive (fun elements => ∀ typ ∈ elements, motive typ)
    scalar array struct ?_ ?_ typ
  · exact fun typ htyp => absurd htyp List.not_mem_nil
  · intro typ elements htyp helements t ht
    obtain rfl | ht := List.mem_cons.mp ht
    · exact htyp
    · exact helements t ht

/-- `DINode`: the debug information of a variable.  `other` stands for the nodes that are neither
derived nor composite: basic types, and the subranges of an array. -/
inductive DIType where
  | other
  | derived (name : String) (baseType : Option DIType)
  | composite (baseType : Option DIType) (elements : List DIType)

namespace DIType

/-- A typedef, a qualifier or a member. -/
def isDerived : DIType → Bool
  | .derived _ _ => true
  | _ => false

/-- A node that may describe the dimension of an array. -/
def isSubrange : DIType → Bool
  | .other => true
  | _ => false

/-- What describes the elements of an array.  The dimensions of an array are subranges of one
composite type. -/
def element? : DIType → Option DIType
  | .derived _ (some base) => element? base
  | .composite (some base) (dim :: dims) =>
    if (dim :: dims).all isSubrange then
      some (if dims.isEmpty then base else .composite (some base) dims)
    else none
  | _ => none

/-- The members of a struct. -/
def members? : DIType → Option (List DIType)
  | .derived _ (some base) => members? base
  | .composite none elements => some elements
  | _ => none

end DIType

/-- A scalar component of a variable. -/
structure Component where
  /-- The sum of the sizes of what is before the component. -/
  start : ℕ
  /-- The distance from the beginning of the variable, in bytes. -/
  offset : ℕ
  /-- Field names and indices. -/
  path : String

/-- A component of an element is a component of the aggregate. -/
def Component.under (step : String) (start offset : ℕ) (c : Component) : Component :=
  ⟨start + c.start, offset + c.offset, step ++ c.path⟩

namespace VarType

mutual

/-- `DataLayout::getABITypeAlign`. -/
def getABITypeAlign : VarType → ℕ
  | .scalar _ alignment => alignment
  | .array _ elementType => getABITypeAlign elementType
  | .struct packed elements => if packed then 1 else getMaxAlign elements

/-- The largest alignment of the elements of a struct. -/
def getMaxAlign : List VarType → ℕ
  | [] => 1
  | typ :: elements => max (getABITypeAlign typ) (getMaxAlign elements)

end

/-- The offset of an element of a struct, where the ones before it end at an offset. -/
def elementStart (packed : Bool) (stop : ℕ) (typ : VarType) : ℕ :=
  if packed then stop else alignTo stop typ.getABITypeAlign

mutual

/-- `DataLayout::getTypeAllocSize`. -/
def getTypeAllocSize : VarType → ℕ
  | .scalar storeSize alignment => alignTo storeSize alignment
  | .array numElements elementType => numElements * getTypeAllocSize elementType
  | .struct packed elements =>
    alignTo (structEnd packed elements 0) (if packed then 1 else getMaxAlign elements)

/-- Where the elements of a struct end that begin at an offset. -/
def structEnd (packed : Bool) : List VarType → ℕ → ℕ
  | [], stop => stop
  | typ :: elements, stop =>
    structEnd packed elements (elementStart packed stop typ + getTypeAllocSize typ)

end

mutual

/-- The debug information has the shape of the type. -/
def Matches : VarType → DIType → Prop
  | .scalar _ _, _ => True
  | .array _ elementType, dit => ∃ elem, dit.element? = some elem ∧ Matches elementType elem
  | .struct _ elements, dit => ∃ members, dit.members? = some members ∧
    MembersMatch elements members

/-- Every element of a struct has its member. -/
def MembersMatch : List VarType → List DIType → Prop
  | [], [] => True
  | typ :: elements, .derived _ (some base) :: members =>
    Matches typ base ∧ MembersMatch elements members
  | _, _ => False

end

mutual

/-- The scalar components of a variable, in the order of their offsets. -/
def components : VarType → DIType → List Component
  | .scalar _ _, _ => [⟨0, 0, ""⟩]
  | .array numElements elementType, dit =>
    match dit.element? with
    | none => []
    | some elem => (List.range numElements).flatMap fun i =>
      (components elementType elem).map (Component.under ("[" ++ toString i ++ "]")
        (i * getTypeAllocSize elementType) (i * getTypeAllocSize elementType))
  | .struct packed elements, dit =>
    match dit.members? with
    | none => []
    | some members => memberComponents packed elements members 0 0

/-- The components of the elements of a struct, where the ones before them end at an offset. -/
def memberComponents (packed : Bool) : List VarType → List DIType → ℕ → ℕ → List Component
  | typ :: elements, .derived name (some base) :: members, start, stop =>
    let offset := elementStart packed stop typ
    (components typ base).map (Component.under ("." ++ name) start offset) ++
      memberComponents packed elements members (start + getTypeAllocSize typ)
        (offset + getTypeAllocSize typ)
  | _, _, _, _ => []

end

lemma getABITypeAlign_pos (typ : VarType) : 0 < typ.getABITypeAlign := by
  induction typ with
  | scalar storeSize alignment => exact alignment.pos
  | array n elementType ih => simpa only [getABITypeAlign] using ih
  | struct packed elements ih =>
    have hmax : 0 < getMaxAlign elements := by
      cases elements with
      | nil => exact Nat.one_pos
      | cons typ elements =>
        rw [getMaxAlign]
        exact lt_max_of_lt_left (ih typ List.mem_cons_self)
    rw [getABITypeAlign]
    split
    · exact Nat.one_pos
    · exact hmax

lemma le_elementStart (packed : Bool) (stop : ℕ) (typ : VarType) :
    stop ≤ elementStart packed stop typ := by
  unfold elementStart
  split
  · exact le_rfl
  · exact le_alignTo _ typ.getABITypeAlign_pos

/-- The elements of a struct end after they begin. -/
lemma le_structEnd (packed : Bool) (elements : List VarType) (stop : ℕ) :
    stop ≤ structEnd packed elements stop := by
  induction elements generalizing stop with
  | nil => exact le_rfl
  | cons typ elements ih =>
    rw [structEnd]
    have hstart := le_elementStart packed stop typ
    have hrest := ih (elementStart packed stop typ + getTypeAllocSize typ)
    omega

lemma structEnd_le (packed : Bool) (elements : List VarType) :
    structEnd packed elements 0 ≤ getTypeAllocSize (.struct packed elements) := by
  rw [getTypeAllocSize]
  refine le_alignTo _ ?_
  have hpos := getABITypeAlign_pos (.struct packed elements)
  rwa [getABITypeAlign] at hpos

/-! ### The places of the components -/

/-- A component of an array is a component of one of its elements. -/
lemma mem_components_array {n : ℕ} {elementType : VarType} {dit : DIType} {c : Component} :
    c ∈ components (.array n elementType) dit ↔ ∃ elem, dit.element? = some elem ∧ ∃ i < n,
      ∃ sub ∈ components elementType elem, sub.under ("[" ++ toString i ++ "]")
        (i * getTypeAllocSize elementType) (i * getTypeAllocSize elementType) = c := by
  rw [components]
  cases dit.element? with
  | none => simp
  | some elem => simp only [List.mem_flatMap, List.mem_range, List.mem_map, Option.some.injEq,
      exists_eq_left']

/-- A component of a struct is a component of one of its elements. -/
lemma mem_components_struct {packed : Bool} {elements : List VarType} {dit : DIType}
    {c : Component} (h : c ∈ components (.struct packed elements) dit) :
    ∃ members, dit.members? = some members ∧ c ∈ memberComponents packed elements members 0 0 := by
  rw [components] at h
  cases hmembers : dit.members? with
  | none =>
    rw [hmembers] at h
    exact absurd h List.not_mem_nil
  | some members =>
    rw [hmembers] at h
    exact ⟨members, rfl, h⟩

/-- The place of a component of a struct: its element begins behind the ones before it, and no
later in the sum of the sizes than in the layout. -/
lemma mem_memberComponents {packed : Bool} {elements : List VarType} {members : List DIType}
    {start stop : ℕ} {c : Component}
    (h : c ∈ memberComponents packed elements members start stop) :
    ∃ typ ∈ elements, ∃ name base, ∃ sub ∈ components typ base, ∃ s o,
      c = sub.under ("." ++ name) s o ∧ start ≤ s ∧ (start ≤ stop → s ≤ o) ∧
      o + getTypeAllocSize typ ≤ structEnd packed elements stop := by
  induction elements generalizing members start stop with
  | nil =>
    rw [memberComponents.eq_def] at h
    exact absurd h List.not_mem_nil
  | cons typ elements ih =>
    match members with
    | .derived name (some base) :: members =>
      rw [memberComponents, List.mem_append] at h
      have hstart := le_elementStart packed stop typ
      rcases h with h | h
      · obtain ⟨sub, hsub, rfl⟩ := List.mem_map.mp h
        refine ⟨typ, List.mem_cons_self, name, base, sub, hsub, start, elementStart packed stop typ,
          rfl, le_rfl, fun hle => hle.trans hstart, ?_⟩
        rw [structEnd]
        exact le_structEnd _ _ _
      · obtain ⟨typ', htyp', name', base', sub, hsub, s, o, rfl, hs, hso, hend⟩ := ih h
        refine ⟨typ', List.mem_cons_of_mem _ htyp', name', base', sub, hsub, s, o, rfl, by omega,
          fun hle => hso (by omega), ?_⟩
        rwa [structEnd]
    | [] | .other :: _ | .derived _ none :: _ | .composite _ _ :: _ =>
      rw [memberComponents.eq_def] at h
      exact absurd h List.not_mem_nil

/-- A component begins in its variable. -/
lemma offset_lt_allocSize {typ : VarType} {dit : DIType} {c : Component}
    (h : c ∈ components typ dit) : c.offset < getTypeAllocSize typ := by
  induction typ generalizing dit c with
  | scalar storeSize alignment =>
    rw [components, List.mem_singleton] at h
    subst h
    rw [getTypeAllocSize]
    exact storeSize.pos.trans_le (le_alignTo _ alignment.pos)
  | array n elementType ih =>
    obtain ⟨elem, -, i, hi, sub, hsub, rfl⟩ := mem_components_array.mp h
    have hsub := ih hsub
    have hmul := Nat.mul_le_mul_right (getTypeAllocSize elementType) hi
    rw [Nat.succ_mul] at hmul
    rw [getTypeAllocSize]
    simp only [Component.under]
    omega
  | struct packed elements ih =>
    obtain ⟨members, -, h⟩ := mem_components_struct h
    obtain ⟨typ, htyp, name, base, sub, hsub, s, o, rfl, -, -, hend⟩ := mem_memberComponents h
    have hsub := ih typ htyp hsub
    have hstruct := structEnd_le packed elements
    simp only [Component.under]
    omega

/-- Padding moves a component to the back. -/
lemma start_le_offset {typ : VarType} {dit : DIType} {c : Component}
    (h : c ∈ components typ dit) : c.start ≤ c.offset := by
  induction typ generalizing dit c with
  | scalar storeSize alignment =>
    rw [components, List.mem_singleton] at h
    rw [h]
  | array n elementType ih =>
    obtain ⟨elem, -, i, -, sub, hsub, rfl⟩ := mem_components_array.mp h
    exact Nat.add_le_add_left (ih hsub) _
  | struct packed elements ih =>
    obtain ⟨members, -, h⟩ := mem_components_struct h
    obtain ⟨typ, htyp, name, base, sub, hsub, s, o, rfl, -, hso, -⟩ := mem_memberComponents h
    exact Nat.add_le_add (hso le_rfl) (ih typ htyp hsub)

/-- Only the path of a variable that is a scalar is empty. -/
lemma eq_scalar_of_path_eq_empty {typ : VarType} {dit : DIType} {c : Component}
    (h : c ∈ components typ dit) (hpath : c.path = "") :
    ∃ storeSize alignment, typ = .scalar storeSize alignment := by
  cases typ with
  | scalar storeSize alignment => exact ⟨storeSize, alignment, rfl⟩
  | array n elementType =>
    obtain ⟨elem, -, i, -, sub, -, rfl⟩ := mem_components_array.mp h
    have hlen := congrArg String.length hpath
    simp [Component.under, String.length_append] at hlen
  | struct packed elements =>
    obtain ⟨members, -, h⟩ := mem_components_struct h
    obtain ⟨typ, -, name, base, sub, -, s, o, rfl, -⟩ := mem_memberComponents h
    have hlen := congrArg String.length hpath
    simp [Component.under, String.length_append] at hlen

/-- One component starts before another one. -/
def Starts (c d : Component) : Prop := c.start < d.start

lemma pairwise_under {cs : List Component} (h : cs.Pairwise Starts) (step : String)
    (start offset : ℕ) : (cs.map (Component.under step start offset)).Pairwise Starts :=
  List.pairwise_map.mpr (h.imp fun hlt => Nat.add_lt_add_left hlt start)

lemma pairwise_memberComponents (packed : Bool) {elements : List VarType}
    (h : ∀ typ ∈ elements, ∀ dit, (components typ dit).Pairwise Starts) (members : List DIType)
    (start stop : ℕ) : (memberComponents packed elements members start stop).Pairwise Starts := by
  induction elements generalizing members start stop with
  | nil =>
    rw [memberComponents.eq_def]
    exact List.Pairwise.nil
  | cons typ elements ih =>
    match members with
    | .derived name (some base) :: members =>
      rw [memberComponents, List.pairwise_append]
      refine ⟨pairwise_under (h typ List.mem_cons_self base) _ _ _,
        ih (fun typ htyp => h typ (List.mem_cons_of_mem _ htyp)) _ _ _, ?_⟩
      intro c hc d hd
      obtain ⟨sub, hsub, rfl⟩ := List.mem_map.mp hc
      obtain ⟨typ', -, name', base', sub', -, s, o, rfl, hs, -⟩ := mem_memberComponents hd
      have hsub := (start_le_offset hsub).trans_lt (offset_lt_allocSize hsub)
      simp only [Starts, Component.under]
      omega
    | [] | .other :: _ | .derived _ none :: _ | .composite _ _ :: _ =>
      rw [memberComponents.eq_def]
      exact List.Pairwise.nil

/-- The components start one after the other. -/
lemma pairwise_components (typ : VarType) (dit : DIType) :
    (components typ dit).Pairwise Starts := by
  induction typ generalizing dit with
  | scalar storeSize alignment => exact List.pairwise_singleton _ _
  | array n elementType ih =>
    rw [components]
    cases dit.element? with
    | none => exact List.Pairwise.nil
    | some elem =>
      refine List.pairwise_flatMap.mpr
        ⟨fun i _ => pairwise_under (ih elem) _ _ _, List.pairwise_lt_range.imp fun {i j} hij => ?_⟩
      intro c hc d hd
      obtain ⟨sub, hsub, rfl⟩ := List.mem_map.mp hc
      obtain ⟨sub', -, rfl⟩ := List.mem_map.mp hd
      have hsub := (start_le_offset hsub).trans_lt (offset_lt_allocSize hsub)
      have hmul := Nat.mul_le_mul_right (getTypeAllocSize elementType) (Nat.succ_le_of_lt hij)
      rw [Nat.succ_mul] at hmul
      simp only [Starts, Component.under]
      omega
  | struct packed elements ih =>
    rw [components]
    cases dit.members? with
    | none => exact List.Pairwise.nil
    | some members => exact pairwise_memberComponents packed (fun typ htyp => ih typ htyp) _ _ _

/-- An element of a struct has a member with a type. -/
lemma exists_of_membersMatch {typ : VarType} {elements : List VarType} {members : List DIType}
    (h : MembersMatch (typ :: elements) members) :
    ∃ name base rest, members = .derived name (some base) :: rest ∧ typ.Matches base ∧
      MembersMatch elements rest := by
  rw [MembersMatch.eq_def] at h
  split at h
  next heq => cases heq
  next heq =>
    obtain ⟨rfl, rfl⟩ := List.cons.inj heq
    exact ⟨_, _, _, rfl, h⟩
  next => exact h.elim

end VarType

end GenMC
