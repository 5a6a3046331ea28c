import MpiBindings.Datatypes.CppTypes
import MpiBindings.Core.CountingSort

/-!
# Construction of datatypes

The datatype of a type follows its shape: arrays and byte-serialized classes become
contiguous types, and registered classes become struct types that are resized to the size of
the class.  The number of elements is converted to `int` without a check.
-/

namespace MpiBindings.Datatypes

open TypeMaps CppType

section Construction

-- `address` is where `struct_type<T>::data_type()` has its local value of type `T`
variable (abi : Abi) (address : CppType → ℤ)

/-- `contiguous_type<T, N>::data_type()` with the datatype of `T`. -/
def contiguousType (N : ℕ) (baseType : Option (TypeMap MpiBasicType)) :
    Option (TypeMap MpiBasicType) := do
  let base ← baseType
  typeContiguous abi.toBasicLayout ((N : ℤ).bmod (2 ^ 32)) base

/-- The end of `struct_type<T>::data_type()`, with the arrays that describe the fields. -/
def structType (tupleSize : ℕ) (size : ℕ)
    (fieldBlocks : Option (List (ℕ × ℤ × TypeMap MpiBasicType))) :
    Option (TypeMap MpiBasicType) := do
  let blocks ← fieldBlocks
  let type ← typeCreateStruct abi.toBasicLayout ((tupleSize : ℤ).bmod (2 ^ 32)) blocks
  some (resized 0 size type)

/-- `MPI_Aint_diff`. -/
def aintDiff (address base : ℤ) : ℤ := address - base

mutual

/-- `mpi_type_traits<T>::data_type()`. -/
def dataType : CppType → Option (TypeMap MpiBasicType)
  | .builtin type => some (ofBasic type.dataType)
  | .enumeration underlying => some (ofBasic underlying.dataType)
  | .byte => some (ofBasic BuiltinType.unsignedChar.dataType)
  | .cArray elem length | .stdArray elem length =>
      contiguousType abi length (if elem.isByte then some (ofBasic .byte) else dataType elem)
  -- `contiguous_type<std::byte, sizeof(T)>`
  | .triviallyCopyable size => contiguousType abi size (some (ofBasic .byte))
  | .registered fields size =>
      structType abi fields.length size
        (fieldBlocks (address (.registered fields size)) fields)

/-- What `struct_type<T>::data_type()` stores for the fields: block length, displacement and
datatype. -/
def fieldBlocks (base : ℤ) : List (ℕ × CppType) → Option (List (ℕ × ℤ × TypeMap MpiBasicType))
  | [] => some []
  | (offset, T) :: fields => do
      let type ← dataType T
      let blocks ← fieldBlocks base fields
      some ((1, aintDiff (base + offset) base, type) :: blocks)

end

end Construction

/-! ## Which types get an exact datatype -/

mutual

/-- The counts that are converted to `int` are in its range, and no array has `std::byte`
elements. -/
def CountsFit : CppType → Prop
  | .builtin _ | .enumeration _ | .byte => True
  | .cArray elem _ | .stdArray elem _ => elem.isByte = false ∧ CountsFit elem
  | .triviallyCopyable size => size < 2 ^ 31
  | .registered fields _ => fields.length < 2 ^ 31 ∧ FieldCountsFit fields

def FieldCountsFit : List (ℕ × CppType) → Prop
  | [] => True
  | (_, T) :: fields => CountsFit T ∧ FieldCountsFit fields

end

theorem fieldCountsFit_iff {fields : List (ℕ × CppType)} :
    FieldCountsFit fields ↔ ∀ field ∈ fields, CountsFit field.2 := by
  induction fields with
  | nil => simp [FieldCountsFit]
  | cons field fields ih => rw [FieldCountsFit, ih, List.forall_mem_cons]

/-! ## Exactness -/

section Exactness

variable {abi : Abi} {address : CppType → ℤ}

theorem contiguousType_of_lt {N : ℕ} (hlt : N < 2 ^ 31) (base : TypeMap MpiBasicType) :
    contiguousType abi N (some base) = some (contiguous abi.toBasicLayout N base) := by
  have hcount : (N : ℤ).bmod (2 ^ 32) = N := CountingSort.bmod_natCast hlt
  rw [contiguousType, Option.bind_eq_bind, Option.bind_some, hcount, typeContiguous,
    if_pos (Int.natCast_nonneg N), Int.toNat_natCast]

@[simp]
theorem aintDiff_add (base offset : ℤ) : aintDiff (base + offset) base = offset :=
  add_sub_cancel_left base offset

/-- A type map lists the leaves of a type and has its bounds. -/
structure Describes (abi : Abi) (T : CppType) (type : TypeMap MpiBasicType) : Prop where
  entries_eq : entries type = leaves abi T
  lb_eq : lb type = 0
  extent_eq : extent abi.toBasicLayout type = T.sizeof abi

theorem describes_ofBasic {T : CppType} {type : MpiBasicType}
    (hleaves : leaves abi T = [(type, 0)]) (hsize : T.sizeof abi = abi.size type) :
    Describes abi T (ofBasic type) where
  entries_eq := hleaves.symm
  lb_eq := rfl
  extent_eq := by rw [extent_ofBasic, hsize]

theorem Describes.entries_contiguous {T : CppType} {type : TypeMap MpiBasicType}
    (h : Describes abi T type) (n : ℕ) :
    entries (contiguous abi.toBasicLayout n type) =
      elements n (T.sizeof abi) (leaves abi T) := by
  rw [TypeMaps.entries_contiguous, h.entries_eq, h.extent_eq, elements]

/-- Repeating the type map of the elements describes an array. -/
theorem Describes.contiguous {elem T : CppType} {type : TypeMap MpiBasicType} {length : ℕ}
    (h : Describes abi elem type) (hvalid : elem.Valid abi) (hlength : 0 < length)
    (hleaves : leaves abi T = elements length (elem.sizeof abi) (leaves abi elem))
    (hsize : T.sizeof abi = length * elem.sizeof abi) :
    Describes abi T (contiguous abi.toBasicLayout length type) := by
  have hne : entries type ≠ [] := h.entries_eq ▸ leaves_ne_nil hvalid
  have hextent : 0 ≤ extent abi.toBasicLayout type :=
    h.extent_eq ▸ Int.natCast_nonneg (elem.sizeof abi)
  refine ⟨?_, ?_, ?_⟩
  · rw [h.entries_contiguous, hleaves]
  · rw [lb_contiguous abi.toBasicLayout hlength hne hextent, h.lb_eq]
  · rw [extent_contiguous abi.toBasicLayout hlength hne hextent, h.extent_eq, hsize,
      Nat.cast_mul]

/-- Repeating bytes describes a byte-serialized class. -/
theorem describes_bytes {size : ℕ} (hsize : 0 < size) :
    Describes abi (.triviallyCopyable size)
      (contiguous abi.toBasicLayout size (ofBasic .byte)) := by
  have hextent : extent abi.toBasicLayout (ofBasic .byte) = 1 := by
    rw [extent_ofBasic, abi.size_byte, Nat.cast_one]
  have hne : entries (ofBasic MpiBasicType.byte) ≠ [] := List.cons_ne_nil _ _
  have hnonneg : 0 ≤ extent abi.toBasicLayout (ofBasic .byte) := hextent ▸ zero_le_one
  refine ⟨?_, ?_, ?_⟩
  · rw [TypeMaps.entries_contiguous, hextent, leaves, List.map_eq_flatMap]
    refine congrArg (List.range size).flatMap (funext fun k => ?_)
    simp [displace]
  · rw [lb_contiguous abi.toBasicLayout hsize hne hnonneg, lb_ofBasic]
  · rw [extent_contiguous abi.toBasicLayout hsize hne hnonneg, hextent, mul_one, sizeof]

variable (address) in
/-- Fields with described types get blocks with their leaves. -/
theorem fieldBlocks_describes (base : ℤ) {fields : List (ℕ × CppType)}
    (hfields : ∀ field ∈ fields, ∃ type, dataType abi address field.2 = some type ∧
      Describes abi field.2 type) :
    ∃ blocks, fieldBlocks abi address base fields = some blocks ∧
      blocks.length = fields.length ∧
      entries (struct abi.toBasicLayout blocks) = fieldLeaves abi fields := by
  induction fields with
  | nil => exact ⟨[], rfl, rfl, rfl⟩
  | cons field fields ih =>
      obtain ⟨type, htype, hdescribes⟩ := hfields field List.mem_cons_self
      obtain ⟨blocks, hblocks, hlength, hentries⟩ :=
        ih fun other hother => hfields other (List.mem_cons_of_mem field hother)
      refine ⟨(1, aintDiff (base + field.1) base, type) :: blocks, ?_, ?_, ?_⟩
      · rw [fieldBlocks, htype, hblocks]
        rfl
      · rw [List.length_cons, hlength, List.length_cons]
      · rw [entries_struct] at hentries ⊢
        rw [List.flatMap_cons, hentries, contiguous_one, hdescribes.entries_eq, aintDiff_add,
          fieldLeaves]

variable (address) in
/-- Types whose counts fit get a datatype that describes them. -/
theorem dataType_describes {T : CppType} (hvalid : T.Valid abi) (hfit : CountsFit T) :
    ∃ type, dataType abi address T = some type ∧ Describes abi T type := by
  induction T with
  | builtin | enumeration | byte => exact ⟨_, rfl, describes_ofBasic rfl rfl⟩
  | cArray elem length ih | stdArray elem length ih =>
      obtain ⟨type, htype, hdescribes⟩ := ih hvalid.2.2 hfit.2
      refine ⟨contiguous abi.toBasicLayout length type, ?_,
        hdescribes.contiguous hvalid.2.2 hvalid.1 rfl rfl⟩
      rw [dataType, hfit.1, htype]
      exact contiguousType_of_lt hvalid.2.1 type
  | triviallyCopyable size =>
      refine ⟨_, contiguousType_of_lt hfit _, describes_bytes hvalid⟩
  | registered fields size ih =>
      obtain ⟨-, -, -, hfields⟩ := hvalid
      obtain ⟨blocks, hblocks, hlength, hentries⟩ :=
        fieldBlocks_describes address (address (.registered fields size)) fun field hfield =>
          ih field hfield (fieldsValid_iff.mp hfields field hfield)
            (fieldCountsFit_iff.mp hfit.2 field hfield)
      refine ⟨resized 0 size (struct abi.toBasicLayout blocks), ?_, ?_, ?_, ?_⟩
      · have hcount : (fields.length : ℤ).bmod (2 ^ 32) = fields.length :=
          CountingSort.bmod_natCast hfit.1
        rw [dataType, hblocks, structType, Option.bind_eq_bind, Option.bind_some, hcount,
          typeCreateStruct, if_pos (Int.natCast_nonneg _), Int.toNat_natCast, ← hlength,
          List.take_length]
        rfl
      · rw [entries_resized, hentries, leaves]
      · rw [lb_resized]
      · rw [extent_resized, sizeof]

/-! ## Inexactness -/

/-- Every entry counts, and those of type `unsigned char` count twice. -/
def weight (entries : List (MpiBasicType × ℤ)) : ℕ :=
  (entries.map fun entry => if entry.1 = .unsignedChar then 2 else 1).sum

@[simp]
theorem weight_append (left right : List (MpiBasicType × ℤ)) :
    weight (left ++ right) = weight left + weight right := by
  rw [weight, List.map_append, List.sum_append, weight, weight]

@[simp]
theorem weight_displace (displ : ℤ) (entries : List (MpiBasicType × ℤ)) :
    weight (entries.map (displace displ)) = weight entries := by
  rw [weight, List.map_map, weight]
  rfl

theorem weight_pos {entries : List (MpiBasicType × ℤ)} (hne : entries ≠ []) :
    0 < weight entries := by
  obtain ⟨entry, entries, rfl⟩ := List.exists_cons_of_ne_nil hne
  rw [weight, List.map_cons, List.sum_cons]
  split_ifs <;> omega

theorem weight_repeat (n : ℕ) (displ : ℕ → ℤ) (elem : List (MpiBasicType × ℤ)) :
    weight ((List.range n).flatMap fun k => elem.map (displace (displ k))) =
      n * weight elem := by
  induction n with
  | zero => simp [weight]
  | succ n ih =>
      rw [List.range_succ, List.flatMap_append, weight_append, ih, List.flatMap_singleton,
        weight_displace, Nat.succ_mul]

theorem weight_contiguous (n : ℕ) (type : TypeMap MpiBasicType) :
    weight (entries (contiguous abi.toBasicLayout n type)) = n * weight (entries type) := by
  rw [entries_contiguous, weight_repeat]

theorem weight_elements (n stride : ℕ) (elem : List (MpiBasicType × ℤ)) :
    weight (elements n stride elem) = n * weight elem :=
  weight_repeat n (fun k => k * stride) elem

/-- A contiguous type is a repetition, as long as the converted count. -/
theorem contiguousType_eq_some {N : ℕ} {baseType : Option (TypeMap MpiBasicType)}
    {type : TypeMap MpiBasicType} (htype : contiguousType abi N baseType = some type) :
    ∃ base, baseType = some base ∧
      type = contiguous abi.toBasicLayout ((N : ℤ).bmod (2 ^ 32)).toNat base := by
  obtain ⟨base, hbase, htype⟩ := Option.bind_eq_some_iff.mp htype
  rw [typeContiguous] at htype
  split_ifs at htype with hcount
  exact ⟨base, hbase, (Option.some_inj.mp htype).symm⟩

theorem toNat_bmod_lt {N : ℕ} (hle : 2 ^ 31 ≤ N) : ((N : ℤ).bmod (2 ^ 32)).toNat < N := by
  rw [Int.bmod_def]
  split_ifs <;> omega

/-- If no field lists more than its leaves, the blocks do not list more than the leaves of
all fields; they list less if a block is left out or a field lists less. -/
theorem fieldBlocks_weight {base : ℤ} {fields : List (ℕ × CppType)}
    {blocks : List (ℕ × ℤ × TypeMap MpiBasicType)}
    (hblocks : fieldBlocks abi address base fields = some blocks)
    (hle : ∀ field ∈ fields, ∀ type, dataType abi address field.2 = some type →
      weight (entries type) ≤ weight (leaves abi field.2))
    (hpos : ∀ field ∈ fields, 0 < weight (leaves abi field.2)) (count : ℕ) :
    weight (entries (struct abi.toBasicLayout (blocks.take count))) ≤
        weight (fieldLeaves abi fields) ∧
      ((count < fields.length ∨ ∃ field ∈ fields, ∀ type,
          dataType abi address field.2 = some type →
            weight (entries type) < weight (leaves abi field.2)) →
        weight (entries (struct abi.toBasicLayout (blocks.take count))) <
          weight (fieldLeaves abi fields)) := by
  induction fields generalizing blocks count with
  | nil =>
      obtain rfl := Option.some_inj.mp hblocks
      simp [struct, entries, weight]
  | cons field fields ih =>
      obtain ⟨type, htype, hbind⟩ := Option.bind_eq_some_iff.mp hblocks
      obtain ⟨rest, hrest, hcons⟩ := Option.bind_eq_some_iff.mp hbind
      obtain rfl := Option.some_inj.mp hcons
      have hhead := hle field List.mem_cons_self type htype
      have hheadPos := hpos field List.mem_cons_self
      have htail := ih hrest (fun other hother => hle other (List.mem_cons_of_mem field hother))
        fun other hother => hpos other (List.mem_cons_of_mem field hother)
      rw [fieldLeaves, weight_append, weight_displace]
      cases count with
      | zero =>
          have hzero : weight (entries (struct abi.toBasicLayout [])) = 0 := rfl
          rw [List.take_zero, hzero]
          omega
      | succ count =>
          obtain ⟨htailLe, htailLt⟩ := htail count
          have hweight : weight (entries (struct abi.toBasicLayout
              (((1, aintDiff (base + field.1) base, type) :: rest).take (count + 1)))) =
                weight (entries type) +
                  weight (entries (struct abi.toBasicLayout (rest.take count))) := by
            rw [List.take_succ_cons, entries_struct, List.flatMap_cons, contiguous_one,
              weight_append, weight_displace, ← entries_struct]
          rw [hweight]
          refine ⟨add_le_add hhead htailLe, ?_⟩
          rintro (hlt | ⟨other, hother, hless⟩)
          · exact add_lt_add_of_le_of_lt hhead
              (htailLt (Or.inl (Nat.lt_of_succ_lt_succ hlt)))
          · rcases List.mem_cons.mp hother with rfl | hother
            · exact add_lt_add_of_lt_of_le (hless type htype) htailLe
            · exact add_lt_add_of_le_of_lt hhead (htailLt (Or.inr ⟨other, hother, hless⟩))

/-- A type with a count that does not fit lists less than its leaves. -/
theorem weight_lt_of_not_countsFit {T : CppType} (hvalid : T.Valid abi) (hfit : ¬ CountsFit T)
    {type : TypeMap MpiBasicType} (htype : dataType abi address T = some type) :
    weight (entries type) < weight (leaves abi T) := by
  induction T generalizing type with
  | builtin | enumeration | byte => exact absurd trivial hfit
  | cArray elem length ih | stdArray elem length ih =>
      rw [dataType] at htype
      obtain ⟨base, hbase, hrepeat⟩ := contiguousType_eq_some htype
      rw [hrepeat, CountingSort.bmod_natCast hvalid.2.1, Int.toNat_natCast, weight_contiguous,
        leaves, weight_elements]
      refine Nat.mul_lt_mul_of_pos_left ?_ hvalid.1
      cases hbyte : elem.isByte with
      | false =>
          rw [hbyte] at hbase
          exact ih hvalid.2.2 (fun helem => hfit ⟨hbyte, helem⟩) hbase
      | true =>
          -- the leaf is an `unsigned char`, the entry a byte
          rw [hbyte] at hbase
          obtain rfl := Option.some_inj.mp hbase
          cases elem <;> first | exact absurd hbyte Bool.false_ne_true | exact Nat.one_lt_two
  | triviallyCopyable size =>
      rw [dataType] at htype
      obtain ⟨base, hbase, hrepeat⟩ := contiguousType_eq_some htype
      obtain rfl := Option.some_inj.mp hbase
      have hone : weight (entries (ofBasic MpiBasicType.byte)) = 1 := rfl
      have hleaves : weight (leaves abi (.triviallyCopyable size)) = size := by
        simp [leaves, weight, List.map_map, Function.comp_def]
      rw [hrepeat, weight_contiguous, hone, mul_one, hleaves]
      exact toNat_bmod_lt (Nat.le_of_not_lt hfit)
  | registered fields size ih =>
      obtain ⟨-, -, -, hfields⟩ := hvalid
      have hfields' := fieldsValid_iff.mp hfields
      obtain ⟨blocks, hblocks, hstruct⟩ := Option.bind_eq_some_iff.mp htype
      obtain ⟨unsized, hunsized, hresized⟩ := Option.bind_eq_some_iff.mp hstruct
      obtain rfl := Option.some_inj.mp hresized
      rw [typeCreateStruct] at hunsized
      split_ifs at hunsized with hcount
      obtain rfl := Option.some_inj.mp hunsized
      rw [entries_resized, leaves]
      refine (fieldBlocks_weight hblocks ?_ ?_ _).2 ?_
      · intro field hfield elemType helemType
        by_cases hfieldFit : CountsFit field.2
        · obtain ⟨other, hother, hdescribes⟩ :=
            dataType_describes address (hfields' field hfield) hfieldFit
          obtain rfl := Option.some_inj.mp (helemType.symm.trans hother)
          exact hdescribes.entries_eq ▸ le_rfl
        · exact (ih field hfield (hfields' field hfield) hfieldFit helemType).le
      · exact fun field hfield => weight_pos (leaves_ne_nil (hfields' field hfield))
      · by_cases hlength : fields.length < 2 ^ 31
        · have hfieldFit : ¬ ∀ field ∈ fields, CountsFit field.2 := fun hall =>
            hfit ⟨hlength, fieldCountsFit_iff.mpr hall⟩
          push Not at hfieldFit
          obtain ⟨field, hfield, hnot⟩ := hfieldFit
          exact Or.inr ⟨field, hfield, fun elemType helemType =>
            ih field hfield (hfields' field hfield) hnot helemType⟩
        · exact Or.inl (toNat_bmod_lt (Nat.le_of_not_lt hlength))

end Exactness

/-! ## Exact datatypes -/

section Covers

variable (abi : Abi) (address : CppType → ℤ)

/-- The datatype of a type covers its values exactly: it has one entry for every leaf, with
its offset and its type, and none in the padding; its bounds are those of the type, so that
consecutive elements are transferred leaf by leaf; and the datatype of an array is a
repetition of the datatype of its elements. -/
structure Covers (T : CppType) (type : TypeMap MpiBasicType) : Prop where
  entries_perm : (entries type).Perm (leaves abi T)
  no_common_byte : (entries type).Pairwise (NoCommonByte abi)
  not_padding : ∀ entry ∈ entries type, ∀ byte, Occupies abi entry byte →
    ¬ InPadding abi T byte
  lb_eq : lb type = 0
  extent_eq : extent abi.toBasicLayout type = T.sizeof abi
  consecutive : ∀ n, (entries (contiguous abi.toBasicLayout n type)).Perm
    (elements n (T.sizeof abi) (leaves abi T))
  array : ∀ elem length, T = .cArray elem length ∨ T = .stdArray elem length →
    ∃ elemType, dataType abi address elem = some elemType ∧
      type = contiguous abi.toBasicLayout length elemType

variable {abi address}

/-- The datatype of an array whose counts fit repeats the datatype of its elements. -/
theorem array_eq_contiguous {elem : CppType} {length : ℕ} {type : TypeMap MpiBasicType}
    (hlength : length < 2 ^ 31) (hbyte : elem.isByte = false)
    (htype : dataType abi address (.cArray elem length) = some type) :
    ∃ elemType, dataType abi address elem = some elemType ∧
      type = contiguous abi.toBasicLayout length elemType := by
  rw [dataType] at htype
  obtain ⟨base, hbase, hrepeat⟩ := contiguousType_eq_some htype
  rw [hbyte] at hbase
  refine ⟨base, hbase, ?_⟩
  rw [hrepeat, CountingSort.bmod_natCast hlength, Int.toNat_natCast]

theorem not_covers_of_not_countsFit {T : CppType} (hvalid : T.Valid abi) (hfit : ¬ CountsFit T)
    {type : TypeMap MpiBasicType} (htype : dataType abi address T = some type) :
    ¬ Covers abi address T type := by
  intro hcovers
  have hlt := weight_lt_of_not_countsFit hvalid hfit htype
  have hperm : weight (entries type) = weight (leaves abi T) :=
    (hcovers.entries_perm.map _).sum_eq
  exact hlt.ne hperm

/-- The constructed datatype covers the values of a type exactly if and only if no
byte-serialized class in it has more bytes and no registered class more fields than an `int`
can count, and no array in it has `std::byte` elements. -/
theorem dataType_covers_iff {T : CppType} (hvalid : T.Valid abi) :
    (∃ type, dataType abi address T = some type ∧ Covers abi address T type) ↔
      CountsFit T := by
  constructor
  · rintro ⟨type, htype, hcovers⟩
    by_contra hfit
    exact not_covers_of_not_countsFit hvalid hfit htype hcovers
  · intro hfit
    obtain ⟨type, htype, hdescribes⟩ := dataType_describes address hvalid hfit
    refine ⟨type, htype, ?_⟩
    refine ⟨?_, ?_, ?_, hdescribes.lb_eq, hdescribes.extent_eq, ?_, ?_⟩
    · rw [hdescribes.entries_eq]
    · rw [hdescribes.entries_eq]
      exact leaves_disjoint hvalid
    · intro entry hentry byte hocc
      rw [hdescribes.entries_eq] at hentry
      exact not_inPadding_of_leaf hvalid hentry hocc
    · intro n
      rw [hdescribes.entries_contiguous n]
    · rintro elem length (rfl | rfl)
      · exact array_eq_contiguous hvalid.2.1 hfit.1 htype
      · exact array_eq_contiguous hvalid.2.1 hfit.1 htype

/-- Sizes and alignments of a common platform with 64-bit pointers. -/
def lp64 : Abi where
  size
    | .char | .signedChar | .unsignedChar | .cxxBool | .byte => 1
    | .short | .unsignedShort => 2
    | .wchar | .int | .unsigned | .float => 4
    | .long | .unsignedLong | .longLong | .unsignedLongLong | .double | .cxxFloatComplex => 8
    | .longDouble | .cxxDoubleComplex => 16
    | .cxxLongDoubleComplex => 32
  alignment
    | .char | .signedChar | .unsignedChar | .cxxBool | .byte => 1
    | .short | .unsignedShort => 2
    | .wchar | .int | .unsigned | .float | .cxxFloatComplex => 4
    | .long | .unsignedLong | .longLong | .unsignedLongLong | .double | .cxxDoubleComplex => 8
    | .longDouble | .cxxLongDoubleComplex => 16
  size_pos type := by cases type <;> decide
  alignment_dvd_size type := by cases type <;> decide
  size_byte := rfl

/-- `struct { char; struct { double; char; }[3]; std::array<int, 2>; char; }`. -/
def nestedRecord : CppType :=
  .registered
    [(0, .builtin .char),
      (8, .cArray (.registered [(0, .builtin .double), (8, .builtin .char)] 16) 3),
      (56, .stdArray (.builtin .int) 2),
      (64, .builtin .char)] 72

theorem dataType_covers_iff_nested :
    ∃ type, dataType lp64 (fun _ => 4096) nestedRecord = some type ∧
      Covers lp64 (fun _ => 4096) nestedRecord type := by
  have hvalid : nestedRecord.Valid lp64 := by
    simp [nestedRecord, Valid, FieldsValid, Apart, sizeof, BuiltinType.dataType, lp64]
  have hfit : CountsFit nestedRecord := by
    simp [nestedRecord, CountsFit, FieldCountsFit, isByte]
  exact (dataType_covers_iff hvalid).mpr hfit

/-- A class with four bytes more than an `unsigned int` can count is sent as four bytes, and
an array of two bytes as bytes although a single one is sent as an `unsigned char`. -/
theorem dataType_covers_fails :
    (dataType lp64 (fun _ => 4096) (.triviallyCopyable (2 ^ 32 + 4)) =
        some (contiguous lp64.toBasicLayout 4 (ofBasic .byte)) ∧
      ∀ type, dataType lp64 (fun _ => 4096) (.triviallyCopyable (2 ^ 32 + 4)) = some type →
        ¬ Covers lp64 (fun _ => 4096) (.triviallyCopyable (2 ^ 32 + 4)) type) ∧
      (dataType lp64 (fun _ => 4096) .byte = some (ofBasic .unsignedChar) ∧
        ∀ type, dataType lp64 (fun _ => 4096) (.stdArray .byte 2) = some type →
          ¬ Covers lp64 (fun _ => 4096) (.stdArray .byte 2) type) := by
  refine ⟨⟨?_, fun type => not_covers_of_not_countsFit ?_ ?_⟩, rfl,
    fun type => not_covers_of_not_countsFit ?_ ?_⟩
  · have hcount : ((2 ^ 32 + 4 : ℕ) : ℤ).bmod (2 ^ 32) = 4 := by decide
    rw [dataType, contiguousType, Option.bind_eq_bind, Option.bind_some, hcount]
    rfl
  · exact Nat.succ_pos _
  · exact Nat.not_lt_of_le (by decide)
  · exact ⟨Nat.two_pos, by decide, trivial⟩
  · exact fun hfit => absurd hfit.1 (by decide)

end Covers

end MpiBindings.Datatypes
