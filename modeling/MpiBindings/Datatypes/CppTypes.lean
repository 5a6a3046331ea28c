import MpiBindings.Core.TypeMaps
import Mathlib.Data.List.Pairwise

/-!
# C++ types and their leaves

The types that can be sent without a hand-written datatype, with the offsets and sizes that
a compiler has chosen.  A value consists of leaves, each a basic type at an offset, and of
padding.
-/

namespace MpiBindings.Datatypes

open TypeMaps

/-- The predefined datatypes of the interface that are used. -/
inductive MpiBasicType
  | char | signedChar | unsignedChar | wchar
  | short | unsignedShort | int | unsigned | long | unsignedLong | longLong | unsignedLongLong
  | float | double | longDouble
  | cxxBool | cxxFloatComplex | cxxDoubleComplex | cxxLongDoubleComplex
  | byte
deriving DecidableEq

/-- The C++ types with a specialization of `builtin_type`. -/
inductive BuiltinType
  | char | signedChar | unsignedChar | wchar
  | shortInt | unsignedShortInt | int | unsignedInt | longInt | unsignedLongInt
  | longLongInt | unsignedLongLongInt
  | float | double | longDouble
  | bool | kabool
  | complexFloat | complexDouble | complexLongDouble

/-- `builtin_type<T>::data_type()`. -/
def BuiltinType.dataType : BuiltinType → MpiBasicType
  | .char => .char
  | .signedChar => .signedChar
  | .unsignedChar => .unsignedChar
  | .wchar => .wchar
  | .shortInt => .short
  | .unsignedShortInt => .unsignedShort
  | .int => .int
  | .unsignedInt => .unsigned
  | .longInt => .long
  | .unsignedLongInt => .unsignedLong
  | .longLongInt => .longLong
  | .unsignedLongLongInt => .unsignedLongLong
  | .float => .float
  | .double => .double
  | .longDouble => .longDouble
  | .bool => .cxxBool
  | .kabool => .cxxBool
  | .complexFloat => .cxxFloatComplex
  | .complexDouble => .cxxDoubleComplex
  | .complexLongDouble => .cxxLongDoubleComplex

/-- Sizes and alignments on a platform. -/
structure Abi extends BasicLayout MpiBasicType where
  size_byte : size .byte = 1

/-- The types: `byte` is `std::byte`, an enum over `unsigned char`; `triviallyCopyable` is a
class that is sent as its bytes, and `registered` a nonempty class or tuple whose traits are
`struct_type`, with the offsets of its fields. -/
inductive CppType
  | builtin (type : BuiltinType)
  | enumeration (underlying : BuiltinType)
  | byte
  | cArray (elem : CppType) (length : ℕ)
  | stdArray (elem : CppType) (length : ℕ)
  | triviallyCopyable (size : ℕ)
  | registered (fields : List (ℕ × CppType)) (size : ℕ)

namespace CppType

/-- `std::is_same_v<T, std::byte>`. -/
def isByte : CppType → Bool
  | .byte => true
  | _ => false

/-- Induction with a hypothesis for every field. -/
@[elab_as_elim, induction_eliminator]
theorem induction {motive : CppType → Prop} (builtin : ∀ type, motive (.builtin type))
    (enumeration : ∀ underlying, motive (.enumeration underlying)) (byte : motive .byte)
    (cArray : ∀ elem length, motive elem → motive (.cArray elem length))
    (stdArray : ∀ elem length, motive elem → motive (.stdArray elem length))
    (triviallyCopyable : ∀ size, motive (.triviallyCopyable size))
    (registered : ∀ fields size, (∀ field ∈ fields, motive field.2) →
      motive (.registered fields size)) : ∀ T, motive T
  | .builtin type => builtin type
  | .enumeration underlying => enumeration underlying
  | .byte => byte
  | .cArray elem length => cArray elem length (induction builtin enumeration byte cArray
      stdArray triviallyCopyable registered elem)
  | .stdArray elem length => stdArray elem length (induction builtin enumeration byte cArray
      stdArray triviallyCopyable registered elem)
  | .triviallyCopyable size => triviallyCopyable size
  | .registered fields size => registered fields size fun field _ => induction builtin
      enumeration byte cArray stdArray triviallyCopyable registered field.2
decreasing_by
  · decreasing_tactic
  · decreasing_tactic
  · have hlt := List.sizeOf_lt_of_mem ‹field ∈ fields›
    obtain ⟨offset, T⟩ := field
    simp only [Prod.mk.sizeOf_spec, CppType.registered.sizeOf_spec] at hlt ⊢
    omega

variable (abi : Abi)

/-- `sizeof(T)`. -/
def sizeof : CppType → ℕ
  | .builtin type => abi.size type.dataType
  | .enumeration underlying => abi.size underlying.dataType
  | .byte => abi.size .unsignedChar
  | .cArray elem length | .stdArray elem length => length * sizeof elem
  | .triviallyCopyable size => size
  | .registered _ size => size

/-- What is listed for consecutive elements, each a stride after the one before it. -/
def elements (length stride : ℕ) (elem : List (MpiBasicType × ℤ)) : List (MpiBasicType × ℤ) :=
  (List.range length).flatMap fun k : ℕ => elem.map (displace (k * stride))

mutual

/-- The leaves of a value, with their offsets. -/
def leaves : CppType → List (MpiBasicType × ℤ)
  | .builtin type => [(type.dataType, 0)]
  | .enumeration underlying => [(underlying.dataType, 0)]
  | .byte => [(.unsignedChar, 0)]
  | .cArray elem length | .stdArray elem length =>
      elements length (sizeof abi elem) (leaves elem)
  | .triviallyCopyable size => (List.range size).map fun k : ℕ => (.byte, (k : ℤ))
  | .registered fields _ => fieldLeaves fields

def fieldLeaves : List (ℕ × CppType) → List (MpiBasicType × ℤ)
  | [] => []
  | (offset, T) :: fields => (leaves T).map (displace offset) ++ fieldLeaves fields

end

/-- The bytes of a field. -/
def InField (field : ℕ × CppType) (address : ℤ) : Prop :=
  field.1 ≤ address ∧ address < field.1 + sizeof abi field.2

mutual

/-- The bytes of a value that are between the fields of a registered class. -/
def InPadding : CppType → ℤ → Prop
  | .builtin _, _ | .enumeration _, _ | .byte, _ | .triviallyCopyable _, _ => False
  | .cArray elem length, address | .stdArray elem length, address =>
      ∃ k < length, InPadding elem (address - (k : ℕ) * sizeof abi elem)
  | .registered fields size, address =>
      (0 ≤ address ∧ address < size ∧ ∀ field ∈ fields, ¬ InField abi field address) ∨
        InFieldPadding fields address

def InFieldPadding : List (ℕ × CppType) → ℤ → Prop
  | [], _ => False
  | (offset, T) :: fields, address =>
      InPadding T (address - offset) ∨ InFieldPadding fields address

end

/-- Two fields that do not overlap. -/
def Apart (field other : ℕ × CppType) : Prop :=
  field.1 + sizeof abi field.2 ≤ other.1 ∨ other.1 + sizeof abi other.2 ≤ field.1

mutual

/-- Arrays have lengths from one to the greatest `int`, and the fields of a class lie in it. -/
def Valid : CppType → Prop
  | .builtin _ | .enumeration _ | .byte => True
  | .cArray elem length | .stdArray elem length => 0 < length ∧ length < 2 ^ 31 ∧ Valid elem
  | .triviallyCopyable size => 0 < size
  | .registered fields size =>
      fields ≠ [] ∧ fields.Pairwise (Apart abi) ∧
        (∀ field ∈ fields, field.1 + sizeof abi field.2 ≤ size) ∧ FieldsValid fields

def FieldsValid : List (ℕ × CppType) → Prop
  | [] => True
  | (_, T) :: fields => Valid T ∧ FieldsValid fields

end

variable {abi}

theorem fieldLeaves_eq (fields : List (ℕ × CppType)) :
    fieldLeaves abi fields =
      fields.flatMap fun field => (leaves abi field.2).map (displace field.1) := by
  induction fields with
  | nil => rfl
  | cons field fields ih => rw [fieldLeaves, ih, List.flatMap_cons]

theorem inFieldPadding_iff {fields : List (ℕ × CppType)} {address : ℤ} :
    InFieldPadding abi fields address ↔
      ∃ field ∈ fields, InPadding abi field.2 (address - field.1) := by
  induction fields with
  | nil => simp [InFieldPadding]
  | cons field fields ih => rw [InFieldPadding, ih, List.exists_mem_cons_iff]

theorem fieldsValid_iff {fields : List (ℕ × CppType)} :
    FieldsValid abi fields ↔ ∀ field ∈ fields, Valid abi field.2 := by
  induction fields with
  | nil => simp [FieldsValid]
  | cons field fields ih => rw [FieldsValid, ih, List.forall_mem_cons]

/-! ## Leaves and padding -/

/-- The bytes of a leaf. -/
def Occupies (abi : Abi) (leaf : MpiBasicType × ℤ) (address : ℤ) : Prop :=
  leaf.2 ≤ address ∧ address < leaf.2 + abi.size leaf.1

theorem occupies_displace {leaf : MpiBasicType × ℤ} {displ address : ℤ} :
    Occupies abi (displace displ leaf) address ↔ Occupies abi leaf (address - displ) := by
  simp only [Occupies, displace]
  omega

theorem mem_elements {length stride : ℕ} {elem : List (MpiBasicType × ℤ)}
    {leaf : MpiBasicType × ℤ} :
    leaf ∈ elements length stride elem ↔
      ∃ k < length, ∃ first ∈ elem, displace ((k : ℕ) * stride) first = leaf := by
  simp only [elements, List.mem_flatMap, List.mem_range, List.mem_map]

theorem mul_stride_le {k l : ℕ} (hlt : k < l) (stride : ℕ) :
    (k : ℤ) * stride + stride ≤ l * stride := by
  have hmul : (k + 1) * stride ≤ l * stride := Nat.mul_le_mul_right stride hlt
  rw [Nat.succ_mul] at hmul
  exact_mod_cast hmul

/-- An address lies in at most one element of an array. -/
theorem element_unique {address : ℤ} {stride k l : ℕ}
    (hk : 0 ≤ address - k * stride ∧ address - k * stride < stride)
    (hl : 0 ≤ address - l * stride ∧ address - l * stride < stride) : k = l := by
  rcases lt_trichotomy k l with hlt | heq | hlt
  · have hle := mul_stride_le hlt stride
    omega
  · exact heq
  · have hle := mul_stride_le hlt stride
    omega

/-- The elements of an array lie in it. -/
theorem element_within {address : ℤ} {stride length k : ℕ} (hlt : k < length)
    (hk : 0 ≤ address - k * stride ∧ address - k * stride < stride) :
    0 ≤ address ∧ address < (length * stride : ℕ) := by
  have hle := mul_stride_le hlt stride
  have hfirst : (0 : ℤ) ≤ k * stride := Int.natCast_nonneg (k * stride)
  push_cast
  omega

theorem inField_iff {field : ℕ × CppType} {address : ℤ} :
    InField abi field address ↔
      0 ≤ address - field.1 ∧ address - field.1 < sizeof abi field.2 := by
  rw [InField]
  omega

/-- The fields of a class lie in it. -/
theorem field_within {address : ℤ} {field : ℕ × CppType} {size : ℕ}
    (hwithin : field.1 + sizeof abi field.2 ≤ size) (hfield : InField abi field address) :
    0 ≤ address ∧ address < size := by
  rw [InField] at hfield
  omega

/-- An address lies in at most one field of a class. -/
theorem field_unique {fields : List (ℕ × CppType)} (hapart : fields.Pairwise (Apart abi))
    {field other : ℕ × CppType} {address : ℤ} (hfield : field ∈ fields) (hother : other ∈ fields)
    (hin : InField abi field address) (hin' : InField abi other address) : field = other := by
  by_contra hne
  have hsymm : Std.Symm (Apart abi) := ⟨fun _ _ => Or.symm⟩
  have hdisjoint : Apart abi field other := hapart.forall hfield hother hne
  rw [InField] at hin hin'
  rw [Apart] at hdisjoint
  omega

/-- A leaf lies in its value. -/
theorem leaf_within {T : CppType} (hvalid : T.Valid abi) {leaf : MpiBasicType × ℤ}
    (hleaf : leaf ∈ leaves abi T) {address : ℤ} (hocc : Occupies abi leaf address) :
    0 ≤ address ∧ address < T.sizeof abi := by
  induction T generalizing leaf address with
  | builtin | enumeration | byte =>
      obtain rfl := List.mem_singleton.mp hleaf
      exact ⟨hocc.1, hocc.2.trans_eq (zero_add _)⟩
  | cArray elem length ih | stdArray elem length ih =>
      obtain ⟨k, hk, first, hfirst, rfl⟩ := mem_elements.mp hleaf
      exact element_within hk (ih hvalid.2.2 hfirst (occupies_displace.mp hocc))
  | triviallyCopyable size =>
      obtain ⟨k, hk, rfl⟩ := List.mem_map.mp hleaf
      have hlt := List.mem_range.mp hk
      rw [Occupies, abi.size_byte] at hocc
      rw [sizeof]
      omega
  | registered fields size ih =>
      obtain ⟨-, -, hwithin, hfields⟩ := hvalid
      rw [leaves, fieldLeaves_eq] at hleaf
      obtain ⟨field, hfield, hmem⟩ := List.mem_flatMap.mp hleaf
      obtain ⟨first, hfirst, rfl⟩ := List.mem_map.mp hmem
      have hin := ih field hfield (fieldsValid_iff.mp hfields field hfield) hfirst
        (occupies_displace.mp hocc)
      exact field_within (hwithin field hfield) (inField_iff.mpr hin)

/-- Padding lies in its value. -/
theorem inPadding_within {T : CppType} (hvalid : T.Valid abi) {address : ℤ}
    (hpadding : InPadding abi T address) : 0 ≤ address ∧ address < T.sizeof abi := by
  induction T generalizing address with
  | builtin | enumeration | byte | triviallyCopyable => exact hpadding.elim
  | cArray elem length ih | stdArray elem length ih =>
      obtain ⟨k, hk, helem⟩ := hpadding
      exact element_within hk (ih hvalid.2.2 helem)
  | registered fields size ih =>
      obtain ⟨-, -, hwithin, hfields⟩ := hvalid
      rcases hpadding with ⟨hle, hlt, -⟩ | hinner
      · exact ⟨hle, hlt⟩
      · obtain ⟨field, hfield, helem⟩ := inFieldPadding_iff.mp hinner
        have hin := ih field hfield (fieldsValid_iff.mp hfields field hfield) helem
        exact field_within (hwithin field hfield) (inField_iff.mpr hin)

/-- No byte of a leaf is padding. -/
theorem not_inPadding_of_leaf {T : CppType} (hvalid : T.Valid abi) {leaf : MpiBasicType × ℤ}
    (hleaf : leaf ∈ leaves abi T) {address : ℤ} (hocc : Occupies abi leaf address) :
    ¬ InPadding abi T address := by
  induction T generalizing leaf address with
  | builtin | enumeration | byte | triviallyCopyable => exact id
  | cArray elem length ih | stdArray elem length ih =>
      rintro ⟨l, hl, hpadding⟩
      obtain ⟨k, hk, first, hfirst, rfl⟩ := mem_elements.mp hleaf
      have hocc' := occupies_displace.mp hocc
      obtain rfl := element_unique (leaf_within hvalid.2.2 hfirst hocc')
        (inPadding_within hvalid.2.2 hpadding)
      exact ih hvalid.2.2 hfirst hocc' hpadding
  | registered fields size ih =>
      obtain ⟨-, hapart, hwithin, hfields⟩ := hvalid
      have hfields' := fieldsValid_iff.mp hfields
      rw [leaves, fieldLeaves_eq] at hleaf
      obtain ⟨field, hfield, hmem⟩ := List.mem_flatMap.mp hleaf
      obtain ⟨first, hfirst, rfl⟩ := List.mem_map.mp hmem
      have hocc' := occupies_displace.mp hocc
      have hin := inField_iff.mpr (leaf_within (hfields' field hfield) hfirst hocc')
      rintro (⟨-, -, hgap⟩ | hinner)
      · exact hgap field hfield hin
      · obtain ⟨other, hother, hpadding⟩ := inFieldPadding_iff.mp hinner
        have hin' := inField_iff.mpr (inPadding_within (hfields' other hother) hpadding)
        obtain rfl := field_unique hapart hfield hother hin hin'
        exact ih field hfield (hfields' field hfield) hfirst hocc' hpadding

/-- Two entries without a common byte. -/
def NoCommonByte (abi : Abi) (leaf other : MpiBasicType × ℤ) : Prop :=
  ∀ address, Occupies abi leaf address → ¬ Occupies abi other address

theorem pairwise_disjoint_map {leaves : List (MpiBasicType × ℤ)}
    (hdisjoint : leaves.Pairwise (NoCommonByte abi)) (displ : ℤ) :
    (leaves.map (displace displ)).Pairwise (NoCommonByte abi) :=
  List.pairwise_map.mpr (hdisjoint.imp fun hapart _ hocc hocc' =>
    hapart _ (occupies_displace.mp hocc) (occupies_displace.mp hocc'))

/-- The leaves of a value do not overlap. -/
theorem leaves_disjoint {T : CppType} (hvalid : T.Valid abi) :
    (leaves abi T).Pairwise (NoCommonByte abi) := by
  induction T with
  | builtin | enumeration | byte => exact List.pairwise_singleton _ _
  | cArray elem length ih | stdArray elem length ih =>
      rw [leaves, elements, List.pairwise_flatMap]
      refine ⟨fun k _ => pairwise_disjoint_map (ih hvalid.2.2) _, ?_⟩
      refine List.pairwise_lt_range.imp fun hlt leaf hleaf other hother address hocc hocc' => ?_
      obtain ⟨first, hfirst, rfl⟩ := List.mem_map.mp hleaf
      obtain ⟨second, hsecond, rfl⟩ := List.mem_map.mp hother
      exact hlt.ne (element_unique
        (leaf_within hvalid.2.2 hfirst (occupies_displace.mp hocc))
        (leaf_within hvalid.2.2 hsecond (occupies_displace.mp hocc')))
  | triviallyCopyable size =>
      refine List.pairwise_map.mpr (List.pairwise_lt_range.imp fun hlt _ hocc hocc' => ?_)
      rw [Occupies, abi.size_byte] at hocc hocc'
      omega
  | registered fields size ih =>
      obtain ⟨-, hapart, -, hfields⟩ := hvalid
      have hfields' := fieldsValid_iff.mp hfields
      rw [leaves, fieldLeaves_eq, List.pairwise_flatMap]
      refine ⟨fun field hfield =>
        pairwise_disjoint_map (ih field hfield (hfields' field hfield)) _, ?_⟩
      refine hapart.imp_of_mem fun {field other} hfield hother hapart leaf hleaf leaf' hleaf'
        address hocc hocc' => ?_
      obtain ⟨first, hfirst, rfl⟩ := List.mem_map.mp hleaf
      obtain ⟨second, hsecond, rfl⟩ := List.mem_map.mp hleaf'
      have hin := leaf_within (hfields' field hfield) hfirst (occupies_displace.mp hocc)
      have hin' := leaf_within (hfields' other hother) hsecond (occupies_displace.mp hocc')
      rw [Apart] at hapart
      omega

/-- A value has a leaf. -/
theorem leaves_ne_nil {T : CppType} (hvalid : T.Valid abi) : leaves abi T ≠ [] := by
  induction T with
  | builtin | enumeration | byte => exact List.cons_ne_nil _ _
  | cArray elem length ih | stdArray elem length ih =>
      obtain ⟨leaf, hleaf⟩ := List.exists_mem_of_ne_nil _ (ih hvalid.2.2)
      exact List.ne_nil_of_mem (mem_elements.mpr ⟨0, hvalid.1, leaf, hleaf, rfl⟩)
  | triviallyCopyable size =>
      exact mt List.map_eq_nil_iff.mp (mt List.range_eq_nil.mp (Nat.pos_iff_ne_zero.mp hvalid))
  | registered fields size ih =>
      obtain ⟨hne, -, -, hfields⟩ := hvalid
      obtain ⟨field, hfield⟩ := List.exists_mem_of_ne_nil fields hne
      obtain ⟨leaf, hleaf⟩ := List.exists_mem_of_ne_nil _
        (ih field hfield (fieldsValid_iff.mp hfields field hfield))
      rw [leaves, fieldLeaves_eq]
      exact List.ne_nil_of_mem
        (List.mem_flatMap.mpr ⟨field, hfield, List.mem_map.mpr ⟨leaf, hleaf, rfl⟩⟩)

end CppType

end MpiBindings.Datatypes
