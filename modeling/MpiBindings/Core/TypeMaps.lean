import Mathlib.Algebra.Order.Ring.Int
import Mathlib.Data.List.Perm.Basic
import Mathlib.Tactic.Ring

/-!
# Type maps

A datatype of the message passing interface is a list of basic types with the
displacements they have in memory, together with markers for its bounds.  The bounds
decide where the next element of an array starts.  Repeating a type map multiplies its
extent, whether its bounds are marked or follow from its entries.
-/

namespace MpiBindings.TypeMaps

/-- What a type map places at a displacement. -/
inductive Symbol (β : Type)
  | basic (type : β)
  | lbMarker
  | ubMarker

abbrev TypeMap (β : Type) := List (Symbol β × ℤ)

/-- Sizes and alignments of the basic types; an array of a basic type has no gaps. -/
structure BasicLayout (β : Type) where
  size : β → ℕ
  alignment : β → ℕ
  size_pos : ∀ type, 0 < size type
  alignment_dvd_size : ∀ type, alignment type ∣ size type

/-! ## Least and greatest displacements -/

section Extremes

def least (displs : List ℤ) : ℤ := displs.min?.getD 0

def greatest (displs : List ℤ) : ℤ := displs.max?.getD 0

variable {displs : List ℤ} {displ stride : ℤ} {n : ℕ}

theorem least_eq (hmem : displ ∈ displs) (hle : ∀ other ∈ displs, displ ≤ other) :
    least displs = displ := by
  rw [least, List.min?_eq_some_iff.mpr ⟨hmem, hle⟩, Option.getD_some]

theorem greatest_eq (hmem : displ ∈ displs) (hle : ∀ other ∈ displs, other ≤ displ) :
    greatest displs = displ := by
  rw [greatest, List.max?_eq_some_iff.mpr ⟨hmem, hle⟩, Option.getD_some]

theorem least_spec (hne : displs ≠ []) :
    least displs ∈ displs ∧ ∀ displ ∈ displs, least displs ≤ displ := by
  obtain ⟨displ, hdispl⟩ : ∃ displ, displs.min? = some displ :=
    Option.ne_none_iff_exists'.mp (mt List.min?_eq_none_iff.mp hne)
  rw [least, hdispl, Option.getD_some]
  exact List.min?_eq_some_iff.mp hdispl

theorem greatest_spec (hne : displs ≠ []) :
    greatest displs ∈ displs ∧ ∀ displ ∈ displs, displ ≤ greatest displs := by
  obtain ⟨displ, hdispl⟩ : ∃ displ, displs.max? = some displ :=
    Option.ne_none_iff_exists'.mp (mt List.max?_eq_none_iff.mp hne)
  rw [greatest, hdispl, Option.getD_some]
  exact List.max?_eq_some_iff.mp hdispl

/-- Copies of displacements, each a stride after the one before it. -/
def strided (n : ℕ) (stride : ℤ) (displs : List ℤ) : List ℤ :=
  (List.range n).flatMap fun k : ℕ => displs.map (· + k * stride)

theorem mem_strided :
    displ ∈ strided n stride displs ↔ ∃ k < n, ∃ first ∈ displs, first + k * stride = displ := by
  simp only [strided, List.mem_flatMap, List.mem_range, List.mem_map]

theorem least_strided (hne : displs ≠ []) (hn : 0 < n) (hstride : 0 ≤ stride) :
    least (strided n stride displs) = least displs := by
  obtain ⟨hmem, hle⟩ := least_spec hne
  apply least_eq
  · exact mem_strided.mpr ⟨0, hn, least displs, hmem, by simp⟩
  · intro other hother
    obtain ⟨k, -, first, hfirst, rfl⟩ := mem_strided.mp hother
    calc least displs ≤ first := hle first hfirst
      _ ≤ first + k * stride := le_add_of_nonneg_right (mul_nonneg (Int.natCast_nonneg k) hstride)

theorem greatest_strided (hne : displs ≠ []) (hn : 0 < n) (hstride : 0 ≤ stride) :
    greatest (strided n stride displs) = greatest displs + (n - 1) * stride := by
  obtain ⟨hmem, hle⟩ := greatest_spec hne
  have hlast : ((n - 1 : ℕ) : ℤ) = n - 1 := Nat.cast_pred hn
  apply greatest_eq
  · exact mem_strided.mpr ⟨n - 1, Nat.sub_lt hn Nat.one_pos, greatest displs, hmem, by rw [hlast]⟩
  · intro other hother
    obtain ⟨k, hk, first, hfirst, rfl⟩ := mem_strided.mp hother
    have hk' : (k : ℤ) ≤ n - 1 := by omega
    exact add_le_add (hle first hfirst) (mul_le_mul_of_nonneg_right hk' hstride)

theorem strided_ne_nil (hne : displs ≠ []) (hn : 0 < n) : strided n stride displs ≠ [] := by
  obtain ⟨displ, hdispl⟩ := List.exists_mem_of_ne_nil displs hne
  exact List.ne_nil_of_mem (mem_strided.mpr ⟨0, hn, displ, hdispl, rfl⟩)

theorem strided_nil : strided n stride [] = [] := by
  simp [strided]

end Extremes

/-! ## Rounding up -/

/-- The next multiple of an alignment. -/
def roundUp (value : ℤ) (alignment : ℕ) : ℤ := value + -value % alignment

theorem dvd_roundUp (value : ℤ) (alignment : ℕ) : (alignment : ℤ) ∣ roundUp value alignment := by
  have hneg : roundUp value alignment = -(-value - -value % alignment) := by
    rw [roundUp]
    ring
  rw [hneg]
  exact Int.dvd_neg.mpr Int.dvd_self_sub_emod

theorem roundUp_of_dvd {value : ℤ} {alignment : ℕ} (hdvd : (alignment : ℤ) ∣ value) :
    roundUp value alignment = value := by
  rw [roundUp, Int.emod_eq_zero_of_dvd (Int.dvd_neg.mpr hdvd), add_zero]

theorem roundUp_add_of_dvd {value step : ℤ} {alignment : ℕ} (hdvd : (alignment : ℤ) ∣ step) :
    roundUp (value + step) alignment = roundUp value alignment + step := by
  obtain ⟨quotient, rfl⟩ := hdvd
  have hneg : -(value + alignment * quotient) = -value + alignment * -quotient := by ring
  rw [roundUp, roundUp, hneg, Int.add_mul_emod_self_left]
  ring

/-! ## Bounds of a type map -/

section Bounds

variable {β : Type}

def Symbol.isLb : Symbol β → Bool
  | .lbMarker => true
  | _ => false

def Symbol.isUb : Symbol β → Bool
  | .ubMarker => true
  | _ => false

def basicEntry : Symbol β × ℤ → Option (β × ℤ)
  | (.basic type, displ) => some (type, displ)
  | _ => none

/-- The basic types of a type map with their displacements. -/
def entries (items : TypeMap β) : List (β × ℤ) := items.filterMap basicEntry

/-- The displacements of the selected symbols. -/
def displsOf (select : Symbol β → Bool) (items : TypeMap β) : List ℤ :=
  (items.filter fun item => select item.1).map Prod.snd

/-- Markers of the lower bound replace the displacements of the entries. -/
def lowerBounds (items : TypeMap β) : List ℤ :=
  if displsOf Symbol.isLb items = [] then (entries items).map Prod.snd
  else displsOf Symbol.isLb items

def lb (items : TypeMap β) : ℤ := least (lowerBounds items)

variable (layout : BasicLayout β)

/-- The ends of the entries. -/
def ends (items : TypeMap β) : List ℤ :=
  (entries items).map fun entry => entry.2 + layout.size entry.1

/-- The strictest alignment of a basic type in a type map. -/
def alignment (items : TypeMap β) : ℕ :=
  ((entries items).map fun entry => layout.alignment entry.1).foldr max 1

/-- Without a marker of the upper bound the extent is rounded up to the alignment. -/
def ub (items : TypeMap β) : ℤ :=
  if displsOf Symbol.isUb items = [] then
    lb items + roundUp (greatest (ends layout items) - lb items) (alignment layout items)
  else greatest (displsOf Symbol.isUb items)

def extent (items : TypeMap β) : ℤ := ub layout items - lb items

/-! ## Constructors -/

/-- Move what is placed at one displacement by another. -/
def displace {γ : Type} (displ : ℤ) (item : γ × ℤ) : γ × ℤ := (item.1, item.2 + displ)

/-- Consecutive copies, each an extent after the one before it. -/
def contiguous (n : ℕ) (items : TypeMap β) : TypeMap β :=
  (List.range n).flatMap fun k : ℕ => items.map (displace (k * extent layout items))

/-- Blocks of copies of type maps at displacements of their own. -/
def struct (blocks : List (ℕ × ℤ × TypeMap β)) : TypeMap β :=
  blocks.flatMap fun block =>
    (contiguous layout block.1 block.2.2).map (displace block.2.1)

def ofBasic (type : β) : TypeMap β := [(.basic type, 0)]

/-- New markers replace the old ones. -/
def resized (lb extent : ℤ) (items : TypeMap β) : TypeMap β :=
  items.filter (fun item => !item.1.isLb && !item.1.isUb) ++
    [(.lbMarker, lb), (.ubMarker, lb + extent)]

/-! ## Entries of constructed type maps -/

theorem basicEntry_displace (displ : ℤ) (item : Symbol β × ℤ) :
    basicEntry (displace displ item) = (basicEntry item).map (displace displ) := by
  obtain ⟨symbol, other⟩ := item
  cases symbol <;> rfl

theorem entries_map_displace (displ : ℤ) (items : TypeMap β) :
    entries (items.map (displace displ)) = (entries items).map (displace displ) := by
  rw [entries, entries, List.filterMap_map, List.map_filterMap]
  exact List.filterMap_congr fun item _ => basicEntry_displace displ item

theorem entries_flatMap_displace {ι : Type} (parts : List ι) (displ : ι → ℤ)
    (f : ι → TypeMap β) :
    entries (parts.flatMap fun part => (f part).map (displace (displ part))) =
      parts.flatMap fun part => (entries (f part)).map (displace (displ part)) := by
  rw [entries, List.filterMap_flatMap]
  exact congrArg parts.flatMap (funext fun part => entries_map_displace (displ part) (f part))

theorem entries_contiguous (n : ℕ) (items : TypeMap β) :
    entries (contiguous layout n items) =
      (List.range n).flatMap fun k : ℕ =>
        (entries items).map (displace (k * extent layout items)) :=
  entries_flatMap_displace _ _ _

theorem entries_struct (blocks : List (ℕ × ℤ × TypeMap β)) :
    entries (struct layout blocks) = blocks.flatMap fun block =>
      (entries (contiguous layout block.1 block.2.2)).map (displace block.2.1) :=
  entries_flatMap_displace _ _ _

@[simp]
theorem contiguous_one (items : TypeMap β) : contiguous layout 1 items = items := by
  have hzero : displace (γ := Symbol β) 0 = id := by
    funext item
    exact Prod.ext rfl (add_zero item.2)
  simp [contiguous, hzero]

theorem entries_resized (lb extent : ℤ) (items : TypeMap β) :
    entries (resized lb extent items) = entries items := by
  rw [resized, entries, List.filterMap_append]
  have hmarkers :
      [((.lbMarker : Symbol β), lb), (.ubMarker, lb + extent)].filterMap basicEntry = [] := rfl
  rw [hmarkers, List.append_nil, List.filterMap_filter, entries]
  refine List.filterMap_congr fun item _ => ?_
  obtain ⟨symbol, displ⟩ := item
  cases symbol <;> rfl

/-! ## Bounds of constructed type maps -/

theorem displsOf_resized {select : Symbol β → Bool}
    (hselect : ∀ symbol, select symbol = true → (!symbol.isLb && !symbol.isUb) = false)
    (newLb newExtent : ℤ) (items : TypeMap β) :
    displsOf select (resized newLb newExtent items) =
      displsOf select [(.lbMarker, newLb), (.ubMarker, newLb + newExtent)] := by
  have hnone : (items.filter fun item => !item.1.isLb && !item.1.isUb).filter
      (fun item => select item.1) = [] := by
    rw [List.filter_filter, List.filter_eq_nil_iff]
    intro item _ hboth
    obtain ⟨hmarker, hother⟩ := Bool.and_eq_true_iff.mp hboth
    exact Bool.false_ne_true ((hselect item.1 hmarker).symm.trans hother)
  rw [displsOf, resized, List.filter_append, hnone, List.nil_append, displsOf]

@[simp]
theorem lb_resized (newLb newExtent : ℤ) (items : TypeMap β) :
    lb (resized newLb newExtent items) = newLb := by
  have hlb : displsOf Symbol.isLb (resized newLb newExtent items) = [newLb] :=
    displsOf_resized (fun symbol hsymbol => by rw [hsymbol]; rfl) newLb newExtent items
  rw [lb, lowerBounds, hlb, if_neg (List.cons_ne_nil _ _)]
  rfl

@[simp]
theorem extent_resized (newLb newExtent : ℤ) (items : TypeMap β) :
    extent layout (resized newLb newExtent items) = newExtent := by
  have hub : displsOf Symbol.isUb (resized newLb newExtent items) = [newLb + newExtent] :=
    displsOf_resized (fun symbol hsymbol => by rw [hsymbol, Bool.not_true, Bool.and_false])
      newLb newExtent items
  rw [extent, ub, hub, if_neg (List.cons_ne_nil _ _), lb_resized]
  exact add_sub_cancel_left newLb newExtent

theorem displsOf_contiguous (select : Symbol β → Bool) (n : ℕ) (items : TypeMap β) :
    displsOf select (contiguous layout n items) =
      strided n (extent layout items) (displsOf select items) := by
  rw [displsOf, contiguous, List.filter_flatMap, List.map_flatMap, strided, displsOf]
  refine congrArg (List.range n).flatMap (funext fun k => ?_)
  rw [List.filter_map, List.map_map, List.map_map]
  rfl

theorem displs_contiguous (n : ℕ) (items : TypeMap β) :
    (entries (contiguous layout n items)).map Prod.snd =
      strided n (extent layout items) ((entries items).map Prod.snd) := by
  rw [entries_contiguous, List.map_flatMap, strided]
  refine congrArg (List.range n).flatMap (funext fun k => ?_)
  rw [List.map_map, List.map_map]
  rfl

theorem ends_contiguous (n : ℕ) (items : TypeMap β) :
    ends layout (contiguous layout n items) =
      strided n (extent layout items) (ends layout items) := by
  rw [ends, entries_contiguous, List.map_flatMap, strided, ends]
  refine congrArg (List.range n).flatMap (funext fun k => ?_)
  rw [List.map_map, List.map_map]
  refine List.map_congr_left fun entry _ => ?_
  exact add_right_comm _ _ _

theorem strided_eq_nil_iff {n : ℕ} (hn : 0 < n) (stride : ℤ) (displs : List ℤ) :
    strided n stride displs = [] ↔ displs = [] := by
  constructor
  · intro hnil
    by_contra hne
    exact strided_ne_nil hne hn hnil
  · rintro rfl
    exact strided_nil

theorem lowerBounds_contiguous {n : ℕ} (hn : 0 < n) (items : TypeMap β) :
    lowerBounds (contiguous layout n items) =
      strided n (extent layout items) (lowerBounds items) := by
  rw [lowerBounds, displsOf_contiguous, displs_contiguous, lowerBounds]
  simp only [strided_eq_nil_iff hn]
  split_ifs <;> rfl

theorem foldr_max_le_iff {values : List ℕ} {least bound : ℕ} :
    values.foldr max least ≤ bound ↔ least ≤ bound ∧ ∀ value ∈ values, value ≤ bound := by
  induction values with
  | nil => simp
  | cons value values ih =>
      rw [List.foldr_cons, max_le_iff, ih, List.forall_mem_cons, and_left_comm]

theorem alignment_contiguous {n : ℕ} (hn : 0 < n) (items : TypeMap β) :
    alignment layout (contiguous layout n items) = alignment layout items := by
  -- a repetition has the same basic types
  have hmem : ∀ value, (value ∈ (entries (contiguous layout n items)).map
      fun entry => layout.alignment entry.1) ↔
        value ∈ (entries items).map fun entry => layout.alignment entry.1 := by
    intro value
    simp only [entries_contiguous, List.mem_map, List.mem_flatMap, List.mem_range]
    constructor
    · rintro ⟨-, ⟨k, -, entry, hentry, rfl⟩, rfl⟩
      exact ⟨entry, hentry, rfl⟩
    · rintro ⟨entry, hentry, rfl⟩
      exact ⟨displace _ entry, ⟨0, hn, entry, hentry, rfl⟩, rfl⟩
  refine eq_of_forall_ge_iff fun bound => ?_
  rw [alignment, foldr_max_le_iff, alignment, foldr_max_le_iff]
  exact and_congr_right fun _ => forall_congr' fun value => imp_congr_left (hmem value)

/-- Repeating a type map keeps its lower bound. -/
theorem lb_contiguous {n : ℕ} (hn : 0 < n) {items : TypeMap β} (hne : entries items ≠ [])
    (hextent : 0 ≤ extent layout items) : lb (contiguous layout n items) = lb items := by
  rw [lb, lowerBounds_contiguous layout hn, least_strided _ hn hextent, lb]
  rw [lowerBounds]
  split_ifs with hmarkers
  · exact mt List.map_eq_nil_iff.mp hne
  · exact hmarkers

/-- Repeating a type map multiplies its extent. -/
theorem extent_contiguous {n : ℕ} (hn : 0 < n) {items : TypeMap β} (hne : entries items ≠ [])
    (hextent : 0 ≤ extent layout items) :
    extent layout (contiguous layout n items) = n * extent layout items := by
  have hstep : ub layout (contiguous layout n items) =
      ub layout items + (n - 1) * extent layout items := by
    rw [ub, displsOf_contiguous, ends_contiguous, alignment_contiguous layout hn,
      lb_contiguous layout hn hne hextent]
    by_cases hmarkers : displsOf Symbol.isUb items = []
    · have hends : ends layout items ≠ [] := mt List.map_eq_nil_iff.mp hne
      have hub : ub layout items = lb items +
          roundUp (greatest (ends layout items) - lb items) (alignment layout items) :=
        if_pos hmarkers
      -- the extent is a multiple of the alignment already
      have hdvd : (alignment layout items : ℤ) ∣ (n - 1) * extent layout items := by
        rw [extent, hub, add_sub_cancel_left]
        exact Dvd.dvd.mul_left (dvd_roundUp _ _) _
      rw [if_pos ((strided_eq_nil_iff hn _ _).mpr hmarkers), greatest_strided hends hn hextent,
        add_sub_right_comm, roundUp_add_of_dvd hdvd, hub, add_assoc]
    · rw [if_neg (mt (strided_eq_nil_iff hn _ _).mp hmarkers),
        greatest_strided hmarkers hn hextent, ub, if_neg hmarkers]
  calc extent layout (contiguous layout n items)
      = ub layout items + (n - 1) * extent layout items - lb items := by
        rw [extent, hstep, lb_contiguous layout hn hne hextent]
    _ = extent layout items + (n - 1) * extent layout items := by
        rw [add_sub_right_comm]
        rfl
    _ = n * extent layout items := by ring

/-! ## Basic types -/

@[simp]
theorem entries_ofBasic (type : β) : entries (ofBasic type) = [(type, 0)] := rfl

@[simp]
theorem lb_ofBasic (type : β) : lb (ofBasic type) = 0 := rfl

@[simp]
theorem extent_ofBasic (type : β) : extent layout (ofBasic type) = layout.size type := by
  have hpos : 1 ≤ layout.alignment type :=
    Nat.pos_of_dvd_of_pos (layout.alignment_dvd_size type) (layout.size_pos type)
  have halignment : alignment layout (ofBasic type) = layout.alignment type := max_eq_left hpos
  have hends : ends layout (ofBasic type) = [0 + (layout.size type : ℤ)] := rfl
  have hub : ub layout (ofBasic type) =
      0 + roundUp (greatest (ends layout (ofBasic type)) - 0) (layout.alignment type) := by
    rw [← halignment]
    rfl
  rw [extent, hub, lb_ofBasic, sub_zero, sub_zero, zero_add, hends, zero_add]
  exact roundUp_of_dvd (Int.natCast_dvd_natCast.mpr (layout.alignment_dvd_size type))

/-! ## Constructors of the interface -/

/-- `MPI_Type_contiguous`. -/
def typeContiguous (count : ℤ) (oldtype : TypeMap β) : Option (TypeMap β) :=
  if 0 ≤ count then some (contiguous layout count.toNat oldtype) else none

/-- `MPI_Type_create_struct` reads the first blocks of its arrays. -/
def typeCreateStruct (count : ℤ) (blocks : List (ℕ × ℤ × TypeMap β)) : Option (TypeMap β) :=
  if 0 ≤ count then some (struct layout (blocks.take count.toNat)) else none

end Bounds

end MpiBindings.TypeMaps
