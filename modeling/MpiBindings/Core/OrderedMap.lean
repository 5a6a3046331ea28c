import Mathlib.Data.List.Pairwise
import Mathlib.Order.Lattice

/-!
# Ordered maps

Maps whose entries are iterated in ascending key order, as `std::map` does.
The ordering of the entries is part of the type, so every operation returns a
well-formed map.
-/

namespace MpiBindings

/-- Entries in strictly ascending key order. -/
structure OrderedMap (K V : Type*) [LinearOrder K] where
  entries : List (K × V)
  sorted : entries.Pairwise fun left right => left.1 < right.1

namespace OrderedMap

variable {K V : Type*} [LinearOrder K]

def empty : OrderedMap K V := ⟨[], List.Pairwise.nil⟩

/-- Insert an entry, replacing the value of an existing key. -/
def insertOrAssign (map : OrderedMap K V) (key : K) (value : V) : OrderedMap K V where
  entries :=
    (map.entries.filter fun entry => decide (entry.1 < key)) ++
      (key, value) :: map.entries.filter fun entry => decide (key < entry.1)
  sorted := by
    rw [List.pairwise_append, List.pairwise_cons]
    refine ⟨map.sorted.filter _, ⟨?_, map.sorted.filter _⟩, ?_⟩
    · intro entry hentry
      simpa using (List.mem_filter.mp hentry).2
    · intro left hleft right hright
      have hbelow : left.1 < key := by simpa using (List.mem_filter.mp hleft).2
      obtain rfl | hright := List.mem_cons.mp hright
      · exact hbelow
      · exact hbelow.trans (by simpa using (List.mem_filter.mp hright).2)

/-- The entry in front of `upper_bound(key)`. -/
def entryBelowUpperBound (map : OrderedMap K V) (key : K) : Option (K × V) :=
  (map.entries.filter fun entry => decide (entry.1 ≤ key)).getLast?

@[simp]
theorem entries_empty : (empty : OrderedMap K V).entries = [] := rfl

theorem mem_insertOrAssign {map : OrderedMap K V} {key : K} {value : V} {entry : K × V} :
    entry ∈ (insertOrAssign map key value).entries ↔
      entry = (key, value) ∨ entry ∈ map.entries ∧ entry.1 ≠ key := by
  simp only [insertOrAssign, List.mem_append, List.mem_cons, List.mem_filter,
    decide_eq_true_eq]
  constructor
  · rintro (⟨hmem, hlt⟩ | rfl | ⟨hmem, hlt⟩)
    · exact Or.inr ⟨hmem, hlt.ne⟩
    · exact Or.inl rfl
    · exact Or.inr ⟨hmem, hlt.ne'⟩
  · rintro (rfl | ⟨hmem, hne⟩)
    · exact Or.inr (Or.inl rfl)
    · obtain hlt | hlt := lt_or_gt_of_ne hne
      · exact Or.inl ⟨hmem, hlt⟩
      · exact Or.inr (Or.inr ⟨hmem, hlt⟩)

/-- A key has at most one entry. -/
theorem entry_unique {map : OrderedMap K V} {left right : K × V}
    (hleft : left ∈ map.entries) (hright : right ∈ map.entries)
    (hkey : left.1 = right.1) : left = right := by
  obtain ⟨i, hi, rfl⟩ := List.mem_iff_getElem.mp hleft
  obtain ⟨j, hj, rfl⟩ := List.mem_iff_getElem.mp hright
  obtain hij | rfl | hij := Nat.lt_trichotomy i j
  · exact absurd hkey (List.pairwise_iff_getElem.mp map.sorted i j hi hj hij).ne
  · rfl
  · exact absurd hkey (List.pairwise_iff_getElem.mp map.sorted j i hj hi hij).ne'

/-- The entry with the largest key that is not above `key`. -/
theorem entryBelowUpperBound_eq_some {map : OrderedMap K V} {key : K} {entry : K × V}
    (hmem : entry ∈ map.entries) (hle : entry.1 ≤ key)
    (hmax : ∀ other ∈ map.entries, other.1 ≤ key → other.1 ≤ entry.1) :
    entryBelowUpperBound map key = some entry := by
  have hfiltered : entry ∈ map.entries.filter fun other => decide (other.1 ≤ key) :=
    List.mem_filter.mpr ⟨hmem, by simpa using hle⟩
  unfold entryBelowUpperBound
  rw [List.getLast?_eq_some_getLast (List.ne_nil_of_mem hfiltered), Option.some.injEq]
  have hlast := List.getLast_mem (List.ne_nil_of_mem hfiltered)
  rw [List.mem_filter, decide_eq_true_eq] at hlast
  refine entry_unique hlast.1 hmem (le_antisymm (hmax _ hlast.1 hlast.2) ?_)
  have hpairwise : (map.entries.filter fun other => decide (other.1 ≤ key)).Pairwise
      fun left right => left.1 ≤ right.1 :=
    (map.sorted.filter _).imp le_of_lt
  exact hpairwise.rel_getLast_of_rel_getLast_getLast hfiltered le_rfl

end OrderedMap

end MpiBindings
