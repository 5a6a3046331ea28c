import MpiBindings.Core.KeyedItems
import Mathlib.Algebra.BigOperators.Ring.Finset
import Mathlib.Algebra.Order.Ring.Int
import Mathlib.Data.Int.Order.Basic
import Mathlib.Data.List.Flatten
import Mathlib.Data.List.Induction
import Mathlib.Tactic.Ring

/-!
# Counting sort on machine integers

Counts per key, exclusive prefix sums of the counts, and the placement of items
at the prefix sums: together a stable distribution of the items into consecutive
blocks, one block for each key.  Counts and offsets are 32-bit integers; as long
as the number of items fits, the result is exact.
-/

namespace MpiBindings.CountingSort

/-- Addition of 32-bit integers. -/
def addInt (a b : ℤ) : ℤ := (a + b).bmod (2 ^ 32)

theorem addInt_eq {a b : ℤ} (hlower : -2 ^ 31 ≤ a + b) (hupper : a + b < 2 ^ 31) :
    addInt a b = a + b := by
  unfold addInt
  rw [Int.bmod_eq_of_le] <;> omega

theorem addInt_comm (a b : ℤ) : addInt a b = addInt b a := by
  rw [addInt, addInt, Int.add_comm]

theorem addInt_natCast {a b : ℕ} (hlt : a + b < 2 ^ 31) :
    addInt (a : ℤ) (b : ℤ) = ((a + b : ℕ) : ℤ) := by
  rw [addInt_eq (by omega) (by omega), Nat.cast_add]

/-! ## Exclusive prefix sums -/

/-- `std::exclusive_scan` of integers with the given initial value. -/
def exclusiveScan (start : ℤ) : List ℤ → List ℤ
  | [] => []
  | count :: counts => start :: exclusiveScan (addInt start count) counts

/-- Exclusive prefix sums of natural numbers. -/
def prefixSums (start : ℕ) : List ℕ → List ℕ
  | [] => []
  | count :: counts => start :: prefixSums (start + count) counts

@[simp]
theorem length_exclusiveScan (start : ℤ) (counts : List ℤ) :
    (exclusiveScan start counts).length = counts.length := by
  induction counts generalizing start with
  | nil => rfl
  | cons count counts ih => simp [exclusiveScan, ih]

theorem exclusiveScan_natCast (start : ℕ) {counts : List ℕ}
    (hlt : start + counts.sum < 2 ^ 31) :
    exclusiveScan start (counts.map Nat.cast) = (prefixSums start counts).map Nat.cast := by
  induction counts generalizing start with
  | nil => rfl
  | cons count counts ih =>
      rw [List.sum_cons] at hlt
      simp only [List.map_cons, exclusiveScan, prefixSums]
      rw [addInt_natCast (by omega), ih _ (by omega)]

theorem exclusiveScan_zero {counts : List ℕ} (hlt : counts.sum < 2 ^ 31) :
    exclusiveScan 0 (counts.map Nat.cast) = (prefixSums 0 counts).map Nat.cast :=
  exclusiveScan_natCast 0 (by rwa [Nat.zero_add])

@[simp]
theorem length_prefixSums (start : ℕ) (counts : List ℕ) :
    (prefixSums start counts).length = counts.length := by
  induction counts generalizing start with
  | nil => rfl
  | cons count counts ih => simp [prefixSums, ih]

theorem getElem?_prefixSums (start : ℕ) (counts : List ℕ) {k : ℕ} (hk : k < counts.length) :
    (prefixSums start counts)[k]? = some (start + (counts.take k).sum) := by
  induction counts generalizing start k with
  | nil => simp at hk
  | cons count counts ih =>
      cases k with
      | zero => simp [prefixSums]
      | succ k =>
          rw [prefixSums, List.getElem?_cons_succ, ih _ (by simpa using hk),
            List.take_succ_cons, List.sum_cons, Nat.add_assoc]

/-- Blocks of one size follow each other at multiples of the size. -/
theorem prefixSums_replicate (count size : ℕ) :
    prefixSums 0 (List.replicate count size) = (List.range count).map (· * size) := by
  apply List.ext_getElem?
  intro index
  by_cases hindex : index < count
  · rw [getElem?_prefixSums _ _ (by simpa using hindex), List.take_replicate,
      List.sum_replicate_nat, Nat.min_eq_left hindex.le, List.getElem?_map,
      List.getElem?_range hindex, Nat.zero_add]
    rfl
  · rw [List.getElem?_eq_none (by simpa using hindex),
      List.getElem?_eq_none (by simpa using hindex)]

/-! ## Prefix sums that wrap around -/

theorem bmod_natCast {n : ℕ} (hlt : n < 2 ^ 31) : (n : ℤ).bmod (2 ^ 32) = n :=
  Int.bmod_eq_of_le (by omega) (by omega)

theorem addInt_lt (a b : ℤ) : addInt a b < 2 ^ 31 := by
  have h := Int.bmod_lt (x := a + b) (m := 2 ^ 32) (by decide)
  rw [addInt]
  omega

theorem addInt_bmod (a b : ℤ) : addInt (a.bmod (2 ^ 32)) b = (a + b).bmod (2 ^ 32) :=
  Int.bmod_add_bmod

/-- Every entry of the scan is the sum of the entries before it, wrapped. -/
theorem getElem?_exclusiveScan (start : ℤ) (counts : List ℤ) {k : ℕ} (hk : k < counts.length) :
    (exclusiveScan (start.bmod (2 ^ 32)) counts)[k]? =
      some ((start + (counts.take k).sum).bmod (2 ^ 32)) := by
  induction counts generalizing start k with
  | nil => simp at hk
  | cons count counts ih =>
      cases k with
      | zero => simp [exclusiveScan]
      | succ k =>
          rw [exclusiveScan, List.getElem?_cons_succ, addInt_bmod,
            ih _ (by simpa using hk), List.take_succ_cons, List.sum_cons, Int.add_assoc]

theorem getElem?_exclusiveScan_zero (counts : List ℤ) {k : ℕ} (hk : k < counts.length) :
    (exclusiveScan 0 counts)[k]? = some ((counts.take k).sum.bmod (2 ^ 32)) := by
  have h := getElem?_exclusiveScan 0 counts hk
  rwa [Int.zero_bmod, Int.zero_add] at h

/-- Counts that are wrapped before give the same scan. -/
theorem exclusiveScan_bmod (start : ℤ) (counts : List ℤ) :
    exclusiveScan start (counts.map fun count => count.bmod (2 ^ 32)) =
      exclusiveScan start counts := by
  induction counts generalizing start with
  | nil => rfl
  | cons count counts ih =>
      rw [List.map_cons, exclusiveScan, exclusiveScan, ih, addInt, Int.add_bmod_bmod, addInt]

/-- Where the total reaches a bound, some entry is the first one to reach it. -/
theorem exists_take_sum_reaches (counts : List ℕ) (bound : ℕ) (hpos : 0 < bound)
    (hsum : bound ≤ counts.sum) :
    ∃ k count, counts[k]? = some count ∧ (counts.take k).sum < bound ∧
      bound ≤ (counts.take k).sum + count := by
  induction counts using List.reverseRecOn with
  | nil =>
      rw [List.sum_nil] at hsum
      omega
  | append_singleton counts last ih =>
      by_cases hfront : bound ≤ counts.sum
      · obtain ⟨k, count, hcount, hbefore, hreach⟩ := ih hfront
        obtain ⟨hk, -⟩ := List.getElem?_eq_some_iff.mp hcount
        refine ⟨k, count, ?_, ?_, ?_⟩
        · rw [List.getElem?_append_left hk, hcount]
        · rwa [List.take_append_of_le_length hk.le]
        · rwa [List.take_append_of_le_length hk.le]
      · refine ⟨counts.length, last, by simp, ?_, ?_⟩
        · rw [List.take_left]
          omega
        · rw [List.take_left]
          simpa using hsum

/-- The total stays below a bound if every block does that starts below it. -/
theorem sum_lt_of_blocks_lt {counts : List ℕ} {bound : ℕ} (hpos : 0 < bound)
    (hblocks : ∀ k count, counts[k]? = some count → 0 < count →
      (counts.take k).sum < bound → (counts.take k).sum + count < bound) :
    counts.sum < bound := by
  by_contra hreach
  obtain ⟨k, count, hcount, hbefore, hend⟩ :=
    exists_take_sum_reaches counts bound hpos (Nat.le_of_not_lt hreach)
  have hlt := hblocks k count hcount (by omega) hbefore
  omega

theorem getElem?_exclusiveScan_natCast (counts : List ℕ) {k : ℕ} (hk : k < counts.length)
    (hbefore : (counts.take k).sum < 2 ^ 31) :
    (exclusiveScan 0 (counts.map Nat.cast))[k]? = some ((counts.take k).sum : ℤ) := by
  rw [getElem?_exclusiveScan_zero _ (by simpa using hk), ← List.map_take, ← Nat.cast_list_sum,
    bmod_natCast hbefore]

/-! ## Counting -/

/-- Setting an entry of a tabulated function. -/
theorem set_map_range {α : Type*} (f : ℕ → α) (size key : ℕ) (value : α) :
    ((List.range size).map f).set key value =
      (List.range size).map (Function.update f key value) := by
  refine List.ext_getElem (by simp) fun index hleft hright => ?_
  simp only [List.getElem_set, List.getElem_map, List.getElem_range, Function.update_apply,
    eq_comm (a := index)]

/-- Add an amount to the count of a key; fails for a key out of range. -/
def addAt (counts : List ℤ) (key : ℕ) (amount : ℤ) : Option (List ℤ) :=
  counts[key]?.map fun count => counts.set key (addInt count amount)

/-- Add the amounts of all items to the counts of their keys. -/
def tally : List (ℕ × ℤ) → List ℤ → Option (List ℤ)
  | [], counts => some counts
  | (key, amount) :: items, counts => (addAt counts key amount).bind (tally items)

/-- Sum of the amounts of a key. -/
def amountOf (items : List (ℕ × ℕ)) (key : ℕ) : ℕ :=
  ((items.filter fun item => item.1 = key).map (·.2)).sum

theorem amountOf_cons (item : ℕ × ℕ) (items : List (ℕ × ℕ)) (key : ℕ) :
    amountOf (item :: items) key = (if item.1 = key then item.2 else 0) + amountOf items key := by
  by_cases hkey : item.1 = key <;> simp [amountOf, hkey]

/-- Counts are the wrapped sums of the amounts. -/
theorem tally_bmod {items : List (ℕ × ℕ)} {size : ℕ} (base : ℕ → ℕ)
    (hkeys : ∀ item ∈ items, item.1 < size) :
    tally (items.map fun item => (item.1, (item.2 : ℤ)))
        ((List.range size).map fun key => (base key : ℤ).bmod (2 ^ 32)) =
      some ((List.range size).map fun key =>
        ((base key + amountOf items key : ℕ) : ℤ).bmod (2 ^ 32)) := by
  induction items generalizing base with
  | nil => simp [tally, amountOf]
  | cons item items ih =>
      have hkey := hkeys item List.mem_cons_self
      let next := Function.update base item.1 (base item.1 + item.2)
      have hset : ((List.range size).map fun key => (base key : ℤ).bmod (2 ^ 32)).set item.1
          (addInt ((base item.1 : ℤ).bmod (2 ^ 32)) item.2) =
            (List.range size).map fun key => (next key : ℤ).bmod (2 ^ 32) := by
        rw [set_map_range, addInt_bmod]
        apply List.map_congr_left
        intro key _
        simp only [next, Function.update_apply]
        split_ifs
        · rw [Nat.cast_add]
        · rfl
      have hnext : ∀ key, next key + amountOf items key =
          base key + amountOf (item :: items) key := by
        intro key
        rw [amountOf_cons]
        by_cases hsame : item.1 = key
        · subst hsame
          simp [next, Nat.add_assoc]
        · simp [next, hsame, Function.update_of_ne (Ne.symm hsame)]
      have hrest := ih next fun other hother => hkeys other (List.mem_cons_of_mem _ hother)
      rw [List.map_cons, tally, addAt, List.getElem?_map, List.getElem?_range hkey]
      simp only [Option.map_some, Option.bind_some]
      rw [hset, hrest]
      simp only [hnext]

theorem tally_zero_bmod {items : List (ℕ × ℕ)} {size : ℕ}
    (hkeys : ∀ item ∈ items, item.1 < size) :
    tally (items.map fun item => (item.1, (item.2 : ℤ))) (List.replicate size 0) =
      some ((List.range size).map fun key => (amountOf items key : ℤ).bmod (2 ^ 32)) := by
  have h := tally_bmod (fun _ => 0) hkeys
  simpa using h

/-! ## Placement -/

section Placement

variable {T : Type*}

/-- Write an item to the offset of its key and advance the offset; fails for a
key or an offset out of range. -/
def placeItem (key : ℕ) (item : T) (state : List ℤ × List T) : Option (List ℤ × List T) :=
  match state.1[key]? with
  | none => none
  | some offset =>
      if 0 ≤ offset ∧ offset < state.2.length then
        some (state.1.set key (addInt offset 1), state.2.set offset.toNat item)
      else none

/-- Place all items in order. -/
def placeItems : List (ℕ × T) → List ℤ × List T → Option (List ℤ × List T)
  | [], state => some state
  | (key, item) :: items, state => (placeItem key item state).bind (placeItems items)

/-- Counts of items and amounts of items agree. -/
theorem amountOf_lengths {α : Type*} (items : List α) (keyOf : α → ℕ) (f : α → List T)
    (key : ℕ) :
    amountOf (items.map fun item => (keyOf item, (f item).length)) key =
      (withKey (items.flatMap fun item => (f item).map fun value => (keyOf item, value))
        key).length := by
  induction items with
  | nil => rfl
  | cons item items ih =>
      rw [List.map_cons, amountOf_cons, ih, List.flatMap_cons, withKey_append,
        List.length_append, withKey_map_self]
      split_ifs <;> simp

theorem amountOf_ones (items : List (ℕ × T)) (key : ℕ) :
    amountOf (items.map fun item => (item.1, 1)) key = (withKey items key).length := by
  induction items with
  | nil => rfl
  | cons item items ih =>
      rw [List.map_cons, amountOf_cons, ih, withKey_cons]
      split_ifs <;> simp [Nat.add_comm]

/-- Blocks of a buffer: the items of each key that are placed, and free cells. -/
def blocks (size : ℕ) (placed free : ℕ → List T) : List T :=
  (List.range size).flatMap fun key => placed key ++ free key

/-- Next free position of a key. -/
def nextFree (placed free : ℕ → List T) (key : ℕ) : ℕ :=
  (blocks key placed free).length + (placed key).length

/-- Offsets of all keys. -/
def offsets (size : ℕ) (placed free : ℕ → List T) : List ℤ :=
  (List.range size).map fun key => (nextFree placed free key : ℤ)

variable {size key : ℕ} {placed free placed' free' : ℕ → List T}

theorem blocks_succ (size : ℕ) (placed free : ℕ → List T) :
    blocks (size + 1) placed free = blocks size placed free ++ (placed size ++ free size) := by
  simp [blocks, List.range_succ, List.flatMap_append]

theorem blocks_congr (h : ∀ key < size, placed key ++ free key = placed' key ++ free' key) :
    blocks size placed free = blocks size placed' free' :=
  List.flatMap_congr fun key hkey => h key (List.mem_range.mp hkey)

theorem length_blocks_congr
    (h : ∀ key, (placed key ++ free key).length = (placed' key ++ free' key).length) :
    (blocks size placed free).length = (blocks size placed' free').length := by
  induction size with
  | zero => rfl
  | succ size ih =>
      rw [blocks_succ, blocks_succ, List.length_append, ih, h size, ← List.length_append]

variable (placed) in
theorem nextFree_lt (hkey : key < size) (hfree : free key ≠ []) :
    nextFree placed free key < (blocks size placed free).length := by
  induction size with
  | zero => simp at hkey
  | succ size ih =>
      have hpos := List.length_pos_iff.mpr hfree
      rw [blocks_succ]
      simp only [List.length_append]
      rcases Nat.lt_succ_iff_lt_or_eq.mp hkey with hlt | rfl
      · have := ih hlt
        omega
      · unfold nextFree
        omega

/-- The placed items of a key after one more item. -/
def pushItem (placed : ℕ → List T) (key : ℕ) (item : T) : ℕ → List T :=
  Function.update placed key (placed key ++ [item])

/-- The free cells after one cell of a key is used. -/
def dropFree (free : ℕ → List T) (key : ℕ) : ℕ → List T :=
  Function.update free key (free key).tail

theorem set_blocks (item : T) (hkey : key < size) (hfree : free key ≠ []) :
    (blocks size placed free).set (nextFree placed free key) item =
      blocks size (pushItem placed key item) (dropFree free key) := by
  induction size with
  | zero => simp at hkey
  | succ size ih =>
      rw [blocks_succ, blocks_succ]
      rcases Nat.lt_succ_iff_lt_or_eq.mp hkey with hlt | rfl
      · rw [List.set_append_left _ _ (nextFree_lt _ hlt hfree), ih hlt]
        simp [pushItem, dropFree, Function.update_of_ne (Nat.ne_of_gt hlt)]
      · have hfront : blocks key (pushItem placed key item) (dropFree free key) =
            blocks key placed free := blocks_congr fun other hother => by
          simp [pushItem, dropFree, Function.update_of_ne (Nat.ne_of_lt hother)]
        obtain ⟨cell, rest, hcells⟩ := List.exists_cons_of_ne_nil hfree
        rw [hfront, nextFree, List.set_append_right _ _ (Nat.le_add_right _ _),
          Nat.add_sub_cancel_left, List.set_append_right _ _ le_rfl, Nat.sub_self, hcells]
        simp [pushItem, dropFree, hcells]

theorem length_push_drop (item : T) (hfree : free key ≠ []) (other : ℕ) :
    (pushItem placed key item other ++ dropFree free key other).length =
      (placed other ++ free other).length := by
  have hpos := List.length_pos_iff.mpr hfree
  by_cases hsame : other = key
  · subst hsame
    simp only [pushItem, dropFree, Function.update_self, List.length_append, List.length_tail,
      List.length_singleton]
    omega
  · simp [pushItem, dropFree, Function.update_of_ne hsame]

theorem set_offsets (item : T) (hfree : free key ≠ []) :
    (offsets size placed free).set key ((nextFree placed free key + 1 : ℕ) : ℤ) =
      offsets size (pushItem placed key item) (dropFree free key) := by
  have hblocks : ∀ other, (blocks other (pushItem placed key item) (dropFree free key)).length =
      (blocks other placed free).length :=
    fun other => length_blocks_congr (length_push_drop item hfree)
  refine List.ext_getElem (by simp [offsets]) fun other hleft hright => ?_
  simp only [offsets, List.getElem_set, List.getElem_map, List.getElem_range, nextFree, hblocks]
  split_ifs with hsame
  · subst hsame
    simp [pushItem, Nat.add_assoc]
  · simp [pushItem, Function.update_of_ne (Ne.symm hsame)]

theorem placeItem_blocks (item : T) (hkey : key < size) (hfree : free key ≠ [])
    (hlt : (blocks size placed free).length < 2 ^ 31) :
    placeItem key item (offsets size placed free, blocks size placed free) =
      some (offsets size (pushItem placed key item) (dropFree free key),
        blocks size (pushItem placed key item) (dropFree free key)) := by
  have hnext := nextFree_lt placed hkey hfree
  have hget : (offsets size placed free)[key]? = some (nextFree placed free key : ℤ) := by
    simp [offsets, hkey]
  have hadd : addInt (nextFree placed free key : ℤ) 1 =
      ((nextFree placed free key + 1 : ℕ) : ℤ) := by
    rw [addInt_eq (by omega) (by omega), Nat.cast_succ]
  rw [placeItem, hget]
  simp only
  rw [if_pos (by omega), Int.toNat_natCast, hadd, set_offsets item hfree,
    set_blocks item hkey hfree]

/-- Placing items into free cells that are as many as the items of each key
gives the items of each key in order. -/
theorem placeItems_blocks {items : List (ℕ × T)} (hkeys : ∀ item ∈ items, item.1 < size)
    (hcells : ∀ key < size, (free key).length = (withKey items key).length)
    (hlt : (blocks size placed free).length < 2 ^ 31) :
    (placeItems items (offsets size placed free, blocks size placed free)).map (·.2) =
      some ((List.range size).flatMap fun key => placed key ++ withKey items key) := by
  induction items generalizing placed free with
  | nil =>
      simp only [placeItems, Option.map_some, blocks, withKey_nil]
      refine congrArg some (List.flatMap_congr fun key hkey => ?_)
      rw [List.eq_nil_of_length_eq_zero (hcells key (List.mem_range.mp hkey))]
  | cons head items ih =>
      obtain ⟨key, item⟩ := head
      have hkey : key < size := hkeys (key, item) List.mem_cons_self
      have hfree : free key ≠ [] := by
        have := hcells key hkey
        rw [withKey_cons, if_pos rfl, List.length_cons] at this
        exact List.ne_nil_of_length_eq_add_one this
      have hrest := @ih (pushItem placed key item) (dropFree free key)
        (fun other hother => hkeys other (List.mem_cons_of_mem _ hother))
        (fun other hother => by
          have := hcells other hother
          rw [withKey_cons] at this
          by_cases hsame : key = other
          · subst hsame
            simp_all [dropFree]
          · rw [if_neg hsame] at this
            rw [dropFree, Function.update_of_ne (Ne.symm hsame), this])
        (by rwa [length_blocks_congr (length_push_drop item hfree)])
      rw [placeItems, placeItem_blocks item hkey hfree hlt, Option.bind_some, hrest]
      refine congrArg some (List.flatMap_congr fun other _ => ?_)
      rw [withKey_cons]
      by_cases hsame : key = other
      · subst hsame
        simp [pushItem]
      · rw [if_neg hsame, pushItem, Function.update_of_ne (Ne.symm hsame)]

variable (size) in
/-- A buffer splits into free cells of any sizes that add up to its length. -/
theorem exists_free (buffer : List T) (counts : ℕ → ℕ)
    (hlength : buffer.length = ((List.range size).map counts).sum) :
    ∃ free : ℕ → List T, (∀ key < size, (free key).length = counts key) ∧
      buffer = blocks size (fun _ => []) free := by
  induction size generalizing buffer with
  | zero => exact ⟨fun _ => [], by simp, List.eq_nil_of_length_eq_zero hlength⟩
  | succ size ih =>
      rw [List.range_succ, List.map_append, List.sum_append] at hlength
      simp only [List.map_cons, List.map_nil, List.sum_cons, List.sum_nil] at hlength
      obtain ⟨free, hfree, hbuffer⟩ :=
        @ih (buffer.take ((List.range size).map counts).sum) (by
          rw [List.length_take]
          omega)
      let last := buffer.drop ((List.range size).map counts).sum
      refine ⟨Function.update free size last, fun key hkey => ?_, ?_⟩
      · rcases Nat.lt_succ_iff_lt_or_eq.mp hkey with hlt | rfl
        · rw [Function.update_of_ne (Nat.ne_of_lt hlt), hfree key hlt]
        · rw [Function.update_self, List.length_drop]
          omega
      · have hfront : blocks size (fun _ => []) (Function.update free size last) =
            blocks size (fun _ => []) free := blocks_congr fun key hkey => by
          rw [Function.update_of_ne (Nat.ne_of_lt hkey)]
        rw [blocks_succ, hfront, ← hbuffer, Function.update_self, List.nil_append,
          List.take_append_drop]

theorem length_withKey_le (items : List (ℕ × T)) (key : ℕ) :
    (withKey items key).length ≤ items.length := by
  rw [withKey, List.length_map]
  exact List.length_filter_le _ _

theorem sum_length_withKey (items : List (ℕ × T)) (size : ℕ) :
    ((List.range size).map fun key => (withKey items key).length).sum =
      (items.filter fun item => item.1 < size).length := by
  induction size with
  | zero => simp
  | succ size ih =>
      rw [List.range_succ, List.map_append, List.sum_append, ih]
      simp only [List.map_cons, List.map_nil, List.sum_cons, List.sum_nil, withKey,
        List.length_map, Nat.add_zero, ← List.countP_eq_length_filter]
      clear ih
      induction items with
      | nil => rfl
      | cons item items ih =>
          simp only [List.countP_cons, decide_eq_true_eq]
          split_ifs <;> omega

/-- Counts of all keys. -/
def keyCounts (items : List (ℕ × T)) (size : ℕ) : List ℕ :=
  (List.range size).map fun key => (withKey items key).length

theorem sum_keyCounts {items : List (ℕ × T)} (hkeys : ∀ item ∈ items, item.1 < size) :
    (keyCounts items size).sum = items.length := by
  rw [keyCounts, sum_length_withKey, List.filter_eq_self.mpr (by simpa using hkeys)]

/-- Items are distributed stably: placed at the prefix sums of the counts of their
keys in a buffer of their number, the items of each key form one block. -/
theorem placeItems_prefixSums {items : List (ℕ × T)} (buffer : List T)
    (hkeys : ∀ item ∈ items, item.1 < size) (hbuffer : buffer.length = items.length)
    (hlt : items.length < 2 ^ 31) :
    (placeItems items ((prefixSums 0 ((List.range size).map fun key =>
        (withKey items key).length)).map Nat.cast, buffer)).map (·.2) =
      some ((List.range size).flatMap (withKey items)) := by
  obtain ⟨free, hfree, rfl⟩ := exists_free size buffer
    (fun key => (withKey items key).length) (hbuffer.trans (sum_keyCounts hkeys).symm)
  have hstart : ∀ key ≤ size, (blocks key (fun _ => []) free).length =
      ((List.range key).map fun other => (withKey items other).length).sum := by
    intro key hkey
    rw [blocks, List.length_flatMap]
    refine congrArg List.sum (List.map_congr_left fun other hother => ?_)
    rw [List.nil_append, hfree other (by have := List.mem_range.mp hother; omega)]
  have hoffsets : (prefixSums 0 ((List.range size).map fun key =>
      (withKey items key).length)).map Nat.cast = offsets size (fun _ => []) free := by
    refine List.ext_getElem (by simp [offsets]) fun key hleft hright => ?_
    have hkey : key < size := by simpa [offsets] using hright
    have hget := getElem?_prefixSums 0 ((List.range size).map fun key =>
      (withKey items key).length) (k := key) (by simpa using hkey)
    rw [← List.map_take, List.take_range, Nat.min_eq_left hkey.le, Nat.zero_add] at hget
    simp only [offsets, List.getElem_map, List.getElem_range, nextFree, List.length_nil,
      Nat.add_zero, hstart key hkey.le]
    exact congrArg Nat.cast (List.getElem_eq_iff _ |>.mpr hget)
  rw [hoffsets, placeItems_blocks hkeys hfree (by rwa [hbuffer])]
  simp

/-- Counting the items one by one gives the number of items of each key. -/
theorem tally_ones {items : List (ℕ × T)} (hkeys : ∀ item ∈ items, item.1 < size)
    (hlt : items.length < 2 ^ 31) :
    tally (items.map fun item => (item.1, 1)) (List.replicate size 0) =
      some ((keyCounts items size).map Nat.cast) := by
  have hones : ∀ item ∈ items.map fun item => (item.1, 1), item.1 < size := by
    intro item hitem
    obtain ⟨_, hmem, rfl⟩ := List.mem_map.mp hitem
    exact hkeys _ hmem
  have htally := tally_zero_bmod hones
  rw [List.map_map] at htally
  rw [keyCounts, List.map_map]
  refine htally.trans (congrArg some (List.map_congr_left fun key _ => ?_))
  rw [amountOf_ones, bmod_natCast ((length_withKey_le items key).trans_lt hlt)]
  rfl

/-- Cells behind the buffer stay as they are. -/
theorem placeItems_append {items : List (ℕ × T)} {offsets offsets' : List ℤ}
    {buffer buffer' : List T} (rest : List T)
    (h : placeItems items (offsets, buffer) = some (offsets', buffer')) :
    placeItems items (offsets, buffer ++ rest) = some (offsets', buffer' ++ rest) := by
  induction items generalizing offsets buffer with
  | nil =>
      cases h
      rfl
  | cons item items ih =>
      obtain ⟨key, item⟩ := item
      obtain ⟨⟨offsets₁, buffer₁⟩, hplace, hrest⟩ := Option.bind_eq_some_iff.mp h
      refine Option.bind_eq_some_iff.mpr ⟨(offsets₁, buffer₁ ++ rest), ?_, ih hrest⟩
      unfold placeItem at hplace ⊢
      split at hplace
      · simp at hplace
      · rename_i offset hoffset
        split_ifs at hplace with hin
        cases hplace
        have hlt : offset.toNat < buffer.length := by
          simp only at hin
          omega
        simp only [hoffset, List.length_append]
        rw [if_pos (by omega), List.set_append_left _ _ hlt]

/-- Items are distributed to the front of a buffer that is large enough. -/
theorem placeItems_overwrite (size : ℕ) (buffer : List T) {items : List (ℕ × T)}
    (hkeys : ∀ item ∈ items, item.1 < size) (hbuffer : items.length ≤ buffer.length)
    (hlt : items.length < 2 ^ 31) :
    (placeItems items ((prefixSums 0 ((List.range size).map fun key =>
        (withKey items key).length)).map Nat.cast, buffer)).map (·.2) =
      some ((List.range size).flatMap (withKey items) ++ buffer.drop items.length) := by
  have hfront := placeItems_prefixSums (buffer.take items.length) hkeys
    (by simpa using hbuffer) hlt
  obtain ⟨⟨offsets, front⟩, hplaced, hfront⟩ := Option.map_eq_some_iff.mp hfront
  have happend := placeItems_append (buffer.drop items.length) hplaced
  rw [List.take_append_drop] at happend
  rw [happend, ← hfront]
  rfl

/-- End of the cells of a key: its offset plus the number of its items. -/
def cellsEnd (items : List (ℕ × T)) (offsets : List ℕ) (key : ℕ) : ℕ :=
  offsets.getD key 0 + (withKey items key).length

/-- Placing an item uses the first cell of its key. -/
theorem cellsEnd_set (item : T) (items : List (ℕ × T)) {offsets : List ℕ} {key : ℕ}
    (hkey : key < offsets.length) (other : ℕ) :
    cellsEnd items (offsets.set key (offsets.getD key 0 + 1)) other =
      cellsEnd ((key, item) :: items) offsets other := by
  unfold cellsEnd
  rw [withKey_cons, List.getD_eq_getElem?_getD, List.getElem?_set]
  by_cases hsame : key = other
  · subst hsame
    simp [hkey, Nat.add_assoc, Nat.add_comm 1]
  · simp [hsame, List.getD_eq_getElem?_getD]

/-- Items are placed where the buffer has cells for all items of every key. -/
theorem placeItems_isSome {items : List (ℕ × T)} {offsets : List ℕ} {buffer : List T}
    (hkeys : ∀ item ∈ items, item.1 < offsets.length)
    (hroom : ∀ key < offsets.length, cellsEnd items offsets key ≤ buffer.length)
    (hlt : ∀ key < offsets.length, cellsEnd items offsets key < 2 ^ 31) :
    (placeItems items (offsets.map Nat.cast, buffer)).isSome := by
  induction items generalizing offsets buffer with
  | nil => rfl
  | cons item items ih =>
      obtain ⟨key, value⟩ := item
      have hkey : key < offsets.length := hkeys _ List.mem_cons_self
      have hcells : cellsEnd ((key, value) :: items) offsets key =
          offsets.getD key 0 + (withKey items key).length + 1 := by
        simp [cellsEnd, withKey_cons, Nat.add_assoc]
      have hfits := hroom key hkey
      have hsmall := hlt key hkey
      rw [hcells] at hfits hsmall
      have hget : (offsets.map (Nat.cast : ℕ → ℤ))[key]? = some (offsets.getD key 0 : ℤ) := by
        simp [hkey, List.getD_eq_getElem?_getD]
      have hplace : placeItem key value (offsets.map Nat.cast, buffer) =
          some ((offsets.set key (offsets.getD key 0 + 1)).map Nat.cast,
            buffer.set (offsets.getD key 0) value) := by
        rw [placeItem, hget]
        dsimp only
        rw [if_pos ⟨Int.natCast_nonneg _, by omega⟩, Int.toNat_natCast, List.map_set,
          ← addInt_natCast (by omega)]
        rfl
      rw [placeItems, hplace, Option.bind_some]
      refine ih (fun other hother => ?_) (fun other hother => ?_) fun other hother => ?_
      · rw [List.length_set]
        exact hkeys other (List.mem_cons_of_mem _ hother)
      · rw [List.length_set] at hother ⊢
        rw [cellsEnd_set value items hkey]
        exact hroom other hother
      · rw [List.length_set] at hother
        rw [cellsEnd_set value items hkey]
        exact hlt other hother

end Placement

end MpiBindings.CountingSort
