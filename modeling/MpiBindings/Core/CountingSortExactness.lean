import MpiBindings.Core.CountingSort

/-!
# Counting sorts that return are exact

Counts and offsets are machine integers that wrap around, and a placement outside of
the buffer fails.  A sort whose counts overflow places some item behind the end of its
buffer, so a sort that returns had room for all items.  What it places depends neither
on offsets of other keys nor on the size of the buffer.
-/

namespace MpiBindings.CountingSort

/-! ## Counts -/

/-- A tally fails for a key out of range. -/
theorem lt_length_of_tally {items : List (ℕ × ℤ)} {counts counts' : List ℤ}
    (htally : tally items counts = some counts') :
    ∀ item ∈ items, item.1 < counts.length := by
  induction items generalizing counts with
  | nil => simp
  | cons head items ih =>
      obtain ⟨key, amount⟩ := head
      obtain ⟨next, hadd, hrest⟩ := Option.bind_eq_some_iff.mp htally
      obtain ⟨count, hcount, rfl⟩ := Option.map_eq_some_iff.mp hadd
      intro item hitem
      obtain rfl | hitem := List.mem_cons.mp hitem
      · exact (List.getElem?_eq_some_iff.mp hcount).1
      · have hlt := ih hrest item hitem
        rwa [List.length_set] at hlt

/-! ## Placement -/

section Placement

variable {T : Type*} {items : List (ℕ × T)} {offsets : List ℤ} {buffer : List T}
  {state : List ℤ × List T}

/-- The items of a key are placed inside the buffer. -/
theorem inside_of_placeItems (hplace : placeItems items (offsets, buffer) = some state)
    {key : ℕ} {offset : ℤ} (hoffset : offsets[key]? = some offset) (hlt : offset < 2 ^ 31)
    (hitems : withKey items key ≠ []) :
    0 ≤ offset ∧ offset + (withKey items key).length ≤ buffer.length := by
  induction items generalizing offsets buffer offset with
  | nil => exact absurd rfl hitems
  | cons head items ih =>
      obtain ⟨own, item⟩ := head
      obtain ⟨next, hitem, hrest⟩ := Option.bind_eq_some_iff.mp hplace
      rw [placeItem] at hitem
      split at hitem
      · cases hitem
      rename_i ownOffset hown
      rw [Option.ite_none_right_eq_some] at hitem
      obtain ⟨hinside, hnext⟩ := hitem
      obtain rfl := Option.some.inj hnext
      dsimp only at hinside hown hrest
      rw [withKey_cons] at hitems ⊢
      by_cases hsame : own = key
      · subst hsame
        obtain rfl : ownOffset = offset := Option.some.inj (hown.symm.trans hoffset)
        rw [if_pos rfl, List.length_cons]
        by_cases hlast : withKey items own = []
        · rw [hlast, List.length_nil]
          omega
        · -- the next offset would be negative if it did not fit
          have hget : (offsets.set own (addInt ownOffset 1))[own]? =
              some (addInt ownOffset 1) := by
            rw [List.getElem?_set_self (List.getElem?_eq_some_iff.mp hown).1]
          have hrest := ih hrest hget (addInt_lt _ _) hlast
          rw [List.length_set] at hrest
          have hexact : addInt ownOffset 1 = ownOffset + 1 := by
            apply addInt_eq (by omega)
            by_contra hwraps
            have hnonneg := hrest.1
            rw [show ownOffset = 2 ^ 31 - 1 by omega] at hnonneg
            exact absurd hnonneg (by decide)
          rw [hexact] at hrest
          push_cast
          omega
      · rw [if_neg hsame] at hitems ⊢
        have hget : (offsets.set own (addInt ownOffset 1))[key]? = some offset := by
          rw [List.getElem?_set_ne hsame, hoffset]
        have hrest := ih hrest hget hlt hitems
        rwa [List.length_set] at hrest

/-- A placement at wrapped offsets in a buffer that a machine integer can measure has
room for all items. -/
theorem length_lt_of_placeItems {size : ℕ} (hkeys : ∀ item ∈ items, item.1 < size)
    (hbuffer : buffer.length < 2 ^ 31)
    (hplace : placeItems items
      (exclusiveScan 0 ((keyCounts items size).map Nat.cast), buffer) = some state) :
    items.length < 2 ^ 31 := by
  rw [← sum_keyCounts hkeys]
  apply sum_lt_of_blocks_lt (by decide)
  intro key count hcount hpos hbefore
  have hkey := (List.getElem?_eq_some_iff.mp hcount).1
  have hlength : (withKey items key).length = count := by
    rw [keyCounts, List.length_map, List.length_range] at hkey
    rw [keyCounts, List.getElem?_map, List.getElem?_range hkey] at hcount
    exact Option.some.inj hcount
  have hinside := inside_of_placeItems hplace
    (getElem?_exclusiveScan_natCast (keyCounts items size) hkey hbefore) (by omega)
    (List.length_pos_iff.mp (by omega))
  omega

theorem length_of_placeItems (hplace : placeItems items (offsets, buffer) = some state) :
    state.2.length = buffer.length := by
  induction items generalizing offsets buffer with
  | nil => rw [← Option.some.inj hplace]
  | cons head items ih =>
      obtain ⟨own, item⟩ := head
      obtain ⟨next, hitem, hrest⟩ := Option.bind_eq_some_iff.mp hplace
      rw [placeItem] at hitem
      split at hitem
      · cases hitem
      rw [Option.ite_none_right_eq_some] at hitem
      obtain rfl := Option.some.inj hitem.2
      rw [ih hrest, List.length_set]

theorem addInt_one_le {offset : ℤ} (hnonneg : 0 ≤ offset) : addInt offset 1 ≤ offset + 1 := by
  rw [addInt, Int.bmod_def]
  split_ifs <;> omega

/-- A placement that returns also returns at the same offsets among others and in a
buffer of another size with room for the items, and places the same. -/
theorem placeItems_resize {offsets' : List ℤ} {buffer' : List T}
    (hplace : placeItems items (offsets, buffer) = some state) (hoffsets : offsets <+: offsets')
    (hroom : ∀ (key : ℕ) (offset : ℤ), offsets[key]? = some offset → withKey items key ≠ [] →
      offset + (withKey items key).length ≤ buffer'.length)
    (hsame : ∀ i, i < buffer.length → i < buffer'.length → buffer[i]? = buffer'[i]?) :
    ∃ state', placeItems items (offsets', buffer') = some state' ∧
      ∀ i, i < buffer.length → i < buffer'.length → state.2[i]? = state'.2[i]? := by
  induction items generalizing offsets buffer offsets' buffer' with
  | nil =>
      obtain rfl := Option.some.inj hplace
      exact ⟨_, rfl, hsame⟩
  | cons head items ih =>
      obtain ⟨own, item⟩ := head
      obtain ⟨more, rfl⟩ := hoffsets
      obtain ⟨next, hitem, hrest⟩ := Option.bind_eq_some_iff.mp hplace
      rw [placeItem] at hitem
      split at hitem
      · cases hitem
      rename_i offset hoffset
      rw [Option.ite_none_right_eq_some] at hitem
      obtain ⟨hinside, hnext⟩ := hitem
      obtain rfl := Option.some.inj hnext
      dsimp only at hinside hoffset hrest
      have hown : own < offsets.length := (List.getElem?_eq_some_iff.mp hoffset).1
      have hfits := hroom own offset hoffset (by simp [withKey_cons])
      rw [withKey_cons, if_pos rfl, List.length_cons] at hfits
      have hroom' : ∀ (key : ℕ) (start : ℤ),
          (offsets.set own (addInt offset 1))[key]? = some start → withKey items key ≠ [] →
            start + (withKey items key).length ≤ (buffer'.set offset.toNat item).length := by
        intro key start hstart hitems
        rw [List.length_set]
        by_cases hkey : own = key
        · subst hkey
          rw [List.getElem?_set_self hown] at hstart
          have hle := addInt_one_le hinside.1
          rw [Option.some.inj hstart] at hle
          push_cast at hfits
          omega
        · rw [List.getElem?_set_ne hkey] at hstart
          have hkept := hroom key start hstart
          rw [withKey_cons, if_neg hkey] at hkept
          exact hkept hitems
      have hsame' : ∀ i, i < (buffer.set offset.toNat item).length →
          i < (buffer'.set offset.toNat item).length →
            (buffer.set offset.toNat item)[i]? = (buffer'.set offset.toNat item)[i]? := by
        intro i hi hi'
        rw [List.length_set] at hi hi'
        by_cases hposition : offset.toNat = i
        · subst hposition
          rw [List.getElem?_set_self hi, List.getElem?_set_self hi']
        · rw [List.getElem?_set_ne hposition, List.getElem?_set_ne hposition, hsame i hi hi']
      have hprefix : offsets.set own (addInt offset 1) <+:
          (offsets ++ more).set own (addInt offset 1) := by
        rw [List.set_append_left _ _ hown]
        exact List.prefix_append _ _
      obtain ⟨state', hplace', hall⟩ := ih hrest hprefix hroom' hsame'
      refine ⟨state', Option.bind_eq_some_iff.mpr ⟨_, ?_, hplace'⟩, ?_⟩
      · rw [placeItem, List.getElem?_append_left hown, hoffset]
        dsimp only
        rw [if_pos ⟨hinside.1, by push_cast at hfits; omega⟩]
      · simpa using hall

end Placement

end MpiBindings.CountingSort
