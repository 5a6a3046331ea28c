import Mathlib.Data.Int.ModEq
import Mathlib.Tactic.Ring

/-!
# Shifted ranks

`rank_shifted_checked` fails outside the communicator, and `rank_shifted_cyclic` goes around it.
The cyclic shift adds the size of the communicator before it takes the remainder, so that it
overflows on communicators of more than a third of the machine integers.
-/

namespace MpiBindings.CommunicatorObjects

/-! ## Shifts -/

/-- The values of `int`. -/
def IsInt (value : ℤ) : Prop := -2 ^ 31 ≤ value ∧ value < 2 ^ 31

instance (value : ℤ) : Decidable (IsInt value) := inferInstanceAs (Decidable (_ ∧ _))

/-- Addition of `int`, which is undefined on overflow. -/
def addDefined (left right : ℤ) : Option ℤ :=
  if IsInt (left + right) then some (left + right) else none

/-- `is_valid_rank`. -/
def isValidRank (size : ℕ) (rank : ℤ) : Bool := 0 ≤ rank ∧ rank < size

/-- `rank_shifted_checked`; it throws for a rank that is not valid. -/
def rankShiftedChecked (size rank : ℕ) (distance : ℤ) : Option ℕ := do
  let result ← addDefined rank distance
  if isValidRank size result then some result.toNat else none

/-- `rank_shifted_cyclic`. -/
def rankShiftedCyclic (size rank : ℕ) (distance : ℤ) : Option ℕ := do
  let cappedDistance := distance.tmod size
  let shifted ← addDefined rank cappedDistance
  let sum ← addDefined shifted size
  -- the cast to `size_t` asserts that the remainder is not negative
  if 0 ≤ sum.tmod size then some (sum.tmod size).toNat else none

/-! ## Results -/

section Results

variable {size rank : ℕ} {distance : ℤ}

theorem tmod_modEq (size : ℕ) (distance : ℤ) : distance.tmod size ≡ distance [ZMOD size] := by
  have hdiv := Int.mul_tdiv_add_tmod distance size
  refine Int.modEq_iff_dvd.mpr ⟨distance.tdiv size, ?_⟩
  omega

/-- The shift is the sum modulo the size, unless the intermediate sum overflows. -/
theorem rankShiftedCyclic_eq (hrank : rank < size) (hsize : size < 2 ^ 31) :
    rankShiftedCyclic size rank distance =
      if rank + distance.tmod size + size < 2 ^ 31 then some ((rank + distance) % size).toNat
      else none := by
  have hpos : (0 : ℤ) < size := by omega
  have hlower := Int.lt_tmod_of_pos distance hpos
  have hupper := Int.tmod_lt_of_pos distance hpos
  have hmod : (rank + distance.tmod size + size).tmod size = (rank + distance) % size := by
    rw [Int.tmod_eq_emod_of_nonneg (by omega), Int.add_emod_right]
    exact (tmod_modEq size distance).add_left rank
  have hnonneg : 0 ≤ (rank + distance) % (size : ℤ) := Int.emod_nonneg _ hpos.ne'
  rw [rankShiftedCyclic]
  split_ifs with hfits
  · have hfirst : IsInt (rank + distance.tmod size) := by
      constructor <;> omega
    have hsecond : IsInt (rank + distance.tmod size + size) := by
      constructor <;> omega
    simp only [addDefined, if_pos hfirst, if_pos hsecond, Option.bind_eq_bind, Option.bind_some,
      hmod, if_pos hnonneg]
  · have hsecond : ¬ IsInt (rank + distance.tmod size + size) := fun hint => hfits hint.2
    rw [addDefined]
    split_ifs
    · simp only [addDefined, if_neg hsecond, Option.bind_eq_bind, Option.bind_some,
        Option.bind_none]
    · rfl

theorem rankShiftedCyclic_eq_some {shifted : ℕ} (hrank : rank < size) (hsize : size < 2 ^ 31)
    (hshifted : rankShiftedCyclic size rank distance = some shifted) :
    shifted < size ∧ (shifted : ℤ) ≡ rank + distance [ZMOD size] := by
  have hpos : (0 : ℤ) < size := by omega
  rw [rankShiftedCyclic_eq hrank hsize, Option.ite_none_right_eq_some] at hshifted
  have hnonneg : 0 ≤ (rank + distance) % (size : ℤ) := Int.emod_nonneg _ hpos.ne'
  have hlt : (rank + distance) % (size : ℤ) < size := Int.emod_lt_of_pos _ hpos
  have hcast : (shifted : ℤ) = (rank + distance) % size := by
    rw [← Option.some.inj hshifted.2, Int.toNat_of_nonneg hnonneg]
  refine ⟨by omega, ?_⟩
  rw [hcast]
  exact Int.mod_modEq _ _

/-- Ranks that are congruent are equal. -/
theorem eq_of_modEq {other : ℕ} (hrank : rank < size) (hother : other < size)
    (hmod : (rank : ℤ) ≡ other [ZMOD size]) : rank = other :=
  Nat.ModEq.eq_of_lt_of_lt (Int.natCast_modEq_iff.mp hmod) hrank hother

/-- The checked shift throws, or overflows, for every sum that is not a valid rank. -/
theorem rankShiftedChecked_eq_some_iff {result : ℕ} (hsize : size < 2 ^ 31) :
    rankShiftedChecked size rank distance = some result ↔
      (result : ℤ) = rank + distance ∧ result < size := by
  by_cases hint : IsInt (rank + distance)
  · simp only [rankShiftedChecked, addDefined, if_pos hint, Option.bind_eq_bind, Option.bind_some,
      Option.ite_none_right_eq_some, isValidRank, decide_eq_true_eq, Option.some.injEq]
    constructor
    · rintro ⟨hvalid, rfl⟩
      omega
    · rintro ⟨hresult, hlt⟩
      omega
  · simp only [rankShiftedChecked, addDefined, if_neg hint, Option.bind_eq_bind, Option.bind_none]
    refine iff_of_false (fun hnone => by cases hnone) ?_
    rintro ⟨hresult, hlt⟩
    refine hint ⟨?_, ?_⟩ <;> omega

/-- Every shift is defined exactly if the size is at most a third of the machine integers. -/
theorem rankShiftedCyclic_defined_iff (hpos : 0 < size) (hsize : size < 2 ^ 31) :
    (∀ rank < size, ∀ distance, IsInt distance →
      ∃ shifted, rankShiftedCyclic size rank distance = some shifted) ↔
        3 * size ≤ 2 ^ 31 + 1 := by
  constructor
  · intro hdefined
    have hint : IsInt ((size - 1 : ℕ) : ℤ) := by
      constructor <;> omega
    obtain ⟨shifted, hshifted⟩ := hdefined (size - 1) (by omega) _ hint
    rw [rankShiftedCyclic_eq (by omega) hsize, Option.ite_none_right_eq_some,
      Int.tmod_eq_emod_of_nonneg (Int.natCast_nonneg _),
      Int.emod_eq_of_lt (Int.natCast_nonneg _) (by omega)] at hshifted
    omega
  · intro hle rank hrank distance _
    have hupper := Int.tmod_lt_of_pos distance (Int.natCast_pos.mpr hpos)
    exact ⟨_, (rankShiftedCyclic_eq hrank hsize).trans (if_pos (by omega))⟩

/-- Cyclic shifts are defined for all ranks and distances exactly if the size is at most a third
of the machine integers.  Where they are defined, they are the shifts of a ring: the shift by the
opposite distance leads back, and shifts add up.  The checked shift returns exactly the sums that
are valid ranks, and then the cyclic shift is the same. -/
theorem rankShiftedCyclic_ring (hpos : 0 < size) (hsize : size < 2 ^ 31) :
    ((∀ rank < size, ∀ distance, IsInt distance →
      ∃ shifted, rankShiftedCyclic size rank distance = some shifted) ↔
        3 * size ≤ 2 ^ 31 + 1) ∧
    ∀ rank < size, ∀ distance,
      (∀ shifted, rankShiftedCyclic size rank distance = some shifted →
        shifted < size ∧ (shifted : ℤ) ≡ rank + distance [ZMOD size] ∧
        (∀ back, rankShiftedCyclic size shifted (-distance) = some back → back = rank) ∧
        ∀ further twice once, rankShiftedCyclic size shifted further = some twice →
          rankShiftedCyclic size rank (distance + further) = some once → once = twice) ∧
      ∀ result, (rankShiftedChecked size rank distance = some result ↔
          (result : ℤ) = rank + distance ∧ result < size) ∧
        (rankShiftedChecked size rank distance = some result →
          ∀ shifted, rankShiftedCyclic size rank distance = some shifted → shifted = result) := by
  refine ⟨rankShiftedCyclic_defined_iff hpos hsize, fun rank hrank distance => ⟨?_, ?_⟩⟩
  · intro shifted hshifted
    obtain ⟨hlt, hmod⟩ := rankShiftedCyclic_eq_some hrank hsize hshifted
    refine ⟨hlt, hmod, ?_, ?_⟩
    · intro back hback
      obtain ⟨hbackLt, hbackMod⟩ := rankShiftedCyclic_eq_some hlt hsize hback
      refine eq_of_modEq hbackLt hrank ?_
      calc (back : ℤ) ≡ shifted + -distance [ZMOD size] := hbackMod
        _ ≡ rank + distance + -distance [ZMOD size] := hmod.add_right _
        _ = rank := by ring
    · intro further twice once htwice honce
      obtain ⟨htwiceLt, htwiceMod⟩ := rankShiftedCyclic_eq_some hlt hsize htwice
      obtain ⟨honceLt, honceMod⟩ := rankShiftedCyclic_eq_some hrank hsize honce
      refine eq_of_modEq honceLt htwiceLt ?_
      calc (once : ℤ) ≡ rank + (distance + further) [ZMOD size] := honceMod
        _ = rank + distance + further := (add_assoc _ _ _).symm
        _ ≡ shifted + further [ZMOD size] := hmod.symm.add_right _
        _ ≡ twice [ZMOD size] := htwiceMod.symm
  · intro result
    refine ⟨rankShiftedChecked_eq_some_iff hsize, fun hresult shifted hshifted => ?_⟩
    obtain ⟨hsum, hresultLt⟩ := (rankShiftedChecked_eq_some_iff hsize).mp hresult
    obtain ⟨hlt, hmod⟩ := rankShiftedCyclic_eq_some hrank hsize hshifted
    exact eq_of_modEq hlt hresultLt (hsum ▸ hmod)

/-- On five ranks, the last but two receives from the last one if all shift by three. -/
theorem rankShiftedCyclic_ring_five :
    rankShiftedCyclic 5 4 3 = some 2 ∧
      ∀ back, rankShiftedCyclic 5 2 (-3) = some back → back = 4 :=
  ⟨by decide, (((rankShiftedCyclic_ring (by decide) (by decide)).2 4 (by decide) 3).1 2
    (by decide)).2.2.1⟩

end Results

end MpiBindings.CommunicatorObjects
