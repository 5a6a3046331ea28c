import MpiBindings.Integers.CheckingCasts
import Mathlib.Data.Int.DivMod

/-!
# Rank ranges

The triplets of `MPI_Group_range_incl` and the membership test of `RankRanges`.  MPI
expands a triplet in both directions; the test compares the rank with the bounds of an
ascending triplet, so it finds no rank of a descending one.
-/

namespace MpiBindings.CommunicatorObjects

open Integers

/-! ## Arithmetic progressions -/

/-- `x` is an element of the progression that runs from `first` in steps of `stride` and
does not pass `last`. -/
def InProgression (first last stride x : ℤ) : Prop :=
  ∃ k, 0 ≤ k ∧ k ≤ (last - first).fdiv stride ∧ x = first + k * stride

section Progressions

variable {first last stride x : ℤ}

theorem inProgression_ascending (hstride : 0 < stride) :
    InProgression first last stride x ↔ (first ≤ x ∧ x ≤ last) ∧ stride ∣ x - first := by
  have hbound : ∀ k, k ≤ (last - first).fdiv stride ↔ k * stride ≤ last - first := fun k => by
    rw [Int.fdiv_eq_ediv_of_nonneg _ hstride.le, Int.le_ediv_iff_mul_le hstride]
  constructor
  · rintro ⟨k, hk, hlast, rfl⟩
    rw [hbound] at hlast
    have hnonneg : 0 ≤ k * stride := Int.mul_nonneg hk hstride.le
    exact ⟨⟨by omega, by omega⟩, k, by rw [add_sub_cancel_left, mul_comm]⟩
  · rintro ⟨⟨hfirst, hlast⟩, k, hk⟩
    have hnonneg : 0 ≤ stride * k := by omega
    refine ⟨k, Int.nonneg_of_mul_nonneg_right hnonneg hstride, ?_, ?_⟩
    · rw [hbound, mul_comm]
      omega
    · rw [mul_comm]
      omega

/-- Negation turns a progression around. -/
theorem inProgression_neg :
    InProgression (-first) (-last) (-stride) (-x) ↔ InProgression first last stride x := by
  rw [InProgression, InProgression, show -last - -first = -(last - first) by ring,
    Int.neg_fdiv_neg]
  refine exists_congr fun k => and_congr_right fun _ => and_congr_right fun _ => ?_
  rw [mul_neg, ← neg_add, neg_inj]

theorem inProgression_descending (hstride : stride < 0) :
    InProgression first last stride x ↔ (last ≤ x ∧ x ≤ first) ∧ stride ∣ x - first := by
  rw [← inProgression_neg, inProgression_ascending (Int.neg_pos_of_neg hstride),
    neg_le_neg_iff, neg_le_neg_iff, and_comm (a := x ≤ first), Int.neg_dvd,
    show -x - -first = -(x - first) by ring, Int.dvd_neg]

end Progressions

/-! ## The membership test -/

/-- `RankRange`. -/
structure RankRange where
  first : Int32
  last : Int32
  stride : Int32
deriving DecidableEq

namespace RankRange

/-- Triplets that `MPI_Group_range_incl` accepts. -/
structure Accepted (range : RankRange) : Prop where
  first_nonneg : 0 ≤ range.first
  last_nonneg : 0 ≤ range.last
  stride_ne_zero : range.stride ≠ 0
  direction : if range.stride < 0 then range.last ≤ range.first else range.first ≤ range.last

/-- The predicate of `RankRanges::contains`. -/
def contains (range : RankRange) (rank : Int32) : Bool :=
  let isBetweenBounds := rank ≥ range.first ∧ rank ≤ range.last
  let diffToStart := rank - range.first
  let isMultipleOfStride := diffToStart % range.stride = 0
  isBetweenBounds ∧ isMultipleOfStride

/-- MPI includes the ranks of the progression. -/
def Includes (range : RankRange) (rank : Int32) : Prop :=
  InProgression range.first.toInt range.last.toInt range.stride.toInt rank.toInt

end RankRange

/-- `RankRanges`, over triplets that MPI accepts. -/
structure RankRanges where
  ranges : List RankRange
  accepted : ∀ range ∈ ranges, range.Accepted

/-- Ranks are not negative. -/
abbrev Rank := { rank : Int32 // 0 ≤ rank }

namespace RankRanges

/-- `RankRanges::contains`. -/
def contains (rankRanges : RankRanges) (rank : Int32) : Bool :=
  rankRanges.ranges.any fun range => range.contains rank

/-- MPI includes the rank in the group. -/
def Includes (rankRanges : RankRanges) (rank : Int32) : Prop :=
  ∃ range ∈ rankRanges.ranges, range.Includes rank

end RankRanges

def sizeT : IntegralType := uintmaxT

def intT : IntegralType := ⟨⟨32, true, Nat.succ_pos 31⟩, Nat.le_add_right 32 32⟩

/-- Assertions of `create_subcommunicators`. -/
def rangesEmpty : String :=
  "The set of ranks to include in the new subcommunicator must not be empty."

def ownRankMissing : String :=
  "The ranks to include in the new subcommunicator must contain own rank."

/-- `create_subcommunicators` up to the call of `MPI_Group_range_incl`: the arguments of
that call, or the message of the assertion that fails. -/
def createSubcommunicators (rankRanges : RankRanges) (rankSigned : Int32) :
    Except String (intT.Value × List RankRange) :=
  if rankRanges.ranges.length = 0 then .error rangesEmpty
  else if ¬ rankRanges.contains rankSigned then .error ownRankMissing
  else
    match assertingCast intT (sizeT.ofInt rankRanges.ranges.length) with
    | some size => .ok (size, rankRanges.ranges)
    | none => .error ""

section Ranges

variable {range : RankRange} {rank : Int32}

/-- No subtraction of the test overflows, and the sign of the remainder does not matter. -/
theorem contains_iff_dvd (haccepted : range.Accepted) (hrank : 0 ≤ rank) :
    range.contains rank = true ↔
      (range.first.toInt ≤ rank.toInt ∧ rank.toInt ≤ range.last.toInt) ∧
        range.stride.toInt ∣ rank.toInt - range.first.toInt := by
  have hfirst := Int32.le_iff_toInt_le.mp haccepted.first_nonneg
  have hnonneg := Int32.le_iff_toInt_le.mp hrank
  rw [Int32.toInt_zero] at hfirst hnonneg
  have hdiff : (rank - range.first).toInt = rank.toInt - range.first.toInt := by
    have hfirstLt := range.first.toInt_lt
    have hrankLt := rank.toInt_lt
    rw [Int32.toInt_sub]
    exact Int.bmod_eq_of_le (by omega) (by omega)
  rw [RankRange.contains, decide_eq_true_iff, ge_iff_le, Int32.le_iff_toInt_le,
    Int32.le_iff_toInt_le, ← Int32.toInt_inj, Int32.toInt_mod, hdiff, Int32.toInt_zero,
    ← Int.dvd_iff_tmod_eq_zero]

/-- The test finds the ranks of a triplet unless the triplet descends. -/
theorem contains_iff_includes (haccepted : range.Accepted) (hrank : 0 ≤ rank) :
    range.contains rank = true ↔ range.first ≤ range.last ∧ range.Includes rank := by
  have hdirection := haccepted.direction
  rw [contains_iff_dvd haccepted hrank, RankRange.Includes]
  simp only [Int32.lt_iff_toInt_lt, Int32.le_iff_toInt_le, Int32.toInt_zero] at hdirection ⊢
  by_cases hneg : range.stride.toInt < 0
  · -- A descending triplet passes the bounds test only as a single rank.
    rw [if_pos hneg] at hdirection
    rw [inProgression_descending hneg]
    constructor
    · rintro ⟨⟨hfirst, hlast⟩, hdvd⟩
      exact ⟨hfirst.trans hlast, ⟨by omega, by omega⟩, hdvd⟩
    · rintro ⟨hle, ⟨hlast, hfirst⟩, hdvd⟩
      exact ⟨⟨by omega, by omega⟩, hdvd⟩
  · have hne : range.stride.toInt ≠ 0 := fun hzero =>
      haccepted.stride_ne_zero (Int32.toInt_inj.mp (hzero.trans Int32.toInt_zero.symm))
    rw [if_neg hneg] at hdirection
    rw [inProgression_ascending (by omega)]
    exact (and_iff_right hdirection).symm

end Ranges

section Membership

variable (rankRanges : RankRanges) (rank : Rank)

/-- `contains` finds the ranks that some triplet includes without descending. -/
theorem rankRanges_contains_iff :
    rankRanges.contains rank = true ↔
      ∃ range ∈ rankRanges.ranges, range.first ≤ range.last ∧ range.Includes rank := by
  rw [RankRanges.contains, List.any_eq_true]
  refine exists_congr fun range => and_congr_right fun hmem => ?_
  exact contains_iff_includes (rankRanges.accepted range hmem) rank.2

/-- The assertion on the own rank fails exactly where `contains` does not find it. -/
theorem createSubcommunicators_ownRankMissing_iff (hranges : rankRanges.ranges ≠ []) :
    createSubcommunicators rankRanges rank = .error ownRankMissing ↔
      ¬ rankRanges.contains rank = true := by
  have hne : ¬ rankRanges.ranges.length = 0 := fun hzero =>
    hranges (List.length_eq_zero_iff.mp hzero)
  rw [createSubcommunicators, if_neg hne]
  by_cases hcontains : rankRanges.contains rank = true
  · rw [if_neg (not_not.mpr hcontains)]
    split
    · exact ⟨nofun, fun hnot => absurd hcontains hnot⟩
    · exact ⟨fun heq => absurd (Except.error.inj heq) (by decide), fun hnot =>
        absurd hcontains hnot⟩
  · rw [if_pos hcontains]
    exact ⟨fun _ => hcontains, fun _ => rfl⟩

/-- `contains` is membership in the ranges of MPI, and with it the assertion on the own
rank. -/
structure ContainsMeansIncluded : Prop where
  contains : rankRanges.contains rank = true ↔ rankRanges.Includes rank
  assertion : rankRanges.ranges ≠ [] →
    (createSubcommunicators rankRanges rank = .error ownRankMissing ↔
      ¬ rankRanges.Includes rank)

/-- The test is right for a rank exactly if no triplet includes it on a descent only. -/
theorem containsMeansIncluded_iff :
    ContainsMeansIncluded rankRanges rank ↔
      ((∃ range ∈ rankRanges.ranges, range.last < range.first ∧ range.Includes rank) →
        ∃ range ∈ rankRanges.ranges, range.first ≤ range.last ∧ range.Includes rank) := by
  have hcontains := rankRanges_contains_iff rankRanges rank
  constructor
  · rintro hmeans ⟨range, hmem, -, hincludes⟩
    exact hcontains.mp (hmeans.contains.mpr ⟨range, hmem, hincludes⟩)
  · intro hascending
    have hiff : rankRanges.contains rank = true ↔ rankRanges.Includes rank := by
      rw [hcontains]
      constructor
      · rintro ⟨range, hmem, -, hincludes⟩
        exact ⟨range, hmem, hincludes⟩
      · rintro ⟨range, hmem, hincludes⟩
        rcases lt_or_ge range.last.toInt range.first.toInt with hdescends | hascends
        · exact hascending ⟨range, hmem, Int32.lt_iff_toInt_lt.mpr hdescends, hincludes⟩
        · exact ⟨range, hmem, Int32.le_iff_toInt_le.mpr hascends, hincludes⟩
    refine ⟨hiff, fun hranges => ?_⟩
    rw [createSubcommunicators_ownRankMissing_iff rankRanges rank hranges, hiff]

end Membership

/-- `{4, 0, -2}`: the ranks 4, 2 and 0. -/
def descendingRanges : RankRanges where
  ranges := [⟨4, 0, -2⟩]
  accepted := by
    intro range hmem
    obtain rfl := List.mem_singleton.mp hmem
    exact ⟨by decide, by decide, by decide, by decide⟩

/-- MPI includes rank 2 of the descending triplet; `contains` does not find it, and the
assertion on the own rank fails there. -/
theorem containsMeansIncluded_fails :
    descendingRanges.Includes 2 ∧ descendingRanges.contains 2 = false ∧
      createSubcommunicators descendingRanges 2 = .error ownRankMissing ∧
      ¬ ContainsMeansIncluded descendingRanges ⟨2, by decide⟩ := by
  have hincludes : descendingRanges.Includes 2 :=
    ⟨⟨4, 0, -2⟩, List.mem_singleton_self _, 1, by decide, by decide, by decide⟩
  have hcontains : descendingRanges.contains 2 = false := by decide
  refine ⟨hincludes, hcontains, by decide, fun hmeans => ?_⟩
  exact absurd (hmeans.contains.mpr hincludes) (by rw [hcontains]; decide)

end MpiBindings.CommunicatorObjects
