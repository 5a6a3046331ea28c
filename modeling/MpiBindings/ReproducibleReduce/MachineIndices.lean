import MpiBindings.ReproducibleReduce.Schedule
import Mathlib.Data.UInt

/-!
# Border elements on machine words

The loop of `tree_rank_intersecting_elements` on 64-bit words.  It is run with
fuel, since on words the jump over a subtree can wrap: behind the last index with
the highest bit it arrives at index zero, whose subtree size is zero.  Up to
`2 ^ 63` it computes what the index tree on natural numbers predicts.
-/

namespace MpiBindings.ReproducibleReduce

/-- `tree_parent` on `size_t`. -/
def treeParentWord (i : UInt64) : UInt64 := i &&& (i - 1)

/-- `tree_subtree_size` on `size_t`. -/
def treeSubtreeSizeWord (i : UInt64) : UInt64 :=
  let largestChildIndex := i ||| (i - 1)
  largestChildIndex + 1 - i

/-- What a call of `tree_rank_intersecting_elements` has come to. -/
inductive WordOutcome where
  | returned (result : List UInt64)
  | assertionFailed
  | running
deriving DecidableEq

/-- The loop of `tree_rank_intersecting_elements`. -/
def intersectingElementsLoop (regionBegin regionEnd : UInt64) :
    (fuel : ℕ) → (index : UInt64) → (result : List UInt64) → WordOutcome
  | 0, _, _ => .running
  | fuel + 1, index, result =>
      if index < regionEnd then
        if index > 0 ∧ ¬ treeParentWord index < regionBegin then .assertionFailed
        else
          intersectingElementsLoop regionBegin regionEnd fuel
            (index + treeSubtreeSizeWord index) (result ++ [index])
      else .returned result

/-- `tree_rank_intersecting_elements` on `size_t`. -/
def treeRankIntersectingElementsWord (fuel : ℕ) (regionBegin regionEnd : UInt64) :
    WordOutcome :=
  let regionSize := regionEnd - regionBegin
  if regionBegin = 0 ∨ regionSize = 0 then .returned []
  else intersectingElementsLoop regionBegin regionEnd fuel regionBegin []

/-- A failed assertion also fails with more fuel. -/
theorem intersectingElementsLoop_failed {regionBegin regionEnd : UInt64} {fuel : ℕ}
    {index : UInt64} {result : List UInt64}
    (hfailed : intersectingElementsLoop regionBegin regionEnd fuel index result =
      .assertionFailed) (extra : ℕ) :
    intersectingElementsLoop regionBegin regionEnd (fuel + extra) index result =
      .assertionFailed := by
  induction fuel generalizing index result with
  | zero => cases hfailed
  | succ fuel ih =>
      rw [Nat.add_right_comm]
      rw [intersectingElementsLoop] at hfailed ⊢
      split_ifs at hfailed ⊢ with hlt hassertion
      · rfl
      · exact ih hfailed

/-! ## Words as numbers -/

section Words

variable {i : UInt64}

theorem toNat_pred (hi : 0 < i.toNat) : (i - 1).toNat = i.toNat - 1 := by
  have hle : (1 : UInt64) ≤ i := UInt64.le_iff_toNat_le.mpr hi
  rw [UInt64.toNat_sub_of_le _ _ hle]
  rfl

theorem toNat_treeParentWord (hi : 0 < i.toNat) :
    (treeParentWord i).toNat = treeParent i.toNat := by
  rw [treeParentWord, UInt64.toNat_and, toNat_pred hi, treeParent]

/-- The size is exact for every index: the sum may wrap, the difference wraps
back. -/
theorem toNat_treeSubtreeSizeWord (hi : 0 < i.toNat) :
    (treeSubtreeSizeWord i).toNat = treeSubtreeSize i.toNat := by
  have hsum := treeParent_add_treeSubtreeSize hi
  have hlt := i.toNat_lt
  have hle : i.toNat ≤ i.toNat ||| (i.toNat - 1) := Nat.left_le_or
  simp only [treeSubtreeSize] at hsum
  simp only [treeSubtreeSizeWord, treeSubtreeSize, UInt64.toNat_sub, UInt64.toNat_add,
    UInt64.toNat_or, toNat_pred hi, UInt64.toNat_one]
  omega

theorem treeSubtreeSize_le {index : ℕ} (hindex : 0 < index) : treeSubtreeSize index ≤ index := by
  have := treeParent_add_treeSubtreeSize hindex
  omega

end Words

/-! ## The loop computes the elements of the region -/

/-- The subtrees of the given indices follow one another from `start` on. -/
def ConsecutiveFrom : ℕ → List ℕ → Prop
  | _, [] => True
  | start, index :: indices =>
      index = start ∧ ConsecutiveFrom (index + treeSubtreeSize index) indices

theorem intersectingElementsFrom_consecutive {regionBegin regionEnd index : ℕ}
    {indices : List ℕ}
    (helements : intersectingElementsFrom regionBegin regionEnd index = some indices) :
    ConsecutiveFrom index indices :=
  intersectingElementsFrom_induction (fun _ _ => trivial) (fun _ _ _ _ ih => ⟨rfl, ih⟩) helements

theorem intersectingElementsLoop_eq {regionBegin regionEnd : UInt64} {indices : List ℕ}
    (hend : regionEnd.toNat ≤ 2 ^ 63) (fuel : ℕ) (index : UInt64) (result : List UInt64)
    (hindex : 0 < index.toNat)
    (helements : intersectingElementsFrom regionBegin.toNat regionEnd.toNat index.toNat =
      some indices)
    (hfuel : indices.length < fuel) :
    intersectingElementsLoop regionBegin regionEnd fuel index result =
      .returned (result ++ indices.map UInt64.ofNat) := by
  induction fuel generalizing index result indices with
  | zero => omega
  | succ fuel ih =>
      rw [intersectingElementsLoop]
      rw [intersectingElementsFrom] at helements
      have hword : index < regionEnd ↔ index.toNat < regionEnd.toNat := UInt64.lt_iff_toNat_lt
      by_cases hlt : index.toNat < regionEnd.toNat
      · have hsize := toNat_treeSubtreeSizeWord hindex
        have hle := treeSubtreeSize_le hindex
        have hnext : (index + treeSubtreeSizeWord index).toNat =
            index.toNat + treeSubtreeSize index.toNat := by
          rw [UInt64.toNat_add, hsize, Nat.mod_eq_of_lt (by omega)]
        rw [if_pos hlt] at helements
        rw [if_pos (hword.mpr hlt)]
        have hassertion : (index > 0 ∧ ¬ treeParentWord index < regionBegin) ↔
            (index.toNat > 0 ∧ ¬ treeParent index.toNat < regionBegin.toNat) := by
          rw [gt_iff_lt, UInt64.lt_iff_toNat_lt, UInt64.lt_iff_toNat_lt,
            toNat_treeParentWord hindex]
          rfl
        split at helements
        · cases helements
        · rename_i hholds
          rw [if_neg (hassertion.not.mpr hholds)]
          obtain ⟨rest, hrest, rfl⟩ := Option.map_eq_some_iff.mp helements
          rw [← hnext] at hrest
          rw [List.length_cons] at hfuel
          rw [ih _ _ (by omega) hrest (by omega)]
          simp
      · rw [if_neg hlt] at helements
        rw [if_neg (hword.not.mpr hlt)]
        obtain rfl := Option.some.inj helements
        simp

/-- The subtrees of `result` are those that cross the border in front of
`regionBegin`; they tile the region. -/
structure BorderSubtrees (regionBegin regionEnd : UInt64) (result : List UInt64) : Prop where
  ascending : result.Pairwise (· < ·)
  mem_iff : ∀ i, i ∈ result ↔ regionBegin ≤ i ∧ i < regionEnd ∧ treeParentWord i < regionBegin
  starts : regionBegin < regionEnd → result.head? = some regionBegin
  consecutive : result.IsChain fun i j =>
    i.toNat + (treeSubtreeSizeWord i).toNat = j.toNat
  disjoint : result.Pairwise fun i j => i.toNat + (treeSubtreeSizeWord i).toNat ≤ j.toNat
  covers : ∀ x, regionBegin ≤ x → x < regionEnd →
    ∃ i ∈ result, i ≤ x ∧ x.toNat < i.toNat + (treeSubtreeSizeWord i).toNat
  inside : ∀ i ∈ result.dropLast, i.toNat + (treeSubtreeSizeWord i).toNat ≤ regionEnd.toNat

section Borders

variable {regionBegin regionEnd : UInt64} {indices : List ℕ}

theorem isChain_of_consecutiveFrom {start : ℕ} (hconsecutive : ConsecutiveFrom start indices) :
    indices.IsChain fun i j => i + treeSubtreeSize i = j := by
  induction indices generalizing start with
  | nil => exact List.IsChain.nil
  | cons index indices ih =>
      obtain ⟨-, hrest⟩ := hconsecutive
      cases indices with
      | nil => exact List.isChain_singleton _
      | cons next indices => exact List.isChain_cons_cons.mpr ⟨hrest.1.symm, ih hrest⟩

/-- The elements of a region on numbers describe the result on words. -/
theorem borderSubtrees_of_tiles {result : List UInt64} (hbegin : 0 < regionBegin.toNat)
    (htiles : TilesRegion regionBegin.toNat regionEnd.toNat regionBegin.toNat
      (result.map UInt64.toNat))
    (hconsecutive : ConsecutiveFrom regionBegin.toNat (result.map UInt64.toNat)) :
    BorderSubtrees regionBegin regionEnd result := by
  have hpos : ∀ i ∈ result, 0 < i.toNat := fun i hi =>
    hbegin.trans_le (htiles.inside _ (List.mem_map_of_mem hi)).1
  have hdisjoint : result.Pairwise fun i j =>
      i.toNat + (treeSubtreeSizeWord i).toNat ≤ j.toNat := by
    refine (List.pairwise_map.mp htiles.disjoint).imp_of_mem fun {i j} hi _ hle => ?_
    rwa [toNat_treeSubtreeSizeWord (hpos i hi)]
  refine ⟨?_, fun i => ?_, fun hlt => ?_, ?_, hdisjoint, fun x hlower hupper => ?_, ?_⟩
  · refine hdisjoint.imp_of_mem fun {i j} hi _ hle => ?_
    have := treeSubtreeSize_pos i.toNat
    rw [toNat_treeSubtreeSizeWord (hpos i hi)] at hle
    rw [UInt64.lt_iff_toNat_lt]
    omega
  · have hmem : i ∈ result ↔ i.toNat ∈ result.map UInt64.toNat := by
      simp [UInt64.toNat_inj]
    rw [hmem, htiles.mem_iff hbegin, UInt64.le_iff_toNat_le, UInt64.lt_iff_toNat_lt,
      UInt64.lt_iff_toNat_lt]
    refine and_congr_right fun hle => and_congr_right fun _ => ?_
    rw [toNat_treeParentWord (hbegin.trans_le hle)]
  · obtain ⟨first, hfirst, -⟩ := htiles.cover _ le_rfl (UInt64.lt_iff_toNat_lt.mp hlt)
    cases result with
    | nil => simp at hfirst
    | cons index result =>
        rw [List.head?_cons, UInt64.toNat_inj.mp hconsecutive.1]
  · have hchain := isChain_of_consecutiveFrom hconsecutive
    rw [List.isChain_map] at hchain
    refine hchain.imp_of_mem_imp fun i j hi _ hnext => ?_
    rwa [toNat_treeSubtreeSizeWord (hpos i hi)]
  · obtain ⟨index, hindex, hle, hlt⟩ := htiles.cover x.toNat (UInt64.le_iff_toNat_le.mp hlower)
      (UInt64.lt_iff_toNat_lt.mp hupper)
    obtain ⟨i, hi, rfl⟩ := List.mem_map.mp hindex
    refine ⟨i, hi, UInt64.le_iff_toNat_le.mpr hle, ?_⟩
    rwa [toNat_treeSubtreeSizeWord (hpos i hi)]
  · intro i hi
    have hne : result ≠ [] := List.ne_nil_of_mem (List.mem_of_mem_dropLast hi)
    have hlast := (htiles.inside _ (List.mem_map_of_mem (List.getLast_mem hne))).2.1
    rw [← List.dropLast_append_getLast hne, List.pairwise_append] at hdisjoint
    have := hdisjoint.2.2 i hi _ (List.mem_singleton_self _)
    omega

/-- The function on words computes that on numbers. -/
theorem treeRankIntersectingElementsWord_eq (hbegin : 0 < regionBegin.toNat)
    (hle : regionBegin ≤ regionEnd) (hend : regionEnd.toNat ≤ 2 ^ 63)
    (helements : treeRankIntersectingElements regionBegin.toNat regionEnd.toNat = some indices)
    {fuel : ℕ} (hfuel : indices.length < fuel) :
    treeRankIntersectingElementsWord fuel regionBegin regionEnd =
      .returned (indices.map UInt64.ofNat) := by
  have hbeginWord : regionBegin ≠ 0 := fun hzero => by simp [hzero] at hbegin
  have hsize : regionEnd - regionBegin = 0 ↔ regionEnd.toNat - regionBegin.toNat = 0 := by
    rw [← UInt64.toNat_inj, UInt64.toNat_sub_of_le _ _ hle, UInt64.toNat_zero]
  rw [treeRankIntersectingElements] at helements
  rw [treeRankIntersectingElementsWord]
  simp only [hbeginWord, hbegin.ne', false_or, hsize] at helements ⊢
  split_ifs at helements ⊢ with hempty
  · obtain rfl := Option.some.inj helements
    rfl
  · rw [intersectingElementsLoop_eq hend fuel regionBegin [] hbegin helements hfuel,
      List.nil_append]

end Borders

/-- On words up to `2 ^ 63` the call ends, its assertion holds, and it returns the
subtrees that cross the border. -/
theorem treeRankIntersectingElementsWord_returns (regionBegin regionEnd : UInt64)
    (hbegin : 0 < regionBegin) (hle : regionBegin ≤ regionEnd) (hend : regionEnd ≤ 2 ^ 63) :
    ∃ fuel result, (∀ more ≥ fuel, treeRankIntersectingElementsWord more regionBegin regionEnd =
        .returned result) ∧
      (∀ less, treeRankIntersectingElementsWord less regionBegin regionEnd ≠
        .assertionFailed) ∧
      BorderSubtrees regionBegin regionEnd result := by
  have hbeginNat : 0 < regionBegin.toNat := UInt64.lt_iff_toNat_lt.mp hbegin
  have htop : ((2 : UInt64) ^ 63).toNat = 2 ^ 63 := by decide +kernel
  have hendNat : regionEnd.toNat ≤ 2 ^ 63 := htop ▸ UInt64.le_iff_toNat_le.mp hend
  obtain ⟨indices, hindices⟩ : ∃ indices, intersectingElementsFrom regionBegin.toNat
      regionEnd.toNat regionBegin.toNat = some indices :=
    exists_intersectingElementsFrom hbeginNat le_rfl (treeParent_lt hbeginNat)
  have htiles := intersectingElementsFrom_tiles hbeginNat hindices
  have hround : (indices.map UInt64.ofNat).map UInt64.toNat = indices := by
    rw [List.map_map]
    refine (List.map_congr_left fun index hindex => ?_).trans (List.map_id indices)
    have := (htiles.inside index hindex).2.1
    rw [Function.comp_apply, UInt64.toNat_ofNat_of_lt' (by rw [UInt64.size]; omega), id]
  have hreturns : ∀ fuel ≥ indices.length + 1,
      treeRankIntersectingElementsWord fuel regionBegin regionEnd =
        .returned (indices.map UInt64.ofNat) := fun fuel hfuel =>
    treeRankIntersectingElementsWord_eq hbeginNat hle hendNat
      ((treeRankIntersectingElements_of_pos hbeginNat).trans hindices) (by omega)
  refine ⟨indices.length + 1, indices.map UInt64.ofNat, hreturns, fun less hfailed => ?_, ?_⟩
  · have hmore := hreturns (less + (indices.length + 1)) (by omega)
    simp only [treeRankIntersectingElementsWord] at hfailed hmore
    split_ifs at hfailed hmore
    rw [intersectingElementsLoop_failed hfailed] at hmore
    cases hmore
  · refine borderSubtrees_of_tiles hbeginNat ?_ ?_ <;> rw [hround]
    · exact htiles
    · exact intersectingElementsFrom_consecutive hindices

theorem treeRankIntersectingElementsWord_returns_five :
    ∃ fuel result, (∀ more ≥ fuel, treeRankIntersectingElementsWord more 5 11 =
        .returned result) ∧
      (∀ less, treeRankIntersectingElementsWord less 5 11 ≠ .assertionFailed) ∧
      BorderSubtrees 5 11 result :=
  treeRankIntersectingElementsWord_returns 5 11 (by decide) (by decide)
    (by decide +kernel)

/-- Behind the last index with the highest bit the jump wraps to index zero, where
the loop stays. -/
example : treeRankIntersectingElementsWord 4 (2 ^ 63) (2 ^ 63 + 1) = .running := by
  decide +kernel

end MpiBindings.ReproducibleReduce
