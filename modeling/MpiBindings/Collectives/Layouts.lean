import MpiBindings.Collectives.Alltoall
import Mathlib.Algebra.BigOperators.Ring.Finset
import Mathlib.Data.Nat.Cast.Order.Ring
import Mathlib.Order.Bounds.Basic

/-!
# Layouts of vectorized buffers

A vectorized exchange places the block of every member at a displacement.  The
wrappers derive the size of a buffer from the ends of the blocks: from the largest
end where the caller passes the displacements, and from the last end where they are
prefix sums.  The two agree on prefix sums.  The check of a send buffer looks at the
last end in both cases, in the arithmetic of machine integers; this module says for
which layouts it covers all blocks.
-/

namespace MpiBindings.Collectives

open CountingSort

/-- Ends of the blocks with the given lengths at the given displacements. -/
def blockEnds {α : Type} [Add α] (counts displs : List α) : List α :=
  List.zipWith (· + ·) displs counts

theorem mem_blockEnds {counts displs : List ℕ} {blockEnd : ℕ} :
    blockEnd ∈ blockEnds counts displs ↔ ∃ index count displ : ℕ,
      counts[index]? = some count ∧ displs[index]? = some displ ∧ displ + count = blockEnd := by
  rw [blockEnds, List.mem_iff_getElem?]
  constructor
  · rintro ⟨index, hindex⟩
    obtain ⟨displ, count, hdispl, hcount, hsum⟩ := List.getElem?_zipWith_eq_some.mp hindex
    exact ⟨index, count, displ, hcount, hdispl, hsum⟩
  · rintro ⟨index, count, displ, hcount, hdispl, hsum⟩
    exact ⟨index, List.getElem?_zipWith_eq_some.mpr ⟨displ, count, hdispl, hcount, hsum⟩⟩

/-! ## Size of the receive buffer -/

section RecvSize

variable {counts displs : List ℕ}

/-- Block ends that fit are added without wrapping. -/
theorem zipWith_addInt_natCast (hfits : ∀ blockEnd ∈ blockEnds counts displs,
    blockEnd < 2 ^ 31) :
    List.zipWith addInt (counts.map Nat.cast) (displs.map Nat.cast) =
      (blockEnds counts displs).map Nat.cast := by
  induction counts generalizing displs with
  | nil => simp [blockEnds]
  | cons count counts ih =>
      cases displs with
      | nil => rfl
      | cons displ displs =>
          have hhead : displ + count < 2 ^ 31 := hfits _ List.mem_cons_self
          have htail := ih fun blockEnd hmem => hfits blockEnd (List.mem_cons_of_mem _ hmem)
          simp only [List.map_cons, List.zipWith_cons_cons, htail]
          rw [addInt_comm, addInt_natCast hhead]
          rfl

theorem foldl_max_natCast (ends : List ℕ) (start : ℕ) :
    (ends.map (Nat.cast : ℕ → ℤ)).foldl max (start : ℤ) = ((ends.foldl max start : ℕ) : ℤ) := by
  induction ends generalizing start with
  | nil => rfl
  | cons blockEnd ends ih =>
      rw [List.map_cons, List.foldl_cons, ← Nat.cast_max, ih]
      rfl

theorem foldl_max_le_iff (ends : List ℕ) (start bound : ℕ) :
    ends.foldl max start ≤ bound ↔ start ≤ bound ∧ ∀ blockEnd ∈ ends, blockEnd ≤ bound := by
  induction ends generalizing start with
  | nil => simp
  | cons blockEnd ends ih =>
      rw [List.foldl_cons, ih, List.forall_mem_cons, max_le_iff, and_assoc]

/-- The size computed from displacements of the caller is the largest end. -/
theorem requiredRecvBufSize_max (hlength : displs.length = counts.length)
    (hfits : ∀ blockEnd ∈ blockEnds counts displs, blockEnd < 2 ^ 31) :
    requiredRecvBufSize counts.length false (counts.map Nat.cast) (displs.map Nat.cast) =
      some ((blockEnds counts displs).foldl max 0) := by
  have hcounts : (counts.map (Nat.cast : ℕ → ℤ)).take counts.length = counts.map Nat.cast :=
    List.take_of_length_le (by simp)
  have hdispls : (displs.map (Nat.cast : ℕ → ℤ)).take counts.length = displs.map Nat.cast :=
    List.take_of_length_le (by simp [hlength])
  have hmax := foldl_max_natCast (blockEnds counts displs) 0
  rw [Nat.cast_zero] at hmax
  simp only [requiredRecvBufSize, hcounts, hdispls, zipWith_addInt_natCast hfits, hmax]
  simp

/-- The size computed from prefix sums is the total count. -/
theorem requiredRecvBufSize_last (hpos : 0 < counts.length) (hlt : counts.sum < 2 ^ 31) :
    requiredRecvBufSize counts.length true (counts.map Nat.cast)
      ((prefixSums 0 counts).map Nat.cast) = some counts.sum := by
  simp only [requiredRecvBufSize, if_true,
    lastEnd_prefixSums counts (List.length_pos_iff.mp hpos) hlt]
  rw [if_pos (Int.natCast_nonneg _), Int.toNat_natCast]

/-- Blocks at the prefix sums end at the prefix sums that include them. -/
theorem mem_blockEnds_prefixSums {blockEnd : ℕ} :
    blockEnd ∈ blockEnds counts (prefixSums 0 counts) ↔
      ∃ index < counts.length, (counts.take (index + 1)).sum = blockEnd := by
  rw [mem_blockEnds]
  constructor
  · rintro ⟨index, count, displ, hcount, hdispl, rfl⟩
    obtain ⟨hindex, rfl⟩ := List.getElem?_eq_some_iff.mp hcount
    rw [getElem?_prefixSums _ _ hindex, Nat.zero_add] at hdispl
    refine ⟨index, hindex, ?_⟩
    rw [List.sum_take_succ _ _ hindex, Option.some.inj hdispl]
  · rintro ⟨index, hindex, rfl⟩
    refine ⟨index, counts[index], (counts.take index).sum, by simp [hindex], ?_, ?_⟩
    · rw [getElem?_prefixSums _ _ hindex, Nat.zero_add]
    · exact (List.sum_take_succ _ _ hindex).symm

theorem sum_take_le (counts : List ℕ) (index : ℕ) : (counts.take index).sum ≤ counts.sum := by
  calc (counts.take index).sum
      ≤ (counts.take index).sum + (counts.drop index).sum := Nat.le_add_right _ _
    _ = counts.sum := by rw [← List.sum_append, List.take_append_drop]

theorem blockEnds_prefixSums_le {blockEnd : ℕ}
    (hmem : blockEnd ∈ blockEnds counts (prefixSums 0 counts)) : blockEnd ≤ counts.sum := by
  obtain ⟨index, -, rfl⟩ := mem_blockEnds_prefixSums.mp hmem
  exact sum_take_le counts (index + 1)

theorem sum_mem_blockEnds (hpos : 0 < counts.length) :
    counts.sum ∈ blockEnds counts (prefixSums 0 counts) := by
  refine mem_blockEnds_prefixSums.mpr ⟨counts.length - 1, by omega, ?_⟩
  rw [Nat.sub_add_cancel hpos, List.take_length]

/-- The largest end of consecutive blocks is the end of the last one. -/
theorem foldl_max_blockEnds (hpos : 0 < counts.length) :
    (blockEnds counts (prefixSums 0 counts)).foldl max 0 = counts.sum := by
  apply Nat.le_antisymm
  · rw [foldl_max_le_iff]
    exact ⟨Nat.zero_le _, fun blockEnd hmem => blockEnds_prefixSums_le hmem⟩
  · exact ((foldl_max_le_iff _ _ _).mp le_rfl).2 _ (sum_mem_blockEnds hpos)

/-- The formula over all ends gives the least size that holds every block; on prefix
sums the formula over the last entries gives the same size, the total count. -/
theorem requiredRecvBufSize_formulas (counts displs : List ℕ)
    (hpos : 0 < counts.length) (hlength : displs.length = counts.length)
    (hfits : ∀ blockEnd ∈ blockEnds counts displs, blockEnd < 2 ^ 31) :
    (∃ size, requiredRecvBufSize counts.length false (counts.map Nat.cast)
        (displs.map Nat.cast) = some size ∧
      IsLeast {bound | ∀ index count displ : ℕ, counts[index]? = some count →
        displs[index]? = some displ → displ + count ≤ bound} size) ∧
    (displs = prefixSums 0 counts →
      displs.map Nat.cast = exclusiveScan 0 (counts.map Nat.cast) ∧
      requiredRecvBufSize counts.length true (counts.map Nat.cast) (displs.map Nat.cast) =
        some counts.sum ∧
      requiredRecvBufSize counts.length false (counts.map Nat.cast) (displs.map Nat.cast) =
        some counts.sum) := by
  have hmax := requiredRecvBufSize_max hlength hfits
  constructor
  · refine ⟨_, hmax, ?_, ?_⟩
    · intro index count displ hcount hdispl
      refine ((foldl_max_le_iff (blockEnds counts displs) 0 _).mp le_rfl).2 _ ?_
      exact mem_blockEnds.mpr ⟨index, count, displ, hcount, hdispl, rfl⟩
    · intro bound hbound
      refine (foldl_max_le_iff _ _ _).mpr ⟨Nat.zero_le _, fun blockEnd hmem => ?_⟩
      obtain ⟨index, count, displ, hcount, hdispl, rfl⟩ := mem_blockEnds.mp hmem
      exact hbound index count displ hcount hdispl
  · rintro rfl
    have hlt : counts.sum < 2 ^ 31 := hfits _ (sum_mem_blockEnds hpos)
    refine ⟨(exclusiveScan_zero hlt).symm, requiredRecvBufSize_last hpos hlt, ?_⟩
    rw [hmax, foldl_max_blockEnds hpos]

/-- Trailing empty blocks do not change the size. -/
theorem requiredRecvBufSize_formulas_trailing :
    (∃ size, requiredRecvBufSize 3 false [2, 3, 0] [0, 2, 5] = some size ∧
      IsLeast {bound | ∀ index count displ : ℕ, [2, 3, 0][index]? = some count →
        [0, 2, 5][index]? = some displ → displ + count ≤ bound} size) ∧
    requiredRecvBufSize 3 true [2, 3, 0] [0, 2, 5] = some 5 := by
  have h := requiredRecvBufSize_formulas [2, 3, 0] [0, 2, 5] (by decide) rfl (by decide)
  exact ⟨h.1, (h.2 rfl).2.1⟩

end RecvSize

/-! ## Blocks of the send buffer -/

section SendBlocks

variable {counts displs : List ℤ} {size : ℕ}

/-- A list of non-negative machine integers. -/
def NonnegInts (values : List ℤ) : Prop :=
  ∀ value ∈ values, 0 ≤ value ∧ value < 2 ^ 31

/-- The blocks of all destinations end inside a send buffer of the given size. -/
def SendBlocksInside (size : ℕ) (counts displs : List ℤ) (sendSize : ℕ) : Prop :=
  ∀ index < size, ∀ count displ, counts[index]? = some count → displs[index]? = some displ →
    displ + count ≤ sendSize

/-- The last block ends within the machine integers, and no block ends behind it. -/
def LastBlockIsLargest (size : ℕ) (counts displs : List ℤ) : Prop :=
  ∃ count displ, counts[size - 1]? = some count ∧ displs[size - 1]? = some displ ∧
    displ + count < 2 ^ 31 ∧
    ∀ index < size, ∀ otherCount otherDispl, counts[index]? = some otherCount →
      displs[index]? = some otherDispl → otherDispl + otherCount ≤ displ + count

theorem sendBlocksFit_iff {count displ : ℤ} (sendSize : ℕ)
    (hcount : counts[size - 1]? = some count) (hdispl : displs[size - 1]? = some displ) :
    sendBlocksFit size counts displs sendSize = true ↔
      sendSize < 2 ^ 31 ∧ addInt count displ ≤ sendSize := by
  simp only [sendBlocksFit, lastEnd, hcount, hdispl, decide_eq_true_eq]

/-- An end outside the machine integers wraps to a negative number. -/
theorem addInt_neg {a b : ℤ} (hreach : 2 ^ 31 ≤ a + b) (ha : a < 2 ^ 31) (hb : b < 2 ^ 31) :
    addInt a b < 0 := by
  rw [addInt, Int.bmod_def]
  split_ifs <;> omega

/-- For displacements of the caller, the check of the last block covers all blocks
exactly if the last block ends last. -/
theorem sendBlocksFit_given (hpos : 0 < size) (hcounts : NonnegInts counts)
    (hdispls : NonnegInts displs) (hcountsLength : size ≤ counts.length)
    (hdisplsLength : size ≤ displs.length) :
    (∀ sendSize, sendBlocksFit size counts displs sendSize = true →
      SendBlocksInside size counts displs sendSize) ↔
    LastBlockIsLargest size counts displs := by
  have hlast : size - 1 < size := Nat.sub_lt hpos Nat.one_pos
  have hcount := List.getElem?_eq_getElem (l := counts) (i := size - 1) (by omega)
  have hdispl := List.getElem?_eq_getElem (l := displs) (i := size - 1) (by omega)
  set count := counts[size - 1] with hcountDef
  set displ := displs[size - 1] with hdisplDef
  have hcountRange := hcounts count (List.getElem_mem _)
  have hdisplRange := hdispls displ (List.getElem_mem _)
  constructor
  · intro hsafe
    have hend : displ + count < 2 ^ 31 := by
      by_contra hreach
      have hneg := addInt_neg (a := count) (b := displ) (by omega) hcountRange.2 hdisplRange.2
      have hinside := hsafe 0 ((sendBlocksFit_iff 0 hcount hdispl).mpr ⟨by omega, by omega⟩)
        (size - 1) hlast count displ hcount hdispl
      omega
    refine ⟨count, displ, hcount, hdispl, hend, fun index hindex other otherDispl => ?_⟩
    have hadd : addInt count displ = count + displ := addInt_eq (by omega) (by omega)
    have hfit : sendBlocksFit size counts displs (displ + count).toNat = true :=
      (sendBlocksFit_iff _ hcount hdispl).mpr ⟨by omega, by omega⟩
    intro hother hotherDispl
    have hinside := hsafe _ hfit index hindex other otherDispl hother hotherDispl
    omega
  · rintro ⟨lastCount, lastDispl, hlastCount, hlastDispl, hend, hlargest⟩ sendSize hfit
    obtain rfl := Option.some.inj (hcount.symm.trans hlastCount)
    obtain rfl := Option.some.inj (hdispl.symm.trans hlastDispl)
    have hadd : addInt count displ = count + displ := addInt_eq (by omega) (by omega)
    have hsize := ((sendBlocksFit_iff sendSize hcount hdispl).mp hfit).2
    intro index hindex other otherDispl hother hotherDispl
    have hle := hlargest index hindex other otherDispl hother hotherDispl
    omega

theorem NonnegInts.exists_natCast {values : List ℤ} (hvalues : NonnegInts values) :
    ∃ naturals : List ℕ, values = naturals.map Nat.cast := by
  refine ⟨values.map Int.toNat, ?_⟩
  rw [List.map_map]
  refine (List.map_id values).symm.trans (List.map_congr_left fun value hmem => ?_)
  exact (Int.toNat_of_nonneg (hvalues value hmem).1).symm

theorem NonnegInts.take {values : List ℤ} (hvalues : NonnegInts values) (size : ℕ) :
    NonnegInts (values.take size) :=
  fun value hmem => hvalues value (List.mem_of_mem_take hmem)

/-- Computed displacements are the wrapped sums of the counts before them. -/
theorem getElem?_computed {naturals : List ℕ} (resized : List ℤ) {index : ℕ}
    (hindex : index < naturals.length) :
    (overwrite (exclusiveScan 0 (naturals.map Nat.cast)) resized)[index]? =
      some (((naturals.take index).sum : ℤ).bmod (2 ^ 32)) := by
  rw [overwrite, List.getElem?_append_left (by simpa using hindex),
    getElem?_exclusiveScan_zero _ (by simpa using hindex), ← List.map_take, ← Nat.cast_list_sum]

section Computed

variable {naturals : List ℕ} {displs : List ℤ}

/-- A check that covers all blocks bounds their total: a block at an exact displacement ends
inside the machine integers. -/
theorem sum_lt_of_covers (hpos : 0 < naturals.length)
    (hcount : ∀ {index}, index < naturals.length →
      counts[index]? = (naturals[index]?).map Nat.cast)
    (hdispl : ∀ {index}, index < naturals.length →
      displs[index]? = some (((naturals.take index).sum : ℤ).bmod (2 ^ 32)))
    (hcovers : ∀ sendSize, sendBlocksFit naturals.length counts displs sendSize = true →
      SendBlocksInside naturals.length counts displs sendSize) :
    naturals.sum < 2 ^ 31 := by
  have hlast : naturals.length - 1 < naturals.length := Nat.sub_lt hpos Nat.one_pos
  have hlastCount := hcount hlast
  rw [List.getElem?_eq_getElem hlast, Option.map_some] at hlastCount
  have hlt := addInt_lt (naturals[naturals.length - 1] : ℤ)
    (((naturals.take (naturals.length - 1)).sum : ℤ).bmod (2 ^ 32))
  have hfit := (sendBlocksFit_iff (2 ^ 31 - 1) hlastCount (hdispl hlast)).mpr
    ⟨by omega, by omega⟩
  apply sum_lt_of_blocks_lt (by decide)
  intro index blockCount hblock _ hbefore
  obtain ⟨hindex, -⟩ := List.getElem?_eq_some_iff.mp hblock
  have hinside := hcovers (2 ^ 31 - 1) hfit index hindex blockCount _
    (by rw [hcount hindex, hblock]; rfl) (hdispl hindex)
  rw [bmod_natCast hbefore] at hinside
  omega

/-- If the total is a machine integer, the end of the last block is the total. -/
theorem covers_of_sum_lt (hpos : 0 < naturals.length)
    (hcount : ∀ {index}, index < naturals.length →
      counts[index]? = (naturals[index]?).map Nat.cast)
    (hdispl : ∀ {index}, index < naturals.length →
      displs[index]? = some (((naturals.take index).sum : ℤ).bmod (2 ^ 32)))
    (hfits : naturals.sum < 2 ^ 31) {sendSize : ℕ}
    (hfit : sendBlocksFit naturals.length counts displs sendSize = true) :
    SendBlocksInside naturals.length counts displs sendSize := by
  intro index hindex count displ hindexCount hindexDispl
  have hexact : ∀ k, ((naturals.take k).sum : ℤ).bmod (2 ^ 32) = (naturals.take k).sum :=
    fun k => bmod_natCast (by have := sum_take_le naturals k; omega)
  have hlast : naturals.length - 1 < naturals.length := Nat.sub_lt hpos Nat.one_pos
  have hlastCount := hcount hlast
  rw [List.getElem?_eq_getElem hlast, Option.map_some] at hlastCount
  have hsum : naturals[naturals.length - 1] + (naturals.take (naturals.length - 1)).sum =
      naturals.sum := by
    rw [Nat.add_comm, ← List.sum_take_succ _ _ hlast, Nat.sub_add_cancel hpos,
      List.take_length]
  have hsize := ((sendBlocksFit_iff sendSize hlastCount (hdispl hlast)).mp hfit).2
  rw [hexact, addInt_natCast (by omega), hsum] at hsize
  rw [hcount hindex, List.getElem?_eq_getElem hindex] at hindexCount
  rw [hdispl hindex, hexact] at hindexDispl
  have hend := List.sum_take_succ naturals index hindex
  have hle := sum_take_le naturals (index + 1)
  have hcountEq : (naturals[index] : ℤ) = count := Option.some.inj hindexCount
  have hdisplEq := Option.some.inj hindexDispl
  omega

end Computed

/-- For computed displacements, the check of the last block covers all blocks exactly
if the total count is a machine integer. -/
theorem sendBlocksFit_computed (hpos : 0 < size) (hcounts : NonnegInts counts)
    (hlength : size ≤ counts.length) (resized : List ℤ) :
    (∀ sendSize, sendBlocksFit size counts
        (overwrite (exclusiveScan 0 (counts.take size)) resized) sendSize = true →
      SendBlocksInside size counts (overwrite (exclusiveScan 0 (counts.take size)) resized)
        sendSize) ↔
    (counts.take size).sum < 2 ^ 31 := by
  obtain ⟨naturals, hnaturals⟩ := (hcounts.take size).exists_natCast
  have htotal : (counts.take size).sum = ((naturals.sum : ℕ) : ℤ) := by
    rw [hnaturals, ← Nat.cast_list_sum]
  obtain rfl : size = naturals.length := by
    have h := congrArg List.length hnaturals
    rw [List.length_take, List.length_map] at h
    omega
  have hcount : ∀ {index}, index < naturals.length →
      counts[index]? = (naturals[index]?).map Nat.cast := by
    intro index hindex
    rw [← List.getElem?_map, ← hnaturals, List.getElem?_take_of_lt hindex]
  have hdispl : ∀ {index}, index < naturals.length →
      (overwrite (exclusiveScan 0 (counts.take naturals.length)) resized)[index]? =
        some (((naturals.take index).sum : ℤ).bmod (2 ^ 32)) := by
    intro index hindex
    rw [hnaturals]
    exact getElem?_computed resized hindex
  rw [htotal]
  constructor
  · intro hcovers
    exact_mod_cast sum_lt_of_covers hpos hcount hdispl hcovers
  · intro hfits sendSize hfit
    exact covers_of_sum_lt hpos hcount hdispl (by exact_mod_cast hfits) hfit

/-- The layouts of a send buffer whose blocks are all covered by the check. -/
def SendLayoutCovered {p : ℕ} (size : ℕ) (counts : List ℤ) (sendDispls : Parameter p)
    (rank : Fin p) : Prop :=
  match sendDispls with
  | .given buffers => LastBlockIsLargest size counts (buffers rank)
  | .computed _ _ => (counts.take size).sum < 2 ^ 31

/-- The check on send counts and displacements keeps the blocks inside every send
buffer that passes it exactly for covered layouts. -/
theorem sendBlocksFit_covers_iff {p : ℕ} (comms : Communicators p) (rank : Fin p)
    {sendCounts sendDispls : Fin p → List ℤ} {displs : Parameter p}
    (hlength : comms.size rank ≤ (sendCounts rank).length)
    (hcounts : NonnegInts (sendCounts rank))
    (hgiven : ∀ buffers, displs = .given buffers → NonnegInts (buffers rank))
    (hdispls : displacements comms sendCounts displs = some sendDispls) :
    (∀ sendSize,
      sendBlocksFit (comms.size rank) (sendCounts rank) (sendDispls rank) sendSize = true →
        SendBlocksInside (comms.size rank) (sendCounts rank) (sendDispls rank) sendSize) ↔
    SendLayoutCovered (comms.size rank) (sendCounts rank) displs rank := by
  cases displs with
  | given buffers =>
      rw [displacements, Option.ite_none_right_eq_some] at hdispls
      obtain ⟨hsize, hbuffers⟩ := hdispls
      obtain rfl := Option.some.inj hbuffers
      exact sendBlocksFit_given (comms.size_pos rank) hcounts (hgiven _ rfl) hlength
        (hsize rank)
  | computed policy buffers =>
      rw [displacements, Option.ite_none_right_eq_some] at hdispls
      obtain ⟨-, hbuffers⟩ := hdispls
      obtain rfl := Option.some.inj hbuffers
      exact sendBlocksFit_computed (comms.size_pos rank) hcounts hlength _

/-- With the blocks in reverse order the last block ends first. -/
theorem sendBlocksFit_reversed :
    displacements (Communicators.world 2) (fun _ => [1, 1]) (.given fun _ => [1, 0]) =
        some (fun _ => [1, 0]) ∧
      NonnegInts [1, 1] ∧ NonnegInts [1, 0] ∧
      sendBlocksFit ((Communicators.world 2).size 0) [1, 1] [1, 0] 1 = true ∧
      ¬ SendBlocksInside ((Communicators.world 2).size 0) [1, 1] [1, 0] 1 := by
  refine ⟨rfl, by unfold NonnegInts; decide, by unfold NonnegInts; decide, by decide, ?_⟩
  intro hinside
  exact absurd (hinside 0 (by decide) 1 1 rfl rfl) (by decide)

/-- Consecutive blocks of one element are covered. -/
theorem sendBlocksFit_covers_consecutive :
    (∀ sendSize,
      sendBlocksFit ((Communicators.world 2).size 0) [1, 1] [0, 1] sendSize = true →
        SendBlocksInside ((Communicators.world 2).size 0) [1, 1] [0, 1] sendSize) ↔
    SendLayoutCovered ((Communicators.world 2).size 0) [1, 1]
      (.computed .resizeToFit fun _ => [] : Parameter 2) 0 :=
  have hdispls : displacements (Communicators.world 2) (fun _ => [1, 1])
      (.computed .resizeToFit fun _ => []) = some fun _ => [0, 1] := rfl
  sendBlocksFit_covers_iff (Communicators.world 2) 0 (by decide) (by unfold NonnegInts; decide)
    (fun _ h => by cases h) hdispls

end SendBlocks

/-! ## Computed layouts of the receive buffer -/

section RecvLayouts

/-- The layout of a receive buffer: the displacements and the required size. -/
structure RecvLayout where
  displs : List ℤ
  size : ℕ
deriving DecidableEq, Repr

/-- The displacements are the sums of the counts before them, and the size is the
total count. -/
def RecvLayout.Exact (counts : List ℕ) (layout : RecvLayout) : Prop :=
  (∀ index < counts.length,
    layout.displs[index]? = some (((counts.take index).sum : ℕ) : ℤ)) ∧
  layout.size = counts.sum

/-- The receive layout of a rank in `alltoallv` and `allgatherv`, up to the cast of the
required size. -/
def recvLayout {p : ℕ} (comms : Communicators p) (recvCounts : Fin p → List ℤ)
    (recvDispls : Parameter p) (rank : Fin p) : Option RecvLayout := do
  let displs ← displacements comms recvCounts recvDispls
  let size ← requiredRecvBufSize (comms.size rank) recvDispls.isComputed (recvCounts rank)
    (displs rank)
  some { displs := displs rank, size }

/-- Totals that fit into a machine integer or wrap to a negative one. -/
def FitsOrWrapsNegative (total : ℕ) : Prop :=
  total < 2 ^ 31 ∨ 2 ^ 31 ≤ total % 2 ^ 32

theorem bmod_neg_iff (total : ℕ) : (total : ℤ).bmod (2 ^ 32) < 0 ↔ 2 ^ 31 ≤ total % 2 ^ 32 := by
  rw [Int.bmod_def]
  split_ifs <;> omega

/-- The required size of a computed layout is the wrapped total, if it is not negative. -/
theorem requiredRecvBufSize_computed (counts : List ℕ) (hpos : 0 < counts.length)
    (resized : List ℤ) :
    requiredRecvBufSize counts.length true (counts.map Nat.cast)
        (overwrite (exclusiveScan 0 (counts.map Nat.cast)) resized) =
      if 0 ≤ (counts.sum : ℤ).bmod (2 ^ 32) then some ((counts.sum : ℤ).bmod (2 ^ 32)).toNat
      else none := by
  have hlast : counts.length - 1 < counts.length := Nat.sub_lt hpos Nat.one_pos
  have hcount : (counts.map (Nat.cast : ℕ → ℤ))[counts.length - 1]? =
      some (counts[counts.length - 1] : ℤ) := by
    rw [List.getElem?_map, List.getElem?_eq_getElem hlast, Option.map_some]
  have hsum : (counts[counts.length - 1] : ℤ) + (counts.take (counts.length - 1)).sum =
      counts.sum := by
    rw [← Nat.cast_add, Nat.add_comm, ← List.sum_take_succ _ _ hlast, Nat.sub_add_cancel hpos,
      List.take_length]
  simp only [requiredRecvBufSize, if_true, lastEnd, hcount, getElem?_computed resized hlast]
  rw [addInt, Int.add_bmod_bmod, hsum]

/-- A computed layout whose required size survives the cast is exact exactly if the
total fits or wraps to a negative number. -/
theorem computedLayout_exact_iff (counts : List ℕ) (hpos : 0 < counts.length)
    (resized : List ℤ) :
    (∀ size, requiredRecvBufSize counts.length true (counts.map Nat.cast)
        (overwrite (exclusiveScan 0 (counts.map Nat.cast)) resized) = some size →
      RecvLayout.Exact counts
        ⟨overwrite (exclusiveScan 0 (counts.map Nat.cast)) resized, size⟩) ↔
    FitsOrWrapsNegative counts.sum := by
  rw [requiredRecvBufSize_computed counts hpos, FitsOrWrapsNegative, ← bmod_neg_iff]
  by_cases hnonneg : 0 ≤ (counts.sum : ℤ).bmod (2 ^ 32)
  · rw [if_pos hnonneg, or_iff_left (by omega)]
    constructor
    · intro hexact
      obtain ⟨-, hsize⟩ := hexact _ rfl
      dsimp only at hsize
      have hlt := Int.bmod_lt (x := (counts.sum : ℤ)) (m := 2 ^ 32) (by decide)
      omega
    · intro hlt size hsize
      obtain rfl := Option.some.inj hsize
      refine ⟨fun index hindex => ?_, ?_⟩
      · rw [getElem?_computed resized hindex,
          bmod_natCast (lt_of_le_of_lt (sum_take_le counts index) hlt)]
      · rw [bmod_natCast hlt, Int.toNat_natCast]
  · rw [if_neg hnonneg]
    refine iff_of_true (fun size hsize => ?_) (Or.inr (lt_of_not_ge hnonneg))
    simp at hsize

end RecvLayouts

end MpiBindings.Collectives
