import MpiBindings.Core.OrderedMap
import MpiBindings.ReproducibleReduce.IndexTree
import Mathlib.Algebra.BigOperators.Group.List.Basic
import Mathlib.Algebra.Order.BigOperators.Group.Finset

/-!
# Distributions of the global array

`make_reproducible_comm` receives one count and one displacement per rank and
checks through an ordered map of region starts that the regions tile the global
array.  The first part models the check and the constructor of the communicator;
the second part derives the tiling from an accepted distribution.
-/

namespace MpiBindings.ReproducibleReduce

open OrderedMap

/-- `tree_rank_from_index_map`; `none` when its assertion fails. -/
def treeRankFromIndexMap (startIndices : OrderedMap ℕ ℕ) (index : ℕ) : Option ℕ :=
  (entryBelowUpperBound startIndices index).map (·.2)

/-- The part of `ReproducibleCommunicator` that the distribution determines. -/
structure ReproducibleCommunicator where
  startIndices : OrderedMap ℕ ℕ
  regionBegin : ℕ
  regionSize : ℕ
  regionEnd : ℕ
  globalSize : ℕ
  originRank : ℕ
  rankIntersectingElements : List ℕ

/-- The constructor of `ReproducibleCommunicator`. -/
def ReproducibleCommunicator.create (startIndices : OrderedMap ℕ ℕ)
    (regionBegin regionSize : ℕ) : Option ReproducibleCommunicator := do
  let regionEnd := regionBegin + regionSize
  let globalSize ← startIndices.entries.getLast?.map (·.1)
  let originRank ←
    if globalSize = 0 then some 0 else treeRankFromIndexMap startIndices 0
  let rankIntersectingElements ← treeRankIntersectingElements regionBegin regionEnd
  some ⟨startIndices, regionBegin, regionSize, regionEnd, globalSize, originRank,
    rankIntersectingElements⟩

/-- The sum of the counts, computed in `int` and cast to `size_t`.  An overflow
of the sum is undefined behaviour and modelled as a failure. -/
def globalArrayLength (sendCounts : List ℤ) : Option ℕ :=
  let sum := sendCounts.sum
  if -2 ^ 31 ≤ sum ∧ sum < 2 ^ 31 then some (sum % 2 ^ 64).toNat else none

/-- One iteration of the loop that builds `start_indices`. -/
def addRegion (sendCounts recvDispls : List ℤ) (startIndices : OrderedMap ℕ ℕ)
    (rank : ℕ) : Option (OrderedMap ℕ ℕ) := do
  let count ← sendCounts[rank]?
  let displ ← recvDispls[rank]?
  if count < 0 then none
  else if displ < 0 then none
  else if count = 0 then some startIndices
  else some (insertOrAssign startIndices displ.toNat rank)

def addRegions (sendCounts recvDispls : List ℤ) :
    List ℕ → OrderedMap ℕ ℕ → Option (OrderedMap ℕ ℕ)
  | [], startIndices => some startIndices
  | rank :: ranks, startIndices => do
      let next ← addRegion sendCounts recvDispls startIndices rank
      addRegions sendCounts recvDispls ranks next

/-- The loop that compares the end of every region with the start of the next
one.  Reading the count of the guardian element fails. -/
def verifyRegions (sendCounts : List ℤ) : List (ℕ × ℕ) → Bool
  | [] => true
  | [_] => true
  | (regionStart, rank) :: (nextRegionStart, nextRank) :: rest =>
      match sendCounts[rank]? with
      | none => false
      | some count =>
          decide (0 ≤ count ∧ regionStart + count.toNat = nextRegionStart) &&
            verifyRegions sendCounts ((nextRegionStart, nextRank) :: rest)

/-- The checks of `make_reproducible_comm`.  Counts and displacements are those
that `is_same_on_all_ranks` found to be equal on all ranks. -/
def checkedStartIndices (commSize : ℕ) (sendCounts recvDispls : List ℤ) :
    Option (OrderedMap ℕ ℕ) := do
  if sendCounts.length ≠ commSize then none
  else if recvDispls.length ≠ commSize then none
  else
    let length ← globalArrayLength sendCounts
    let regions ← addRegions sendCounts recvDispls (List.range commSize) empty
    -- guardian element
    let startIndices := insertOrAssign regions length commSize
    if startIndices.entries.head?.map (·.1) ≠ some 0 then none
    else if verifyRegions sendCounts startIndices.entries then some startIndices
    else none

/-- `make_reproducible_comm` on the given rank. -/
def makeReproducibleComm (commSize : ℕ) (sendCounts recvDispls : List ℤ) (rank : ℕ) :
    Option ReproducibleCommunicator := do
  let startIndices ← checkedStartIndices commSize sendCounts recvDispls
  let displ ← recvDispls[rank]?
  let count ← sendCounts[rank]?
  ReproducibleCommunicator.create startIndices displ.toNat count.toNat

/-! ## Accepted distributions tile the array -/

/-- Number of elements on a rank. -/
def countOf (sendCounts : List ℤ) (rank : ℕ) : ℕ := (sendCounts[rank]?.getD 0).toNat

/-- Index of the first element on a rank. -/
def displOf (recvDispls : List ℤ) (rank : ℕ) : ℕ := (recvDispls[rank]?.getD 0).toNat

section Regions

variable {sendCounts recvDispls : List ℤ}

theorem addRegion_eq_some {startIndices next : OrderedMap ℕ ℕ} {rank : ℕ}
    (hadd : addRegion sendCounts recvDispls startIndices rank = some next) :
    0 ≤ sendCounts[rank]?.getD 0 ∧ 0 ≤ recvDispls[rank]?.getD 0 ∧
      (next = startIndices ∨
        0 < countOf sendCounts rank ∧
          next = insertOrAssign startIndices (displOf recvDispls rank) rank) := by
  simp only [addRegion, Option.bind_eq_bind, Option.bind_eq_some_iff] at hadd
  obtain ⟨count, hcount, displ, hdispl, hadd⟩ := hadd
  simp only [countOf, displOf, hcount, hdispl, Option.getD_some]
  split_ifs at hadd with hcountNeg hdisplNeg hzero
  · exact ⟨by omega, by omega, Or.inl (Option.some.inj hadd).symm⟩
  · exact ⟨by omega, by omega, Or.inr ⟨by omega, (Option.some.inj hadd).symm⟩⟩

/-- Every region start in the map belongs to a rank with elements. -/
def RegionStarts (sendCounts recvDispls : List ℤ) (ranks : List ℕ)
    (startIndices : OrderedMap ℕ ℕ) : Prop :=
  ∀ entry ∈ startIndices.entries, entry.2 ∈ ranks ∧ 0 < countOf sendCounts entry.2 ∧
    displOf recvDispls entry.2 = entry.1

theorem addRegions_spec (seen : List ℕ) {ranks : List ℕ}
    {startIndices regions : OrderedMap ℕ ℕ}
    (hstart : RegionStarts sendCounts recvDispls seen startIndices)
    (hadd : addRegions sendCounts recvDispls ranks startIndices = some regions) :
    RegionStarts sendCounts recvDispls (seen ++ ranks) regions ∧
      ∀ rank ∈ ranks, 0 ≤ sendCounts[rank]?.getD 0 ∧ 0 ≤ recvDispls[rank]?.getD 0 := by
  induction ranks generalizing seen startIndices with
  | nil =>
      obtain rfl := Option.some.inj hadd
      simpa using hstart
  | cons rank ranks ih =>
      simp only [addRegions, Option.bind_eq_bind, Option.bind_eq_some_iff] at hadd
      obtain ⟨next, hnext, hadd⟩ := hadd
      obtain ⟨hcount, hdispl, hchange⟩ := addRegion_eq_some hnext
      have hnextStarts : RegionStarts sendCounts recvDispls (seen ++ [rank]) next := by
        obtain rfl | ⟨hpos, rfl⟩ := hchange
        · exact fun entry hentry =>
            ⟨List.mem_append_left _ (hstart entry hentry).1, (hstart entry hentry).2⟩
        · intro entry hentry
          obtain rfl | ⟨hentry, -⟩ := mem_insertOrAssign.mp hentry
          · exact ⟨by simp, hpos, rfl⟩
          · exact ⟨List.mem_append_left _ (hstart entry hentry).1, (hstart entry hentry).2⟩
      obtain ⟨hregions, hrest⟩ := ih (seen ++ [rank]) hnextStarts hadd
      refine ⟨by simpa using hregions, ?_⟩
      intro other hother
      obtain rfl | hother := List.mem_cons.mp hother
      · exact ⟨hcount, hdispl⟩
      · exact hrest other hother

/-- What the adjacent-pair check says about a whole map of region starts. -/
theorem verifyRegions_spec {entries : List (ℕ × ℕ)} (hne : entries ≠ [])
    (hsorted : entries.Pairwise fun left right => left.1 < right.1)
    (hverify : verifyRegions sendCounts entries = true) :
    (∀ entry ∈ entries.dropLast, entry.2 < sendCounts.length ∧
      ∀ other ∈ entries, other.1 ≤ entry.1 ∨
        entry.1 + countOf sendCounts entry.2 ≤ other.1) ∧
    (∀ i, (entries.head hne).1 ≤ i → i < (entries.getLast hne).1 →
      ∃ entry ∈ entries.dropLast, entry.1 ≤ i ∧ i < entry.1 + countOf sendCounts entry.2) ∧
    (entries.head hne).1 + ((entries.dropLast.map fun entry =>
      countOf sendCounts entry.2).sum) = (entries.getLast hne).1 := by
  induction entries with
  | nil => exact absurd rfl hne
  | cons first entries ih =>
      cases entries with
      | nil =>
          refine ⟨by simp, ?_, by simp⟩
          intro i hlower hupper
          exact absurd (hlower.trans_lt hupper) (lt_irrefl _)
      | cons second entries =>
          obtain ⟨hfirst, hsortedTail⟩ := List.pairwise_cons.mp hsorted
          simp only [verifyRegions] at hverify
          cases hread : sendCounts[first.2]? with
          | none => simp [hread] at hverify
          | some count =>
              simp only [hread, Bool.and_eq_true, decide_eq_true_eq] at hverify
              obtain ⟨⟨-, hadjacent⟩, htail⟩ := hverify
              obtain ⟨hdisjoint, hcover, hsum⟩ := ih (by simp) hsortedTail htail
              have hcount : countOf sendCounts first.2 = count.toNat := by
                simp [countOf, hread]
              rw [← hcount] at hadjacent
              simp only [List.head_cons, List.getLast_cons_cons] at hcover hsum ⊢
              have hsecondLe : ∀ other ∈ second :: entries, second.1 ≤ other.1 := by
                intro other hother
                obtain rfl | hother := List.mem_cons.mp hother
                · exact le_rfl
                · exact ((List.pairwise_cons.mp hsortedTail).1 other hother).le
              refine ⟨?_, ?_, ?_⟩
              · intro entry hentry
                rw [List.dropLast_cons_cons, List.mem_cons] at hentry
                obtain rfl | hentry := hentry
                · refine ⟨(List.getElem?_eq_some_iff.mp hread).1, ?_⟩
                  intro other hother
                  obtain rfl | hother := List.mem_cons.mp hother
                  · exact Or.inl le_rfl
                  · exact Or.inr (hadjacent ▸ hsecondLe other hother)
                · refine ⟨(hdisjoint entry hentry).1, ?_⟩
                  intro other hother
                  obtain rfl | hother := List.mem_cons.mp hother
                  · exact Or.inl (hfirst entry (List.mem_of_mem_dropLast hentry)).le
                  · exact (hdisjoint entry hentry).2 other hother
              · intro i hlower hupper
                rw [List.dropLast_cons_cons]
                by_cases hi : i < second.1
                · exact ⟨first, List.mem_cons_self, hlower, hadjacent ▸ hi⟩
                · obtain ⟨entry, hentry, hbounds⟩ := hcover i (by omega) hupper
                  exact ⟨entry, List.mem_cons_of_mem _ hentry, hbounds⟩
              · rw [List.dropLast_cons_cons, List.map_cons, List.sum_cons]
                omega

end Regions

/-- The regions of the ranks tile the array of length `n`, and the map of region
starts finds the rank of every index. -/
structure Tiling (commSize n : ℕ) (startIndices : OrderedMap ℕ ℕ)
    (first size : ℕ → ℕ) : Prop where
  cover : ∀ i < n, ∃ rank < commSize, first rank ≤ i ∧ i < first rank + size rank
  inside : ∀ rank < commSize, 0 < size rank → first rank + size rank ≤ n
  lookup : ∀ rank < commSize, ∀ i, first rank ≤ i → i < first rank + size rank →
    treeRankFromIndexMap startIndices i = some rank

/-- A list of distinct ranks that accounts for the whole sum contains every rank
with a positive count. -/
theorem mem_of_sum_eq {p : ℕ} (count : ℕ → ℕ) {ranks : List ℕ} (hnodup : ranks.Nodup)
    (hranks : ∀ rank ∈ ranks, rank < p)
    (hsum : (ranks.map count).sum = ((List.range p).map count).sum)
    {rank : ℕ} (hrank : rank < p) (hpos : 0 < count rank) : rank ∈ ranks := by
  by_contra hmem
  have hlist : (ranks.map count).sum = ∑ r ∈ ranks.toFinset, count r :=
    (List.sum_toFinset count hnodup).symm
  have hrange : ((List.range p).map count).sum = ∑ r ∈ Finset.range p, count r := by
    rw [← List.sum_toFinset count List.nodup_range, List.toFinset_range]
  have hlt : ∑ r ∈ ranks.toFinset, count r < ∑ r ∈ Finset.range p, count r := by
    refine Finset.sum_lt_sum_of_subset (i := rank) ?_ (by simpa using hrank)
      (by simpa using hmem) hpos fun _ _ _ => Nat.zero_le _
    intro r hr
    simpa using hranks r (by simpa using hr)
  omega

theorem toNat_sum_eq (sendCounts : List ℤ)
    (hcounts : ∀ rank ∈ List.range sendCounts.length, 0 ≤ sendCounts[rank]?.getD 0) :
    sendCounts.sum.toNat =
        ((List.range sendCounts.length).map (countOf sendCounts)).sum ∧
      0 ≤ sendCounts.sum := by
  induction sendCounts with
  | nil => simp
  | cons count sendCounts ih =>
      have hhead := hcounts 0 (by simp)
      have htail := ih fun rank hrank => by
        simpa using hcounts (rank + 1) (by simpa using hrank)
      have hmap : (List.range (count :: sendCounts).length).map
          (countOf (count :: sendCounts)) =
            count.toNat :: (List.range sendCounts.length).map (countOf sendCounts) := by
        rw [List.length_cons, List.range_succ_eq_map, List.map_cons, List.map_map]
        simp [countOf, Function.comp_def]
      simp only [List.getElem?_cons_zero, Option.getD_some] at hhead
      rw [hmap, List.sum_cons, List.sum_cons]
      omega

theorem globalArrayLength_eq_some {sendCounts : List ℤ} {n : ℕ}
    (hnonneg : 0 ≤ sendCounts.sum) (hlength : globalArrayLength sendCounts = some n) :
    sendCounts.sum.toNat = n ∧ sendCounts.sum < 2 ^ 31 := by
  simp only [globalArrayLength] at hlength
  split_ifs at hlength with hint
  have := Option.some.inj hlength
  omega

section RegionEntries

variable {commSize : ℕ} {sendCounts recvDispls : List ℤ} {entries : List (ℕ × ℕ)}

/-- Entries whose keys are the displacements of their ranks have distinct ranks. -/
theorem nodup_ranks (hsorted : entries.Pairwise fun left right => left.1 < right.1)
    (hdispl : ∀ entry ∈ entries, displOf recvDispls entry.2 = entry.1) :
    (entries.map (·.2)).Nodup := by
  rw [List.Nodup, List.pairwise_map]
  apply hsorted.imp_of_mem
  intro left right hleft hright hlt heq
  have hleftDispl := hdispl left hleft
  have hrightDispl := hdispl right hright
  rw [heq] at hleftDispl
  omega

/-- Entries that account for all elements include every rank with elements. -/
theorem mem_entries_of_sum_eq (hlength : sendCounts.length = commSize)
    (hnonneg : ∀ rank < commSize, 0 ≤ sendCounts[rank]?.getD 0)
    (hsorted : entries.Pairwise fun left right => left.1 < right.1)
    (hregion : ∀ entry ∈ entries,
      entry.2 < commSize ∧ displOf recvDispls entry.2 = entry.1)
    (hsum : (entries.map fun entry => countOf sendCounts entry.2).sum = sendCounts.sum.toNat)
    {rank : ℕ} (hrank : rank < commSize) (hpos : 0 < countOf sendCounts rank) :
    (displOf recvDispls rank, rank) ∈ entries := by
  obtain ⟨htotal, -⟩ := toNat_sum_eq sendCounts
    fun rank hrank => hnonneg rank (by simpa [hlength] using hrank)
  have hranksSum : ((entries.map (·.2)).map (countOf sendCounts)).sum =
      ((List.range commSize).map (countOf sendCounts)).sum := by
    rw [List.map_map, Function.comp_def, hsum, htotal, hlength]
  have hmem := mem_of_sum_eq (countOf sendCounts)
    (nodup_ranks hsorted fun entry hentry => (hregion entry hentry).2)
    (List.forall_mem_map.mpr fun entry hentry => (hregion entry hentry).1)
    hranksSum hrank hpos
  obtain ⟨entry, hentry, rfl⟩ := List.mem_map.mp hmem
  rw [(hregion entry hentry).2]
  exact hentry

end RegionEntries

/-- The facts that the checks of `make_reproducible_comm` establish. -/
structure Accepted (commSize n : ℕ) (sendCounts recvDispls : List ℤ)
    (startIndices : OrderedMap ℕ ℕ) : Prop where
  tiling : Tiling commSize n startIndices (displOf recvDispls) (countOf sendCounts)
  globalSize : startIndices.entries.getLast?.map (·.1) = some n
  lt_two_pow : n < 2 ^ 31

theorem accepted_of_checked {commSize : ℕ} {sendCounts recvDispls : List ℤ}
    {startIndices : OrderedMap ℕ ℕ}
    (hchecked : checkedStartIndices commSize sendCounts recvDispls = some startIndices) :
    Accepted commSize sendCounts.sum.toNat sendCounts recvDispls startIndices := by
  simp only [checkedStartIndices] at hchecked
  split_ifs at hchecked with hcountsLength hdisplsLength
  simp only [ne_eq, not_not] at hcountsLength hdisplsLength
  simp only [Option.bind_eq_bind, Option.bind_eq_some_iff] at hchecked
  obtain ⟨n, hlength, regions, hregions, hchecked⟩ := hchecked
  split_ifs at hchecked with hhead hverify
  obtain rfl := Option.some.inj hchecked
  simp only [ne_eq, not_not] at hhead
  obtain ⟨hstarts, hnonneg⟩ := addRegions_spec []
    (by simp [RegionStarts]) hregions
  -- the sum of the counts is the global length
  obtain ⟨-, hsumNonneg⟩ := toNat_sum_eq sendCounts
    fun rank hrank => (hnonneg rank (by simpa [hcountsLength] using hrank)).1
  obtain ⟨rfl, hlt⟩ := globalArrayLength_eq_some hsumNonneg hlength
  set n := sendCounts.sum.toNat
  set startIndices := insertOrAssign regions n commSize
  have hguardian : (n, commSize) ∈ startIndices.entries :=
    mem_insertOrAssign.mpr (Or.inl rfl)
  have hne : startIndices.entries ≠ [] := List.ne_nil_of_mem hguardian
  obtain ⟨hdisjoint, hcover, htotal⟩ :=
    verifyRegions_spec hne startIndices.sorted hverify
  -- reading the guardian's count fails, so it is the last entry
  have hnotLast : ∀ entry ∈ startIndices.entries.dropLast, entry.2 ≠ commSize :=
    fun entry hentry => ((hdisjoint entry hentry).1.trans_eq hcountsLength).ne
  have hlast : startIndices.entries.getLast hne = (n, commSize) := by
    have hmem := hguardian
    rw [← List.dropLast_append_getLast hne, List.mem_append, List.mem_singleton] at hmem
    exact (hmem.resolve_left fun hdrop => hnotLast _ hdrop rfl).symm
  have hfirst : (startIndices.entries.head hne).1 = 0 := by
    rw [List.head?_eq_some_head hne] at hhead
    simpa using hhead
  rw [hlast, hfirst] at hcover
  rw [hlast, hfirst, Nat.zero_add] at htotal
  have hregion : ∀ entry ∈ startIndices.entries.dropLast,
      entry.2 < commSize ∧ displOf recvDispls entry.2 = entry.1 := by
    intro entry hentry
    obtain rfl | ⟨hentry', -⟩ :=
      mem_insertOrAssign.mp (List.mem_of_mem_dropLast hentry)
    · exact absurd rfl (hnotLast _ hentry)
    · obtain ⟨hrank, -, hdispl⟩ := hstarts entry hentry'
      exact ⟨by simpa using hrank, hdispl⟩
  have hall : ∀ rank < commSize, 0 < countOf sendCounts rank →
      (displOf recvDispls rank, rank) ∈ startIndices.entries.dropLast := by
    intro rank hrank hpos
    exact mem_entries_of_sum_eq hcountsLength
      (fun rank hrank => (hnonneg rank (by simpa using hrank)).1)
      (startIndices.sorted.sublist (List.dropLast_sublist _)) hregion htotal hrank hpos
  refine ⟨⟨?_, ?_, ?_⟩, ?_, by omega⟩
  · intro i hi
    obtain ⟨entry, hentry, hlower, hupper⟩ := hcover i (Nat.zero_le i) hi
    obtain ⟨hrank, hdispl⟩ := hregion entry hentry
    exact ⟨entry.2, hrank, by omega, by omega⟩
  · intro rank hrank hpos
    have hentry := hall rank hrank hpos
    obtain hle | hle := (hdisjoint _ hentry).2 _ hguardian
    · have hsorted := startIndices.sorted
      rw [← List.dropLast_append_getLast hne, hlast] at hsorted
      have hbefore : displOf recvDispls rank < n :=
        (List.pairwise_append.mp hsorted).2.2 _ hentry (n, commSize) (by simp)
      exact absurd hbefore (by simpa using hle)
    · exact hle
  · intro rank hrank i hlower hupper
    have hentry := hall rank hrank (by omega)
    rw [treeRankFromIndexMap, entryBelowUpperBound_eq_some
      (List.mem_of_mem_dropLast hentry) hlower, Option.map_some]
    intro other hother hle
    obtain hbefore | hafter := (hdisjoint _ hentry).2 other hother
    · exact hbefore
    · exact absurd hafter (by dsimp only; omega)
  · rw [List.getLast?_eq_some_getLast hne, hlast, Option.map_some]

end MpiBindings.ReproducibleReduce
