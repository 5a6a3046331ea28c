import MpiBindings.GridAlltoall.Exchange

/-!
# Receive displacements of the caller

The exchange without envelopes scatters the received elements to the displacements
of their sources.  The size that it requests is the end of the block of the last
rank.  The shared size computation of the library takes the maximum over all
blocks where the caller chose the displacements; the one of the grid does not.
-/

namespace MpiBindings.GridAlltoall

open Collectives CountingSort

variable {T : Type}

/-- End of the block of a source in the receive buffer. -/
def blockEnd (recvCounts recvDispls : List ℕ) (source : ℕ) : ℕ :=
  recvDispls.getD source 0 + recvCounts.getD source 0

/-- Arguments of a rank: one count and one displacement for each source, the counts
are those of the received messages, and no two blocks overlap. -/
structure ReceiveBlocks (p : ℕ) (messages : List (ℕ × T)) (recvCounts recvDispls : List ℕ) :
    Prop where
  length_counts : recvCounts.length = p
  length_displs : recvDispls.length = p
  counts_lt : ∀ count ∈ recvCounts, count < 2 ^ 31
  displs_lt : ∀ displ ∈ recvDispls, displ < 2 ^ 31
  sources_lt : ∀ message ∈ messages, message.1 < p
  received : ∀ source < p, (withKey messages source).length = recvCounts.getD source 0
  disjoint : ∀ source < p, ∀ other < p, source ≠ other → ∀ position,
    recvDispls.getD source 0 ≤ position → position < blockEnd recvCounts recvDispls source →
    ¬ (recvDispls.getD other 0 ≤ position ∧ position < blockEnd recvCounts recvDispls other)

/-- The requested size covers all blocks, and in a buffer of this size every element
is written. -/
def RequestsEnough [Inhabited T] (p : ℕ) (messages : List (ℕ × T))
    (recvCounts recvDispls : List ℕ) : Prop :=
  ∃ size, gridRequiredSize (recvCounts.map Nat.cast) (recvDispls.map Nat.cast) = some size ∧
    (∀ source < p, blockEnd recvCounts recvDispls source ≤ size) ∧
    ∀ (policy : BufferResizePolicy) (recvBuf : List T),
      size ≤ (policy.resizeIfRequested size default recvBuf).length →
      (writeRecvBuffer policy messages (recvCounts.map Nat.cast) (recvDispls.map Nat.cast)
        recvBuf).isSome

section Sizes

variable {p : ℕ} {messages : List (ℕ × T)} {recvCounts recvDispls : List ℕ}

theorem ReceiveBlocks.blockEnd_lt (hblocks : ReceiveBlocks p messages recvCounts recvDispls)
    (source : ℕ) : blockEnd recvCounts recvDispls source < 2 ^ 32 := by
  have hget : ∀ values : List ℕ, (∀ value ∈ values, value < 2 ^ 31) →
      values.getD source 0 < 2 ^ 31 := by
    intro values hvalues
    rw [List.getD_eq_getElem?_getD]
    cases hvalue : values[source]? with
    | none => simp
    | some value => exact hvalues value (List.mem_of_getElem? hvalue)
  have hcount := hget recvCounts hblocks.counts_lt
  have hdispl := hget recvDispls hblocks.displs_lt
  unfold blockEnd
  omega

theorem ReceiveBlocks.cellsEnd_eq (hblocks : ReceiveBlocks p messages recvCounts recvDispls)
    {source : ℕ} (hsource : source < p) :
    cellsEnd messages recvDispls source = blockEnd recvCounts recvDispls source := by
  rw [cellsEnd, hblocks.received source hsource, blockEnd]

/-- The requested size is the end of the last block; beyond the range of `int` the
sum is negative and no size is requested. -/
theorem ReceiveBlocks.gridRequiredSize_eq
    (hblocks : ReceiveBlocks p messages recvCounts recvDispls) (hp : 0 < p) :
    gridRequiredSize (recvCounts.map Nat.cast) (recvDispls.map Nat.cast) =
      if blockEnd recvCounts recvDispls (p - 1) < 2 ^ 31 then
        some (blockEnd recvCounts recvDispls (p - 1))
      else none := by
  have hlast : ∀ values : List ℕ, values.length = p →
      (values.map (Nat.cast : ℕ → ℤ)).getLast? = some (values.getD (p - 1) 0 : ℤ) := by
    intro values hlength
    rw [List.getLast?_eq_getElem?, List.length_map, hlength, List.getElem?_map,
      List.getD_eq_getElem?_getD, List.getElem?_eq_getElem (by omega)]
    rfl
  have hrange := hblocks.blockEnd_lt (p - 1)
  simp only [gridRequiredSize, hlast _ hblocks.length_counts, hlast _ hblocks.length_displs]
  have hsum : (recvDispls.getD (p - 1) 0 : ℤ) + (recvCounts.getD (p - 1) 0 : ℤ) =
      (blockEnd recvCounts recvDispls (p - 1) : ℤ) := by
    rw [blockEnd, Nat.cast_add]
  by_cases hlt : blockEnd recvCounts recvDispls (p - 1) < 2 ^ 31
  · rw [addInt_eq (by omega) (by omega), hsum, if_pos (Int.natCast_nonneg _), if_pos hlt,
      Int.toNat_natCast]
  · have hnegative : addInt (recvDispls.getD (p - 1) 0) (recvCounts.getD (p - 1) 0) < 0 := by
      rw [addInt, hsum, Int.bmod_def]
      omega
    rw [if_neg (by omega), if_neg hlt]

/-- The shared size computation takes all blocks into account. -/
theorem ReceiveBlocks.requiredRecvBufSize_covers
    (hblocks : ReceiveBlocks p messages recvCounts recvDispls)
    (hlt : ∀ source < p, blockEnd recvCounts recvDispls source < 2 ^ 31) :
    ∃ size, requiredRecvBufSize p false (recvCounts.map Nat.cast) (recvDispls.map Nat.cast) =
        some size ∧
      ∀ source < p, blockEnd recvCounts recvDispls source ≤ size := by
  have hend : ∀ source < p, (blockEnd recvCounts recvDispls source : ℤ) ∈
      List.zipWith addInt ((recvCounts.map Nat.cast).take p)
        ((recvDispls.map Nat.cast).take p) := by
    intro source hsource
    have hcount : recvCounts[source]? = some (recvCounts.getD source 0) := by
      simp [hblocks.length_counts, hsource]
    have hdispl : recvDispls[source]? = some (recvDispls.getD source 0) := by
      simp [hblocks.length_displs, hsource]
    have hsum := hlt source hsource
    rw [blockEnd, Nat.add_comm] at hsum
    refine List.mem_of_getElem? (i := source) ?_
    simp only [List.getElem?_zipWith, List.getElem?_take_of_lt hsource, List.getElem?_map,
      hcount, hdispl, Option.map_some]
    rw [addInt_natCast hsum, blockEnd, Nat.add_comm]
  set ends := List.zipWith addInt ((recvCounts.map Nat.cast).take p)
    ((recvDispls.map Nat.cast).take p)
  have hle : ∀ value ∈ 0 :: ends, value ≤ ends.foldl max 0 :=
    (List.max?_le_iff List.max?_cons').mp le_rfl
  refine ⟨(ends.foldl max 0).toNat, if_pos (hle 0 List.mem_cons_self), fun source hsource => ?_⟩
  have := hle _ (List.mem_cons_of_mem _ (hend source hsource))
  omega

variable [Inhabited T]

/-- The grid asks for enough exactly if the block of the last rank ends last. -/
theorem requestsEnough_iff (hp : 0 < p)
    (hblocks : ReceiveBlocks p messages recvCounts recvDispls) :
    RequestsEnough p messages recvCounts recvDispls ↔
      (∀ source < p, blockEnd recvCounts recvDispls source ≤
        blockEnd recvCounts recvDispls (p - 1)) ∧
      blockEnd recvCounts recvDispls (p - 1) < 2 ^ 31 := by
  rw [RequestsEnough, hblocks.gridRequiredSize_eq hp]
  constructor
  · rintro ⟨size, hsize, hcovers, -⟩
    split_ifs at hsize with hlt
    obtain rfl := Option.some.inj hsize
    exact ⟨hcovers, hlt⟩
  · rintro ⟨hcovers, hlt⟩
    refine ⟨_, if_pos hlt, hcovers, fun policy recvBuf hfits => ?_⟩
    rw [writeRecvBuffer, hblocks.gridRequiredSize_eq hp, if_pos hlt, preparedRecvBuf,
      if_pos hfits, Option.bind_some, Option.isSome_map]
    refine placeItems_isSome ?_ ?_ ?_
    · rw [hblocks.length_displs]
      exact hblocks.sources_lt
    · intro source hsource
      rw [hblocks.length_displs] at hsource
      rw [hblocks.cellsEnd_eq hsource]
      exact (hcovers source hsource).trans hfits
    · intro source hsource
      rw [hblocks.length_displs] at hsource
      rw [hblocks.cellsEnd_eq hsource]
      exact (hcovers source hsource).trans_lt hlt

end Sizes

/-- Two ranks whose blocks are given in the opposite order. -/
theorem receiveBlocks_swapped : ReceiveBlocks 2 [(0, 'a'), (1, 'b')] [1, 1] [1, 0] := by
  refine ⟨rfl, rfl, by decide, by decide, by decide, by decide, ?_⟩
  intro source hsource other hother hne position
  simp only [blockEnd]
  obtain rfl | rfl : source = 0 ∨ source = 1 := by omega
  · obtain rfl : other = 1 := by omega
    simp
    omega
  · obtain rfl : other = 0 := by omega
    simp
    omega

theorem requestsEnough_iff_swapped :
    RequestsEnough 2 [(0, 'a'), (1, 'b')] [1, 1] [1, 0] ↔
      (∀ source < 2, blockEnd [1, 1] [1, 0] source ≤ blockEnd [1, 1] [1, 0] (2 - 1)) ∧
      blockEnd [1, 1] [1, 0] (2 - 1) < 2 ^ 31 :=
  requestsEnough_iff (by decide) receiveBlocks_swapped

/-- The grid asks for one cell and writes out of its range, the shared computation
asks for two. -/
theorem requestsEnough_fails_swapped :
    ReceiveBlocks 2 [(0, 'a'), (1, 'b')] [1, 1] [1, 0] ∧
      ¬ RequestsEnough 2 [(0, 'a'), (1, 'b')] [1, 1] [1, 0] ∧
      writeRecvBuffer .resizeToFit [(0, 'a'), (1, 'b')] [1, 1] [1, 0] [] = none ∧
      requiredRecvBufSize 2 false [1, 1] [1, 0] = some 2 := by
  refine ⟨receiveBlocks_swapped, ?_, by decide, by decide⟩
  rintro ⟨size, hsize, hcovers, -⟩
  have hfirst := hcovers 0 (by decide)
  have hone : some 1 = some size := hsize
  cases hone
  exact absurd hfirst (by decide)

end MpiBindings.GridAlltoall
