import MpiBindings.GridAlltoall.Routing
import Mathlib.Algebra.BigOperators.Ring.Finset
import Mathlib.Data.List.GetD

/-!
# The grid exchange is the builtin exchange

For send counts and displacements inside the send buffers, the exchange over the
grid delivers what `MPI_Alltoallv` delivers, with the same receive counts and
displacements.  With envelopes, the messages of every rank are those of
`MPI_Alltoallv` in another order, with their true sources and destinations.
-/

namespace MpiBindings.GridAlltoall

open Collectives CountingSort

/-! ## Specification -/

section Specification

variable {p : ℕ} {T : Type} (args : AlltoallvArguments p T)

/-- Number of elements that a source sends to a destination. -/
def sendCount (source destination : Fin p) : ℤ := (args.sendCounts source).getD destination 0

/-- Send displacements: those of the caller, or the sums of the counts before. -/
def sendDisplsOf (source : Fin p) : List ℤ :=
  match args.sendDispls with
  | .given displs => displs source
  | .computed _ _ => (prefixSums 0 ((args.sendCounts source).map Int.toNat)).map Nat.cast

/-- Displacement of the block that a source sends to a destination. -/
def sendDispl (source destination : Fin p) : ℤ := (sendDisplsOf args source).getD destination 0

/-- The block that a source addresses to a destination. -/
def sentBlock (source destination : Fin p) : List T :=
  ((args.sendBuf source).drop (sendDispl args source destination).toNat).take
    (sendCount args source destination).toNat

/-- All sums of counts that an exchange over the grid forms fit into an integer. -/
structure SumsFit : Prop where
  sent : ∀ source, ((List.finRange p).map (sendCount args source)).sum < 2 ^ 31
  received : ∀ destination,
    ((List.finRange p).map fun source => sendCount args source destination).sum < 2 ^ 31
  relayed : ∀ relay : Fin p,
    (((List.finRange p).filter fun source : Fin p => rowColor p source = rowColor p relay).map
      fun source =>
        (((List.finRange p).filter fun destination : Fin p =>
          columnColor p destination = columnColor p relay).map
            (sendCount args source)).sum).sum < 2 ^ 31

/-- Non-negative counts for exactly the ranks of the communicator, and blocks inside
the send buffers. -/
structure BlocksInside : Prop where
  length_sendCounts : ∀ rank, (args.sendCounts rank).length = p
  nonneg : ∀ source destination, 0 ≤ sendCount args source destination
  displs : ∀ displs, args.sendDispls = .given displs → ∀ rank, p ≤ (displs rank).length
  computed : args.sendDispls.isComputed → args.sendDispls.ComputedInto fun _ => p
  inside : ∀ source destination, sendCount args source destination ≠ 0 →
    0 ≤ sendDispl args source destination ∧
      sendDispl args source destination + sendCount args source destination ≤
        (args.sendBuf source).length

/-- Receive counts are computed or given as they are sent, receive displacements are
computed, and the receive buffers are resized or large enough. -/
structure ReceiveComputed : Prop where
  recvCounts : args.recvCounts.ComputedInto (fun _ => p) ∨
    args.recvCounts = .given fun rank =>
      (List.finRange p).map fun source => sendCount args source rank
  recvDispls : args.recvDispls.ComputedInto fun _ => p
  recvBuf : args.recvBufPolicy = .noResize → ∀ rank,
    ((List.finRange p).map fun source => sendCount args source rank).sum ≤
      (args.recvBuf rank).length

/-- What the exchange returns. -/
def expectedResult [Inhabited T] : AlltoallvResult p T :=
  { recvBuf := receivedInto (.world p) (sentBlock args) args
    recvCounts := fun rank =>
      (receivedLengths (.world p) (sentBlock args) rank).map Nat.cast
    recvDispls := fun rank =>
      (prefixSums 0 (receivedLengths (.world p) (sentBlock args) rank)).map Nat.cast
    sendDispls := sendDisplsOf args }

end Specification

/-! ## Blocks -/

section Blocks

variable {p : ℕ} {T : Type} {args : AlltoallvArguments p T}

theorem length_sentBlock (hinside : BlocksInside args) (source destination : Fin p) :
    ((sentBlock args source destination).length : ℤ) = sendCount args source destination := by
  have hnonneg := hinside.nonneg source destination
  have hin := hinside.inside source destination
  rw [sentBlock, List.length_take, List.length_drop]
  omega

theorem sum_sentBlock (hinside : BlocksInside args) {α : Type} (items : List α)
    (source destination : α → Fin p) :
    (((items.map fun item =>
        (sentBlock args (source item) (destination item)).length).sum : ℕ) : ℤ) =
      (items.map fun item => sendCount args (source item) (destination item)).sum := by
  rw [Nat.cast_list_sum, List.map_map]
  exact congrArg List.sum (List.map_congr_left fun item _ =>
    length_sentBlock hinside (source item) (destination item))

theorem length_relayed (hinside : BlocksInside args) {relay : Fin p}
    (hlt : relay < completeRectangle p) :
    ((relayed (sentBlock args) relay).length : ℤ) =
      (((List.finRange p).filter fun source : Fin p => rowColor p source = rowColor p relay).map
        fun source =>
          (((List.finRange p).filter fun destination : Fin p =>
            columnColor p destination = columnColor p relay).map
              (sendCount args source)).sum).sum := by
  have hcolumn : (makeGridCommunicator p).rowComm.rankOf relay = columnColor p relay :=
    rankOf_row_of_lt hlt
  rw [relayed, hcolumn, List.length_flatMap, Nat.cast_list_sum, List.map_map]
  have hmembers : (makeGridCommunicator p).rowComm.members relay =
      (List.finRange p).filter fun source : Fin p => rowColor p source = rowColor p relay :=
    Communicators.members_split_rank _ relay
  rw [hmembers]
  refine congrArg List.sum (List.map_congr_left fun source _ => ?_)
  have hsum := sum_sentBlock hinside ((List.finRange p).filter fun destination : Fin p =>
    columnColor p destination = columnColor p relay) (fun _ => source) fun destination =>
      destination
  simpa [List.length_flatMap] using hsum

theorem SumsFit.volumesFit (hinside : BlocksInside args) (hfit : SumsFit args) :
    VolumesFit (sentBlock args) where
  sent source := by
    have hsum := sum_sentBlock hinside (List.finRange p) (fun _ => source) fun destination =>
      destination
    have hlt : ((List.finRange p).map fun destination =>
        sendCount args source destination).sum < 2 ^ 31 := hfit.sent source
    omega
  received destination := by
    have hsum := sum_sentBlock hinside (List.finRange p) (fun source => source) fun _ =>
      destination
    have hlt := hfit.received destination
    omega
  relayed relay := by
    by_cases hlt : relay < completeRectangle p
    · have hlength := length_relayed hinside hlt
      have hsum := hfit.relayed relay
      omega
    · rw [relayed_of_le (Nat.le_of_not_lt hlt)]
      exact Nat.two_pow_pos 31

/-- The send counts are the lengths of the blocks. -/
theorem sendCounts_eq (hinside : BlocksInside args) (source : Fin p) :
    args.sendCounts source =
      (sentLengths (.world p) (sentBlock args) source).map Nat.cast := by
  refine List.ext_getElem ?_ fun index hleft hright => ?_
  · simp [hinside.length_sendCounts, Communicators.size_world]
  · have hindex : index < p := by
      rw [← hinside.length_sendCounts source]
      exact hleft
    have hlength := length_sentBlock hinside source ⟨index, hindex⟩
    simp only [sendCount, List.getD_eq_getElem _ _ hleft] at hlength
    simp [sentLengths, Communicators.world, hlength]

theorem map_toNat_sendCounts (hinside : BlocksInside args) (source : Fin p) :
    (args.sendCounts source).map Int.toNat = sentLengths (.world p) (sentBlock args) source := by
  rw [sendCounts_eq hinside, List.map_map]
  exact List.map_id' _

theorem sum_sentLengths_world (source : Fin p) :
    (sentLengths (.world p) (sentBlock args) source).sum =
      ((List.finRange p).map fun destination => (sentBlock args source destination).length).sum :=
  rfl

/-- The displacements that the library computes or the caller passes. -/
theorem gridSendDispls_eq_some (hinside : BlocksInside args) (hfit : SumsFit args) :
    gridSendDispls args.sendCounts args.sendDispls = some (sendDisplsOf args) := by
  have hcomputed := hinside.computed
  have hunfold : sendDisplsOf args = fun source => match args.sendDispls with
    | .given displs => displs source
    | .computed _ _ => (prefixSums 0 ((args.sendCounts source).map Int.toNat)).map Nat.cast := rfl
  rw [hunfold]
  cases hdispls : args.sendDispls with
  | given displs => rfl
  | computed policy buffers =>
      rw [hdispls] at hcomputed
      have hlength : ∀ rank, (policy.resizeIfRequested p 0 (buffers rank)).length = p :=
        hcomputed rfl
      rw [gridSendDispls, if_pos fun rank =>
        ⟨(hinside.length_sendCounts rank).ge, (hlength rank).ge⟩]
      refine congrArg some (funext fun source => ?_)
      have hlt := (hfit.volumesFit hinside).sent source
      rw [List.take_of_length_le (hinside.length_sendCounts source).le,
        map_toNat_sendCounts hinside, sendCounts_eq hinside,
        exclusiveScan_zero (by rw [sum_sentLengths_world]; exact hlt)]
      exact overwrite_eq (by simp [hlength, Communicators.size_world])

/-- Every block stands at its displacement. -/
theorem readBlock_sentBlock (hinside : BlocksInside args) (source destination : Fin p) :
    readBlock (args.sendBuf source) (sendDispl args source destination)
        (sendCount args source destination) = some (sentBlock args source destination) := by
  have hnonneg := hinside.nonneg source destination
  have hin := hinside.inside source destination
  unfold readBlock sentBlock
  split_ifs with hzero hfits
  · simp [hzero]
  · rfl
  · omega

theorem le_length_sendDisplsOf (hinside : BlocksInside args) (source : Fin p) :
    p ≤ (sendDisplsOf args source).length := by
  unfold sendDisplsOf
  split
  · rename_i displs hdispls
    exact hinside.displs displs hdispls source
  · simp [hinside.length_sendCounts]

/-- The buffers of all ranks hold the blocks. -/
theorem sends_sentBlock (hinside : BlocksInside args) :
    Sends (fun rank =>
      { sendBuf := args.sendBuf rank
        sendCounts := args.sendCounts rank
        sendDispls := sendDisplsOf args rank }) (sentBlock args) where
  counts source := by
    rw [sendCounts_eq hinside]
    simp [sentLengths, Communicators.world]
  blocks source destination := by
    have hcounts : destination < (args.sendCounts source).length := by
      rw [hinside.length_sendCounts]
      exact destination.isLt
    have hdispls : destination < (sendDisplsOf args source).length :=
      Nat.lt_of_lt_of_le destination.isLt (le_length_sendDisplsOf hinside source)
    have hread := readBlock_sentBlock hinside source destination
    simp only [sendDispl, sendCount, List.getD_eq_getElem _ _ hcounts,
      List.getD_eq_getElem _ _ hdispls] at hread
    unfold destinationBlock
    simp only [List.getElem?_eq_getElem hcounts, List.getElem?_eq_getElem hdispls]
    split_ifs with hzero
    · rw [readBlock, if_pos hzero] at hread
      exact hread
    · exact hread

end Blocks

section Delivery

variable {p : ℕ} {T : Type} [Inhabited T] {args : AlltoallvArguments p T}

/-- The messages that reach a rank at each envelope level. -/
theorem alltoallvWithEnvelope_eq_some (hinside : BlocksInside args) (hfit : SumsFit args)
    (level : MessageEnvelopeLevel) {displs : Parameter p}
    (hdispls : gridSendDispls args.sendCounts displs = some (sendDisplsOf args)) :
    alltoallvWithEnvelope (makeGridCommunicator p) level args.sendBuf args.sendCounts displs =
      some fun rank => (sourceOrder rank).flatMap fun source =>
        (sentBlock args source rank).map (envelope level source rank) := by
  have hvolumes := hfit.volumesFit hinside
  unfold alltoallvWithEnvelope
  simp only [Option.bind_eq_bind]
  rw [hdispls, Option.bind_some, rowwiseExchange_eq_some (sends_sentBlock hinside) hvolumes,
    Option.bind_some, columnwiseExchange_eq_some hvolumes]

/-- The elements that reach a rank with their sources, in the order of their arrival. -/
def arrivals (args : AlltoallvArguments p T) (rank : Fin p) : List (ℕ × T) :=
  (sourceOrder rank).flatMap fun source =>
    (sentBlock args source rank).map fun payload => ((source : ℕ), payload)

variable (args) in
omit [Inhabited T] in
theorem sourceMessages_eq_some (rank : Fin p) :
    sourceMessages ((sourceOrder rank).flatMap fun source =>
        (sentBlock args source rank).map (envelope .source source rank)) =
      some (arrivals args rank) :=
  sourceMessages_deliveries (sentBlock args) rank

omit [Inhabited T] in
/-- The elements of a source reach a rank in the order of their block. -/
theorem withKey_arrivals (rank source : Fin p) :
    withKey (arrivals args rank) source = sentBlock args source rank :=
  withKey_deliveries rank source

variable (args) in
omit [Inhabited T] in
theorem arrivals_lt (rank : Fin p) : ∀ item ∈ arrivals args rank, item.1 < p :=
  deliveries_lt (sentBlock args) rank

omit [Inhabited T] in
theorem map_range_arrivals {β : Type} (rank : Fin p) (f : List T → β) :
    ((List.range p).map fun key => f (withKey (arrivals args rank) key)) =
      (List.finRange p).map fun source => f (sentBlock args source rank) := by
  rw [← List.map_coe_finRange_eq_range, List.map_map]
  exact List.map_congr_left fun source _ => congrArg f (withKey_arrivals rank source)

omit [Inhabited T] in
theorem length_arrivals (rank : Fin p) :
    (arrivals args rank).length = (received (.world p) (sentBlock args) rank).length := by
  rw [length_received]
  exact length_deliveries rank

omit [Inhabited T] in
theorem gridRecvCounts_computed (hlt : ∀ rank, (arrivals args rank).length < 2 ^ 31)
    {counts : Parameter p} (hcounts : counts.ComputedInto fun _ => p) :
    gridRecvCounts (arrivals args) counts =
      some fun rank => (receivedLengths (.world p) (sentBlock args) rank).map Nat.cast := by
  cases counts with
  | given buffers => exact hcounts.elim
  | computed policy buffers =>
      have hlength : ∀ rank, (policy.resizeIfRequested p 0 (buffers rank)).length = p := hcounts
      rw [gridRecvCounts, if_pos fun rank => (hlength rank).ge]
      refine allRanks_eq_some.mpr fun rank => ?_
      rw [hlength, tally_ones (arrivals_lt _ rank) (hlt rank), keyCounts,
        map_range_arrivals rank List.length]
      rfl

omit [Inhabited T] in
theorem map_length_sentBlock (hinside : BlocksInside args) (rank : Fin p) :
    (receivedLengths (.world p) (sentBlock args) rank).map Nat.cast =
      (List.finRange p).map fun source => sendCount args source rank := by
  rw [receivedLengths, List.map_map]
  exact List.map_congr_left fun source _ => length_sentBlock hinside source rank

omit [Inhabited T] in
theorem gridRecvCounts_eq_some (hinside : BlocksInside args) (hreceive : ReceiveComputed args)
    (hlt : ∀ rank, (arrivals args rank).length < 2 ^ 31) :
    gridRecvCounts (arrivals args) args.recvCounts =
      some fun rank => (receivedLengths (.world p) (sentBlock args) rank).map Nat.cast := by
  rcases hreceive.recvCounts with hcomputed | hgiven
  · exact gridRecvCounts_computed hlt hcomputed
  · rw [hgiven, gridRecvCounts, if_pos fun rank => by simp]
    exact congrArg some (funext fun rank => (map_length_sentBlock hinside rank).symm)

omit [Inhabited T] in
theorem gridRecvDispls_eq_some
    (hlt : ∀ rank, (received (.world p) (sentBlock args) rank).length < 2 ^ 31)
    {displs : Parameter p} (hdispls : displs.ComputedInto fun _ => p) :
    gridRecvDispls
        (fun rank => (receivedLengths (.world p) (sentBlock args) rank).map Nat.cast) displs =
      some fun rank =>
        (prefixSums 0 (receivedLengths (.world p) (sentBlock args) rank)).map Nat.cast := by
  cases displs with
  | given buffers => exact hdispls.elim
  | computed policy buffers =>
      have hlength : ∀ rank, (policy.resizeIfRequested p 0 (buffers rank)).length = p := hdispls
      rw [gridRecvDispls, if_pos fun rank => by simp [hlength, Communicators.size_world]]
      refine congrArg some (funext fun rank => ?_)
      rw [exclusiveScan_zero (by rw [← length_received]; exact hlt rank)]
      exact overwrite_eq (by simp [hlength, Communicators.size_world])

theorem gridRequiredSize_prefixSums (counts : List ℕ) (hne : counts ≠ [])
    (hlt : counts.sum < 2 ^ 31) :
    gridRequiredSize (counts.map Nat.cast) ((prefixSums 0 counts).map Nat.cast) =
      some counts.sum := by
  have hlast := lastEnd_prefixSums _ hne hlt
  unfold lastEnd at hlast
  unfold gridRequiredSize
  rw [List.getLast?_eq_getElem?, List.getLast?_eq_getElem?, List.length_map, List.length_map,
    length_prefixSums]
  split at hlast
  · rename_i count displ hcount hdispl
    have hsum : addInt displ count = (counts.sum : ℤ) := by
      rw [addInt_comm, Option.some.inj hlast]
    rw [hcount, hdispl]
    simp only [hsum]
    rw [if_pos (Int.natCast_nonneg _), Int.toNat_natCast]
  · simp at hlast

variable (args) in
/-- The counting sort by source restores the order of the sources. -/
theorem writeRecvBuffer_eq_some {rank : Fin p}
    (hlt : (received (.world p) (sentBlock args) rank).length < 2 ^ 31)
    (hfits : args.recvBufPolicy = .noResize →
      (received (.world p) (sentBlock args) rank).length ≤ (args.recvBuf rank).length) :
    writeRecvBuffer args.recvBufPolicy (arrivals args rank)
        ((receivedLengths (.world p) (sentBlock args) rank).map Nat.cast)
        ((prefixSums 0 (receivedLengths (.world p) (sentBlock args) rank)).map Nat.cast)
        (args.recvBuf rank) =
      some (receivedInto (.world p) (sentBlock args) args rank) := by
  have hle : _ ≤ (args.recvBufPolicy.resizeIfRequested _ default (args.recvBuf rank)).length :=
    BufferResizePolicy.le_length_resizeIfRequested hfits
  have hrequired := gridRequiredSize_prefixSums
    (receivedLengths (.world p) (sentBlock args) rank)
    (List.length_pos_iff.mp (by simpa using (Communicators.world p).size_pos rank))
    (by rwa [← length_received])
  have hplaced := placeItems_overwrite p
    (args.recvBufPolicy.resizeIfRequested
      (received (.world p) (sentBlock args) rank).length default (args.recvBuf rank))
    (arrivals_lt args rank) (by rwa [length_arrivals]) (by rwa [length_arrivals])
  have hblocks : (List.range p).flatMap (withKey (arrivals args rank)) =
      received (.world p) (sentBlock args) rank := by
    rw [List.flatMap_def, map_range_arrivals rank fun block => block]
    rfl
  rw [map_range_arrivals rank List.length, hblocks, length_arrivals] at hplaced
  rw [writeRecvBuffer, hrequired, ← length_received, preparedRecvBuf, if_pos hle,
    Option.bind_some]
  exact hplaced

/-- The exchange over the grid returns the blocks of all sources in their order. -/
theorem gridAlltoallv_eq_some (hinside : BlocksInside args) (hfit : SumsFit args)
    (hreceive : ReceiveComputed args) :
    gridAlltoallv (makeGridCommunicator p) args = some (expectedResult args) := by
  have hlengths : ∀ rank, ((received (.world p) (sentBlock args) rank).length : ℤ) =
      ((List.finRange p).map fun source => sendCount args source rank).sum := fun rank => by
    rw [length_received]
    exact sum_sentBlock hinside (List.finRange p) (fun source => source) fun _ => rank
  have hlt : ∀ rank, (received (.world p) (sentBlock args) rank).length < 2 ^ 31 :=
    fun rank => by
      have := hfit.received rank
      have := hlengths rank
      omega
  have hmessages := allRanks_eq_some.mpr (sourceMessages_eq_some args)
  have hrecvBuf := allRanks_eq_some.mpr fun rank =>
    writeRecvBuffer_eq_some args (hlt rank) fun hpolicy => by
      have := hreceive.recvBuf hpolicy rank
      have := hlengths rank
      omega
  unfold gridAlltoallv
  simp only [Option.bind_eq_bind]
  rw [gridSendDispls_eq_some hinside hfit, Option.bind_some,
    alltoallvWithEnvelope_eq_some hinside hfit .source rfl, Option.bind_some, hmessages,
    Option.bind_some,
    gridRecvCounts_eq_some hinside hreceive fun rank => by rw [length_arrivals]; exact hlt rank,
    Option.bind_some, gridRecvDispls_eq_some hlt hreceive.recvDispls, Option.bind_some, hrecvBuf,
    Option.bind_some]
  rfl

end Delivery

/-! ## Comparison with the builtin exchange -/

section Builtin

variable {p : ℕ} {T : Type} [Inhabited T] {args : AlltoallvArguments p T}

/-- The blocks of all sources for a rank, one after the other. -/
def concatenated (args : AlltoallvArguments p T) (rank : Fin p) : List T :=
  (List.finRange p).flatMap fun source => sentBlock args source rank

/-- The arguments of `MPI_Alltoallv` for the same exchange. -/
def mpiArguments (args : AlltoallvArguments p T) : MpiAlltoallvArguments p T :=
  { sendBuf := args.sendBuf
    sendCounts := args.sendCounts
    sendDispls := sendDisplsOf args
    recvBuf := fun rank => args.recvBufPolicy.resizeIfRequested (concatenated args rank).length
      default (args.recvBuf rank)
    recvCounts := fun rank => (List.finRange p).map fun source => sendCount args source rank
    recvDispls := fun rank =>
      exclusiveScan 0 ((List.finRange p).map fun source => sendCount args source rank) }

/-- The envelope of a message with its true source and destination. -/
def trueEnvelope (level : MessageEnvelopeLevel) (source destination : Fin p) (payload : T) :
    MessageEnvelope T :=
  { payload
    source := if level = .noEnvelope then none else some source
    destination := if level = .sourceAndDestination then some destination else none }

omit [Inhabited T] in
theorem envelope_eq_trueEnvelope (level : MessageEnvelopeLevel) (source destination : Fin p) :
    (envelope level source destination : T → MessageEnvelope T) =
      trueEnvelope level source destination := by
  cases level <;> rfl

omit [Inhabited T] in
theorem length_concatenated (hinside : BlocksInside args) (rank : Fin p) :
    ((concatenated args rank).length : ℤ) =
      ((List.finRange p).map fun source => sendCount args source rank).sum := by
  rw [concatenated, List.length_flatMap]
  exact sum_sentBlock hinside (List.finRange p) (fun source => source) fun _ => rank

omit [Inhabited T] in
theorem length_concatenated_lt (hinside : BlocksInside args) (hfit : SumsFit args)
    (rank : Fin p) : (concatenated args rank).length < 2 ^ 31 := by
  have hlength := length_concatenated hinside rank
  have hlt := hfit.received rank
  omega

omit [Inhabited T] in
theorem length_concatenated_le (hinside : BlocksInside args) (hreceive : ReceiveComputed args)
    (hpolicy : args.recvBufPolicy = .noResize) (rank : Fin p) :
    (concatenated args rank).length ≤ (args.recvBuf rank).length := by
  have hlength := length_concatenated hinside rank
  have hle := hreceive.recvBuf hpolicy rank
  omega

theorem recvCounts_expectedResult (hinside : BlocksInside args) (rank : Fin p) :
    (expectedResult args).recvCounts rank =
      (List.finRange p).map fun source => sendCount args source rank :=
  map_length_sentBlock hinside rank

theorem recvDispls_expectedResult (hinside : BlocksInside args) (hfit : SumsFit args)
    (rank : Fin p) :
    (expectedResult args).recvDispls rank =
      exclusiveScan 0 ((List.finRange p).map fun source => sendCount args source rank) := by
  have hlt := length_concatenated_lt hinside hfit rank
  have hlength := length_received (.world p) (sentBlock args) rank
  rw [← recvCounts_expectedResult hinside]
  simp only [expectedResult]
  rw [exclusiveScan_zero]
  rw [← hlength]
  exact hlt

omit [Inhabited T] in
/-- Count and displacement of a block in the buffers of its source. -/
theorem getElem?_sendBuffers (hinside : BlocksInside args) (source destination : Fin p) :
    (args.sendCounts source)[(destination : ℕ)]? = some (sendCount args source destination) ∧
      (sendDisplsOf args source)[(destination : ℕ)]? =
        some (sendDispl args source destination) := by
  have hcounts : destination < (args.sendCounts source).length := by
    rw [hinside.length_sendCounts]
    exact destination.isLt
  have hdispls : destination < (sendDisplsOf args source).length :=
    Nat.lt_of_lt_of_le destination.isLt (le_length_sendDisplsOf hinside source)
  rw [sendCount, sendDispl, List.getD_eq_getElem _ _ hcounts, List.getD_eq_getElem _ _ hdispls]
  exact ⟨List.getElem?_eq_getElem hcounts, List.getElem?_eq_getElem hdispls⟩

/-- `MPI_Alltoallv` delivers the blocks of all sources in their order. -/
theorem mpiAlltoallv_eq_expectedResult (hinside : BlocksInside args) (hfit : SumsFit args)
    (hreceive : ReceiveComputed args) :
    mpiAlltoallv (.world p) (mpiArguments args) = some (expectedResult args).recvBuf := by
  rw [mpiAlltoallv_eq_some (sentBlock args)]
  · rfl
  · intro source destination _
    obtain ⟨hcount, hdispl⟩ := getElem?_sendBuffers hinside source destination
    rw [Communicators.rankOf_world]
    simp only [MpiAlltoallvArguments.block, mpiArguments, hcount, hdispl, Option.bind_eq_bind,
      Option.bind_some, readBlock_sentBlock hinside]
  · intro rank
    change _ <+: (List.finRange p).map fun source => sendCount args source rank
    rw [← recvCounts_expectedResult hinside]
    simp [expectedResult, receivedLengths, Function.comp_def]
  · intro rank
    change _ <+: exclusiveScan 0 ((List.finRange p).map fun source => sendCount args source rank)
    rw [← recvDispls_expectedResult hinside hfit]
    exact List.prefix_rfl
  · intro rank
    exact BufferResizePolicy.le_length_resizeIfRequested fun hpolicy =>
      length_concatenated_le hinside hreceive hpolicy rank

omit [Inhabited T] in
/-- The wrapper of `MPI_Alltoallv` uses the same send displacements. -/
theorem displacements_world (hinside : BlocksInside args) (hfit : SumsFit args) :
    displacements (.world p) args.sendCounts args.sendDispls = some (sendDisplsOf args) := by
  have hgrid := gridSendDispls_eq_some hinside hfit
  have hlength := hinside.length_sendCounts
  cases hdispls : args.sendDispls with
  | given displs =>
      rw [hdispls] at hgrid
      rw [← hgrid, displacements, if_pos fun rank => ?_]
      · rfl
      · rw [Communicators.size_world]
        exact hinside.displs displs hdispls rank
  | computed policy buffers =>
      rw [hdispls] at hgrid
      simp only [gridSendDispls, hlength, le_refl, true_and] at hgrid
      simp only [displacements, Communicators.size_world]
      exact hgrid

omit [Inhabited T] in
/-- The wrapper of `MPI_Alltoallv` finds the same receive counts. -/
theorem receiveCounts_world (hinside : BlocksInside args) (hreceive : ReceiveComputed args) :
    receiveCounts (.world p) args.sendCounts args.recvCounts =
      some fun rank => (receivedLengths (.world p) (sentBlock args) rank).map Nat.cast := by
  rcases hreceive.recvCounts with hcomputed | hgiven
  · rw [funext (sendCounts_eq hinside)]
    refine receiveCounts_computed ?_
    rw [funext Communicators.size_world]
    exact hcomputed
  · rw [hgiven, receiveCounts, if_pos fun rank => by simp [Communicators.size_world]]
    exact congrArg some (funext fun rank => (map_length_sentBlock hinside rank).symm)

/-- The wrapper of `MPI_Alltoallv` returns the same. -/
theorem alltoallv_eq_expectedResult (hinside : BlocksInside args) (hfit : SumsFit args)
    (hreceive : ReceiveComputed args)
    (hsendBuf : ∀ rank, sendBlocksFit p (args.sendCounts rank) (sendDisplsOf args rank)
      (args.sendBuf rank).length) :
    alltoallv (.world p) args = some (expectedResult args) := by
  have hsize : (Communicators.world p).size = fun _ => p := funext Communicators.size_world
  refine alltoallv_eq_some (sentBlock args) _ (sendCounts_eq hinside)
    (displacements_world hinside hfit) ?_ ?_ ?_ ?_ (length_concatenated_lt hinside hfit)
    fun hpolicy rank => length_concatenated_le hinside hreceive hpolicy rank
  · intro source destination _
    refine ⟨sendDispl args source destination, ?_, ?_⟩
    · rw [Communicators.rankOf_world]
      exact (getElem?_sendBuffers hinside source destination).2
    · rw [length_sentBlock hinside]
      exact readBlock_sentBlock hinside source destination
  · rw [hsize]
    exact hsendBuf
  · exact receiveCounts_world hinside hreceive
  · rw [hsize]
    exact hreceive.recvDispls

/-- A result is that of the builtin exchange: of `MPI_Alltoallv`, and of its wrapper if
the assertion on the send buffers holds.  The blocks of all sources stand one after the
other, behind their exact counts and displacements. -/
structure DeliversBuiltin (args : AlltoallvArguments p T) (result : AlltoallvResult p T) :
    Prop where
  mpi : mpiAlltoallv (.world p) (mpiArguments args) = some result.recvBuf
  wrapper : (∀ rank, sendBlocksFit p (args.sendCounts rank) (sendDisplsOf args rank)
    (args.sendBuf rank).length) → alltoallv (.world p) args = some result
  recvCounts : ∀ rank, result.recvCounts rank =
    (List.finRange p).map fun source => sendCount args source rank
  recvDispls : ∀ rank, result.recvDispls rank = exclusiveScan 0 (result.recvCounts rank)
  recvBuf : ∀ rank, result.recvBuf rank = overwrite (concatenated args rank)
    (args.recvBufPolicy.resizeIfRequested (concatenated args rank).length default
      (args.recvBuf rank))

theorem deliversBuiltin_expectedResult (hinside : BlocksInside args) (hfit : SumsFit args)
    (hreceive : ReceiveComputed args) : DeliversBuiltin args (expectedResult args) where
  mpi := mpiAlltoallv_eq_expectedResult hinside hfit hreceive
  wrapper := alltoallv_eq_expectedResult hinside hfit hreceive
  recvCounts := recvCounts_expectedResult hinside
  recvDispls rank := by
    rw [recvDispls_expectedResult hinside hfit, recvCounts_expectedResult hinside]
  recvBuf _ := rfl

/-- A receive buffer that is resized to fit holds exactly the blocks of all sources. -/
theorem DeliversBuiltin.recvBuf_eq {result : AlltoallvResult p T}
    (h : DeliversBuiltin args result) (hpolicy : args.recvBufPolicy = .resizeToFit)
    (rank : Fin p) : result.recvBuf rank = concatenated args rank := by
  rw [h.recvBuf, hpolicy]
  exact overwrite_eq (length_resizeVector _ _ _)

/-- The exchange over the grid delivers what `MPI_Alltoallv` delivers, and with
envelopes the same messages with their true sources and destinations. -/
theorem gridAlltoallv_delivers_builtin (args : AlltoallvArguments p T)
    (hinside : BlocksInside args) (hfit : SumsFit args) (hreceive : ReceiveComputed args) :
    (∃ result, gridAlltoallv (makeGridCommunicator p) args = some result ∧
      DeliversBuiltin args result) ∧
    ∀ level, ∃ messages,
      alltoallvWithEnvelope (makeGridCommunicator p) level args.sendBuf args.sendCounts
        args.sendDispls = some messages ∧
      ∀ rank, (messages rank).Perm ((List.finRange p).flatMap fun source =>
        (sentBlock args source rank).map (trueEnvelope level source rank)) := by
  refine ⟨⟨expectedResult args, gridAlltoallv_eq_some hinside hfit hreceive,
    deliversBuiltin_expectedResult hinside hfit hreceive⟩, fun level => ?_⟩
  refine ⟨_, alltoallvWithEnvelope_eq_some hinside hfit level
    (gridSendDispls_eq_some hinside hfit), fun rank => ?_⟩
  simp only [← envelope_eq_trueEnvelope]
  exact delivered_perm _ _ rank

/-- Three ranks in a grid with an incomplete row, with blocks in a permuted order. -/
def threeRanks : AlltoallvArguments 3 ℕ :=
  { sendBuf := fun rank => [10 * rank, 10 * rank + 1, 10 * rank + 2]
    sendCounts := fun _ => [1, 0, 2]
    sendDispls := .given fun _ => [2, 0, 0]
    recvCounts := .omitted
    recvDispls := .omitted
    recvBufPolicy := .resizeToFit
    recvBuf := fun _ => [] }

theorem gridAlltoallv_delivers_builtin_threeRanks :
    ∃ result, gridAlltoallv (makeGridCommunicator 3) threeRanks = some result ∧
      result.recvBuf 2 = [0, 1, 10, 11, 20, 21] := by
  obtain ⟨⟨result, hgrid, hdelivers⟩, -⟩ := gridAlltoallv_delivers_builtin threeRanks
    { length_sendCounts := by decide
      nonneg := by decide
      displs := fun displs hdispls => by cases hdispls; decide
      computed := fun hcomputed => absurd hcomputed (by decide)
      inside := by decide }
    { sent := by decide, received := by decide, relayed := by decide +kernel }
    { recvCounts := .inl (Parameter.computedInto_omitted _)
      recvDispls := Parameter.computedInto_omitted _
      recvBuf := by decide }
  exact ⟨result, hgrid, hdelivers.recvBuf_eq rfl 2⟩

end Builtin

end MpiBindings.GridAlltoall
