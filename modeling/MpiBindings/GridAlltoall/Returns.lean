import MpiBindings.Collectives.ReturnedCalls
import MpiBindings.Core.CountingSortExactness
import MpiBindings.GridAlltoall.Routing

/-!
# Exchanges that return

All counts and displacements of the exchange over the grid are machine integers.  An
exchange in which one of them wraps around places some message outside of its buffer,
so an exchange that returns has routed every message, also those that no rank should
have been sent.
-/

namespace MpiBindings.GridAlltoall

open Collectives CountingSort

/-! ## Exchange along the rows -/

section Row

variable {T : Type} [Inhabited T] {level : MessageEnvelopeLevel} {numColumns rowSize rank : ℕ}
  {buffers : SendBuffers T}

/-- Buffers that a rank prepares hold all its messages, which fit. -/
theorem rowwiseBuffers_cases (hcolumns : 0 < numColumns) (hsize : numColumns ≤ rowSize)
    {result : SendBuffers (MessageEnvelope T)}
    (hresult : rowwiseBuffers level numColumns rowSize rank buffers = some result) :
    ∃ items, rowwiseMessages level numColumns rank buffers = some items ∧
      (∀ item ∈ items, item.1 < rowSize) ∧ items.length < 2 ^ 31 ∧
      computeRowSendCounts numColumns rowSize buffers.sendCounts =
        some ((keyCounts items rowSize).map Nat.cast) := by
  obtain ⟨sendCounts, hcounts, hresult⟩ := Option.bind_eq_some_iff.mp hresult
  obtain ⟨total, htotal, hresult⟩ := Option.bind_eq_some_iff.mp hresult
  rw [Option.ite_none_right_eq_some] at hresult
  obtain ⟨hnonneg, hresult⟩ := hresult
  obtain ⟨items, hmessages, hresult⟩ := Option.bind_eq_some_iff.mp hresult
  obtain ⟨placed, hplaced, -⟩ := Option.bind_eq_some_iff.mp hresult
  have hkeys := rowwiseMessages_lt hcolumns hsize hmessages
  have hscan : exclusiveScan 0 sendCounts =
      exclusiveScan 0 ((keyCounts items rowSize).map Nat.cast) := by
    rw [computeRowSendCounts_bmod hcolumns hsize hmessages] at hcounts
    rw [← Option.some.inj hcounts, ← exclusiveScan_bmod 0 ((keyCounts items rowSize).map Nat.cast),
      List.map_map, Function.comp_def]
  have hbuffer := lastEnd_lt htotal
  have hlt : items.length < 2 ^ 31 := by
    rw [hscan] at hplaced
    exact length_lt_of_placeItems hkeys (by rw [List.length_replicate]; omega) hplaced
  exact ⟨items, hmessages, hkeys, hlt,
    computeRowSendCounts_of_messages hcolumns hsize hmessages hlt⟩

end Row

/-! ## Delivery along a row or column -/

section Exchange

variable {p : ℕ} {M : Type} [Inhabited M] {comms : Communicators p}
  {items : Fin p → List (ℕ × M)} {result : Fin p → List M}

/-- An exchange that returns had room for what every rank received. -/
theorem received_lt_of_exchange (hresult : exchange comms (keyBuffers comms items) = some result)
    (rank : Fin p) : (received comms (keyBlock comms items) rank).length < 2 ^ 31 := by
  obtain ⟨output, houtput, -⟩ := Option.map_eq_some_iff.mp hresult
  exact received_lt_of_alltoallv houtput rank

/-- An exchange that returns delivers the messages by their keys. -/
theorem exchange_cases (hkeys : ∀ rank, ∀ item ∈ items rank, item.1 < comms.size rank)
    (hsent : ∀ rank, (items rank).length < 2 ^ 31)
    (hresult : exchange comms (keyBuffers comms items) = some result) (rank : Fin p) :
    result rank = received comms (keyBlock comms items) rank ∧
      (result rank).length < 2 ^ 31 := by
  have hlt := received_lt_of_exchange hresult
  rw [exchange_keyBuffers comms hkeys hsent hlt] at hresult
  rw [← Option.some.inj hresult]
  exact ⟨rfl, hlt rank⟩

end Exchange

/-! ## The two exchanges -/

section Grid

variable {p : ℕ} {T : Type} [Inhabited T] {level : MessageEnvelopeLevel}

/-- Messages that every rank collects for its row are delivered to their columns. -/
theorem rowwiseExchange_cases {buffers : Fin p → SendBuffers T}
    {result : Fin p → List (MessageEnvelope T)}
    (hresult : rowwiseExchange (makeGridCommunicator p) level buffers = some result) :
    ∃ items : Fin p → List (ℕ × MessageEnvelope T),
      (∀ rank : Fin p,
        rowwiseMessages level (gridColumns p) rank (buffers rank) = some (items rank)) ∧
      (∀ rank, ∀ item ∈ items rank,
        item.1 < (makeGridCommunicator p).rowComm.size rank) ∧
      (∀ rank, (items rank).length < 2 ^ 31) ∧
      ∀ rank, result rank = received (makeGridCommunicator p).rowComm
          (keyBlock (makeGridCommunicator p).rowComm items) rank ∧
        (result rank).length < 2 ^ 31 := by
  obtain ⟨rowBuffers, hbuffers, hexchange⟩ := Option.bind_eq_some_iff.mp hresult
  choose items hmessages hkeys hlt hcounts using fun rank : Fin p =>
    rowwiseBuffers_cases (gridColumns_pos (Nat.zero_lt_of_lt rank.isLt))
      (gridColumns_le_size_row rank) (allRanks_eq_some.mp hbuffers rank)
  have hprepared : rowBuffers = keyBuffers (makeGridCommunicator p).rowComm items := by
    funext rank
    have hrank := rowwiseBuffers_of_messages (makeGridCommunicator p).rowComm (hmessages rank)
      (hkeys rank) (hlt rank) (by
        rw [hcounts rank, keyBuffers, sentLengths_keyBlock]
        rfl)
    exact Option.some.inj ((allRanks_eq_some.mp hbuffers rank).symm.trans hrank)
  rw [hprepared] at hexchange
  exact ⟨items, hmessages, hkeys, hlt, exchange_cases hkeys hlt hexchange⟩

/-- A relay that prepares buffers for its column knows the rows of all destinations. -/
theorem columnwiseBuffers_cases {numColumns columnSize : ℕ}
    {rowwiseRecvBuf : List (MessageEnvelope T)} {result : SendBuffers (MessageEnvelope T)}
    (hresult : columnwiseBuffers level numColumns columnSize rowwiseRecvBuf = some result)
    {message : MessageEnvelope T} (hmessage : message ∈ rowwiseRecvBuf) {destination : ℕ}
    (hdestination : message.destination = some destination) :
    (posInCompleteGrid numColumns destination).rowIndex < columnSize := by
  obtain ⟨messages, hmessages, hresult⟩ := Option.bind_eq_some_iff.mp hresult
  obtain ⟨counts, hcounts, -⟩ := Option.bind_eq_some_iff.mp hresult
  obtain ⟨index, hindex⟩ := List.mem_iff_getElem?.mp hmessage
  obtain ⟨routed, hrouted, hget⟩ := exists_of_mapM hmessages hindex
  rw [hdestination, Option.map_some] at hrouted
  have hlt := lt_length_of_tally hcounts (routed.1, 1)
    (List.mem_map.mpr ⟨routed, List.mem_of_getElem? hget, rfl⟩)
  rw [List.length_replicate, ← Option.some.inj hrouted] at hlt
  exact hlt

/-- An exchange over the grid that returns has sent blocks whose volumes fit, and has
delivered them. -/
theorem exists_sends_of_alltoallvWithEnvelope {sendBuf : Fin p → List T}
    {sendCounts displs : Fin p → List ℤ} {result : Fin p → List (MessageEnvelope T)}
    (hlength : ∀ rank, (sendCounts rank).length = p)
    (hresult : alltoallvWithEnvelope (makeGridCommunicator p) level sendBuf sendCounts
      (.given displs) = some result) :
    ∃ block : Fin p → Fin p → List T,
      Sends (fun rank =>
        { sendBuf := sendBuf rank, sendCounts := sendCounts rank, sendDispls := displs rank })
        block ∧
      VolumesFit block ∧
      result = fun rank => (sourceOrder rank).flatMap fun source =>
        (block source rank).map (envelope level source rank) := by
  obtain ⟨rowwiseRecvBuf, hrow, hcolumn⟩ := Option.bind_eq_some_iff.mp hresult
  obtain ⟨items, hmessages, -, hsent, hreceived⟩ := rowwiseExchange_cases hrow
  choose blocks hblocks hitems using fun rank => rowwiseMessages_cases (hmessages rank)
  let block (source destination : Fin p) : List T := blocks source destination
  have hsends : Sends (fun rank =>
      { sendBuf := sendBuf rank, sendCounts := sendCounts rank, sendDispls := displs rank })
      block :=
    { counts := fun source => by
        have hcounts := sendCounts_eq_map (hblocks source)
        dsimp only at hcounts
        rw [hlength, ← List.map_coe_finRange_eq_range, List.map_map] at hcounts
        exact hcounts
      blocks := fun source destination => hblocks source destination (by
        rw [hlength]
        exact destination.isLt) }
  have hrowItems : items = rowItems level block := by
    funext source
    have hsource : rowwiseMessages level (gridColumns p) source _ = some _ :=
      rowwiseMessages_eq_some hsends source
    rw [hmessages source] at hsource
    exact Option.some.inj hsource
  subst hrowItems
  have hrelayed := fun relay => (hreceived relay).1.trans (received_rowItems level block relay)
  have hrelayedLength : ∀ relay, (relayed block relay).length < 2 ^ 31 := by
    intro relay
    have hlt := (hreceived relay).2
    rwa [hrelayed relay, List.length_map] at hlt
  obtain ⟨columnBuffers, hbuffers, hexchange⟩ := Option.bind_eq_some_iff.mp hcolumn
  have hprepared : columnBuffers =
      keyBuffers (makeGridCommunicator p).columnComm (columnItems level block) := by
    funext relay
    have hrelay := allRanks_eq_some.mp hbuffers relay
    rw [hrelayed relay] at hrelay
    exact Option.some.inj
      (hrelay.symm.trans (columnwiseBuffers_eq_some level (hrelayedLength relay)))
  rw [hprepared] at hexchange
  have hfit : VolumesFit block :=
    { sent := fun source => by
        rw [← @length_rowItems p T level block]
        exact hsent source
      relayed := hrelayedLength
      received := fun destination => by
        have hlt := received_lt_of_exchange hexchange destination
        rw [received_columnItems, (delivered_perm _ _ destination).length_eq] at hlt
        simpa [List.length_flatMap] using hlt }
  refine ⟨block, hsends, hfit, ?_⟩
  rw [funext hrelayed, columnwiseExchange_eq_some hfit] at hcolumn
  exact (Option.some.inj hcolumn).symm

end Grid

end MpiBindings.GridAlltoall
