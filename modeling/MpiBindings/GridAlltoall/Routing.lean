import MpiBindings.GridAlltoall.Exchange

/-!
# Routing

Each of the two exchanges distributes messages by a key: the column of the
destination, then its row.  Together they deliver every message to its destination.
-/

namespace MpiBindings.GridAlltoall

open Collectives CountingSort

/-! ## Distribution by a key -/

section Distribution

variable {p : ℕ} {M : Type} (comms : Communicators p) (items : Fin p → List (ℕ × M))

/-- Messages of a rank whose key is the rank of the receiver. -/
def keyBlock (sender receiver : Fin p) : List M :=
  withKey (items sender) (comms.rankOf receiver)

/-- Buffers that distribute the messages of all ranks by their keys. -/
def keyBuffers (rank : Fin p) : SendBuffers M :=
  { sendBuf := (comms.members rank).flatMap (keyBlock comms items rank)
    sendCounts := (sentLengths comms (keyBlock comms items) rank).map Nat.cast
    sendDispls := (prefixSums 0 (sentLengths comms (keyBlock comms items) rank)).map Nat.cast }

variable {comms items}

theorem sentLengths_keyBlock (rank : Fin p) :
    sentLengths comms (keyBlock comms items) rank =
      (List.range (comms.size rank)).map fun key => (withKey (items rank) key).length := by
  rw [← comms.map_rankOf, List.map_map]
  rfl

theorem flatMap_keyBlock (rank : Fin p) :
    (comms.members rank).flatMap (keyBlock comms items rank) =
      (List.range (comms.size rank)).flatMap (withKey (items rank)) := by
  rw [← comms.map_rankOf, List.flatMap_map]
  rfl

variable (comms) in
theorem sum_sentLengths {rank : Fin p} (hkeys : ∀ item ∈ items rank, item.1 < comms.size rank) :
    (sentLengths comms (keyBlock comms items) rank).sum = (items rank).length := by
  rw [sentLengths_keyBlock]
  exact sum_keyCounts hkeys

theorem length_keyBuffers {rank : Fin p}
    (hkeys : ∀ item ∈ items rank, item.1 < comms.size rank) :
    (keyBuffers comms items rank).sendBuf.length = (items rank).length := by
  rw [← sum_sentLengths _ hkeys]
  simp [keyBuffers, sentLengths, List.length_flatMap]

variable (comms) in
/-- Placing the messages at the prefix sums of their counts fills the send buffer. -/
theorem placeItems_keyBuffers [Inhabited M] {rank : Fin p}
    (hkeys : ∀ item ∈ items rank, item.1 < comms.size rank)
    (hlt : (items rank).length < 2 ^ 31) :
    (placeItems (items rank) ((keyBuffers comms items rank).sendDispls,
      List.replicate (items rank).length default)).map (·.2) =
        some (keyBuffers comms items rank).sendBuf := by
  simp only [keyBuffers, sentLengths_keyBlock, flatMap_keyBlock]
  exact placeItems_prefixSums _ hkeys (by simp) hlt

variable (comms) in
/-- The exchange delivers the messages by their keys. -/
theorem exchange_keyBuffers [Inhabited M]
    (hkeys : ∀ rank, ∀ item ∈ items rank, item.1 < comms.size rank)
    (hsent : ∀ rank, (items rank).length < 2 ^ 31)
    (hreceived : ∀ rank, (received comms (keyBlock comms items) rank).length < 2 ^ 31) :
    exchange comms (keyBuffers comms items) = some (received comms (keyBlock comms items)) :=
  alltoallv_consecutive (fun rank => by
    have hlength := length_keyBuffers (hkeys rank)
    simp only [keyBuffers] at hlength
    rw [hlength]
    exact hsent rank) hreceived

variable (comms) in
/-- Counts found by a tally give the displacements of the buffers. -/
theorem exclusiveScan_keyBuffers {rank : Fin p}
    (hkeys : ∀ item ∈ items rank, item.1 < comms.size rank)
    (hlt : (items rank).length < 2 ^ 31) :
    exclusiveScan 0 (keyBuffers comms items rank).sendCounts =
      (keyBuffers comms items rank).sendDispls := by
  simp only [keyBuffers]
  rw [exclusiveScan_zero]
  rw [sum_sentLengths _ hkeys]
  exact hlt

end Distribution

/-! ## Messages of a rank -/

section Messages

variable {T : Type} {level : MessageEnvelopeLevel} {numColumns rowSize rank : ℕ}
  {buffers : SendBuffers T} {block : ℕ → List T} {items : List (ℕ × MessageEnvelope T)}

theorem length_of_destinationBlock {destination : ℕ} {blk : List T}
    (hblock : destinationBlock buffers destination = some blk) :
    buffers.sendCounts[destination]? = some (blk.length : ℤ) := by
  rw [destinationBlock] at hblock
  split at hblock
  · cases hblock
  rename_i count hcount
  rw [hcount]
  split at hblock
  · rename_i hzero
    rw [← Option.some.inj hblock, hzero]
    rfl
  split at hblock
  · cases hblock
  rw [length_of_readBlock hblock]

/-- The messages of a rank by their destinations. -/
def messagesTo (level : MessageEnvelopeLevel) (numColumns rank : ℕ) (block : ℕ → List T)
    (destination : ℕ) : List (ℕ × MessageEnvelope T) :=
  (block destination).map fun payload => ((posInCompleteGrid numColumns destination).colIndex,
    rowEnvelope level rank destination payload)

/-- Blocks of all destinations are collected in the order of the destinations. -/
theorem rowwiseMessages_of_blocks (hblock : ∀ destination < buffers.sendCounts.length,
    destinationBlock buffers destination = some (block destination)) :
    rowwiseMessages level numColumns rank buffers =
      some ((List.range buffers.sendCounts.length).flatMap
        (messagesTo level numColumns rank block)) := by
  rw [rowwiseMessages, mapM_eq_some_map (g := messagesTo level numColumns rank block),
    Option.map_some, List.flatMap_def]
  intro destination hdestination
  rw [hblock destination (List.mem_range.mp hdestination)]
  rfl

/-- Messages that are collected come from blocks of all destinations. -/
theorem rowwiseMessages_cases
    (hmessages : rowwiseMessages level numColumns rank buffers = some items) :
    ∃ block : ℕ → List T,
      (∀ destination < buffers.sendCounts.length,
        destinationBlock buffers destination = some (block destination)) ∧
      items = (List.range buffers.sendCounts.length).flatMap
        (messagesTo level numColumns rank block) := by
  obtain ⟨lists, hlists, -⟩ := Option.map_eq_some_iff.mp hmessages
  let block := fun destination => (destinationBlock buffers destination).getD []
  have hblock : ∀ destination < buffers.sendCounts.length,
      destinationBlock buffers destination = some (block destination) := by
    intro destination hdestination
    obtain ⟨_, hvalue, -⟩ := exists_of_mapM hlists (List.getElem?_range hdestination)
    obtain ⟨blk, hblk, -⟩ := Option.map_eq_some_iff.mp hvalue
    rw [hblk]
    simp only [block, hblk, Option.getD_some]
  rw [rowwiseMessages_of_blocks hblock] at hmessages
  exact ⟨block, hblock, (Option.some.inj hmessages).symm⟩

theorem sendCounts_eq_map (hblock : ∀ destination < buffers.sendCounts.length,
    destinationBlock buffers destination = some (block destination)) :
    buffers.sendCounts = (List.range buffers.sendCounts.length).map fun destination =>
      ((block destination).length : ℤ) := by
  apply List.ext_getElem?
  intro destination
  by_cases hlt : destination < buffers.sendCounts.length
  · rw [length_of_destinationBlock (hblock destination hlt), List.getElem?_map,
      List.getElem?_range hlt, Option.map_some]
  · rw [List.getElem?_eq_none (by omega), List.getElem?_eq_none (by simpa using hlt)]

/-- Messages of a row have the columns of their destinations. -/
theorem rowwiseMessages_lt (hcolumns : 0 < numColumns) (hsize : numColumns ≤ rowSize)
    (hmessages : rowwiseMessages level numColumns rank buffers = some items) :
    ∀ item ∈ items, item.1 < rowSize := by
  obtain ⟨block, -, rfl⟩ := rowwiseMessages_cases hmessages
  intro item hitem
  obtain ⟨destination, -, hitem⟩ := List.mem_flatMap.mp hitem
  obtain ⟨payload, -, rfl⟩ := List.mem_map.mp hitem
  exact (Nat.mod_lt _ hcolumns).trans_le hsize

/-- Row counts are the wrapped numbers of messages of each column. -/
theorem computeRowSendCounts_bmod (hcolumns : 0 < numColumns) (hsize : numColumns ≤ rowSize)
    (hmessages : rowwiseMessages level numColumns rank buffers = some items) :
    computeRowSendCounts numColumns rowSize buffers.sendCounts =
      some ((keyCounts items rowSize).map fun count : ℕ => (count : ℤ).bmod (2 ^ 32)) := by
  obtain ⟨block, hblock, rfl⟩ := rowwiseMessages_cases hmessages
  let amounts : List (ℕ × ℕ) := (List.range buffers.sendCounts.length).map fun destination =>
    ((posInCompleteGrid numColumns destination).colIndex, (block destination).length)
  have hamounts : (buffers.sendCounts.mapIdx fun destination count =>
      ((posInCompleteGrid numColumns destination).colIndex, count)) =
        amounts.map fun item => (item.1, (item.2 : ℤ)) := by
    conv_lhs => rw [sendCounts_eq_map hblock]
    apply List.ext_getElem
    · simp [amounts]
    · intro index _ _
      simp [amounts]
  have hkeys : ∀ item ∈ amounts, item.1 < rowSize := by
    intro item hitem
    obtain ⟨destination, -, rfl⟩ := List.mem_map.mp hitem
    exact (Nat.mod_lt _ hcolumns).trans_le hsize
  have hlengths : ∀ key, amountOf amounts key =
      (withKey ((List.range buffers.sendCounts.length).flatMap
        (messagesTo level numColumns rank block)) key).length := by
    intro key
    have h := amountOf_lengths (List.range buffers.sendCounts.length)
      (fun destination => (posInCompleteGrid numColumns destination).colIndex)
      (fun destination => (block destination).map (rowEnvelope level rank destination)) key
    simp only [List.map_map, List.length_map] at h
    exact h
  rw [computeRowSendCounts, hamounts, tally_zero_bmod hkeys, keyCounts, List.map_map]
  simp only [hlengths, Function.comp_def]

/-- Row counts of messages that fit are exact. -/
theorem computeRowSendCounts_of_messages (hcolumns : 0 < numColumns)
    (hsize : numColumns ≤ rowSize)
    (hmessages : rowwiseMessages level numColumns rank buffers = some items)
    (hlt : items.length < 2 ^ 31) :
    computeRowSendCounts numColumns rowSize buffers.sendCounts =
      some ((keyCounts items rowSize).map Nat.cast) := by
  rw [computeRowSendCounts_bmod hcolumns hsize hmessages]
  apply congrArg some
  apply List.map_congr_left
  intro count hcount
  obtain ⟨key, -, rfl⟩ := List.mem_map.mp hcount
  exact bmod_natCast ((length_withKey_le items key).trans_lt hlt)

end Messages

/-! ## Exchange along the rows -/

section Row

variable {p : ℕ} {T : Type}

/-- The buffers of all ranks hold the given blocks. -/
structure Sends (buffers : Fin p → SendBuffers T) (block : Fin p → Fin p → List T) : Prop where
  counts : ∀ source, (buffers source).sendCounts =
    (List.finRange p).map fun destination => ((block source destination).length : ℤ)
  blocks : ∀ source (destination : Fin p),
    destinationBlock (buffers source) destination = some (block source destination)

/-- The messages of a source with the columns of their destinations. -/
def rowItems (level : MessageEnvelopeLevel) (block : Fin p → Fin p → List T) (source : Fin p) :
    List (ℕ × MessageEnvelope T) :=
  (List.finRange p).flatMap fun destination => (block source destination).map fun payload =>
    (columnColor p destination, rowEnvelope level source destination payload)

variable {level : MessageEnvelopeLevel} {block : Fin p → Fin p → List T}
  {buffers : Fin p → SendBuffers T}

theorem length_rowItems (source : Fin p) :
    (rowItems level block source).length =
      ((List.finRange p).map fun destination => (block source destination).length).sum := by
  simp [rowItems, List.length_flatMap]

variable (level) (block) in
theorem rowItems_lt (source : Fin p) :
    ∀ item ∈ rowItems level block source,
      item.1 < (makeGridCommunicator p).rowComm.size source := by
  intro item hitem
  obtain ⟨destination, -, hitem⟩ := List.mem_flatMap.mp hitem
  obtain ⟨payload, -, rfl⟩ := List.mem_map.mp hitem
  have hp : 0 < p := Nat.zero_lt_of_lt source.isLt
  exact Nat.lt_of_lt_of_le (Nat.mod_lt _ (gridColumns_pos hp)) (gridColumns_le_size_row source)

theorem rowwiseMessages_eq_some (hsends : Sends buffers block) (source : Fin p) :
    rowwiseMessages level (gridColumns p) source (buffers source) =
      some (rowItems level block source) := by
  have hlength : (buffers source).sendCounts.length = p := by simp [hsends.counts]
  rw [rowwiseMessages, hlength, ← List.map_coe_finRange_eq_range, List.mapM_map,
    mapM_eq_some_map (g := fun destination : Fin p => (block source destination).map fun payload =>
      (columnColor p destination, rowEnvelope level source destination payload))]
  · simp [rowItems, List.flatMap_def]
  · intro destination _
    simp only [Function.comp_apply, hsends.blocks source destination, Option.map_some]
    rfl

variable (level) in
theorem computeRowSendCounts_eq_some (hsends : Sends buffers block) {source : Fin p}
    (hlt : (rowItems level block source).length < 2 ^ 31) :
    computeRowSendCounts (gridColumns p) ((makeGridCommunicator p).rowComm.size source)
        (buffers source).sendCounts =
      some (keyBuffers (makeGridCommunicator p).rowComm (rowItems level block)
        source).sendCounts := by
  rw [computeRowSendCounts_of_messages (gridColumns_pos (Nat.zero_lt_of_lt source.isLt))
    (gridColumns_le_size_row source) (rowwiseMessages_eq_some hsends source) hlt, keyBuffers,
    sentLengths_keyBlock]
  rfl

variable [Inhabited T]

/-- Messages whose counts are exact are sorted by their columns. -/
theorem rowwiseBuffers_of_messages (comms : Communicators p)
    {items : Fin p → List (ℕ × MessageEnvelope T)} {numColumns : ℕ} {source : Fin p}
    {buffer : SendBuffers T}
    (hmessages : rowwiseMessages level numColumns source buffer = some (items source))
    (hkeys : ∀ item ∈ items source, item.1 < comms.size source)
    (hlt : (items source).length < 2 ^ 31)
    (hcounts : computeRowSendCounts numColumns (comms.size source) buffer.sendCounts =
      some (keyBuffers comms items source).sendCounts) :
    rowwiseBuffers level numColumns (comms.size source) source buffer =
      some (keyBuffers comms items source) := by
  have hdispls := exclusiveScan_keyBuffers comms hkeys hlt
  have hsum := sum_sentLengths comms hkeys
  have hlast : lastEnd (keyBuffers comms items source).sendCounts.length
      (keyBuffers comms items source).sendCounts (keyBuffers comms items source).sendDispls =
        some ((items source).length : ℤ) := by
    have h := lastEnd_prefixSums (sentLengths comms (keyBlock comms items) source)
      (List.length_pos_iff.mp (by simpa using comms.size_pos source)) (by rwa [hsum])
    rw [hsum] at h
    simpa [keyBuffers] using h
  obtain ⟨placed, hplaced, hsendBuf⟩ :=
    Option.map_eq_some_iff.mp (placeItems_keyBuffers comms hkeys hlt)
  unfold rowwiseBuffers
  simp only [Option.bind_eq_bind]
  rw [hcounts, Option.bind_some, hdispls, hlast, Option.bind_some, if_pos (by omega), hmessages,
    Option.bind_some, Int.toNat_natCast, hplaced, Option.bind_some, hsendBuf]

variable (level) in
theorem rowwiseBuffers_eq_some (hsends : Sends buffers block) {source : Fin p}
    (hlt : (rowItems level block source).length < 2 ^ 31) :
    rowwiseBuffers level (gridColumns p) ((makeGridCommunicator p).rowComm.size source) source
        (buffers source) =
      some (keyBuffers (makeGridCommunicator p).rowComm (rowItems level block) source) :=
  rowwiseBuffers_of_messages _ (rowwiseMessages_eq_some hsends source)
    (rowItems_lt level block source) hlt (computeRowSendCounts_eq_some level hsends hlt)

end Row

/-! ## Exchange along the columns -/

section Filters

variable {α β : Type*}

theorem flatMap_ite (items : List α) (P : α → Prop) [DecidablePred P] (f : α → List β) :
    (items.flatMap fun item => if P item then f item else []) =
      (items.filter P).flatMap f := by
  induction items with
  | nil => rfl
  | cons item items ih =>
      by_cases hP : P item <;> simp [hP, ih]

theorem filter_unique [DecidableEq α] {items : List α} (item : α) {P : α → Bool}
    (hnodup : items.Nodup) (hmem : item ∈ items)
    (hunique : ∀ other ∈ items, P other ↔ other = item) : items.filter P = [item] := by
  have hcongr : items.filter P = items.filter (· = item) :=
    List.filter_congr fun other hother => by
      rw [Bool.eq_iff_iff, hunique other hother, decide_eq_true_eq]
  rw [hcongr, List.filter_eq, List.count_eq_one_of_mem hnodup hmem]
  rfl

end Filters

section Column

variable {p : ℕ} {T : Type}

/-- The elements that a rank relays, with source and destination, in the order in which
they reach it. -/
def relayed (block : Fin p → Fin p → List T) (relay : Fin p) : List (Fin p × Fin p × T) :=
  ((makeGridCommunicator p).rowComm.members relay).flatMap fun source =>
    ((List.finRange p).filter fun destination : Fin p =>
      columnColor p destination = (makeGridCommunicator p).rowComm.rankOf relay).flatMap
        fun destination =>
          (block source destination).map fun payload => (source, destination, payload)

/-- The envelope in which an element is delivered. -/
def envelope (level : MessageEnvelopeLevel) (source destination : Fin p) (payload : T) :
    MessageEnvelope T :=
  columnEnvelope level (rowEnvelope level source destination payload)

/-- The messages that a rank relays with the rows of their destinations. -/
def columnItems (level : MessageEnvelopeLevel) (block : Fin p → Fin p → List T)
    (relay : Fin p) : List (ℕ × MessageEnvelope T) :=
  (relayed block relay).map fun (source, destination, payload) =>
    (destination / gridColumns p, envelope level source destination payload)

variable {level : MessageEnvelopeLevel} {block : Fin p → Fin p → List T}

variable (level) (block) in
/-- A relay receives exactly the elements to the destinations in its column. -/
theorem received_rowItems (relay : Fin p) :
    received (makeGridCommunicator p).rowComm
        (keyBlock (makeGridCommunicator p).rowComm (rowItems level block)) relay =
      (relayed block relay).map fun (source, destination, payload) =>
        rowEnvelope level source destination payload := by
  simp only [received, relayed, List.map_flatMap, keyBlock, rowItems, withKey_flatMap,
    withKey_map_const, List.map_map]
  exact List.flatMap_congr fun source _ => flatMap_ite _ _ _

/-- Only ranks of the complete rows relay elements, and only within their column. -/
theorem relayed_column {relay source destination : Fin p} {payload : T}
    (hmem : (source, destination, payload) ∈ relayed block relay) :
    columnColor p destination = columnColor p relay := by
  have hp : 0 < p := Nat.zero_lt_of_lt relay.isLt
  simp only [relayed, List.mem_flatMap, List.mem_filter, List.mem_map, decide_eq_true_eq,
    Prod.mk.injEq] at hmem
  obtain ⟨_, -, _, ⟨-, hrank⟩, _, -, rfl, rfl, rfl⟩ := hmem
  by_cases hlt : relay < completeRectangle p
  · exact hrank.trans (rankOf_row_of_lt hlt)
  · rw [rankOf_row_of_le (Nat.le_of_not_lt hlt)] at hrank
    exact absurd hrank (Nat.ne_of_lt (Nat.mod_lt _ (gridColumns_pos hp)))

variable (level) (block) in
theorem columnItems_lt (relay : Fin p) :
    ∀ item ∈ columnItems level block relay,
      item.1 < (makeGridCommunicator p).columnComm.size relay := by
  intro item hitem
  obtain ⟨⟨source, destination, payload⟩, hmem, rfl⟩ := List.mem_map.mp hitem
  exact div_lt_size_column (relayed_column hmem)

/-- The elements that a relay of a complete row holds for a rank in its column. -/
theorem withKey_columnItems_of_lt {relay rank : Fin p} (hlt : relay < completeRectangle p)
    (hcolumn : columnColor p relay = columnColor p rank) :
    withKey (columnItems level block relay) (rank / gridColumns p) =
      ((makeGridCommunicator p).rowComm.members relay).flatMap fun source =>
        (block source rank).map (envelope level source rank) := by
  simp only [columnItems, relayed, List.map_flatMap, withKey_flatMap, List.map_map]
  refine List.flatMap_congr fun source _ => ?_
  have hkey : ∀ destination : Fin p,
      withKey ((block source destination).map
        ((fun (source, destination, payload) =>
            ((destination : ℕ) / gridColumns p, envelope level source destination payload)) ∘
          fun payload => (source, destination, payload))) (rank / gridColumns p) =
        if (destination : ℕ) / gridColumns p = rank / gridColumns p then
          (block source destination).map (envelope level source destination) else [] :=
    fun destination => withKey_map_const _ _ _ _
  simp only [hkey]
  rw [flatMap_ite, List.filter_filter, filter_unique rank]
  · simp
  · exact List.nodup_finRange p
  · exact List.mem_finRange rank
  · intro destination _
    rw [rankOf_row_of_lt hlt, Bool.and_eq_true, decide_eq_true_eq, decide_eq_true_eq]
    change relay % gridColumns p = rank % gridColumns p at hcolumn
    change _ ∧ destination % gridColumns p = relay % gridColumns p ↔ _
    rw [hcolumn]
    constructor
    · rintro ⟨hdiv, hmod⟩
      refine Fin.ext ?_
      rw [← Nat.div_add_mod (destination : ℕ) (gridColumns p), hdiv, hmod, Nat.div_add_mod]
    · rintro rfl
      exact ⟨rfl, rfl⟩

/-- Ranks of the incomplete row relay nothing. -/
theorem relayed_of_le {relay : Fin p} (hle : completeRectangle p ≤ relay) :
    relayed block relay = [] := by
  have hp : 0 < p := Nat.zero_lt_of_lt relay.isLt
  refine List.flatMap_eq_nil_iff.mpr fun source _ => ?_
  rw [List.filter_eq_nil_iff.mpr, List.flatMap_nil]
  intro destination _
  rw [rankOf_row_of_le hle, decide_eq_true_eq]
  exact Nat.ne_of_lt (Nat.mod_lt _ (gridColumns_pos hp))

variable (level) (block) in
/-- A rank receives the elements of all sources, and only those addressed to it. -/
theorem received_columnItems (rank : Fin p) :
    received (makeGridCommunicator p).columnComm
        (keyBlock (makeGridCommunicator p).columnComm (columnItems level block)) rank =
      (sourceOrder rank).flatMap fun source =>
        (block source rank).map (envelope level source rank) := by
  rw [sourceOrder, List.flatMap_assoc, ← flatMap_ite]
  refine List.flatMap_congr fun relay hrelay => ?_
  rw [keyBlock, rankOf_column]
  split_ifs with hlt
  · exact withKey_columnItems_of_lt hlt (mem_column.mp hrelay)
  · rw [columnItems, relayed_of_le (Nat.le_of_not_lt hlt), List.map_nil, withKey_nil]

variable (level) in
theorem length_columnItems (relay : Fin p) :
    (columnItems level block relay).length = (relayed block relay).length :=
  List.length_map _

variable [Inhabited T]

variable (level) in
theorem columnwiseBuffers_eq_some {relay : Fin p}
    (hlt : (relayed block relay).length < 2 ^ 31) :
    columnwiseBuffers level (gridColumns p) ((makeGridCommunicator p).columnComm.size relay)
        ((relayed block relay).map fun (source, destination, payload) =>
          rowEnvelope level source destination payload) =
      some (keyBuffers (makeGridCommunicator p).columnComm (columnItems level block) relay) := by
  let comms := (makeGridCommunicator p).columnComm
  let messages : List (ℕ × MessageEnvelope T) := (relayed block relay).map
    fun (source, destination, payload) =>
      ((destination : ℕ) / gridColumns p, rowEnvelope level source destination payload)
  have hmessages : columnwiseMessages (gridColumns p)
      ((relayed block relay).map fun (source, destination, payload) =>
        rowEnvelope level source destination payload) = some messages := by
    rw [columnwiseMessages, List.mapM_map]
    refine mapM_eq_some_map fun element _ => ?_
    cases level <;> rfl
  have hitems : columnItems level block relay =
      messages.map fun message => (message.1, columnEnvelope level message.2) := by
    simp only [columnItems, messages, List.map_map]
    rfl
  rw [← length_columnItems level] at hlt
  have hcounts : tally (messages.map fun message => (message.1, 1))
      (List.replicate (comms.size relay) 0) =
        some (keyBuffers comms (columnItems level block) relay).sendCounts := by
    have hkeys : (messages.map fun message => (message.1, (1 : ℤ))) =
        (columnItems level block relay).map fun item => (item.1, (1 : ℤ)) := by
      simp only [hitems, List.map_map, Function.comp_def]
    rw [hkeys, tally_ones (columnItems_lt level block relay) hlt, keyBuffers,
      sentLengths_keyBlock]
    rfl
  have hdispls := exclusiveScan_keyBuffers comms
    (columnItems_lt level block relay) hlt
  have hplaced := placeItems_keyBuffers comms
    (columnItems_lt level block relay) hlt
  obtain ⟨placed, hplaced, hsendBuf⟩ := Option.map_eq_some_iff.mp hplaced
  unfold columnwiseBuffers
  simp only [Option.bind_eq_bind]
  rw [hmessages, Option.bind_some, hcounts, Option.bind_some, hdispls, ← hitems,
    List.length_map, ← length_columnItems level, hplaced, Option.bind_some, hsendBuf]

end Column

/-! ## Delivery -/

section Delivery

variable {p : ℕ} {T : Type} [Inhabited T] {level : MessageEnvelopeLevel}
  {block : Fin p → Fin p → List T} {buffers : Fin p → SendBuffers T}

/-- Messages of all sources and relays that a rank handles fit into an integer. -/
structure VolumesFit (block : Fin p → Fin p → List T) : Prop where
  sent : ∀ source,
    ((List.finRange p).map fun destination => (block source destination).length).sum < 2 ^ 31
  relayed : ∀ relay, (relayed block relay).length < 2 ^ 31
  received : ∀ destination,
    ((List.finRange p).map fun source => (block source destination).length).sum < 2 ^ 31

variable (level) (block) in
omit [Inhabited T] in
theorem delivered_perm (rank : Fin p) :
    ((sourceOrder rank).flatMap fun source =>
      (block source rank).map (envelope level source rank)).Perm
        ((List.finRange p).flatMap fun source =>
          (block source rank).map (envelope level source rank)) :=
  (sourceOrder_perm rank).flatMap_right _

/-- The elements that reach a rank with their sources, in the order of their delivery. -/
def deliveries (block : Fin p → Fin p → List T) (rank : Fin p) : List (ℕ × T) :=
  (sourceOrder rank).flatMap fun source =>
    (block source rank).map fun payload => ((source : ℕ), payload)

variable (block) in
omit [Inhabited T] in
theorem sourceMessages_deliveries (rank : Fin p) :
    sourceMessages ((sourceOrder rank).flatMap fun source =>
        (block source rank).map (envelope .source source rank)) =
      some (deliveries block rank) := by
  have hmessages : ((sourceOrder rank).flatMap fun source =>
      (block source rank).map (envelope .source source rank)) =
        (deliveries block rank).map fun message =>
          { payload := message.2, source := some message.1, destination := none } := by
    simp only [deliveries, List.map_flatMap, List.map_map]
    rfl
  rw [hmessages, sourceMessages, List.mapM_map]
  exact (mapM_eq_some_map (g := fun message => message) fun _ _ => rfl).trans
    (congrArg some (List.map_id' _))

omit [Inhabited T] in
/-- The elements of a source reach a rank in the order of their block. -/
theorem withKey_deliveries (rank source : Fin p) :
    withKey (deliveries block rank) source = block source rank := by
  simp only [deliveries, withKey_flatMap, withKey_map_self]
  rw [flatMap_ite, filter_unique source (nodup_sourceOrder rank)]
  · simp
  · exact (sourceOrder_perm rank).mem_iff.mpr (List.mem_finRange source)
  · intro other _
    rw [decide_eq_true_eq]
    exact Fin.val_inj

variable (block) in
omit [Inhabited T] in
theorem deliveries_lt (rank : Fin p) : ∀ item ∈ deliveries block rank, item.1 < p := by
  intro item hitem
  obtain ⟨source, -, hitem⟩ := List.mem_flatMap.mp hitem
  obtain ⟨payload, -, rfl⟩ := List.mem_map.mp hitem
  exact source.isLt

omit [Inhabited T] in
theorem length_deliveries (rank : Fin p) :
    (deliveries block rank).length =
      ((List.finRange p).map fun source => (block source rank).length).sum := by
  have hperm := delivered_perm .source block rank
  simpa [deliveries, List.length_flatMap] using hperm.length_eq

theorem rowwiseExchange_eq_some (hsends : Sends buffers block) (hfit : VolumesFit block) :
    rowwiseExchange (makeGridCommunicator p) level buffers = some fun relay =>
      (relayed block relay).map fun (source, destination, payload) =>
        rowEnvelope level source destination payload := by
  have hsent : ∀ source, (rowItems level block source).length < 2 ^ 31 := fun source => by
    rw [length_rowItems]
    exact hfit.sent source
  have hbuffers := allRanks_eq_some.mpr fun source =>
    rowwiseBuffers_eq_some level hsends (hsent source)
  have hexchange := exchange_keyBuffers ((makeGridCommunicator p).rowComm)
    (fun source => rowItems_lt level block source) hsent
    fun relay => by
      rw [received_rowItems, List.length_map]
      exact hfit.relayed relay
  rw [funext (received_rowItems level block)] at hexchange
  exact (congrArg (Option.bind · (exchange (makeGridCommunicator p).rowComm)) hbuffers).trans
    hexchange

theorem columnwiseExchange_eq_some (hfit : VolumesFit block) :
    columnwiseExchange (makeGridCommunicator p) level (fun relay =>
      (relayed block relay).map fun (source, destination, payload) =>
        rowEnvelope level source destination payload) = some fun rank =>
          (sourceOrder rank).flatMap fun source =>
            (block source rank).map (envelope level source rank) := by
  have hbuffers := allRanks_eq_some.mpr fun relay =>
    columnwiseBuffers_eq_some level (hfit.relayed relay)
  have hexchange := exchange_keyBuffers ((makeGridCommunicator p).columnComm)
    (fun relay => columnItems_lt level block relay)
    (fun relay => by
      rw [length_columnItems]
      exact hfit.relayed relay)
    fun rank => by
      rw [received_columnItems, (delivered_perm _ _ rank).length_eq]
      simpa [List.length_flatMap] using hfit.received rank
  rw [funext (received_columnItems level block)] at hexchange
  exact (congrArg (Option.bind · (exchange (makeGridCommunicator p).columnComm)) hbuffers).trans
    hexchange

end Delivery

end MpiBindings.GridAlltoall
