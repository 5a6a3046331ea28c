import MpiBindings.Collectives.Alltoall
import MpiBindings.GridAlltoall.Grid

/-!
# Indirect exchange over the grid

A message is first sent along the row of its source to the column of its
destination, and then along that column to the destination.  Every message carries
its destination, and its source where the envelope level asks for it.
-/

namespace MpiBindings.GridAlltoall

open Collectives CountingSort

/-! ## Envelopes -/

/-- `MessageEnvelopeLevel`. -/
inductive MessageEnvelopeLevel where
  | noEnvelope
  | source
  | sourceAndDestination
deriving DecidableEq, Repr

/-- A message with the ranks that its envelope holds. -/
structure MessageEnvelope (T : Type) where
  payload : T
  source : Option ℕ
  destination : Option ℕ
deriving DecidableEq, Repr

instance {T : Type} [Inhabited T] : Inhabited (MessageEnvelope T) where
  default := { payload := default, source := none, destination := none }

/-- Envelope for the exchange along a row: the destination is always needed. -/
def rowEnvelope {T : Type} (level : MessageEnvelopeLevel) (source destination : ℕ)
    (payload : T) : MessageEnvelope T :=
  match level with
  | .noEnvelope => { payload, source := none, destination := some destination }
  | .source => { payload, source := some source, destination := some destination }
  | .sourceAndDestination => { payload, source := some source, destination := some destination }

/-- Envelope for the exchange along a column: what the caller asks for. -/
def columnEnvelope {T : Type} (level : MessageEnvelopeLevel) (message : MessageEnvelope T) :
    MessageEnvelope T :=
  match level with
  | .noEnvelope => { payload := message.payload, source := none, destination := none }
  | .source => { payload := message.payload, source := message.source, destination := none }
  | .sourceAndDestination =>
      { payload := message.payload, source := message.source, destination := message.destination }

/-! ## Exchange along the rows -/

/-- A send buffer of one rank with its counts and displacements. -/
structure SendBuffers (T : Type) where
  sendBuf : List T
  sendCounts : List ℤ
  sendDispls : List ℤ

section Row

variable {T : Type}

/-- `compute_row_send_counts`. -/
def computeRowSendCounts (numColumns rowSize : ℕ) (sendCounts : List ℤ) : Option (List ℤ) :=
  tally (sendCounts.mapIdx fun destination count =>
      ((posInCompleteGrid numColumns destination).colIndex, count))
    (List.replicate rowSize 0)

/-- The elements for a destination; an empty block is skipped. -/
def destinationBlock (buffers : SendBuffers T) (destination : ℕ) : Option (List T) :=
  match buffers.sendCounts[destination]? with
  | none => none
  | some count =>
      if count = 0 then some []
      else
        match buffers.sendDispls[destination]? with
        | none => none
        | some displ => readBlock buffers.sendBuf displ count

/-- The messages of a rank with their destinations in the row, in the order of their
destinations. -/
def rowwiseMessages (level : MessageEnvelopeLevel) (numColumns rank : ℕ)
    (buffers : SendBuffers T) : Option (List (ℕ × MessageEnvelope T)) :=
  ((List.range buffers.sendCounts.length).mapM fun destination =>
    (destinationBlock buffers destination).map fun block =>
      block.map fun payload => ((posInCompleteGrid numColumns destination).colIndex,
        rowEnvelope level rank destination payload)).map List.flatten

variable [Inhabited T]

/-- The buffers that a rank passes to the exchange along its row. -/
def rowwiseBuffers (level : MessageEnvelopeLevel) (numColumns rowSize rank : ℕ)
    (buffers : SendBuffers T) : Option (SendBuffers (MessageEnvelope T)) := do
  let sendCounts ← computeRowSendCounts numColumns rowSize buffers.sendCounts
  let sendDispls := exclusiveScan 0 sendCounts
  let totalSendCount ← lastEnd sendCounts.length sendCounts sendDispls
  if 0 ≤ totalSendCount then do
    let messages ← rowwiseMessages level numColumns rank buffers
    let placed ← placeItems messages (sendDispls, List.replicate totalSendCount.toNat default)
    some { sendBuf := placed.2, sendCounts, sendDispls }
  else none

end Row

/-! ## Exchange along the columns -/

section Column

variable {T : Type} [Inhabited T]

/-- The messages that a rank relays with their destinations in the column. -/
def columnwiseMessages (numColumns : ℕ) (messages : List (MessageEnvelope T)) :
    Option (List (ℕ × MessageEnvelope T)) :=
  messages.mapM fun message => message.destination.map fun destination =>
    ((posInCompleteGrid numColumns destination).rowIndex, message)

/-- The buffers that a rank passes to the exchange along its column. -/
def columnwiseBuffers (level : MessageEnvelopeLevel) (numColumns columnSize : ℕ)
    (rowwiseRecvBuf : List (MessageEnvelope T)) : Option (SendBuffers (MessageEnvelope T)) := do
  let messages ← columnwiseMessages numColumns rowwiseRecvBuf
  let sendCounts ← tally (messages.map fun message => (message.1, 1))
    (List.replicate columnSize 0)
  let sendDispls := exclusiveScan 0 sendCounts
  let placed ← placeItems
    (messages.map fun message => (message.1, columnEnvelope level message.2))
    (sendDispls, List.replicate rowwiseRecvBuf.length default)
  some { sendBuf := placed.2, sendCounts, sendDispls }

end Column

/-! ## The two exchanges -/

section World

variable {p : ℕ} {T : Type} [Inhabited T]

/-- `alltoallv` along a row or column with the buffers of all ranks. -/
def exchange {M : Type} [Inhabited M] (comms : Communicators p)
    (buffers : Fin p → SendBuffers M) : Option (Fin p → List M) :=
  (alltoallv comms (consecutiveArguments (fun rank => (buffers rank).sendBuf)
    (fun rank => (buffers rank).sendCounts) fun rank => (buffers rank).sendDispls)).map
      (·.recvBuf)

/-- `rowwise_exchange`. -/
def rowwiseExchange (grid : GridCommunicator p) (level : MessageEnvelopeLevel)
    (buffers : Fin p → SendBuffers T) : Option (Fin p → List (MessageEnvelope T)) := do
  let rowBuffers ← allRanks fun rank =>
    rowwiseBuffers level grid.numColumns (grid.rowComm.size rank) rank (buffers rank)
  exchange grid.rowComm rowBuffers

/-- `columnwise_exchange`. -/
def columnwiseExchange (grid : GridCommunicator p) (level : MessageEnvelopeLevel)
    (rowwiseRecvBuf : Fin p → List (MessageEnvelope T)) :
    Option (Fin p → List (MessageEnvelope T)) := do
  let columnBuffers ← allRanks fun rank =>
    columnwiseBuffers level grid.numColumns (grid.columnComm.size rank) (rowwiseRecvBuf rank)
  exchange grid.columnComm columnBuffers

/-- Send displacements: those of the caller, or the exclusive prefix sums of the first
`p` send counts. -/
def gridSendDispls (sendCounts : Fin p → List ℤ) : Parameter p → Option (Fin p → List ℤ)
  | .given displs => some displs
  | .computed policy buffers =>
      let resized := fun rank => policy.resizeIfRequested p 0 (buffers rank)
      if ∀ rank, p ≤ (sendCounts rank).length ∧ p ≤ (resized rank).length then
        some fun rank => overwrite (exclusiveScan 0 ((sendCounts rank).take p)) (resized rank)
      else none

/-- `alltoallv_with_envelope`. -/
def alltoallvWithEnvelope (grid : GridCommunicator p) (level : MessageEnvelopeLevel)
    (sendBuf : Fin p → List T) (sendCounts : Fin p → List ℤ) (sendDispls : Parameter p) :
    Option (Fin p → List (MessageEnvelope T)) := do
  let displs ← gridSendDispls sendCounts sendDispls
  let rowwiseRecvBuf ← rowwiseExchange grid level fun rank =>
    { sendBuf := sendBuf rank, sendCounts := sendCounts rank, sendDispls := displs rank }
  columnwiseExchange grid level rowwiseRecvBuf

/-! ## Exchange without envelopes -/

/-- The received messages with their sources. -/
def sourceMessages (messages : List (MessageEnvelope T)) : Option (List (ℕ × T)) :=
  messages.mapM fun message => message.source.map fun source => (source, message.payload)

/-- Receive counts: those of the caller, or the numbers of messages of each source. -/
def gridRecvCounts (messages : Fin p → List (ℕ × T)) : Parameter p → Option (Fin p → List ℤ)
  | .given counts => if ∀ rank, p ≤ (counts rank).length then some counts else none
  | .computed policy buffers =>
      let resized := fun rank => policy.resizeIfRequested p 0 (buffers rank)
      if ∀ rank, p ≤ (resized rank).length then
        allRanks fun rank => tally ((messages rank).map fun message => (message.1, 1))
          (List.replicate (resized rank).length 0)
      else none

/-- Receive displacements: those of the caller, or the exclusive prefix sums of all
receive counts. -/
def gridRecvDispls (recvCounts : Fin p → List ℤ) : Parameter p → Option (Fin p → List ℤ)
  | .given displs => some displs
  | .computed policy buffers =>
      let resized := fun rank => policy.resizeIfRequested p 0 (buffers rank)
      if ∀ rank, p ≤ (resized rank).length ∧ (recvCounts rank).length ≤ (resized rank).length then
        some fun rank => overwrite (exclusiveScan 0 (recvCounts rank)) (resized rank)
      else none

/-- Size that `write_recv_buffer` requires of the receive buffer. -/
def gridRequiredSize (recvCounts recvDispls : List ℤ) : Option ℕ :=
  match recvDispls.getLast?, recvCounts.getLast? with
  | some displ, some count =>
      if 0 ≤ addInt displ count then some (addInt displ count).toNat else none
  | _, _ => none

/-- `write_recv_buffer`. -/
def writeRecvBuffer (policy : BufferResizePolicy) (messages : List (ℕ × T))
    (recvCounts recvDispls : List ℤ) (recvBuf : List T) : Option (List T) :=
  (preparedRecvBuf policy (gridRequiredSize recvCounts recvDispls) recvBuf).bind fun buffer =>
    (placeItems messages (recvDispls, buffer)).map (·.2)

/-- `alltoallv` of the grid communicator. -/
def gridAlltoallv (grid : GridCommunicator p) (args : AlltoallvArguments p T) :
    Option (AlltoallvResult p T) := do
  let sendDispls ← gridSendDispls args.sendCounts args.sendDispls
  let gridRecvBuf ← alltoallvWithEnvelope grid .source args.sendBuf args.sendCounts
    (.given sendDispls)
  let messages ← allRanks fun rank => sourceMessages (gridRecvBuf rank)
  let recvCounts ← gridRecvCounts messages args.recvCounts
  let recvDispls ← gridRecvDispls recvCounts args.recvDispls
  let recvBuf ← allRanks fun rank =>
    writeRecvBuffer args.recvBufPolicy (messages rank) (recvCounts rank) (recvDispls rank)
      (args.recvBuf rank)
  some { recvBuf, recvCounts, recvDispls, sendDispls }

end World

end MpiBindings.GridAlltoall
