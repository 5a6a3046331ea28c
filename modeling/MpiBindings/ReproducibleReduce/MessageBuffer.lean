import MpiBindings.Core.MessagePassing
import Mathlib.Data.PNat.Defs

/-!
# The message buffer

`MessageBuffer` batches the intermediate results that a rank sends and keeps the
results that it receives in an inbox.  `receive` is modelled as written: the
buffer is resized to the number of entries that the receive count asks for, a
short message leaves the rest of the buffer untouched, and every slot of the
buffer is put into the inbox, stale ones included.

The operations only touch their surroundings through a few effects, and are
written over any implementation of these.  One implementation gives the programs
that run in the network.
-/

namespace MpiBindings.ReproducibleReduce

open MessagePassing

/-- A single intermediate result and its global index. -/
structure MessageBufferEntry (T : Type) where
  index : ℕ
  value : T
  deriving DecidableEq

/-- Value-initialised entry. -/
instance {T : Type} [Inhabited T] : Inhabited (MessageBufferEntry T) := ⟨0, default⟩

/-- `MAX_MESSAGE_LENGTH` -/
def maxMessageLength : ℕ := 4

/-- Members of `MessageBuffer`.  The request is part of the network state, the
statistics counters are left out. -/
structure MessageBuffer (Rank T : Type) where
  inbox : ℕ → Option T
  targetRank : Option Rank
  outbox : List (MessageBufferEntry T)
  buffer : List (MessageBufferEntry T)
  sendBufferClear : Bool

/-- The constructor of `MessageBuffer`. -/
def MessageBuffer.initial (Rank T : Type) : MessageBuffer Rank T where
  inbox _ := none
  targetRank := none
  outbox := []
  buffer := []
  sendBufferClear := true

/-- State of a rank that persists between reductions. -/
structure RankState (Rank T : Type) where
  messageBuffer : MessageBuffer Rank T
  reduceBuffer : List T

abbrev Message (T : Type) := List (MessageBufferEntry T)

/-- Sequential programs of one rank. -/
abbrev Program (Rank T α : Type) := StateT (RankState Rank T) (Process Rank (Message T) T) α

namespace Program

variable {Rank T α : Type}

/-- A failed assertion. -/
def failed : Program Rank T α := fun _ => .fail

/-- Local computation on the reduce buffer; fails on an access out of range. -/
def onReduceBuffer (f : List T → Option (α × List T)) : Program Rank T α := fun state =>
  match f state.reduceBuffer with
  | none => .fail
  | some (result, reduceBuffer) => .done (result, { state with reduceBuffer })

def getBuffer : Program Rank T (MessageBuffer Rank T) := do
  return (← get).messageBuffer

def setBuffer (messageBuffer : MessageBuffer Rank T) : Program Rank T Unit :=
  modify fun state => { state with messageBuffer }

def isend (target : Rank) (message : Message T) : Program Rank T Unit := fun state =>
  .isend target message (.done ((), state))

def waitRequest : Program Rank T Unit := fun state => .wait (.done ((), state))

def recv (source : Rank) : Program Rank T (Message T) := fun state =>
  .recv source fun message => .done (message, state)

/-- `bcast_single` with the given root. -/
def bcastSingle (root : Rank) (own : T) : Program Rank T T := fun state =>
  .bcast root own fun value => .done (value, state)

end Program

namespace MessageBuffer

variable {T : Type}

/-- Resizing a vector keeps its front and value-initialises new elements. -/
def resizeToFit [Inhabited T] (size : ℕ) (buffer : List (MessageBufferEntry T)) :
    List (MessageBufferEntry T) :=
  buffer.take size ++ List.replicate (size - buffer.length) default

/-- The buffer after `MPI_Recv`: a short message leaves the rest untouched. -/
def receiveInto (message : Message T) (buffer : List (MessageBufferEntry T)) :
    List (MessageBufferEntry T) :=
  message ++ buffer.drop message.length

/-- The loop that puts every entry of the buffer into the inbox. -/
def storeEntries (buffer : List (MessageBufferEntry T)) (inbox : ℕ → Option T) :
    ℕ → Option T :=
  buffer.foldl (fun inbox entry => Function.update inbox entry.index (some entry.value)) inbox

/-- Capacity that the constructor reserves for the outbox. -/
def outboxCapacity : ℕ := maxMessageLength + 1

end MessageBuffer

/-! ## Operations -/

/-- Reasons why an operation of the message buffer does not return. -/
inductive BufferFault where
  /-- The capacity assertions of `put`. -/
  | capacity
  /-- The assertion of `get` that the awaited entry has arrived. -/
  | entryMissing
  /-- A message that is longer than the receive count. -/
  | truncated
  /-- `wait` without a request. -/
  | noRequest
  /-- A receive that no message matches. -/
  | blocked
deriving DecidableEq

/-- Effects of the operations of the message buffer. -/
structure BufferEffects (Rank T : Type) (m : Type → Type) where
  getBuffer : m (MessageBuffer Rank T)
  setBuffer : MessageBuffer Rank T → m Unit
  isend : Rank → Message T → m Unit
  waitRequest : m Unit
  recv : Rank → m (Message T)
  /-- Stop with a fault. -/
  fail : {α : Type} → BufferFault → m α

namespace BufferEffects

section Operations

variable {Rank T : Type} [DecidableEq Rank] [Inhabited T] {m : Type → Type} [Monad m]
variable (effects : BufferEffects Rank T m)

def assertThat (fault : BufferFault) (condition : Prop) [Decidable condition] : m Unit :=
  if condition then pure () else effects.fail fault

/-- `MessageBuffer::receive` -/
def receive (sizeofEntry : ℕ+) (source : Rank) : m Unit := do
  let recvCount := maxMessageLength * sizeofEntry
  let resized := MessageBuffer.resizeToFit recvCount (← effects.getBuffer).buffer
  let message ← effects.recv source
  effects.assertThat .truncated (message.length ≤ recvCount)
  let buffer := MessageBuffer.receiveInto message resized
  let mb ← effects.getBuffer
  effects.setBuffer { mb with buffer, inbox := MessageBuffer.storeEntries buffer mb.inbox }

/-- `MessageBuffer::flush` -/
def flush : m Unit := do
  let mb ← effects.getBuffer
  match mb.targetRank with
  | none => pure ()
  | some target =>
      if mb.outbox.isEmpty then pure ()
      else
        effects.isend target mb.outbox
        effects.setBuffer { mb with targetRank := none, sendBufferClear := false }

/-- `MessageBuffer::wait` -/
def wait : m Unit := do
  if (← effects.getBuffer).sendBufferClear then pure ()
  else
    effects.waitRequest
    effects.setBuffer { (← effects.getBuffer) with outbox := [], sendBufferClear := true }

/-- `MessageBuffer::put` -/
def put (targetRank : Rank) (index : ℕ) (value : T) : m Unit := do
  let mb ← effects.getBuffer
  let outboxFull := decide (mb.outbox.length ≥ maxMessageLength)
  let bufferAddressedToDifferentRank :=
    mb.targetRank.isSome && decide (mb.targetRank ≠ some targetRank)
  if outboxFull || bufferAddressedToDifferentRank then effects.flush
  effects.wait
  effects.setBuffer { (← effects.getBuffer) with targetRank := some targetRank }
  let mb ← effects.getBuffer
  effects.assertThat .capacity
    (mb.outbox.length < MessageBuffer.outboxCapacity ∧ MessageBuffer.outboxCapacity > 0)
  effects.setBuffer { mb with outbox := mb.outbox ++ [⟨index, value⟩] }
  if (← effects.getBuffer).outbox.length ≥ maxMessageLength then effects.flush

/-- `MessageBuffer::get` -/
def get (sizeofEntry : ℕ+) (sourceRank : Rank) (index : ℕ) : m T := do
  let mb ← effects.getBuffer
  match mb.inbox index with
  | some value =>
      effects.setBuffer { mb with inbox := Function.update mb.inbox index none }
      return value
  | none =>
      effects.flush
      effects.wait
      effects.receive sizeofEntry sourceRank
      let mb ← effects.getBuffer
      match mb.inbox index with
      | some value =>
          effects.setBuffer { mb with inbox := Function.update mb.inbox index none }
          return value
      | none => effects.fail .entryMissing

end Operations

end BufferEffects

/-! ## Programs of the network -/

/-- The effects of a rank in the network. -/
def programEffects (Rank T : Type) : BufferEffects Rank T (Program Rank T) where
  getBuffer := Program.getBuffer
  setBuffer := Program.setBuffer
  isend := Program.isend
  waitRequest := Program.waitRequest
  recv := Program.recv
  fail _ := Program.failed

namespace MessageBuffer

variable {Rank T : Type}

def receive [Inhabited T] (sizeofEntry : ℕ+) (source : Rank) : Program Rank T Unit :=
  (programEffects Rank T).receive sizeofEntry source

def flush : Program Rank T Unit := (programEffects Rank T).flush

def wait : Program Rank T Unit := (programEffects Rank T).wait

def put [DecidableEq Rank] (targetRank : Rank) (index : ℕ) (value : T) : Program Rank T Unit :=
  (programEffects Rank T).put targetRank index value

def get [Inhabited T] (sizeofEntry : ℕ+) (sourceRank : Rank) (index : ℕ) : Program Rank T T :=
  (programEffects Rank T).get sizeofEntry sourceRank index

end MessageBuffer

end MpiBindings.ReproducibleReduce
