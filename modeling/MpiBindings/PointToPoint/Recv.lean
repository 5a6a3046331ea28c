import MpiBindings.Collectives.Alltoall
import MpiBindings.Core.MatchQueue

/-!
# Receiving without a count

One call of `recv` on a rank with a single thread, while messages arrive at the rank.  The
call probes for a message, resizes the buffer to the probed count, and receives with the
source and the tag that the probe reported.  The receive type is the one of the elements of
the buffer.
-/

namespace MpiBindings.PointToPoint

open MatchQueue Collectives

/-! ## Messages -/

/-- The special values of an implementation of the interface. -/
structure Constants where
  anySource : ℤ
  procNull : ℤ
  anyTag : ℤ
  undefined : ℤ
  anySource_neg : anySource < 0
  procNull_neg : procNull < 0
  anyTag_neg : anyTag < 0
  undefined_neg : undefined < 0
  procNull_ne_anySource : procNull ≠ anySource

/-- A message: its elements of the receive type, and the number of basic items of a further
element that it holds in part. -/
structure Message (α : Type) where
  source : ℕ
  tag : ℕ
  elements : List α
  remainder : ℕ
deriving DecidableEq

/-- Source, tag and count of an `MPI_Status`. -/
structure Status where
  source : ℤ
  tag : ℤ
  count : ℤ
deriving DecidableEq

variable {α : Type}

/-- Messages with the same source and tag do not overtake each other. -/
def Message.envelope (message : Message α) : ℕ × ℕ := (message.source, message.tag)

/-- `MPI_Get_count` is undefined for messages that are not a countable number of elements. -/
def Message.count (constants : Constants) (message : Message α) : ℤ :=
  if message.remainder = 0 ∧ message.elements.length < 2 ^ 31 then message.elements.length
  else constants.undefined

def Message.status (constants : Constants) (message : Message α) : Status where
  source := message.source
  tag := message.tag
  count := message.count constants

/-- The messages that a probe or a receive with a source and a tag selects. -/
def Selects (constants : Constants) (source tag : ℤ) (message : Message α) : Prop :=
  (source = constants.anySource ∨ source = message.source) ∧
    (tag = constants.anyTag ∨ tag = message.tag)

/-! ## Calls -/

/-- `RankDataBuffer`. -/
inductive SourceParam
  | value (rank : ℕ)
  | any
  | null
deriving DecidableEq

def SourceParam.rankSigned (constants : Constants) : SourceParam → ℤ
  | .value rank => rank
  | .any => constants.anySource
  | .null => constants.procNull

/-- `TagParam`. -/
inductive TagParam
  | value (tag : ℤ)
  | any

def TagParam.tag (constants : Constants) : TagParam → ℤ
  | .value tag => tag
  | .any => constants.anyTag

/-- The communicator and the arguments of `recv`. -/
structure RecvCall (α : Type) where
  constants : Constants
  size : ℕ
  tagUpperBound : ℕ
  source : SourceParam
  tag : TagParam
  resizePolicy : BufferResizePolicy
  recvBuf : List α

/-- The assertions on the arguments. -/
def RecvCall.Valid (call : RecvCall α) : Prop :=
  (∀ tag, call.tag = .value tag → 0 ≤ tag ∧ tag ≤ call.tagUpperBound) ∧
    ∀ rank, call.source = .value rank → rank < call.size

inductive Failure
  | invalidArgument
  /-- The conversion of an undefined count. -/
  | countUndefined
  | bufferTooSmall
  | truncated
deriving DecidableEq

/-- What `recv` returns. -/
structure RecvResult (α : Type) where
  recvBuf : List α
  recvCount : ℤ
  status : Status

/-- Where a call of `recv` is. -/
inductive Phase (α : Type)
  | entered
  | probed (status : Status)
  /-- Before `MPI_Recv` with the given arguments. -/
  | receiving (source tag count : ℤ) (recvBuf : List α)
  | returned (result : RecvResult α)
  | failed (failure : Failure)

/-- The messages that have arrived and were not received, and the call. -/
structure State (α : Type) where
  queue : List (Message α)
  phase : Phase α

variable [Inhabited α] (call : RecvCall α)

/-- What happens between `MPI_Probe` and `MPI_Recv`: the count is converted and the buffer
resized, unless the source is `rank::null`. -/
def RecvCall.prepare (status : Status) : Phase α :=
  if status.count < 0 then .failed .countUndefined
  else if call.source = .null then
    .receiving status.source status.tag status.count call.recvBuf
  else
    let size := status.count.toNat
    let recvBuf := call.resizePolicy.resizeIfRequested size default call.recvBuf
    if size ≤ recvBuf.length then .receiving status.source status.tag status.count recvBuf
    else .failed .bufferTooSmall

/-- `MPI_Recv` of a message: it fails if the message does not fit the count. -/
def receive (constants : Constants) (count : ℤ) (recvBuf : List α) (message : Message α) :
    Phase α :=
  if message.elements.length ≤ count ∧ (message.remainder = 0 ∨ message.elements.length < count)
  then
    .returned
      { recvBuf := overwrite message.elements recvBuf
        recvCount := count
        status := message.status constants }
  else .failed .truncated

/-- The status of a probe or a receive from `MPI_PROC_NULL`. -/
def nullStatus (constants : Constants) : Status := ⟨constants.procNull, constants.anyTag, 0⟩

/-- The steps of a call. -/
inductive Internal : State α → State α → Prop
  | check {queue : List (Message α)} (hinvalid : ¬ call.Valid) :
      Internal ⟨queue, .entered⟩ ⟨queue, .failed .invalidArgument⟩
  | probe {queue before after : List (Message α)} {message : Message α} (hvalid : call.Valid)
      (hsource : call.source.rankSigned call.constants ≠ call.constants.procNull)
      (hmatched : Matched Message.envelope
        (Selects call.constants (call.source.rankSigned call.constants)
          (call.tag.tag call.constants)) queue before message after) :
      Internal ⟨queue, .entered⟩ ⟨queue, .probed (message.status call.constants)⟩
  | probeNull {queue : List (Message α)} (hvalid : call.Valid)
      (hsource : call.source.rankSigned call.constants = call.constants.procNull) :
      Internal ⟨queue, .entered⟩ ⟨queue, .probed (nullStatus call.constants)⟩
  | prepare {queue : List (Message α)} {status : Status} :
      Internal ⟨queue, .probed status⟩ ⟨queue, call.prepare status⟩
  | recv {queue before after : List (Message α)} {message : Message α} {source tag count : ℤ}
      {recvBuf : List α} (hsource : source ≠ call.constants.procNull)
      (hmatched : Matched Message.envelope (Selects call.constants source tag) queue before message
        after) :
      Internal ⟨queue, .receiving source tag count recvBuf⟩
        ⟨before ++ after, receive call.constants count recvBuf message⟩
  | recvNull {queue : List (Message α)} {source tag count : ℤ} {recvBuf : List α}
      (hsource : source = call.constants.procNull) :
      Internal ⟨queue, .receiving source tag count recvBuf⟩
        ⟨queue, .returned ⟨recvBuf, count, nullStatus call.constants⟩⟩

/-- Runs of a call, with the messages that arrive meanwhile. -/
inductive Run (start : State α) : List (Message α) → State α → Prop
  | start : Run start [] start
  | arrive {arrivals : List (Message α)} {queue : List (Message α)} {phase : Phase α}
      (message : Message α) (hrun : Run start arrivals ⟨queue, phase⟩) :
      Run start (arrivals ++ [message]) ⟨queue ++ [message], phase⟩
  | step {arrivals : List (Message α)} {state next : State α} (hrun : Run start arrivals state)
      (hstep : Internal call state next) : Run start arrivals next

end MpiBindings.PointToPoint
