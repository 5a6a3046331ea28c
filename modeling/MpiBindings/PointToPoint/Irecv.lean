import MpiBindings.PointToPoint.RecvCorrectness

/-!
# Non-blocking receives

One thread makes calls of `irecv` and uses the results it gets back, while messages arrive.  A
message that arrives goes to the first posted receive that selects it, or waits in the queue.
A call without count probes first and posts its receive with the probed source, tag and count.
A `NonBlockingResult` hands its buffer out once, through `wait` or a successful `test` after
the receive is matched, or unchecked through `extract`.
-/

namespace MpiBindings.PointToPoint

open MatchQueue Collectives

variable {α : Type}

/-! ## Calls and results -/

/-- The arguments of `irecv`: those of `recv`, and a count that the caller may give. -/
structure IrecvCall (α : Type) extends RecvCall α where
  recvCount : Option ℤ

/-- Where a call of `irecv` is.  A status is there if the call has probed. -/
inductive IrecvPhase (α : Type)
  | entered
  /-- The source, the tag and the count of the receive are known. -/
  | counted (source tag count : ℤ) (probed : Option Status)
  /-- Before `MPI_Irecv` with the given arguments. -/
  | posting (source tag count : ℤ) (recvBuf : List α) (probed : Option Status)
  | posted
  | failed (failure : Failure)

def IrecvPhase.InProgress : IrecvPhase α → Prop
  | .posted | .failed _ => False
  | _ => True

/-- A receive that waits for a message. -/
structure PostedReceive where
  request : ℕ
  source : ℤ
  tag : ℤ

/-- `NonBlockingResult` of an `irecv`, whose request is its number. -/
structure NbResult (α : Type) where
  call : IrecvCall α
  probed : Option Status
  count : ℤ
  recvBuf : List α
  isExtracted : Bool

/-- What a result hands out: the received data, or its buffer without a check. -/
inductive Handed (α : Type)
  | value (recvBuf : List α) (status : Status)
  | unchecked

/-- The messages in the queue, the receives that wait, the messages that receives got, the
results, what they handed out, and the latest call. -/
structure IrecvState (α : Type) where
  queue : List (Message α)
  pending : List PostedReceive
  matched : List (ℕ × Message α)
  results : List (NbResult α)
  handed : List (ℕ × Handed α)
  call : Option (IrecvCall α × IrecvPhase α)

namespace IrecvState

def start : IrecvState α := ⟨[], [], [], [], [], none⟩

def setPhase (state : IrecvState α) (call : IrecvCall α) (phase : IrecvPhase α) :
    IrecvState α :=
  { state with call := some (call, phase) }

/-- A new result, after `MPI_Irecv`. -/
def addResult (state : IrecvState α) (call : IrecvCall α) (count : ℤ) (recvBuf : List α)
    (probed : Option Status) : IrecvState α :=
  { state with
    results := state.results ++ [⟨call, probed, count, recvBuf, false⟩]
    call := some (call, .posted) }

/-- The data and the status that a request completes with once its receive is matched; no
data if the message was truncated. -/
def outcome (state : IrecvState α) (request : ℕ) (result : NbResult α) :
    Option (Option (List α × Status)) :=
  if result.call.source = .null then
    some (some (result.recvBuf, nullStatus result.call.constants))
  else
    (state.matched.lookup request).map fun message =>
      match receive result.call.constants result.count result.recvBuf message with
      | .returned received => some (received.recvBuf, received.status)
      | _ => none

/-- The result of a request moves its buffer out. -/
def handOut (state : IrecvState α) (request : ℕ) (result : NbResult α) (handed : Handed α) :
    IrecvState α :=
  { state with
    results := state.results.set request { result with isExtracted := true }
    handed := state.handed ++ [(request, handed)] }

end IrecvState

variable [Inhabited α]

/-- What happens before `MPI_Irecv`: the buffer is resized to the count, unless the source is
`rank::null`. -/
def IrecvCall.prepare (call : IrecvCall α) (source tag count : ℤ) (probed : Option Status) :
    IrecvPhase α :=
  if call.source = .null then .posting source tag count call.recvBuf probed
  else if count < 0 then .failed .countUndefined
  else
    let recvBuf := call.resizePolicy.resizeIfRequested count.toNat default call.recvBuf
    if count.toNat ≤ recvBuf.length then .posting source tag count recvBuf probed
    else .failed .bufferTooSmall

/-- The steps of a call of `irecv`. -/
inductive IrecvStep : IrecvState α → IrecvState α → Prop
  | enter {state : IrecvState α} (call : IrecvCall α)
      (hidle : ∀ other phase, state.call = some (other, phase) → ¬ phase.InProgress) :
      IrecvStep state (state.setPhase call .entered)
  | check {state : IrecvState α} {call : IrecvCall α} (hcall : state.call = some (call, .entered))
      (hinvalid : ¬ call.Valid) : IrecvStep state (state.setPhase call (.failed .invalidArgument))
  | given {state : IrecvState α} {call : IrecvCall α} {count : ℤ}
      (hcall : state.call = some (call, .entered)) (hvalid : call.Valid)
      (hcount : call.recvCount = some count) :
      IrecvStep state (state.setPhase call (.counted (call.source.rankSigned call.constants)
        (call.tag.tag call.constants) count none))
  | probe {state : IrecvState α} {call : IrecvCall α} {before after : List (Message α)}
      {message : Message α} (hcall : state.call = some (call, .entered)) (hvalid : call.Valid)
      (hcount : call.recvCount = none) (hsource : call.source ≠ .null)
      (hmatched : Matched Message.envelope call.Selects state.queue before message after)
      (hdefined : 0 ≤ message.count call.constants) :
      IrecvStep state (state.setPhase call (.counted message.source message.tag
        (message.count call.constants) (some (message.status call.constants))))
  /-- The conversion of the probed count fails. -/
  | probeUndefined {state : IrecvState α} {call : IrecvCall α} {before after : List (Message α)}
      {message : Message α} (hcall : state.call = some (call, .entered)) (hvalid : call.Valid)
      (hcount : call.recvCount = none) (hsource : call.source ≠ .null)
      (hmatched : Matched Message.envelope call.Selects state.queue before message after)
      (hundefined : message.count call.constants < 0) :
      IrecvStep state (state.setPhase call (.failed .countUndefined))
  | probeNull {state : IrecvState α} {call : IrecvCall α}
      (hcall : state.call = some (call, .entered)) (hvalid : call.Valid)
      (hcount : call.recvCount = none) (hsource : call.source = .null) :
      IrecvStep state (state.setPhase call (.counted call.constants.procNull
        call.constants.anyTag 0 (some (nullStatus call.constants))))
  | prepare {state : IrecvState α} {call : IrecvCall α} {source tag count : ℤ}
      {probed : Option Status}
      (hcall : state.call = some (call, .counted source tag count probed)) :
      IrecvStep state (state.setPhase call (call.prepare source tag count probed))
  | postNull {state : IrecvState α} {call : IrecvCall α} {source tag count : ℤ}
      {recvBuf : List α} {probed : Option Status}
      (hcall : state.call = some (call, .posting source tag count recvBuf probed))
      (hsource : source = call.constants.procNull) (hcount : 0 ≤ count) :
      IrecvStep state (state.addResult call count recvBuf probed)
  | postMatched {state : IrecvState α} {call : IrecvCall α} {source tag count : ℤ}
      {recvBuf : List α} {probed : Option Status} {before after : List (Message α)}
      {message : Message α}
      (hcall : state.call = some (call, .posting source tag count recvBuf probed))
      (hsource : source ≠ call.constants.procNull)
      (hmatched : Matched Message.envelope (Selects call.constants source tag) state.queue before
        message after) :
      IrecvStep state
        { state.addResult call count recvBuf probed with
          queue := before ++ after
          matched := state.matched ++ [(state.results.length, message)] }
  | postPending {state : IrecvState α} {call : IrecvCall α} {source tag count : ℤ}
      {recvBuf : List α} {probed : Option Status}
      (hcall : state.call = some (call, .posting source tag count recvBuf probed))
      (hsource : source ≠ call.constants.procNull)
      (hnone : ∀ message ∈ state.queue, ¬ Selects call.constants source tag message) :
      IrecvStep state
        { state.addResult call count recvBuf probed with
          pending := state.pending ++ [⟨state.results.length, source, tag⟩] }

/-- The steps of the operations of a result; an operation on a result that was extracted fails
and changes nothing. -/
inductive ResultStep : IrecvState α → IrecvState α → Prop
  /-- `wait`, and `test` of a request that MPI reports as complete. -/
  | wait {state : IrecvState α} {request : ℕ} {result : NbResult α} {recvBuf : List α}
      {status : Status} (hresult : state.results[request]? = some result)
      (hextracted : result.isExtracted = false)
      (houtcome : state.outcome request result = some (some (recvBuf, status))) :
      ResultStep state (state.handOut request result (.value recvBuf status))
  | extract {state : IrecvState α} {request : ℕ} {result : NbResult α}
      (hresult : state.results[request]? = some result)
      (hextracted : result.isExtracted = false) :
      ResultStep state (state.handOut request result .unchecked)
  /-- `test` of a request that MPI does not report as complete, also if its receive is
  matched already. -/
  | testIncomplete {state : IrecvState α} {request : ℕ} {result : NbResult α}
      (hresult : state.results[request]? = some result)
      (hextracted : result.isExtracted = false) : ResultStep state state
  | assertion {state : IrecvState α} {request : ℕ} {result : NbResult α}
      (hresult : state.results[request]? = some result)
      (hextracted : result.isExtracted = true) : ResultStep state state

/-- Runs of the thread, with the messages that arrive.  The special values are those of the
implementation. -/
inductive IrecvRun (constants : Constants) : List (Message α) → IrecvState α → Prop
  | start : IrecvRun constants [] .start
  | queued {arrivals : List (Message α)} {state : IrecvState α} (message : Message α)
      (hrun : IrecvRun constants arrivals state)
      (hnone : ∀ receive ∈ state.pending, ¬ Selects constants receive.source receive.tag message) :
      IrecvRun constants (arrivals ++ [message]) { state with queue := state.queue ++ [message] }
  | matched {arrivals : List (Message α)} {state : IrecvState α} (message : Message α)
      {before after : List PostedReceive} {receive : PostedReceive}
      (hrun : IrecvRun constants arrivals state)
      (hpending : state.pending = before ++ receive :: after)
      (hselects : Selects constants receive.source receive.tag message)
      (hfirst : ∀ other ∈ before, ¬ Selects constants other.source other.tag message) :
      IrecvRun constants (arrivals ++ [message])
        { state with
          pending := before ++ after
          matched := state.matched ++ [(receive.request, message)] }
  | call {arrivals : List (Message α)} {state next : IrecvState α}
      (hrun : IrecvRun constants arrivals state) (hstep : IrecvStep state next)
      (hconstants : ∀ call phase, next.call = some (call, phase) → call.constants = constants) :
      IrecvRun constants arrivals next
  | result {arrivals : List (Message α)} {state next : IrecvState α}
      (hrun : IrecvRun constants arrivals state) (hstep : ResultStep state next) :
      IrecvRun constants arrivals next

end MpiBindings.PointToPoint
