import MpiBindings.PointToPoint.RecvCorrectness

/-!
# Receiving without waiting, on any number of threads

A call of `try_recv` takes a message out of the queue with `MPI_Improbe` and receives just that
message with `MPI_Mrecv`.  Any number of calls may be in progress, their steps interleave in
any way, and messages arrive meanwhile.
-/

namespace MpiBindings.PointToPoint

open MatchQueue Collectives

variable {α : Type}

/-! ## Calls -/

/-- Where a call of `try_recv` is.  `MPI_MESSAGE_NO_PROC` is no message. -/
inductive TryPhase (α : Type)
  | entered
  /-- After `MPI_Improbe`. -/
  | matched (message : Option (Message α))
  /-- Before `MPI_Mrecv` with the given arguments. -/
  | receiving (message : Option (Message α)) (count : ℤ) (recvBuf : List α)
  /-- A result, or nothing if no message was available. -/
  | returned (result : Option (RecvResult α))
  | failed (failure : Failure)

/-- The queue, all calls so far, and the messages that calls have taken out of the queue. -/
structure TryState (α : Type) where
  queue : List (Message α)
  calls : List (RecvCall α × TryPhase α)
  taken : List (ℕ × Message α)

/-- The status that `MPI_Improbe` reports. -/
def matchedStatus (constants : Constants) : Option (Message α) → Status
  | some message => message.status constants
  | none => nullStatus constants

variable [Inhabited α]

/-- What happens between `MPI_Improbe` and `MPI_Mrecv`: the count is converted and the buffer
resized, unless the source is `rank::null`. -/
def RecvCall.prepareMatched (call : RecvCall α) (message : Option (Message α)) : TryPhase α :=
  let status := matchedStatus call.constants message
  if status.count < 0 then .failed .countUndefined
  else if call.source = .null then .receiving message status.count call.recvBuf
  else
    let count := status.count.toNat
    let recvBuf := call.resizePolicy.resizeIfRequested count default call.recvBuf
    if count ≤ recvBuf.length then .receiving message count recvBuf
    else .failed .bufferTooSmall

/-- `MPI_Mrecv`. -/
def mrecv (constants : Constants) (count : ℤ) (recvBuf : List α) :
    Option (Message α) → TryPhase α
  | some message =>
      match receive constants count recvBuf message with
      | .returned result => .returned (some result)
      | _ => .failed .truncated
  | none => .returned (some ⟨recvBuf, count, nullStatus constants⟩)

def TryState.set (state : TryState α) (index : ℕ) (call : RecvCall α) (phase : TryPhase α) :
    TryState α :=
  { state with calls := state.calls.set index (call, phase) }

/-- The steps of the call with the given index. -/
inductive TryStep (index : ℕ) : TryState α → TryState α → Prop
  | check {state : TryState α} {call : RecvCall α}
      (hcall : state.calls[index]? = some (call, .entered)) (hinvalid : ¬ call.Valid) :
      TryStep index state (state.set index call (.failed .invalidArgument))
  | improbe {state : TryState α} {call : RecvCall α} {before after : List (Message α)}
      {message : Message α} (hcall : state.calls[index]? = some (call, .entered))
      (hvalid : call.Valid) (hsource : call.source ≠ .null)
      (hmatched : Matched Message.envelope call.Selects state.queue before message after) :
      TryStep index state
        { queue := before ++ after
          calls := state.calls.set index (call, .matched (some message))
          taken := state.taken ++ [(index, message)] }
  | improbeNothing {state : TryState α} {call : RecvCall α}
      (hcall : state.calls[index]? = some (call, .entered)) (hvalid : call.Valid)
      (hsource : call.source ≠ .null) (hnone : ∀ message ∈ state.queue, ¬ call.Selects message) :
      TryStep index state (state.set index call (.returned none))
  | improbeNull {state : TryState α} {call : RecvCall α}
      (hcall : state.calls[index]? = some (call, .entered)) (hvalid : call.Valid)
      (hsource : call.source = .null) :
      TryStep index state (state.set index call (.matched none))
  | prepare {state : TryState α} {call : RecvCall α} {message : Option (Message α)}
      (hcall : state.calls[index]? = some (call, .matched message)) :
      TryStep index state (state.set index call (call.prepareMatched message))
  | mrecv {state : TryState α} {call : RecvCall α} {message : Option (Message α)} {count : ℤ}
      {recvBuf : List α}
      (hcall : state.calls[index]? = some (call, .receiving message count recvBuf)) :
      TryStep index state (state.set index call (mrecv call.constants count recvBuf message))

/-- Runs of all threads, with the messages that arrive. -/
inductive TryRun : List (Message α) → TryState α → Prop
  | start : TryRun [] ⟨[], [], []⟩
  | arrive {arrivals : List (Message α)} {state : TryState α} (message : Message α)
      (hrun : TryRun arrivals state) :
      TryRun (arrivals ++ [message]) { state with queue := state.queue ++ [message] }
  | enter {arrivals : List (Message α)} {state : TryState α} (call : RecvCall α)
      (hrun : TryRun arrivals state) :
      TryRun arrivals { state with calls := state.calls ++ [(call, .entered)] }
  | step {arrivals : List (Message α)} {index : ℕ} {state next : TryState α}
      (hrun : TryRun arrivals state) (hstep : TryStep index state next) : TryRun arrivals next

/-! ## What is known about a call -/

/-- The call received exactly the message that it took. -/
def TookExactly (call : RecvCall α) (message : Message α) (result : RecvResult α) : Prop :=
  message.remainder = 0 ∧ result.recvCount = message.elements.length ∧
    result.status = message.status call.constants ∧
    result.recvBuf = overwrite message.elements
      (call.resizePolicy.resizeIfRequested message.elements.length default call.recvBuf) ∧
    (call.resizePolicy = .resizeToFit → result.recvBuf = message.elements)

/-- What a failed call has done with the message it took, and why. -/
def FailedWith (call : RecvCall α) (took : Option (Message α)) : Failure → Prop
  | .invalidArgument => took = none ∧ ¬ call.Valid
  | .countUndefined => ∃ message, took = some message ∧
      (message.remainder ≠ 0 ∨ 2 ^ 31 ≤ message.elements.length)
  | .bufferTooSmall => ∃ message, took = some message ∧ call.resizePolicy = .noResize ∧
      call.recvBuf.length < message.elements.length
  | .truncated => False

/-- What the phase of a call says about the message that the call has taken. -/
def PhaseOf (call : RecvCall α) (took : Option (Message α)) : TryPhase α → Prop
  | .entered => took = none
  | .matched message => took = message ∧ (message = none ↔ call.source = .null)
  | .receiving message count recvBuf => took = message ∧
      (call.source = .null ∧ message = none ∧ count = 0 ∧ recvBuf = call.recvBuf ∨
        call.source ≠ .null ∧ ∃ found, message = some found ∧ found.remainder = 0 ∧
          count = found.elements.length ∧
          recvBuf = call.resizePolicy.resizeIfRequested found.elements.length default
            call.recvBuf)
  | .returned none => took = none
  | .returned (some result) =>
      call.source = .null ∧ took = none ∧ result.recvBuf = call.recvBuf ∧ result.recvCount = 0 ∨
        ∃ message, took = some message ∧ TookExactly call message result
  | .failed failure => FailedWith call took failure

/-- The message that a call has taken. -/
def TryState.took (state : TryState α) (index : ℕ) : Option (Message α) :=
  state.taken.lookup index

/-- What holds in every state of all threads. -/
structure TryExact (arrivals : List (Message α)) (state : TryState α) : Prop where
  /-- From every source with every tag, messages are taken in the order of their arrival, and
  what is not taken waits in that order. -/
  conserved : ∀ envelope,
    ofChannel Message.envelope envelope (state.taken.map Prod.snd) ++
        ofChannel Message.envelope envelope state.queue =
      ofChannel Message.envelope envelope arrivals
  /-- No call takes two messages, and only calls take messages. -/
  once : (state.taken.map Prod.fst).Nodup
  taken_lt : ∀ index ∈ state.taken.map Prod.fst, index < state.calls.length
  selected : ∀ index call phase message, state.calls[index]? = some (call, phase) →
    state.took index = some message → call.Selects message
  phase : ∀ index call phase, state.calls[index]? = some (call, phase) →
    PhaseOf call (state.took index) phase
  /-- A call in progress can always make a step of its own. -/
  progress : ∀ index call phase, state.calls[index]? = some (call, phase) →
    (∃ result, phase = .returned result) ∨ (∃ failure, phase = .failed failure) ∨
      ∃ next, TryStep index state next

end MpiBindings.PointToPoint
