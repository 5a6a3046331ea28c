import MpiBindings.Core.CommutingSteps
import Mathlib.Algebra.Order.Ring.Nat
import Mathlib.Data.Fintype.Basic
import Mathlib.Data.List.FinRange
import Mathlib.Logic.Function.Basic

/-!
# Sparse all-to-all exchange

Consecutive calls of `alltoallv_sparse` by all ranks of a communicator with one
tag.  Every action is one communication step of a rank, or the arrival of a
message.  A probe sees the messages that have arrived, a synchronous send is
complete once its message was received, and a barrier once all ranks entered it;
a test may miss a completion.
-/

namespace MpiBindings.SparseAlltoall

/-- Pairs of a destination and a message. -/
abbrev SparseSendBuf (p : ℕ) (T : Type) := List (Fin p × List T)

/-- Status of a probed message. -/
structure Status (p : ℕ) where
  source : Fin p
  count : ℕ

/-- A message that was sent and not received, and the request of its send. -/
structure Envelope (T : Type) where
  request : ℕ
  message : List T

/-- What a callback reads from a probed message and receives. -/
structure ReceivedMessage (p : ℕ) (T : Type) where
  source : Fin p
  recvCount : ℕ
  recvBuf : List T
deriving DecidableEq

inductive Collective
  | ibarrier
  | barrier
deriving DecidableEq

/-- Position of a rank in `alltoallv_sparse`. -/
inductive Phase (p : ℕ) (T : Type)
  /-- Between two calls. -/
  | returned
  | sending (remaining : SparseSendBuf p T)
  | probing
  | onMessage (status : Status p)
  | testing
  /-- All sends are complete. -/
  | startingBarrier
  /-- The loop was left. -/
  | closing
  | barrier (index : ℕ)
  /-- An assertion or an MPI call failed. -/
  | aborted (remaining : SparseSendBuf p T)

structure LocalState (p : ℕ) (T : Type) where
  /-- Number of calls from which the rank has returned. -/
  round : ℕ
  phase : Phase p T
  nextRequest : ℕ
  requestPool : List ℕ
  /-- The collective that the barrier request stands for. -/
  barrierRequest : Option ℕ
  /-- Collectives that the rank has entered. -/
  collectives : List Collective
  /-- Callbacks of every call. -/
  received : ℕ → List (ReceivedMessage p T)

structure Network (p : ℕ) (T : Type) where
  locals : Fin p → LocalState p T
  inFlight : Fin p → Fin p → List (Envelope T)
  arrived : Fin p → Fin p → List (Envelope T)

inductive Action (p : ℕ)
  | arrive (src dst : Fin p)
  | call (me : Fin p)
  | send (me : Fin p)
  | iprobe (me : Fin p) (source : Option (Fin p))
  | recv (me : Fin p)
  | test (me : Fin p) (flag : Bool)
  | ibarrier (me : Fin p)
  | barrier (me : Fin p)
  | leave (me : Fin p)

variable {p : ℕ} {T : Type}

/-- Replace the queue of one pair of ranks. -/
def setQueue (queues : Fin p → Fin p → List (Envelope T)) (src dst : Fin p)
    (queue : List (Envelope T)) : Fin p → Fin p → List (Envelope T) :=
  fun source target => if source = src ∧ target = dst then queue else queues source target

namespace Network

def setLocal (net : Network p T) (me : Fin p) (state : LocalState p T) : Network p T :=
  { net with locals := Function.update net.locals me state }

def setPhase (net : Network p T) (me : Fin p) (phase : Phase p T) : Network p T :=
  net.setLocal me { net.locals me with phase }

/-- Messages from one rank to another that were not received. -/
def channel (net : Network p T) (src dst : Fin p) : List (Envelope T) :=
  net.arrived src dst ++ net.inFlight src dst

/-- The receiver has matched all sends in the request pool of a rank. -/
def RequestsMatched (net : Network p T) (me : Fin p) : Prop :=
  ∀ dst, ∀ envelope ∈ net.channel me dst,
    envelope.request ∉ (net.locals me).requestPool

instance (net : Network p T) (me : Fin p) : Decidable (net.RequestsMatched me) :=
  inferInstanceAs (Decidable (∀ dst, ∀ envelope ∈ net.channel me dst,
    envelope.request ∉ (net.locals me).requestPool))

/-- All ranks have entered the collective with the given index. -/
def Entered (net : Network p T) (index : ℕ) (collective : Collective) : Prop :=
  ∀ rank, (net.locals rank).collectives[index]? = some collective

instance (net : Network p T) (index : ℕ) (collective : Collective) :
    Decidable (net.Entered index collective) :=
  inferInstanceAs (Decidable (∀ rank,
    (net.locals rank).collectives[index]? = some collective))

end Network

open Network

/-- The oldest message in flight arrives. -/
def arrive (net : Network p T) (src dst : Fin p) : Option (Network p T) :=
  match net.inFlight src dst with
  | [] => none
  | envelope :: rest =>
      some { net with
        inFlight := setQueue net.inFlight src dst rest
        arrived := setQueue net.arrived src dst (net.arrived src dst ++ [envelope]) }

/-- Enter the next call. -/
def call (sendBuf : ℕ → Fin p → SparseSendBuf p T) (calls : ℕ) (net : Network p T)
    (me : Fin p) : Option (Network p T) :=
  match (net.locals me).phase with
  | .returned =>
      if (net.locals me).round < calls then
        some (net.setLocal me { net.locals me with
          phase := .sending (sendBuf (net.locals me).round me)
          requestPool := []
          barrierRequest := none })
      else none
  | _ => none

/-- Start a synchronous send whose request joins the pool. -/
def issend (net : Network p T) (me dst : Fin p) (message : List T)
    (remaining : SparseSendBuf p T) : Network p T where
  locals := Function.update net.locals me { net.locals me with
    phase := .sending remaining
    nextRequest := (net.locals me).nextRequest + 1
    requestPool := (net.locals me).requestPool ++ [(net.locals me).nextRequest] }
  inFlight := setQueue net.inFlight me dst
    (net.inFlight me dst ++ [⟨(net.locals me).nextRequest, message⟩])
  arrived := net.arrived

/-- One iteration of the loop over the send buffer. -/
def send (net : Network p T) (me : Fin p) : Option (Network p T) :=
  match (net.locals me).phase with
  | .sending [] => some (net.setPhase me .probing)
  | .sending ((dst, message) :: remaining) =>
      if 0 < message.length then
        -- the size is cast to an int
        if message.length < 2 ^ 31 then some (issend net me dst message remaining)
        else some (net.setPhase me (.aborted ((dst, message) :: remaining)))
      else some (net.setPhase me (.sending remaining))
  | _ => none

/-- Probe for a message of any source. -/
def iprobe (net : Network p T) (me : Fin p) (source : Option (Fin p)) :
    Option (Network p T) :=
  match (net.locals me).phase, source with
  | .probing, some src =>
      match net.arrived src me with
      | [] => none
      | envelope :: _ => some (net.setPhase me (.onMessage ⟨src, envelope.message.length⟩))
  | .probing, none =>
      if ∀ src, (net.arrived src me).isEmpty then some (net.setPhase me .testing) else none
  | _, _ => none

/-- The callback receives the probed message. -/
def recv (net : Network p T) (me : Fin p) : Option (Network p T) :=
  match (net.locals me).phase with
  | .onMessage status =>
      match net.arrived status.source me with
      | [] => none
      | envelope :: rest =>
          if envelope.message.length ≤ status.count then
            some
              { locals := Function.update net.locals me { net.locals me with
                  phase := .testing
                  received := Function.update (net.locals me).received (net.locals me).round
                    ((net.locals me).received (net.locals me).round ++
                      [⟨status.source, status.count, envelope.message⟩]) }
                inFlight := net.inFlight
                arrived := setQueue net.arrived status.source me rest }
          else some (net.setPhase me (.aborted []))
  | _ => none

/-- Test the barrier if it was started and the sends otherwise. -/
def test (net : Network p T) (me : Fin p) (flag : Bool) : Option (Network p T) :=
  match (net.locals me).phase, (net.locals me).barrierRequest, flag with
  | .testing, _, false => some (net.setPhase me .probing)
  | .testing, some index, true =>
      if net.Entered index .ibarrier then
        some (net.setLocal me { net.locals me with phase := .closing, barrierRequest := none })
      else none
  | .testing, none, true =>
      if net.RequestsMatched me then some (net.setPhase me .startingBarrier) else none
  | _, _, _ => none

def ibarrier (net : Network p T) (me : Fin p) : Option (Network p T) :=
  match (net.locals me).phase with
  | .startingBarrier =>
      some (net.setLocal me { net.locals me with
        phase := .probing
        barrierRequest := some (net.locals me).collectives.length
        collectives := (net.locals me).collectives ++ [.ibarrier] })
  | _ => none

/-- Enter the barrier after the loop. -/
def barrier (net : Network p T) (me : Fin p) : Option (Network p T) :=
  match (net.locals me).phase with
  | .closing =>
      some (net.setLocal me { net.locals me with
        phase := .barrier (net.locals me).collectives.length
        collectives := (net.locals me).collectives ++ [.barrier] })
  | _ => none

/-- Leave the barrier and return. -/
def leave (net : Network p T) (me : Fin p) : Option (Network p T) :=
  match (net.locals me).phase with
  | .barrier index =>
      if net.Entered index .barrier then
        some (net.setLocal me { net.locals me with
          phase := .returned
          round := (net.locals me).round + 1 })
      else none
  | _ => none

def step (sendBuf : ℕ → Fin p → SparseSendBuf p T) (calls : ℕ) (action : Action p)
    (net : Network p T) : Option (Network p T) :=
  match action with
  | .arrive src dst => arrive net src dst
  | .call me => call sendBuf calls net me
  | .send me => send net me
  | .iprobe me source => iprobe net me source
  | .recv me => recv net me
  | .test me flag => test net me flag
  | .ibarrier me => ibarrier net me
  | .barrier me => barrier net me
  | .leave me => leave net me

/-- No rank has entered a call. -/
def start : Network p T where
  locals _ :=
    { round := 0
      phase := .returned
      nextRequest := 0
      requestPool := []
      barrierRequest := none
      collectives := []
      received := fun _ => [] }
  inFlight _ _ := []
  arrived _ _ := []

end MpiBindings.SparseAlltoall
