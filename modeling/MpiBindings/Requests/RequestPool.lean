import MpiBindings.Collectives.Alltoall
import Mathlib.Data.List.ReduceOption

/-!
# Request pools

A pool keeps the requests of non-blocking operations in a vector.  MPI completes the
operations in any order; the client waits for them or tests them one by one, all together, or
for any of them.  A pooled request refers to the array of the vector, and is left dangling when
the vector moves to another array.
-/

namespace MpiBindings.Requests

open Collectives

/-! ## Requests of the interface -/

/-- Operations are numbered in the order in which they are started. -/
abbrev Operation := ℕ

/-- `MPI_Request`: an operation, or `MPI_REQUEST_NULL`. -/
abbrev MpiRequest := Option Operation

/-- How many operations were started, and the statuses of those that MPI has completed. -/
structure MpiOperations (σ : Type) where
  started : ℕ
  status : Operation → Option σ
  emptyStatus : σ

namespace MpiOperations

variable {σ : Type} (mpi : MpiOperations σ)

/-- The status of a request that is complete; a null request is. -/
def ready : MpiRequest → Option σ
  | none => some mpi.emptyStatus
  | some operation => mpi.status operation

/-- `MPI_Waitall` and `MPI_Testall`: the statuses if all requests are complete. -/
def readyAll (requests : List MpiRequest) : Option (List σ) := requests.mapM mpi.ready

/-- `MPI_Waitany` with the choice that MPI makes; without an active request the index is
undefined.  There is no result while nothing or something else than the choice is complete. -/
def readyAny (requests : List MpiRequest) (choice : ℕ) : Option (Option ℕ × σ) :=
  if requests.reduceOption = [] then some (none, mpi.emptyStatus)
  else
    match requests[choice]? with
    | some (some operation) => (mpi.status operation).map fun status => (some choice, status)
    | _ => none

/-- No active request is complete. -/
def NoneReady (requests : List MpiRequest) : Prop :=
  requests.reduceOption ≠ [] ∧ ∀ operation ∈ requests.reduceOption, mpi.status operation = none

instance (requests : List MpiRequest) : Decidable (mpi.NoneReady requests) :=
  inferInstanceAs (Decidable (_ ∧ ∀ operation ∈ requests.reduceOption, _))

end MpiOperations

/-! ## The pool -/

/-- How the capacity of `std::vector` grows. -/
structure VectorGrowth where
  grown : ℕ → ℕ
  lt_grown : ∀ capacity, capacity < grown capacity

/-- `RequestPool`: its vector, with the array that holds the elements. -/
structure RequestPool where
  requests : List MpiRequest
  capacity : ℕ
  array : ℕ

/-- `PooledRequest`: an index, and a reference into an array. -/
structure PooledRequest where
  index : ℕ
  array : ℕ

/-- A `statuses` parameter: ignored, or a buffer. -/
inductive StatusesParam (σ : Type)
  | ignore
  | buffer (policy : BufferResizePolicy) (statuses : List σ)

namespace StatusesParam

variable {σ : Type}

/-- The buffer is resized and must hold the statuses of all requests. -/
def prepare [Inhabited σ] (numRequests : ℕ) : StatusesParam σ → Option (StatusesParam σ)
  | .ignore => some .ignore
  | .buffer policy statuses =>
      let resized := policy.resizeIfRequested numRequests default statuses
      if numRequests ≤ resized.length then some (.buffer policy resized) else none

def write (values : List σ) : StatusesParam σ → StatusesParam σ
  | .ignore => .ignore
  | .buffer policy statuses => .buffer policy (overwrite values statuses)

/-- What the caller learns about the request with the given index. -/
def told (index : ℕ) : StatusesParam σ → Option σ
  | .ignore => none
  | .buffer _ statuses => statuses[index]?

end StatusesParam

namespace RequestPool

def new : RequestPool := ⟨[], 0, 0⟩

/-- `num_requests` and `index_end`. -/
def numRequests (pool : RequestPool) : ℕ := pool.requests.length

/-- `std::vector::emplace_back`. -/
def emplaceBack (growth : VectorGrowth) (pool : RequestPool) (request : MpiRequest) :
    RequestPool :=
  if pool.numRequests < pool.capacity then
    { pool with requests := pool.requests ++ [request] }
  else
    { requests := pool.requests ++ [request]
      capacity := growth.grown pool.capacity
      array := pool.array + 1 }

/-- `get_request`. -/
def getRequest (growth : VectorGrowth) (pool : RequestPool) : PooledRequest × RequestPool :=
  let grown := pool.emplaceBack growth none
  (⟨grown.numRequests - 1, grown.array⟩, grown)

/-- The request that a pooled request refers to; a dangling reference has none. -/
def deref (pool : RequestPool) (pooled : PooledRequest) : Option MpiRequest :=
  if pooled.array = pool.array then pool.requests[pooled.index]? else none

def set (pool : RequestPool) (index : ℕ) (request : MpiRequest) : RequestPool :=
  { pool with requests := pool.requests.set index request }

/-- All requests are null. -/
def clear (pool : RequestPool) : RequestPool :=
  { pool with requests := List.replicate pool.numRequests none }

end RequestPool

/-! ## Calls -/

structure PoolState (σ : Type) where
  pool : RequestPool
  mpi : MpiOperations σ

/-- What the client and MPI do. -/
inductive PoolCall (σ : Type)
  | getRequest
  /-- A non-blocking operation is started with the pooled request. -/
  | start (pooled : PooledRequest)
  /-- MPI completes an operation. -/
  | complete (operation : Operation) (status : σ)
  | wait (pooled : PooledRequest)
  | test (pooled : PooledRequest)
  | waitAll (statuses : StatusesParam σ)
  | testAll (statuses : StatusesParam σ)
  | waitAny (choice : ℕ)
  | testAny (choice : ℕ)

/-- What a call returns. -/
inductive PoolReply (σ : Type)
  | done
  | assertion
  | pooled (pooled : PooledRequest)
  | waited (status : σ)
  | tested (status : Option σ)
  | waitedAll (statuses : StatusesParam σ)
  | testedAll (succeeded : Bool) (statuses : StatusesParam σ)
  | waitedAny (index : ℕ) (status : σ)
  | testedAny (result : Option (ℕ × σ))

section Perform

variable {σ : Type}

namespace PoolState

variable (state : PoolState σ)

/-- `RequestBase::wait` and a successful `RequestBase::test`. -/
def finish (pooled : PooledRequest) : Option (σ × PoolState σ) := do
  let request ← state.pool.deref pooled
  let status ← state.mpi.ready request
  some (status, { state with pool := state.pool.set pooled.index none })

/-- A result of `MPI_Waitany`, with `index_end()` for an undefined index. -/
def finishAny (outcome : Option ℕ × σ) : (ℕ × σ) × PoolState σ :=
  match outcome with
  | (none, status) => ((state.pool.numRequests, status), state)
  | (some index, status) =>
      ((index, status), { state with pool := state.pool.set index none })

variable [Inhabited σ]

/-- `wait_all`; `MPI_Waitall` blocks until all requests are complete. -/
def waitAll (statuses : StatusesParam σ) : Option (PoolState σ × PoolReply σ) :=
  match statuses.prepare state.pool.numRequests with
  | none => some (state, .assertion)
  | some prepared =>
      if state.pool.numRequests < 2 ^ 31 then
        (state.mpi.readyAll state.pool.requests).map fun values =>
          ({ state with pool := state.pool.clear }, .waitedAll (prepared.write values))
      else some (state, .assertion)

/-- `test_all`. -/
def testAll (statuses : StatusesParam σ) : PoolState σ × PoolReply σ :=
  match statuses.prepare state.pool.numRequests with
  | none => (state, .assertion)
  | some prepared =>
      if state.pool.numRequests < 2 ^ 31 then
        match state.mpi.readyAll state.pool.requests with
        | some values =>
            ({ state with pool := state.pool.clear }, .testedAll true (prepared.write values))
        | none => (state, .testedAll false prepared)
      else (state, .assertion)

/-- `wait_any`. -/
def waitAny (choice : ℕ) : Option (PoolState σ × PoolReply σ) :=
  if state.pool.numRequests < 2 ^ 31 then
    (state.mpi.readyAny state.pool.requests choice).map fun outcome =>
      let finished := state.finishAny outcome
      (finished.2, .waitedAny finished.1.1 finished.1.2)
  else some (state, .assertion)

/-- `test_any`. -/
def testAny (choice : ℕ) : Option (PoolState σ × PoolReply σ) :=
  if state.pool.numRequests < 2 ^ 31 then
    if state.mpi.NoneReady state.pool.requests then some (state, .testedAny none)
    else
      (state.mpi.readyAny state.pool.requests choice).map fun outcome =>
        let finished := state.finishAny outcome
        (finished.2, .testedAny (some finished.1))
  else some (state, .assertion)

/-- One call.  There is no next state where a reference dangles, where a call blocks, or where
a started operation would take the slot of another one. -/
def perform (growth : VectorGrowth) : PoolCall σ → Option (PoolState σ × PoolReply σ)
  | .getRequest =>
      let got := state.pool.getRequest growth
      some ({ state with pool := got.2 }, .pooled got.1)
  | .start pooled =>
      match state.pool.deref pooled with
      | some none =>
          some ({ pool := state.pool.set pooled.index (some state.mpi.started)
                  mpi := { state.mpi with started := state.mpi.started + 1 } }, .done)
      | _ => none
  | .complete operation status =>
      if operation < state.mpi.started ∧ state.mpi.status operation = none then
        some ({ state with mpi := { state.mpi with
                  status := Function.update state.mpi.status operation (some status) } }, .done)
      else none
  | .wait pooled => (state.finish pooled).map fun finished => (finished.2, .waited finished.1)
  | .test pooled =>
      match state.finish pooled, state.pool.deref pooled with
      | some finished, _ => some (finished.2, .tested (some finished.1))
      | none, some _ => some (state, .tested none)
      | none, none => none
  | .waitAll statuses => state.waitAll statuses
  | .testAll statuses => some (state.testAll statuses)
  | .waitAny choice => state.waitAny choice
  | .testAny choice => state.testAny choice

end PoolState

end Perform

/-! ## Runs -/

section Runs

variable {σ : Type}

/-- A report about the operation in a slot, with what the caller is told about its status. -/
def report (requests : List MpiRequest) (index : ℕ) (told : Option σ) :
    Option (Operation × Option σ) :=
  requests[index]?.join.map fun operation => (operation, told)

/-- The operations that a reply tells the caller to be complete. -/
def reports (requests : List MpiRequest) :
    PoolCall σ → PoolReply σ → List (Operation × Option σ)
  | .wait pooled, .waited status => (report requests pooled.index (some status)).toList
  | .test pooled, .tested (some status) => (report requests pooled.index (some status)).toList
  | .waitAll _, .waitedAll statuses =>
      (List.range requests.length).filterMap fun index =>
        report requests index (statuses.told index)
  | .testAll _, .testedAll true statuses =>
      (List.range requests.length).filterMap fun index =>
        report requests index (statuses.told index)
  | .waitAny _, .waitedAny index status => (report requests index (some status)).toList
  | .testAny _, .testedAny (some (index, status)) =>
      (report requests index (some status)).toList
  | _, _ => []

/-- Runs of a pool, with all reports so far. -/
inductive PoolRun [Inhabited σ] (growth : VectorGrowth) (start : PoolState σ) :
    List (Operation × Option σ) → PoolState σ → Prop
  | start : PoolRun growth start [] start
  | step {reported : List (Operation × Option σ)} {state next : PoolState σ} {call : PoolCall σ}
      {reply : PoolReply σ} (hrun : PoolRun growth start reported state)
      (hstep : state.perform growth call = some (next, reply)) :
      PoolRun growth start (reported ++ reports state.pool.requests call reply) next

end Runs

end MpiBindings.Requests
