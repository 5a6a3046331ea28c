import MpiBindings.Collectives.Gather

/-!
# The wrappers `scatter` and `scatterv`

The root sends one block to every member.  `scatter` derives the size of the blocks
from the send buffer of the root; `scatterv` takes the counts of the root and, where the
caller omits the receive counts, scatters these counts first.
-/

namespace MpiBindings.Collectives

open CountingSort

/-! ## Scattering blocks -/

/-- Arguments of `MPI_Scatterv` on all ranks; the layout of the blocks matters only at
the root. -/
structure MpiScattervArguments (p : ℕ) (T : Type) where
  sendBuf : Fin p → List T
  sendCounts : Fin p → List ℤ
  sendDispls : Fin p → List ℤ
  recvBuf : Fin p → List T
  recvCount : Fin p → ℤ

section Mpi

variable {p : ℕ} {T : Type} (comms : Communicators p)

/-- The receive buffer of a rank after `MPI_Scatterv`: the root's block for it must have
the length that the rank expects. -/
def scatteredAt (root : ℕ) (args : MpiScattervArguments p T) (rank : Fin p) :
    Option (List T) := do
  let sender ← (comms.members rank)[root]?
  let count ← (args.sendCounts sender)[comms.rankOf rank]?
  let displ ← (args.sendDispls sender)[comms.rankOf rank]?
  let block ← readBlock (args.sendBuf sender) displ count
  if block.length = args.recvCount rank then writeBlock 0 block (args.recvBuf rank) else none

/-- `MPI_Scatterv`: the receive buffers of all ranks. -/
def mpiScatterv (root : ℕ) (args : MpiScattervArguments p T) : Option (Fin p → List T) :=
  allRanks (scatteredAt comms root args)

/-- `MPI_Scatter`: the blocks have one size and follow each other. -/
def mpiScatter (root : ℕ) (sendBuf recvBuf : Fin p → List T) (sendCount : Fin p → ℕ)
    (recvCount : Fin p → ℤ) : Option (Fin p → List T) :=
  mpiScatterv comms root
    { sendBuf
      sendCounts := fun rank => List.replicate (comms.size rank) (sendCount rank : ℤ)
      sendDispls := fun rank => (List.range (comms.size rank)).map fun index =>
        ((index * sendCount rank : ℕ) : ℤ)
      recvBuf
      recvCount }

end Mpi

/-! ## Wrappers -/

/-- Arguments of `scatter` on all ranks; receive counts that the caller omits are
broadcast by the root. -/
structure ScatterArguments (p : ℕ) (T : Type) where
  sendBuf : Fin p → List T
  recvCount : Option (Fin p → ℤ)
  recvBufPolicy : BufferResizePolicy
  recvBuf : Fin p → List T

/-- Arguments of `scatterv` on all ranks. -/
structure ScattervArguments (p : ℕ) (T : Type) where
  sendBuf : Fin p → List T
  sendCounts : Fin p → List ℤ
  sendDispls : Parameter p
  recvCount : Option (Fin p → ℤ)
  recvBufPolicy : BufferResizePolicy
  recvBuf : Fin p → List T

/-- Output buffers of `scatterv` on all ranks. -/
@[ext]
structure ScattervResult (p : ℕ) (T : Type) where
  recvBuf : Fin p → List T
  recvCount : Fin p → ℤ
  sendDispls : Fin p → List ℤ

/-- The size of a receive buffer for a count. -/
def sizeOfCount (count : ℤ) : Option ℕ := if 0 ≤ count then some count.toNat else none

section Wrappers

variable {p : ℕ} (comms : Communicators p) {T : Type}

/-- Receive counts of `scatter`: those of the caller, or the send count of the root. -/
def scatterRecvCount (root : ℕ) (sendCount : Fin p → ℕ) :
    Option (Fin p → ℤ) → Option (Fin p → ℤ)
  | some recvCount => some recvCount
  | none => allRanks fun rank => (comms.members rank)[root]?.map fun sender =>
      (sendCount sender : ℤ)

/-- `scatter` without send counts.  The assertion `send_buf.data() != nullptr` of the root
fails for a buffer without elements, which need not have storage. -/
def scatter [Inhabited T] (root : ℕ) (args : ScatterArguments p T) :
    Option (Fin p → List T) :=
  let sendCount := fun rank => (args.sendBuf rank).length / comms.size rank
  if ∀ rank, root < comms.size rank ∧
      (comms.rankOf rank = root → 0 < (args.sendBuf rank).length ∧
        (args.sendBuf rank).length % comms.size rank = 0 ∧ sendCount rank < 2 ^ 31) then do
    let recvCount ← scatterRecvCount comms root sendCount args.recvCount
    let recvBuf ← allRanks fun rank =>
      preparedRecvBuf args.recvBufPolicy (sizeOfCount (recvCount rank)) (args.recvBuf rank)
    mpiScatter comms root args.sendBuf recvBuf sendCount recvCount
  else none

/-- Receive counts of `scatterv`: those of the caller, or the scattered counts of the
root, of which every rank receives one. -/
def scattervRecvCount (root : ℕ) (sendCounts : Fin p → List ℤ) :
    Option (Fin p → ℤ) → Option (Fin p → ℤ)
  | some recvCount => some recvCount
  | none => do
      let received ← scatter comms root
        { sendBuf := sendCounts, recvCount := some fun _ => 1, recvBufPolicy := .noResize,
          recvBuf := fun _ => [0] }
      allRanks fun rank => (received rank)[0]?

/-- Send displacements of `scatterv`, which only the root computes and checks. -/
def scattervSendDispls (root : ℕ) (sendCounts : Fin p → List ℤ) (sendDispls : Parameter p)
    (rank : Fin p) : Option (List ℤ) :=
  if comms.rankOf rank = root then rootDispls comms sendCounts rank sendDispls
  else some (sendDispls.buffers rank)

/-- `scatterv`, whose root has the same assertion. -/
def scatterv [Inhabited T] (root : ℕ) (args : ScattervArguments p T) :
    Option (ScattervResult p T) :=
  if ∀ rank, root < comms.size rank ∧
      (comms.rankOf rank = root → 0 < (args.sendBuf rank).length ∧
        comms.size rank ≤ (args.sendCounts rank).length) then do
    let sendDispls ← allRanks (scattervSendDispls comms root args.sendCounts args.sendDispls)
    let recvCount ← scattervRecvCount comms root args.sendCounts args.recvCount
    let recvBuf ← allRanks fun rank =>
      preparedRecvBuf args.recvBufPolicy (sizeOfCount (recvCount rank)) (args.recvBuf rank)
    let received ← mpiScatterv comms root
      { sendBuf := args.sendBuf, sendCounts := args.sendCounts, sendDispls, recvBuf, recvCount }
    some { recvBuf := received, recvCount, sendDispls }
  else none

end Wrappers

end MpiBindings.Collectives
