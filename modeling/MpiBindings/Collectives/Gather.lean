import MpiBindings.Collectives.Layouts

/-!
# The wrappers `allgatherv` and `gatherv`

Every rank contributes one block; `allgatherv` delivers the blocks to all members and
`gatherv` to the root.  Counts that the caller omits are gathered from the senders,
displacements are exclusive prefix sums, and the size of the receive buffer follows
from the layout.  The only guard against an overflow of the prefix sums is the cast of
the required size.
-/

namespace MpiBindings.Collectives

open CountingSort

/-! ## Gathering blocks -/

/-- Arguments of `MPI_Allgatherv` and `MPI_Gatherv` on all ranks. -/
structure MpiGathervArguments (p : ℕ) (T : Type) where
  sendBuf : Fin p → List T
  sendCount : Fin p → ℤ
  recvBuf : Fin p → List T
  recvCounts : Fin p → List ℤ
  recvDispls : Fin p → List ℤ

section Mpi

variable {p : ℕ} {T : Type} (comms : Communicators p)

/-- The receive buffer of a rank that gathers the blocks of all members. -/
def gatheredAt (args : MpiGathervArguments p T) (rank : Fin p) : Option (List T) := do
  let blocks ← (comms.members rank).mapM fun sender =>
    readBlock (args.sendBuf sender) 0 (args.sendCount sender)
  writeBlocks blocks (args.recvCounts rank) (args.recvDispls rank) (args.recvBuf rank)

/-- `MPI_Allgatherv`: the receive buffers of all ranks. -/
def mpiAllgatherv (args : MpiGathervArguments p T) : Option (Fin p → List T) :=
  allRanks (gatheredAt comms args)

/-- `MPI_Gatherv`: only the root receives. -/
def mpiGatherv (root : ℕ) (args : MpiGathervArguments p T) : Option (Fin p → List T) :=
  allRanks fun rank =>
    if comms.rankOf rank = root then gatheredAt comms args rank else some (args.recvBuf rank)

/-- Arguments with one receive count for all members and blocks that follow each other. -/
def evenArguments (sendBuf recvBuf : Fin p → List T) (sendCount recvCount : Fin p → ℕ) :
    MpiGathervArguments p T :=
  { sendBuf
    sendCount := fun rank => sendCount rank
    recvBuf
    recvCounts := fun rank => List.replicate (comms.size rank) (recvCount rank : ℤ)
    recvDispls := fun rank => (List.range (comms.size rank)).map fun index =>
      ((index * recvCount rank : ℕ) : ℤ) }

/-- `MPI_Allgather`. -/
def mpiAllgather (sendBuf recvBuf : Fin p → List T) (sendCount recvCount : Fin p → ℕ) :
    Option (Fin p → List T) :=
  mpiAllgatherv comms (evenArguments comms sendBuf recvBuf sendCount recvCount)

/-- `MPI_Gather`. -/
def mpiGather (root : ℕ) (sendBuf recvBuf : Fin p → List T) (sendCount recvCount : Fin p → ℕ) :
    Option (Fin p → List T) :=
  mpiGatherv comms root (evenArguments comms sendBuf recvBuf sendCount recvCount)

end Mpi

/-! ## Wrappers -/

/-- Arguments of `allgatherv` and `gatherv` on all ranks. -/
structure GathervArguments (p : ℕ) (T : Type) where
  sendBuf : Fin p → List T
  sendCount : Fin p → Option ℤ
  recvCounts : Parameter p
  recvDispls : Parameter p
  recvBufPolicy : BufferResizePolicy
  recvBuf : Fin p → List T

/-- Output buffers of `allgatherv` and `gatherv` on all ranks. -/
@[ext]
structure GathervResult (p : ℕ) (T : Type) where
  recvBuf : Fin p → List T
  sendCount : Fin p → ℤ
  recvCounts : Fin p → List ℤ
  recvDispls : Fin p → List ℤ

/-- The buffers of a parameter. -/
def Parameter.buffers {p : ℕ} : Parameter p → Fin p → List ℤ
  | .given buffers => buffers
  | .computed _ buffers => buffers

/-- The send count of the caller, or the size of the send buffer. -/
def sendCountOf (given : Option ℤ) (sendSize : ℕ) : Option ℤ :=
  match given with
  | some count => some count
  | none => if sendSize < 2 ^ 31 then some (sendSize : ℤ) else none

section Wrappers

variable {p : ℕ} (comms : Communicators p) {T : Type}

/-- `allgather` with a send and a receive buffer and without counts. -/
def allgather (sendBuf recvBuf : Fin p → List T) : Option (Fin p → List T) :=
  if ∀ rank,
      (∀ other ∈ comms.members rank, (sendBuf other).length = (sendBuf rank).length) ∧
      (sendBuf rank).length < 2 ^ 31 ∧
      (sendBuf rank).length * comms.size rank ≤ (recvBuf rank).length then
    mpiAllgather comms sendBuf recvBuf (fun rank => (sendBuf rank).length)
      fun rank => (sendBuf rank).length
  else none

/-- `gather` with a send and a receive buffer and the counts of the caller. -/
def gather (root : ℕ) (sendBuf recvBuf : Fin p → List T) (sendCount recvCount : ℕ) :
    Option (Fin p → List T) :=
  if ∀ rank, root < comms.size rank ∧
      (comms.rankOf rank = root → recvCount * comms.size rank ≤ (recvBuf rank).length) then
    mpiGather comms root sendBuf recvBuf (fun _ => sendCount) fun _ => recvCount
  else none

/-- Receive counts of `allgatherv`: those of the caller, or the gathered send counts. -/
def allgathervCounts (sendCount : Fin p → ℤ) : Parameter p → Option (Fin p → List ℤ)
  | .given counts =>
      if ∀ rank, comms.size rank ≤ (counts rank).length then some counts else none
  | .computed policy buffers =>
      let resized := fun rank => policy.resizeIfRequested (comms.size rank) 0 (buffers rank)
      if ∀ rank, comms.size rank ≤ (resized rank).length then
        allgather comms (fun rank => [sendCount rank]) resized
      else none

/-- `allgatherv`. -/
def allgatherv [Inhabited T] (args : GathervArguments p T) : Option (GathervResult p T) := do
  let sendCount ← allRanks fun rank => sendCountOf (args.sendCount rank) (args.sendBuf rank).length
  let recvCounts ← allgathervCounts comms sendCount args.recvCounts
  let layouts ← allRanks (recvLayout comms recvCounts args.recvDispls)
  let recvBuf ← allRanks fun rank =>
    preparedRecvBuf args.recvBufPolicy (some (layouts rank).size) (args.recvBuf rank)
  let received ← mpiAllgatherv comms
    { sendBuf := args.sendBuf, sendCount, recvBuf, recvCounts,
      recvDispls := fun rank => (layouts rank).displs }
  some { recvBuf := received, sendCount, recvCounts,
         recvDispls := fun rank => (layouts rank).displs }

/-- Receive counts of `gatherv`: only the root resizes its buffer and receives. -/
def gathervCounts (root : ℕ) (sendCount : Fin p → ℤ) : Parameter p → Option (Fin p → List ℤ)
  | .given counts =>
      if ∀ rank, comms.rankOf rank = root → comms.size rank ≤ (counts rank).length then
        some counts
      else none
  | .computed policy buffers =>
      let resized := fun rank =>
        if comms.rankOf rank = root then
          policy.resizeIfRequested (comms.size rank) 0 (buffers rank)
        else buffers rank
      if ∀ rank, comms.rankOf rank = root → comms.size rank ≤ (resized rank).length then
        gather comms root (fun rank => [sendCount rank]) resized 1 1
      else none

/-- Displacements of the root of `gatherv`. -/
def rootDispls (recvCounts : Fin p → List ℤ) (rank : Fin p) : Parameter p → Option (List ℤ)
  | .given displs =>
      if comms.size rank ≤ (displs rank).length then some (displs rank) else none
  | .computed policy buffers =>
      let resized := policy.resizeIfRequested (comms.size rank) 0 (buffers rank)
      if comms.size rank ≤ resized.length then
        some (overwrite (exclusiveScan 0 ((recvCounts rank).take (comms.size rank))) resized)
      else none

/-- The receive layout of a rank in `gatherv`, up to the cast of the required size; the
other ranks keep their displacements and need no receive buffer. -/
def rootRecvLayout (root : ℕ) (recvCounts : Fin p → List ℤ) (recvDispls : Parameter p)
    (rank : Fin p) : Option RecvLayout :=
  if comms.rankOf rank = root then do
    let displs ← rootDispls comms recvCounts rank recvDispls
    let size ← requiredRecvBufSize (comms.size rank) recvDispls.isComputed (recvCounts rank)
      displs
    some { displs, size }
  else some { displs := recvDispls.buffers rank, size := 0 }

/-- `gatherv`. -/
def gatherv [Inhabited T] (root : ℕ) (args : GathervArguments p T) :
    Option (GathervResult p T) :=
  if ∀ rank, root < comms.size rank then do
    let sendCount ← allRanks fun rank =>
      sendCountOf (args.sendCount rank) (args.sendBuf rank).length
    let recvCounts ← gathervCounts comms root sendCount args.recvCounts
    let layouts ← allRanks (rootRecvLayout comms root recvCounts args.recvDispls)
    let recvBuf ← allRanks fun rank =>
      if comms.rankOf rank = root then
        preparedRecvBuf args.recvBufPolicy (some (layouts rank).size) (args.recvBuf rank)
      else some (args.recvBuf rank)
    let received ← mpiGatherv comms root
      { sendBuf := args.sendBuf, sendCount, recvBuf, recvCounts,
        recvDispls := fun rank => (layouts rank).displs }
    some { recvBuf := received, sendCount, recvCounts,
           recvDispls := fun rank => (layouts rank).displs }
  else none

end Wrappers

/-! ## Accepted layouts -/

section Accepted

variable {p : ℕ} (comms : Communicators p) {counts : Fin p → List ℕ}

variable {comms} in
theorem take_counts {rank : Fin p} (hlength : (counts rank).length = comms.size rank) :
    ((counts rank).map (Nat.cast : ℕ → ℤ)).take (comms.size rank) =
      (counts rank).map Nat.cast :=
  List.take_of_length_le (by simp [hlength])

/-- A computed layout that is accepted: prefix sums in some buffer, and their size. -/
def AcceptedLayout (counts : List ℕ) (layout : RecvLayout) : Prop :=
  ∃ resized, layout.displs = overwrite (exclusiveScan 0 (counts.map Nat.cast)) resized ∧
    requiredRecvBufSize counts.length true (counts.map Nat.cast) layout.displs =
      some layout.size

variable {comms} in
theorem acceptedLayout_of_recvLayout {rank : Fin p}
    (hlength : (counts rank).length = comms.size rank) {policy : BufferResizePolicy}
    {buffers : Fin p → List ℤ} {layout : RecvLayout}
    (hlayout : recvLayout comms (fun rank => (counts rank).map Nat.cast)
      (.computed policy buffers) rank = some layout) : AcceptedLayout (counts rank) layout := by
  obtain ⟨displs, hdispls, hlayout⟩ := Option.bind_eq_some_iff.mp hlayout
  obtain ⟨size, hsize, hlayout⟩ := Option.bind_eq_some_iff.mp hlayout
  obtain rfl := Option.some.inj hlayout
  rw [displacements, Option.ite_none_right_eq_some] at hdispls
  obtain rfl := Option.some.inj hdispls.2
  refine ⟨policy.resizeIfRequested (comms.size rank) 0 (buffers rank), ?_, ?_⟩
  · dsimp only
    rw [take_counts hlength]
  · rw [hlength]
    exact hsize

variable {comms} in
theorem acceptedLayout_of_rootRecvLayout {root : ℕ} {rank : Fin p}
    (hroot : comms.rankOf rank = root) (hlength : (counts rank).length = comms.size rank)
    {policy : BufferResizePolicy} {buffers : Fin p → List ℤ} {layout : RecvLayout}
    (hlayout : rootRecvLayout comms root (fun rank => (counts rank).map Nat.cast)
      (.computed policy buffers) rank = some layout) : AcceptedLayout (counts rank) layout := by
  rw [rootRecvLayout, if_pos hroot] at hlayout
  obtain ⟨displs, hdispls, hlayout⟩ := Option.bind_eq_some_iff.mp hlayout
  obtain ⟨size, hsize, hlayout⟩ := Option.bind_eq_some_iff.mp hlayout
  obtain rfl := Option.some.inj hlayout
  rw [rootDispls, Option.ite_none_right_eq_some] at hdispls
  obtain rfl := Option.some.inj hdispls.2
  refine ⟨policy.resizeIfRequested (comms.size rank) 0 (buffers rank), ?_, ?_⟩
  · dsimp only
    rw [take_counts hlength]
  · rw [hlength]
    exact hsize

theorem AcceptedLayout.exact {counts : List ℕ} {layout : RecvLayout}
    (haccepted : AcceptedLayout counts layout) (hpos : 0 < counts.length)
    (hfits : FitsOrWrapsNegative counts.sum) : layout.Exact counts := by
  obtain ⟨displs, size⟩ := layout
  obtain ⟨resized, hdispls, hsize⟩ := haccepted
  obtain rfl : displs = _ := hdispls
  exact (computedLayout_exact_iff counts hpos resized).mpr hfits size hsize

/-- The layout that a rank computes in an omitted buffer. -/
def omittedLayout (counts : List ℕ) (size : ℕ) : RecvLayout :=
  { displs := overwrite (exclusiveScan 0 (counts.map Nat.cast))
      (resizeVector counts.length 0 []), size }

theorem omittedLayout_exact {counts : List ℕ} (hpos : 0 < counts.length)
    (hexact : ∀ size, requiredRecvBufSize counts.length true (counts.map Nat.cast)
      (omittedLayout counts size).displs = some size → (omittedLayout counts size).Exact counts) :
    FitsOrWrapsNegative counts.sum :=
  (computedLayout_exact_iff counts hpos (resizeVector counts.length 0 [])).mp hexact

variable {comms} in
theorem recvLayout_omitted (hlength : ∀ rank, (counts rank).length = comms.size rank)
    (rank : Fin p) {size : ℕ}
    (hsize : requiredRecvBufSize (counts rank).length true ((counts rank).map Nat.cast)
      (omittedLayout (counts rank) size).displs = some size) :
    recvLayout comms (fun rank => (counts rank).map Nat.cast) .omitted rank =
      some (omittedLayout (counts rank) size) := by
  have hdispls : displacements comms (fun rank => (counts rank).map Nat.cast) .omitted =
      some fun rank => (omittedLayout (counts rank) size).displs := by
    rw [Parameter.omitted, displacements,
      if_pos fun rank => by simp [BufferResizePolicy.resizeIfRequested]]
    refine congrArg some (funext fun other => ?_)
    rw [take_counts (hlength other), omittedLayout, hlength other]
    rfl
  rw [hlength] at hsize
  rw [recvLayout, hdispls]
  exact Option.bind_eq_some_iff.mpr ⟨_, rfl, Option.bind_eq_some_iff.mpr ⟨size, hsize, rfl⟩⟩

variable {comms} in
theorem rootRecvLayout_omitted {root : ℕ} {rank : Fin p} (hroot : comms.rankOf rank = root)
    (hlength : (counts rank).length = comms.size rank) {size : ℕ}
    (hsize : requiredRecvBufSize (counts rank).length true ((counts rank).map Nat.cast)
      (omittedLayout (counts rank) size).displs = some size) :
    rootRecvLayout comms root (fun rank => (counts rank).map Nat.cast) .omitted rank =
      some (omittedLayout (counts rank) size) := by
  have hdispls : rootDispls comms (fun rank => (counts rank).map Nat.cast) rank .omitted =
      some (omittedLayout (counts rank) size).displs := by
    rw [Parameter.omitted, rootDispls, if_pos (by simp [BufferResizePolicy.resizeIfRequested]),
      take_counts hlength, omittedLayout, hlength]
    rfl
  rw [hlength] at hsize
  rw [rootRecvLayout, if_pos hroot, hdispls]
  exact Option.bind_eq_some_iff.mpr ⟨_, rfl, Option.bind_eq_some_iff.mpr ⟨size, hsize, rfl⟩⟩

/-- In `alltoallv` and `allgatherv` on every rank, and in `gatherv` at the root, the
layouts that survive the cast of the required size are exact exactly if the total count
fits into a machine integer or wraps to a negative one. -/
theorem recvLayouts_exact_iff (hlength : ∀ rank, (counts rank).length = comms.size rank)
    (rank : Fin p) :
    ((∀ policy buffers layout,
        recvLayout comms (fun rank => (counts rank).map Nat.cast) (.computed policy buffers)
          rank = some layout → layout.Exact (counts rank)) ↔
      FitsOrWrapsNegative (counts rank).sum) ∧
    ((∀ policy buffers layout,
        rootRecvLayout comms (comms.rankOf rank) (fun rank => (counts rank).map Nat.cast)
          (.computed policy buffers) rank = some layout → layout.Exact (counts rank)) ↔
      FitsOrWrapsNegative (counts rank).sum) := by
  have hpos : 0 < (counts rank).length := by
    rw [hlength]
    exact comms.size_pos rank
  constructor
  · constructor
    · intro hexact
      exact omittedLayout_exact hpos fun size hsize =>
        hexact _ _ _ (recvLayout_omitted hlength rank hsize)
    · intro hfits policy buffers layout hlayout
      exact (acceptedLayout_of_recvLayout (hlength rank) hlayout).exact hpos hfits
  · constructor
    · intro hexact
      exact omittedLayout_exact hpos fun size hsize =>
        hexact _ _ _ (rootRecvLayout_omitted rfl (hlength rank) hsize)
    · intro hfits policy buffers layout hlayout
      exact (acceptedLayout_of_rootRecvLayout rfl (hlength rank) hlayout).exact hpos hfits

/-- Three counts whose total wraps to zero pass the cast. -/
theorem recvLayout_wraps_to_zero :
    (∀ count ∈ [2 ^ 31 - 1, 2 ^ 31 - 1, 2], 0 ≤ count ∧ count < 2 ^ 31) ∧
    recvLayout (Communicators.world 3) (fun _ => [2 ^ 31 - 1, 2 ^ 31 - 1, 2]) .omitted 0 =
      some { displs := [0, 2 ^ 31 - 1, -2], size := 0 } ∧
    rootRecvLayout (Communicators.world 3) 0 (fun _ => [2 ^ 31 - 1, 2 ^ 31 - 1, 2]) .omitted 0 =
      some { displs := [0, 2 ^ 31 - 1, -2], size := 0 } ∧
    ¬ RecvLayout.Exact [2 ^ 31 - 1, 2 ^ 31 - 1, 2]
      { displs := [0, 2 ^ 31 - 1, -2], size := 0 } := by
  refine ⟨by decide, by decide, by decide, ?_⟩
  intro hexact
  exact absurd hexact.2 (by decide)

/-- Three blocks of one element. -/
theorem recvLayouts_exact_ones :
    ((∀ policy buffers layout,
        recvLayout (Communicators.world 3) (fun _ => [1, 1, 1]) (.computed policy buffers)
          0 = some layout → layout.Exact [1, 1, 1]) ↔ FitsOrWrapsNegative 3) ∧
    ((∀ policy buffers layout,
        rootRecvLayout (Communicators.world 3) ((Communicators.world 3).rankOf 0)
          (fun _ => [1, 1, 1]) (.computed policy buffers) 0 = some layout →
            layout.Exact [1, 1, 1]) ↔ FitsOrWrapsNegative 3) :=
  have hlength : ∀ rank, ((fun _ => [1, 1, 1] : Fin 3 → List ℕ) rank).length =
      (Communicators.world 3).size rank := fun rank => (Communicators.size_world rank).symm
  recvLayouts_exact_iff (Communicators.world 3) hlength 0

end Accepted

/-! ## Layouts of `alltoallv` -/

section AlltoallvLayout

variable {p : ℕ} {comms : Communicators p} {T : Type} [Inhabited T]

/-- A call of `alltoallv` that returns has used the receive layout of every rank. -/
theorem recvLayout_of_alltoallv {args : AlltoallvArguments p T} {result : AlltoallvResult p T}
    (hresult : alltoallv comms args = some result) (rank : Fin p) :
    ∃ layout, recvLayout comms result.recvCounts args.recvDispls rank = some layout ∧
      layout.displs = result.recvDispls rank := by
  obtain ⟨recvBuf, hreturned⟩ := alltoallv_cases hresult
  have hprepared := hreturned.prepared rank
  cases hsize : requiredRecvBufSize (comms.size rank) args.recvDispls.isComputed
      (result.recvCounts rank) (result.recvDispls rank) with
  | none =>
      rw [hsize] at hprepared
      cases hprepared
  | some size =>
      refine ⟨{ displs := result.recvDispls rank, size }, ?_, rfl⟩
      rw [recvLayout, hreturned.recvDispls]
      exact Option.bind_eq_some_iff.mpr
        ⟨_, rfl, Option.bind_eq_some_iff.mpr ⟨size, hsize, rfl⟩⟩

end AlltoallvLayout

end MpiBindings.Collectives
