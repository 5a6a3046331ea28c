import MpiBindings.Collectives.Communicator

/-!
# The wrappers `alltoall` and `alltoallv`

Counts and displacements that the caller does not pass are computed: receive counts
by an `alltoall` of the send counts, displacements by an exclusive prefix sum.  The
library asserts that all ranks agree on which parameters are computed, so a
parameter is given or computed on all ranks together.
-/

namespace MpiBindings.Collectives

open CountingSort

/-! ## Parameters -/

/-- `BufferResizePolicy`. -/
inductive BufferResizePolicy where
  | noResize
  | growOnly
  | resizeToFit
deriving DecidableEq, Repr

section Resize

variable {α : Type}

/-- `std::vector::resize` with the given fill value. -/
def resizeVector (size : ℕ) (fill : α) (buffer : List α) : List α :=
  buffer.take size ++ List.replicate (size - buffer.length) fill

/-- `resize_if_requested`. -/
def BufferResizePolicy.resizeIfRequested (policy : BufferResizePolicy) (size : ℕ) (fill : α)
    (buffer : List α) : List α :=
  match policy with
  | .noResize => buffer
  | .growOnly => if buffer.length < size then resizeVector size fill buffer else buffer
  | .resizeToFit => resizeVector size fill buffer

@[simp]
theorem length_resizeVector (size : ℕ) (fill : α) (buffer : List α) :
    (resizeVector size fill buffer).length = size := by
  simp only [resizeVector, List.length_append, List.length_take, List.length_replicate]
  omega

theorem BufferResizePolicy.le_length_resizeIfRequested {policy : BufferResizePolicy} {size : ℕ}
    {fill : α} {buffer : List α} (hfits : policy = .noResize → size ≤ buffer.length) :
    size ≤ (policy.resizeIfRequested size fill buffer).length := by
  cases policy with
  | noResize => exact hfits rfl
  | growOnly =>
      simp only [resizeIfRequested]
      split_ifs with hgrow
      · simp
      · omega
  | resizeToFit => simp [resizeIfRequested]

/-- Overwrite the first elements of a buffer. -/
def overwrite (values buffer : List α) : List α := values ++ buffer.drop values.length

theorem overwrite_eq {values buffer : List α} (hlength : buffer.length = values.length) :
    overwrite values buffer = values := by
  simp [overwrite, ← hlength]

end Resize

/-- A buffer that the caller fills, or one that the library computes in a buffer
with a resize policy. -/
inductive Parameter (p : ℕ) where
  | given (buffers : Fin p → List ℤ)
  | computed (policy : BufferResizePolicy) (buffers : Fin p → List ℤ)

namespace Parameter

variable {p : ℕ}

/-- A parameter that the caller omits. -/
def omitted : Parameter p := computed .resizeToFit fun _ => []

/-- Is the parameter computed by the library? -/
def isComputed : Parameter p → Bool
  | .given _ => false
  | .computed _ _ => true

/-- The library computes the parameter in buffers of exactly the given sizes. -/
def ComputedInto (size : Fin p → ℕ) : Parameter p → Prop
  | .given _ => False
  | .computed policy buffers =>
      ∀ rank, (policy.resizeIfRequested (size rank) 0 (buffers rank)).length = size rank

theorem ComputedInto.isComputed {size : Fin p → ℕ} {parameter : Parameter p}
    (h : parameter.ComputedInto size) : parameter.isComputed = true := by
  cases parameter with
  | given buffers => exact h.elim
  | computed policy buffers => rfl

theorem computedInto_omitted (size : Fin p → ℕ) : omitted.ComputedInto size :=
  fun rank => by simp [BufferResizePolicy.resizeIfRequested]

end Parameter

/-- Arguments of `alltoallv` on all ranks. -/
structure AlltoallvArguments (p : ℕ) (T : Type) where
  sendBuf : Fin p → List T
  sendCounts : Fin p → List ℤ
  sendDispls : Parameter p
  recvCounts : Parameter p
  recvDispls : Parameter p
  recvBufPolicy : BufferResizePolicy
  recvBuf : Fin p → List T

/-- Output buffers of `alltoallv` on all ranks. -/
@[ext]
structure AlltoallvResult (p : ℕ) (T : Type) where
  recvBuf : Fin p → List T
  recvCounts : Fin p → List ℤ
  recvDispls : Fin p → List ℤ
  sendDispls : Fin p → List ℤ

/-! ## Wrappers -/

section Wrappers

variable {p : ℕ} (comms : Communicators p)

/-- `alltoall` with a send and a receive buffer and without counts.  Buffers without elements
fail the assertions `data() != nullptr`, since they need not have storage. -/
def alltoall {T : Type} (sendBuf recvBuf : Fin p → List T) : Option (Fin p → List T) :=
  let sendCount := fun rank => (sendBuf rank).length / comms.size rank
  if ∀ rank, sendCount rank < 2 ^ 31 ∧ (sendBuf rank).length % comms.size rank = 0 ∧
      sendCount rank * comms.size rank ≤ (recvBuf rank).length ∧
      0 < (sendBuf rank).length ∧ 0 < (recvBuf rank).length then
    mpiAlltoall comms sendBuf recvBuf sendCount sendCount
  else none

/-- Receive counts: those of the caller, or the counts that the members send. -/
def receiveCounts (sendCounts : Fin p → List ℤ) : Parameter p → Option (Fin p → List ℤ)
  | .given counts =>
      if ∀ rank, comms.size rank ≤ (counts rank).length then some counts else none
  | .computed policy buffers =>
      let resized := fun rank => policy.resizeIfRequested (comms.size rank) 0 (buffers rank)
      if ∀ rank, comms.size rank ≤ (resized rank).length then
        alltoall comms sendCounts resized
      else none

/-- Displacements: those of the caller, or the exclusive prefix sums of the counts. -/
def displacements (counts : Fin p → List ℤ) : Parameter p → Option (Fin p → List ℤ)
  | .given displs =>
      if ∀ rank, comms.size rank ≤ (displs rank).length then some displs else none
  | .computed policy buffers =>
      let resized := fun rank => policy.resizeIfRequested (comms.size rank) 0 (buffers rank)
      if ∀ rank, comms.size rank ≤ (resized rank).length then
        some fun rank =>
          overwrite (exclusiveScan 0 ((counts rank).take (comms.size rank))) (resized rank)
      else none

/-- Last count plus last displacement. -/
def lastEnd (size : ℕ) (counts displs : List ℤ) : Option ℤ :=
  match counts[size - 1]?, displs[size - 1]? with
  | some count, some displ => some (addInt count displ)
  | _, _ => none

/-- The assertion on send counts, send displacements and the size of the send buffer. -/
def sendBlocksFit (size : ℕ) (counts displs : List ℤ) (sendSize : ℕ) : Bool :=
  match lastEnd size counts displs with
  | some blockEnd => decide (sendSize < 2 ^ 31 ∧ blockEnd ≤ sendSize)
  | none => false

/-- `compute_required_recv_buf_size_in_vectorized_communication`. -/
def requiredRecvBufSize (size : ℕ) (computedDispls : Bool) (counts displs : List ℤ) :
    Option ℕ :=
  let required : Option ℤ :=
    if computedDispls then lastEnd size counts displs
    else some ((List.zipWith addInt (counts.take size) (displs.take size)).foldl max 0)
  match required with
  | some bufSize => if 0 ≤ bufSize then some bufSize.toNat else none
  | none => none

/-- The receive buffer of a rank, resized if requested and checked. -/
def preparedRecvBuf {T : Type} [Inhabited T] (policy : BufferResizePolicy)
    (required : Option ℕ) (buffer : List T) : Option (List T) :=
  match required with
  | some size =>
      if size ≤ (policy.resizeIfRequested size default buffer).length then
        some (policy.resizeIfRequested size default buffer)
      else none
  | none => none

/-- `alltoallv`. -/
def alltoallv {T : Type} [Inhabited T] (args : AlltoallvArguments p T) :
    Option (AlltoallvResult p T) :=
  if ∀ rank, comms.size rank ≤ (args.sendCounts rank).length then do
    let recvCounts ← receiveCounts comms args.sendCounts args.recvCounts
    let sendDispls ← displacements comms args.sendCounts args.sendDispls
    if ∀ rank, sendBlocksFit (comms.size rank) (args.sendCounts rank) (sendDispls rank)
        (args.sendBuf rank).length then do
      let recvDispls ← displacements comms recvCounts args.recvDispls
      let recvBuf ← allRanks fun rank =>
        preparedRecvBuf args.recvBufPolicy
          (requiredRecvBufSize (comms.size rank) args.recvDispls.isComputed (recvCounts rank)
            (recvDispls rank))
          (args.recvBuf rank)
      let received ← mpiAlltoallv comms
        { sendBuf := args.sendBuf, sendCounts := args.sendCounts, sendDispls,
          recvBuf, recvCounts, recvDispls }
      some { recvBuf := received, recvCounts, recvDispls, sendDispls }
    else none
  else none

/-- What a call of `alltoallv` that returns has checked and computed. -/
structure AlltoallvReturned {T : Type} [Inhabited T] (args : AlltoallvArguments p T)
    (result : AlltoallvResult p T) (recvBuf : Fin p → List T) : Prop where
  recvCounts : receiveCounts comms args.sendCounts args.recvCounts = some result.recvCounts
  sendDispls : displacements comms args.sendCounts args.sendDispls = some result.sendDispls
  recvDispls : displacements comms result.recvCounts args.recvDispls = some result.recvDispls
  prepared : ∀ rank, preparedRecvBuf args.recvBufPolicy
    (requiredRecvBufSize (comms.size rank) args.recvDispls.isComputed (result.recvCounts rank)
      (result.recvDispls rank)) (args.recvBuf rank) = some (recvBuf rank)
  delivered : mpiAlltoallv comms
    { sendBuf := args.sendBuf, sendCounts := args.sendCounts, sendDispls := result.sendDispls,
      recvBuf, recvCounts := result.recvCounts, recvDispls := result.recvDispls } =
        some result.recvBuf

variable {comms} in
theorem alltoallv_cases {T : Type} [Inhabited T] {args : AlltoallvArguments p T}
    {result : AlltoallvResult p T} (hresult : alltoallv comms args = some result) :
    ∃ recvBuf, AlltoallvReturned comms args result recvBuf := by
  rw [alltoallv, Option.ite_none_right_eq_some] at hresult
  obtain ⟨-, hresult⟩ := hresult
  obtain ⟨recvCounts, hrecvCounts, hresult⟩ := Option.bind_eq_some_iff.mp hresult
  obtain ⟨sendDispls, hsendDispls, hresult⟩ := Option.bind_eq_some_iff.mp hresult
  rw [Option.ite_none_right_eq_some] at hresult
  obtain ⟨-, hresult⟩ := hresult
  obtain ⟨recvDispls, hrecvDispls, hresult⟩ := Option.bind_eq_some_iff.mp hresult
  obtain ⟨recvBuf, hprepared, hresult⟩ := Option.bind_eq_some_iff.mp hresult
  obtain ⟨received, hdelivered, hresult⟩ := Option.bind_eq_some_iff.mp hresult
  obtain rfl := Option.some.inj hresult
  exact ⟨recvBuf, hrecvCounts, hsendDispls, hrecvDispls, allRanks_eq_some.mp hprepared,
    hdelivered⟩

end Wrappers

/-! ## Delivery -/

section Delivery

variable {p : ℕ} (comms : Communicators p) {T : Type} (block : Fin p → Fin p → List T)

/-- The blocks that the members address to a rank, in the order of the members. -/
def received (rank : Fin p) : List T :=
  (comms.members rank).flatMap fun sender => block sender rank

/-- Numbers of elements that the members address to a rank. -/
def receivedLengths (rank : Fin p) : List ℕ :=
  (comms.members rank).map fun sender => (block sender rank).length

/-- Numbers of elements that a rank addresses to the members. -/
def sentLengths (rank : Fin p) : List ℕ :=
  (comms.members rank).map fun receiver => (block rank receiver).length

variable {comms block}

variable (comms) (block) in
theorem length_received (rank : Fin p) :
    (received comms block rank).length = (receivedLengths comms block rank).sum := by
  simp [received, receivedLengths, List.length_flatMap]

@[simp]
theorem length_receivedLengths (rank : Fin p) :
    (receivedLengths comms block rank).length = comms.size rank := by
  simp [receivedLengths, Communicators.size]

@[simp]
theorem length_sentLengths (rank : Fin p) :
    (sentLengths comms block rank).length = comms.size rank := by
  simp [sentLengths, Communicators.size]

variable (comms) in
/-- An `alltoall` of one element for each member transposes the elements. -/
theorem alltoall_transpose (element : Fin p → Fin p → T) {recvBuf : Fin p → List T}
    (hrecvBuf : ∀ rank, (recvBuf rank).length = comms.size rank) :
    alltoall comms (fun rank => (comms.members rank).map (element rank)) recvBuf =
      some fun rank => (comms.members rank).map fun sender => element sender rank := by
  have hcount : ∀ rank, ((comms.members rank).map (element rank)).length / comms.size rank = 1 :=
    fun rank => by
      rw [List.length_map]
      exact Nat.div_self (comms.size_pos rank)
  unfold alltoall
  simp only [hcount]
  have hpos : ∀ rank, 0 < (comms.members rank).length := comms.size_pos
  rw [if_pos fun rank => ⟨by omega, by simp [Communicators.size], by rw [hrecvBuf, one_mul],
      by simpa using hpos rank, by rw [hrecvBuf]; exact comms.size_pos rank⟩,
    mpiAlltoall, mpiAlltoallv_eq_some (fun sender receiver => [element sender receiver])]
  · refine congrArg some (funext fun rank => ?_)
    simp [← List.map_eq_flatMap, hrecvBuf, Communicators.size]
  · intro sender receiver hreceiver
    have hlt := comms.rankOf_lt receiver
    rw [comms.size_eq hreceiver] at hlt
    have hget := comms.getElem?_rankOf hreceiver
    simp only [MpiAlltoallvArguments.block, List.getElem?_replicate, if_pos hlt,
      List.getElem?_map, List.getElem?_range hlt, Option.map_some, mul_one, Option.bind_eq_bind,
      Option.bind_some]
    rw [readBlock_natCast (by simp; exact hlt), List.take_one, List.head?_drop, List.getElem?_map,
      hget]
    rfl
  · intro rank
    simp [Communicators.size]
  · intro rank
    simp only [List.length_singleton, List.map_const', prefixSums_replicate, mul_one]
    simp [Communicators.size]
  · intro rank
    simp [hrecvBuf, Communicators.size]

theorem lastEnd_lt {size : ℕ} {counts displs : List ℤ} {blockEnd : ℤ}
    (hend : lastEnd size counts displs = some blockEnd) : blockEnd < 2 ^ 31 := by
  rw [lastEnd] at hend
  split at hend
  · rw [← Option.some.inj hend]
    exact addInt_lt _ _
  · cases hend

theorem lastEnd_prefixSums (counts : List ℕ) (hne : counts ≠ []) (hlt : counts.sum < 2 ^ 31) :
    lastEnd counts.length (counts.map Nat.cast) ((prefixSums 0 counts).map Nat.cast) =
      some (counts.sum : ℤ) := by
  obtain ⟨front, last, rfl⟩ := List.eq_nil_or_concat' counts |>.resolve_left hne
  have hcount : ((front ++ [last]).map (Nat.cast : ℕ → ℤ))[front.length]? = some (last : ℤ) := by
    simp
  have hdispl : ((prefixSums 0 (front ++ [last])).map (Nat.cast : ℕ → ℤ))[front.length]? =
      some (front.sum : ℤ) := by
    rw [List.getElem?_map, getElem?_prefixSums _ _ (by simp)]
    simp
  rw [List.sum_append, List.sum_singleton] at hlt
  rw [lastEnd, List.length_append, List.length_singleton, Nat.add_sub_cancel, hcount, hdispl]
  simp only
  rw [addInt_natCast (by omega), List.sum_append, List.sum_singleton, Nat.add_comm]

variable (comms) in
theorem displacements_computed (counts : Fin p → List ℕ) (surplus : Fin p → List ℤ)
    {displs : Parameter p} (hlength : ∀ rank, (counts rank).length = comms.size rank)
    (hlt : ∀ rank, (counts rank).sum < 2 ^ 31) (hdispls : displs.ComputedInto comms.size) :
    displacements comms (fun rank => (counts rank).map Nat.cast ++ surplus rank) displs =
      some fun rank => (prefixSums 0 (counts rank)).map Nat.cast := by
  cases displs with
  | given buffers => exact hdispls.elim
  | computed policy buffers =>
      simp only [Parameter.ComputedInto] at hdispls
      rw [displacements, if_pos fun rank => (hdispls rank).ge]
      refine congrArg some (funext fun rank => ?_)
      rw [List.take_left' (by simp [hlength]), exclusiveScan_zero (hlt rank)]
      exact overwrite_eq (by simp [hdispls, hlength])

/-- Computed receive counts are the numbers of elements that the members send. -/
theorem receiveCounts_computed {counts : Parameter p}
    (hcounts : counts.ComputedInto comms.size) :
    receiveCounts comms (fun rank => (sentLengths comms block rank).map Nat.cast) counts =
      some fun rank => (receivedLengths comms block rank).map Nat.cast := by
  cases counts with
  | given buffers => exact hcounts.elim
  | computed policy buffers =>
      rw [receiveCounts, if_pos fun rank => (hcounts rank).ge]
      have h := alltoall_transpose comms
        (fun sender receiver => ((block sender receiver).length : ℤ)) hcounts
      simpa [sentLengths, receivedLengths, Function.comp_def] using h

variable [Inhabited T]

/-- The receive buffer of a rank: the elements received, and what the buffer held
behind them. -/
def receivedInto (comms : Communicators p) (block : Fin p → Fin p → List T)
    (args : AlltoallvArguments p T) (rank : Fin p) : List T :=
  overwrite (received comms block rank)
    (args.recvBufPolicy.resizeIfRequested (received comms block rank).length default
      (args.recvBuf rank))

variable (block) in
theorem alltoallv_eq_some {args : AlltoallvArguments p T} (sendDispls : Fin p → List ℤ)
    (hsendCounts : ∀ rank, args.sendCounts rank = (sentLengths comms block rank).map Nat.cast)
    (hsendDispls : displacements comms args.sendCounts args.sendDispls = some sendDispls)
    (hblock : ∀ sender, ∀ receiver ∈ comms.members sender,
      ∃ displ, (sendDispls sender)[comms.rankOf receiver]? = some displ ∧
        readBlock (args.sendBuf sender) displ (block sender receiver).length =
          some (block sender receiver))
    (hfit : ∀ rank, sendBlocksFit (comms.size rank) (args.sendCounts rank) (sendDispls rank)
      (args.sendBuf rank).length)
    (hrecvCounts : receiveCounts comms args.sendCounts args.recvCounts =
      some fun rank => (receivedLengths comms block rank).map Nat.cast)
    (hrecvDispls : args.recvDispls.ComputedInto comms.size)
    (hlt : ∀ rank, (received comms block rank).length < 2 ^ 31)
    (hrecvBuf : args.recvBufPolicy = .noResize →
      ∀ rank, (received comms block rank).length ≤ (args.recvBuf rank).length) :
    alltoallv comms args = some
      { recvBuf := receivedInto comms block args
        recvCounts := fun rank => (receivedLengths comms block rank).map Nat.cast
        recvDispls := fun rank =>
          (prefixSums 0 (receivedLengths comms block rank)).map Nat.cast
        sendDispls } := by
  have hdispls := displacements_computed comms
    (receivedLengths comms block) (fun _ => []) (by simp)
    (fun rank => by rw [← length_received]; exact hlt rank) hrecvDispls
  simp only [List.append_nil] at hdispls
  have hrequired : ∀ rank, requiredRecvBufSize (comms.size rank) args.recvDispls.isComputed
      ((receivedLengths comms block rank).map Nat.cast)
      ((prefixSums 0 (receivedLengths comms block rank)).map Nat.cast) =
        some (received comms block rank).length := by
    intro rank
    have hlast := lastEnd_prefixSums (receivedLengths comms block rank)
      (List.length_pos_iff.mp (by simpa using comms.size_pos rank))
      (by rw [← length_received]; exact hlt rank)
    rw [length_receivedLengths] at hlast
    simp only [requiredRecvBufSize, hrecvDispls.isComputed, if_true, hlast]
    rw [if_pos (Int.natCast_nonneg _), Int.toNat_natCast, length_received]
  have hprepared : allRanks (fun rank => preparedRecvBuf args.recvBufPolicy
      (requiredRecvBufSize (comms.size rank) args.recvDispls.isComputed
        ((receivedLengths comms block rank).map Nat.cast)
        ((prefixSums 0 (receivedLengths comms block rank)).map Nat.cast)) (args.recvBuf rank)) =
      some fun rank => args.recvBufPolicy.resizeIfRequested (received comms block rank).length
        default (args.recvBuf rank) := by
    refine allRanks_eq_some.mpr fun rank => ?_
    rw [hrequired]
    exact if_pos (BufferResizePolicy.le_length_resizeIfRequested fun hpolicy =>
      hrecvBuf hpolicy rank)
  unfold alltoallv
  simp only [Option.bind_eq_bind]
  rw [if_pos fun rank => by simp [hsendCounts], hrecvCounts, Option.bind_some, hsendDispls,
    Option.bind_some, if_pos hfit, hdispls, Option.bind_some, hprepared, Option.bind_some,
    mpiAlltoallv_eq_some block, Option.bind_some]
  · rfl
  · intro sender receiver hreceiver
    obtain ⟨displ, hdispl, hread⟩ := hblock sender receiver hreceiver
    have hcount : (args.sendCounts sender)[comms.rankOf receiver]? =
        some ((block sender receiver).length : ℤ) := by
      simp [hsendCounts, sentLengths, comms.getElem?_rankOf hreceiver]
    simp only [MpiAlltoallvArguments.block, hcount, hdispl, Option.bind_eq_bind,
      Option.bind_some, hread]
  · intro rank
    simp [receivedLengths, Function.comp_def]
  · intro rank
    exact List.prefix_rfl
  · intro rank
    exact BufferResizePolicy.le_length_resizeIfRequested fun hpolicy => hrecvBuf hpolicy rank

/-- The arguments of a call that passes consecutive blocks, their lengths and their
prefix sums, and lets the library compute the rest. -/
def consecutiveArguments (sendBuf : Fin p → List T) (sendCounts sendDispls : Fin p → List ℤ) :
    AlltoallvArguments p T :=
  { sendBuf, sendCounts, sendDispls := .given sendDispls, recvCounts := .omitted,
    recvDispls := .omitted, recvBufPolicy := .resizeToFit, recvBuf := fun _ => [] }

omit [Inhabited T] in
theorem getElem?_flatten_drop {blocks : List (List T)} {blk : List T} {index : ℕ}
    (hblock : blocks[index]? = some blk) :
    (blocks.flatten.drop ((blocks.map List.length).take index).sum).take blk.length = blk := by
  induction blocks generalizing index with
  | nil => simp at hblock
  | cons head blocks ih =>
      cases index with
      | zero =>
          obtain rfl : head = blk := by simpa using hblock
          simp
      | succ index =>
          rw [List.map_cons, List.take_succ_cons, List.sum_cons, List.flatten_cons,
            List.drop_append, List.drop_eq_nil_of_le (Nat.le_add_right _ _), List.nil_append,
            Nat.add_sub_cancel_left]
          exact ih (by simpa using hblock)

/-- Consecutive blocks arrive in the order of the senders. -/
theorem alltoallv_consecutive
    (hsent : ∀ rank, ((comms.members rank).flatMap (block rank)).length < 2 ^ 31)
    (hreceived : ∀ rank, (received comms block rank).length < 2 ^ 31) :
    (alltoallv comms (consecutiveArguments
      (fun rank => (comms.members rank).flatMap (block rank))
      (fun rank => (sentLengths comms block rank).map Nat.cast)
      (fun rank => (prefixSums 0 (sentLengths comms block rank)).map Nat.cast))).map (·.recvBuf) =
        some (received comms block) := by
  have hsum : ∀ rank, (sentLengths comms block rank).sum =
      ((comms.members rank).flatMap (block rank)).length := fun rank => by
    simp [sentLengths, List.length_flatMap]
  rw [alltoallv_eq_some block
    (fun rank => (prefixSums 0 (sentLengths comms block rank)).map Nat.cast)]
  · refine congrArg some (funext fun rank => ?_)
    exact overwrite_eq (by simp [consecutiveArguments, BufferResizePolicy.resizeIfRequested])
  · exact fun rank => rfl
  · exact if_pos fun rank => by simp
  · intro sender receiver hreceiver
    have hlt := comms.rankOf_lt receiver
    rw [comms.size_eq hreceiver] at hlt
    refine ⟨(((sentLengths comms block sender).take (comms.rankOf receiver)).sum : ℕ), ?_, ?_⟩
    · rw [List.getElem?_map, getElem?_prefixSums _ _ (by simpa using hlt), Nat.zero_add]
      rfl
    · have hblock : ((comms.members sender).map (block sender))[comms.rankOf receiver]? =
          some (block sender receiver) := by
        rw [List.getElem?_map, comms.getElem?_rankOf hreceiver]
        rfl
      have htake := getElem?_flatten_drop hblock
      have hlengths : ((comms.members sender).map (block sender)).map List.length =
          sentLengths comms block sender := by
        simp [sentLengths]
      rw [hlengths, ← List.flatMap_def] at htake
      have hlength := congrArg List.length htake
      rw [List.length_take, List.length_drop] at hlength
      refine (readBlock_natCast ?_).trans (congrArg some htake)
      simp only [consecutiveArguments]
      omega
  · intro rank
    have hlast := lastEnd_prefixSums (sentLengths comms block rank)
      (List.length_pos_iff.mp (by simpa using comms.size_pos rank))
      (by rw [hsum]; exact hsent rank)
    rw [length_sentLengths, hsum] at hlast
    simp only [consecutiveArguments, sendBlocksFit, hlast]
    exact decide_eq_true ⟨hsent rank, le_rfl⟩
  · exact receiveCounts_computed (Parameter.computedInto_omitted _)
  · exact Parameter.computedInto_omitted _
  · exact hreceived
  · exact fun hpolicy => by simp [consecutiveArguments] at hpolicy

end Delivery

end MpiBindings.Collectives
