import MpiBindings.Collectives.ComputedCounts

/-!
# Contents of the vectorized collectives

Calls of `allgatherv`, `gatherv` and `scatterv` that leave everything to the library that it can
compute.  All of them are exchanges in which every rank addresses one block to every rank.
-/

namespace MpiBindings.Collectives

open CountingSort

/-! ## Gathered blocks -/

section Gathered

variable {p : ℕ} {comms : Communicators p} {T : Type}

/-- Blocks at the prefix sums of their lengths are gathered one after the other. -/
theorem gatheredAt_eq_some (block : Fin p → Fin p → List T) {args : MpiGathervArguments p T}
    {rank : Fin p}
    (hblock : ∀ sender ∈ comms.members rank,
      readBlock (args.sendBuf sender) 0 (args.sendCount sender) = some (block sender rank))
    (hcounts : (receivedLengths comms block rank).map Nat.cast <+: args.recvCounts rank)
    (hdispls : (prefixSums 0 (receivedLengths comms block rank)).map Nat.cast <+:
      args.recvDispls rank)
    (hfits : (received comms block rank).length ≤ (args.recvBuf rank).length) :
    gatheredAt comms args rank =
      some (overwrite (received comms block rank) (args.recvBuf rank)) := by
  let blocks := (comms.members rank).map fun sender => block sender rank
  have hflatten : blocks.flatten = received comms block rank := List.flatMap_def.symm
  have hlengths : blocks.map List.length = receivedLengths comms block rank := by
    rw [List.map_map]
    rfl
  rw [← hlengths, List.map_map] at hcounts
  rw [← hlengths] at hdispls
  rw [← hflatten] at hfits ⊢
  rw [gatheredAt, mapM_eq_some_map hblock]
  exact writeBlocks_prefixSums blocks [] (args.recvBuf rank) hcounts hdispls hfits

/-- All of a buffer is sent. -/
theorem readBlock_all (buffer : List T) : readBlock buffer 0 (buffer.length : ℤ) = some buffer := by
  have hread : readBlock buffer ((0 : ℕ) : ℤ) (buffer.length : ℤ) =
      some ((buffer.drop 0).take buffer.length) := readBlock_natCast fun _ => (Nat.zero_add _).le
  rwa [List.drop_zero, List.take_length] at hread

/-- Blocks of one size. -/
theorem receivedLengths_const {block : Fin p → Fin p → List T} {rank : Fin p} {n : ℕ}
    (hlength : ∀ sender ∈ comms.members rank, (block sender rank).length = n) :
    receivedLengths comms block rank = List.replicate (comms.size rank) n := by
  calc receivedLengths comms block rank
      = (comms.members rank).map fun _ => n := List.map_congr_left hlength
    _ = List.replicate (comms.size rank) n := List.map_const'

/-- Blocks of one size are gathered in the order of the ranks. -/
theorem gatheredAt_even {sendBuf recvBuf : Fin p → List T} {sendCount recvCount : Fin p → ℕ}
    {rank : Fin p} {n : ℕ} (hrecvCount : recvCount rank = n)
    (hsend : ∀ sender ∈ comms.members rank,
      sendCount sender = (sendBuf sender).length ∧ (sendBuf sender).length = n)
    (hrecv : n * comms.size rank ≤ (recvBuf rank).length) :
    gatheredAt comms (evenArguments comms sendBuf recvBuf sendCount recvCount) rank =
      some (overwrite ((comms.members rank).flatMap sendBuf) (recvBuf rank)) := by
  have hlengths : receivedLengths comms (fun sender _ => sendBuf sender) rank =
      List.replicate (comms.size rank) n :=
    receivedLengths_const fun sender hsender => (hsend sender hsender).2
  refine gatheredAt_eq_some (fun sender _ => sendBuf sender) (fun sender hsender => ?_) ?_ ?_ ?_
  · simp only [evenArguments, (hsend sender hsender).1]
    exact readBlock_all _
  · rw [hlengths, List.map_replicate]
    simp only [evenArguments, hrecvCount]
    exact List.prefix_rfl
  · rw [hlengths, prefixSums_replicate, List.map_map]
    simp only [evenArguments, hrecvCount]
    exact List.prefix_rfl
  · rw [length_received, hlengths, List.sum_replicate_nat, Nat.mul_comm]
    exact hrecv

theorem mpiAllgather_eq_some {sendBuf recvBuf : Fin p → List T} {n : ℕ}
    (hsend : ∀ rank, (sendBuf rank).length = n)
    (hrecv : ∀ rank, n * comms.size rank ≤ (recvBuf rank).length) :
    mpiAllgather comms sendBuf recvBuf (fun rank => (sendBuf rank).length)
        (fun rank => (sendBuf rank).length) =
      some fun rank => overwrite ((comms.members rank).flatMap sendBuf) (recvBuf rank) :=
  allRanks_eq_some.mpr fun rank =>
    gatheredAt_even (hsend rank) (fun sender _ => ⟨rfl, hsend sender⟩) (hrecv rank)

end Gathered

/-! ## Calls without counts -/

section Calls

variable {p : ℕ} {comms : Communicators p} {T : Type} (message : Fin p → List T)

/-- The arguments of a call that passes only a send buffer. -/
def sendBufOnly : GathervArguments p T :=
  { sendBuf := message, sendCount := fun _ => none, recvCounts := .omitted,
    recvDispls := .omitted, recvBufPolicy := .resizeToFit, recvBuf := fun _ => [] }

/-- The block that a rank sends to all ranks. -/
def toAll (sender _receiver : Fin p) : List T := message sender

variable {message}

theorem sendCountOf_message (hlt : ∀ rank, (message rank).length < 2 ^ 31) :
    (allRanks fun rank => sendCountOf none (message rank).length) =
      some fun rank => ((message rank).length : ℤ) :=
  allRanks_eq_some.mpr fun rank => if_pos (hlt rank)

/-- The counts of all members. -/
def memberCounts (comms : Communicators p) (message : Fin p → List T) (rank : Fin p) : List ℤ :=
  (receivedLengths comms (toAll message) rank).map Nat.cast

theorem flatMap_count (rank : Fin p) :
    ((comms.members rank).flatMap fun sender => [((message sender).length : ℤ)]) =
      memberCounts comms message rank := by
  simp [memberCounts, receivedLengths, toAll, ← List.map_eq_flatMap]

@[simp]
theorem length_memberCounts (rank : Fin p) :
    (memberCounts comms message rank).length = comms.size rank := by
  simp [memberCounts]

theorem allgathervCounts_omitted :
    allgathervCounts comms (fun rank => ((message rank).length : ℤ)) .omitted =
      some (memberCounts comms message) := by
  let counts (rank : Fin p) : List ℤ := [((message rank).length : ℤ)]
  let resized (rank : Fin p) : List ℤ := resizeVector (comms.size rank) 0 []
  have hgather := @mpiAllgather_eq_some p comms ℤ counts resized 1 (fun _ => rfl)
    fun rank => by simp [resized]
  rw [Parameter.omitted, allgathervCounts, if_pos fun rank => by
    simp [BufferResizePolicy.resizeIfRequested], allgather, if_pos fun rank => by
      simp [BufferResizePolicy.resizeIfRequested]]
  refine hgather.trans (congrArg some (funext fun rank => ?_))
  rw [flatMap_count]
  exact overwrite_eq (by simp [resized])

/-- The displacements of the blocks of all members. -/
def memberDispls (comms : Communicators p) (message : Fin p → List T) (rank : Fin p) : List ℤ :=
  (prefixSums 0 (receivedLengths comms (toAll message) rank)).map Nat.cast

section Layout

variable {rank : Fin p} (hlt : (received comms (toAll message) rank).length < 2 ^ 31)

include hlt

theorem sum_receivedLengths_lt :
    (receivedLengths comms (toAll message) rank).sum < 2 ^ 31 := by
  rwa [← length_received]

theorem omittedLayout_members (size : ℕ) :
    omittedLayout (receivedLengths comms (toAll message) rank) size =
      ⟨memberDispls comms message rank, size⟩ := by
  rw [omittedLayout, exclusiveScan_zero (sum_receivedLengths_lt hlt), overwrite_eq (by simp)]
  rfl

theorem requiredRecvBufSize_members :
    requiredRecvBufSize (receivedLengths comms (toAll message) rank).length true
        ((receivedLengths comms (toAll message) rank).map Nat.cast)
        (omittedLayout (receivedLengths comms (toAll message) rank)
          (received comms (toAll message) rank).length).displs =
      some (received comms (toAll message) rank).length := by
  rw [omittedLayout_members hlt, length_received]
  exact requiredRecvBufSize_last (by simpa using comms.size_pos rank) (sum_receivedLengths_lt hlt)

theorem recvLayout_members :
    recvLayout comms (memberCounts comms message) .omitted rank =
      some ⟨memberDispls comms message rank, (received comms (toAll message) rank).length⟩ := by
  rw [← omittedLayout_members hlt]
  exact recvLayout_omitted (fun _ => length_receivedLengths _) rank
    (requiredRecvBufSize_members hlt)

theorem rootRecvLayout_members {root : ℕ} (hroot : comms.rankOf rank = root) :
    rootRecvLayout comms root (memberCounts comms message) .omitted rank =
      some ⟨memberDispls comms message rank, (received comms (toAll message) rank).length⟩ := by
  rw [← omittedLayout_members hlt]
  exact rootRecvLayout_omitted hroot (length_receivedLengths _) (requiredRecvBufSize_members hlt)

end Layout

theorem length_message_lt
    (hlt : ∀ rank, (received comms (toAll message) rank).length < 2 ^ 31) (rank : Fin p) :
    (message rank).length < 2 ^ 31 := by
  refine lt_of_le_of_lt ?_ (hlt rank)
  exact (List.sublist_flatten_of_mem (List.mem_map_of_mem (comms.mem_self rank))).length_le

variable [Inhabited T]

/-- Every rank gets the messages of all members. -/
theorem allgatherv_message
    (hlt : ∀ rank, (received comms (toAll message) rank).length < 2 ^ 31) :
    allgatherv comms (sendBufOnly message) =
      some { recvBuf := received comms (toAll message)
             sendCount := fun rank => ((message rank).length : ℤ)
             recvCounts := memberCounts comms message
             recvDispls := memberDispls comms message } := by
  have hlayouts := allRanks_eq_some.mpr fun rank => recvLayout_members (hlt rank)
  let resized (rank : Fin p) : List T :=
    resizeVector (received comms (toAll message) rank).length default []
  have hprepared : (allRanks fun rank => preparedRecvBuf .resizeToFit
      (some (received comms (toAll message) rank).length) ([] : List T)) = some resized :=
    allRanks_eq_some.mpr fun rank => if_pos (by simp [BufferResizePolicy.resizeIfRequested])
  have hgathered : mpiAllgatherv comms
      { sendBuf := message, sendCount := fun rank => ((message rank).length : ℤ)
        recvBuf := resized, recvCounts := memberCounts comms message
        recvDispls := memberDispls comms message } = some (received comms (toAll message)) :=
    allRanks_eq_some.mpr fun rank => by
      rw [gatheredAt_eq_some (toAll message) (fun sender _ => readBlock_all _) List.prefix_rfl
        List.prefix_rfl (by simp [resized]), overwrite_eq (by simp [resized])]
  simp only [allgatherv, sendBufOnly, sendCountOf_message (length_message_lt hlt),
    allgathervCounts_omitted, hlayouts, hprepared, hgathered, Option.bind_eq_bind,
    Option.bind_some]

/-- Buffers that only the root has. -/
def atRoot {α : Type} (comms : Communicators p) (root : ℕ) (buffers : Fin p → List α)
    (rank : Fin p) : List α :=
  if comms.rankOf rank = root then buffers rank else []

omit [Inhabited T] in
theorem gathervCounts_omitted {root : ℕ} (hroot : ∀ rank, root < comms.size rank) :
    gathervCounts comms root (fun rank => ((message rank).length : ℤ)) .omitted =
      some (atRoot comms root (memberCounts comms message)) := by
  let resized (rank : Fin p) : List ℤ :=
    if comms.rankOf rank = root then resizeVector (comms.size rank) 0 [] else []
  have hresized : ∀ rank, comms.rankOf rank = root → (resized rank).length = comms.size rank :=
    fun rank hrank => by simp [resized, hrank]
  refine (if_pos fun rank hrank => (hresized rank hrank).ge).trans ((if_pos fun rank =>
    ⟨hroot rank, fun hrank => (one_mul _).trans_le (hresized rank hrank).ge⟩).trans ?_)
  refine allRanks_eq_some.mpr fun rank => ?_
  rw [atRoot]
  split
  next hrank =>
    refine (gatheredAt_even (n := 1) rfl (fun _ _ => ⟨rfl, rfl⟩) ?_).trans ?_
    · exact (one_mul _).trans_le (hresized rank hrank).ge
    · rw [flatMap_count]
      exact congrArg some (overwrite_eq (by rw [length_memberCounts]; exact hresized rank hrank))
  next hrank => exact congrArg some (if_neg hrank)

omit [Inhabited T] in
/-- A rank computes its layout from its own counts. -/
theorem rootRecvLayout_congr {root : ℕ} {counts other : Fin p → List ℤ} {rank : Fin p}
    (hsame : counts rank = other rank) (recvDispls : Parameter p) :
    rootRecvLayout comms root counts recvDispls rank =
      rootRecvLayout comms root other recvDispls rank := by
  cases recvDispls <;> simp only [rootRecvLayout, rootDispls, hsame]

/-- The root gets the messages of all members. -/
theorem gatherv_message {root : ℕ} (hroot : ∀ rank, root < comms.size rank)
    (hlt : ∀ rank, (received comms (toAll message) rank).length < 2 ^ 31) :
    gatherv comms root (sendBufOnly message) =
      some { recvBuf := atRoot comms root (received comms (toAll message))
             sendCount := fun rank => ((message rank).length : ℤ)
             recvCounts := atRoot comms root (memberCounts comms message)
             recvDispls := atRoot comms root (memberDispls comms message) } := by
  let size (rank : Fin p) : ℕ :=
    if comms.rankOf rank = root then (received comms (toAll message) rank).length else 0
  let resized (rank : Fin p) : List T :=
    if comms.rankOf rank = root then resizeVector (size rank) default [] else []
  have hlayouts : allRanks (rootRecvLayout comms root
      (atRoot comms root (memberCounts comms message)) .omitted) =
        some fun rank => ⟨atRoot comms root (memberDispls comms message) rank, size rank⟩ :=
    allRanks_eq_some.mpr fun rank => by
      by_cases hrank : comms.rankOf rank = root
      · have hcounts : atRoot comms root (memberCounts comms message) rank =
            memberCounts comms message rank := if_pos hrank
        rw [rootRecvLayout_congr hcounts, rootRecvLayout_members (hlt rank) hrank]
        simp only [atRoot, size, if_pos hrank]
      · rw [rootRecvLayout, if_neg hrank]
        simp only [atRoot, size, if_neg hrank]
        rfl
  have hprepared : (allRanks fun rank =>
      if comms.rankOf rank = root then
        preparedRecvBuf .resizeToFit (some (size rank)) ([] : List T)
      else some []) = some resized :=
    allRanks_eq_some.mpr fun rank => by
      simp only [resized]
      split
      · exact if_pos (by simp [BufferResizePolicy.resizeIfRequested])
      · rfl
  have hgathered : mpiGatherv comms root
      { sendBuf := message, sendCount := fun rank => ((message rank).length : ℤ)
        recvBuf := resized, recvCounts := atRoot comms root (memberCounts comms message)
        recvDispls := atRoot comms root (memberDispls comms message) } =
        some (atRoot comms root (received comms (toAll message))) :=
    allRanks_eq_some.mpr fun rank => by
      by_cases hrank : comms.rankOf rank = root
      · have hlength : (resized rank).length = (received comms (toAll message) rank).length := by
          simp [resized, size, hrank]
        rw [if_pos hrank, atRoot, if_pos hrank, gatheredAt_eq_some (toAll message)
          (fun sender _ => readBlock_all _), overwrite_eq hlength]
        · simp only [atRoot, if_pos hrank]
          exact List.prefix_rfl
        · simp only [atRoot, if_pos hrank]
          exact List.prefix_rfl
        · exact hlength.ge
      · rw [if_neg hrank, atRoot, if_neg hrank]
        simp only [resized, if_neg hrank]
  rw [gatherv, if_pos hroot]
  simp only [sendBufOnly, sendCountOf_message (length_message_lt hlt),
    gathervCounts_omitted hroot, hlayouts, hprepared, hgathered, Option.bind_eq_bind,
    Option.bind_some]

end Calls

/-! ## Scattered blocks -/

section Scattered

variable {p : ℕ} {comms : Communicators p} {T : Type}

/-- A rank receives its block of the root. -/
theorem scatteredAt_eq_some {root : ℕ} {args : MpiScattervArguments p T} {rank sender : Fin p}
    {block : List T} {displ : ℤ} (hsender : (comms.members rank)[root]? = some sender)
    (hcount : (args.sendCounts sender)[comms.rankOf rank]? = some (block.length : ℤ))
    (hdispl : (args.sendDispls sender)[comms.rankOf rank]? = some displ)
    (hread : readBlock (args.sendBuf sender) displ block.length = some block)
    (hrecv : args.recvCount rank = block.length)
    (hfits : block.length ≤ (args.recvBuf rank).length) :
    scatteredAt comms root args rank = some (overwrite block (args.recvBuf rank)) := by
  have hwrite := @writeBlock_append T [] block (args.recvBuf rank) hfits
  rw [scatteredAt]
  simp only [hsender, hcount, hdispl, hread, hrecv, if_true, Option.bind_eq_bind,
    Option.bind_some]
  exact hwrite

/-- The root of the communicator of a rank. -/
theorem exists_root {root : ℕ} {rank : Fin p} (hroot : root < comms.size rank) :
    ∃ sender, (comms.members rank)[root]? = some sender ∧ comms.rankOf sender = root ∧
      comms.members sender = comms.members rank := by
  have hget : (comms.members rank)[root]? = some (comms.members rank)[root] :=
    List.getElem?_eq_getElem hroot
  have hmem := List.mem_of_getElem? hget
  exact ⟨_, hget, comms.rankOf_eq hget, comms.members_eq hmem⟩

variable {message : Fin p → List T} {root : ℕ}

/-- The position of the block of a rank in the messages of its communicator. -/
def blockStart (comms : Communicators p) (message : Fin p → List T) (rank : Fin p) : ℕ :=
  ((((comms.members rank).map message).map List.length).take (comms.rankOf rank)).sum

/-- The counts of the root, one for each rank. -/
theorem getElem?_memberCounts {sender rank : Fin p}
    (hmembers : comms.members sender = comms.members rank) :
    (memberCounts comms message sender)[comms.rankOf rank]? =
      some ((message rank).length : ℤ) := by
  have hget := comms.getElem?_rankOf (comms.mem_self rank)
  rw [memberCounts, receivedLengths, hmembers, List.getElem?_map, List.getElem?_map, hget]
  rfl

/-- The block of a rank in the messages of all members. -/
theorem readBlock_members {sender rank : Fin p}
    (hmembers : comms.members sender = comms.members rank) :
    (memberDispls comms message sender)[comms.rankOf rank]? =
        some ((blockStart comms message rank : ℕ) : ℤ) ∧
      readBlock (received comms (toAll message) sender) ((blockStart comms message rank : ℕ) : ℤ)
        ((message rank).length : ℤ) = some (message rank) := by
  have hlt : comms.rankOf rank < (receivedLengths comms (toAll message) sender).length := by
    rw [length_receivedLengths, Communicators.size, hmembers]
    exact comms.rankOf_lt rank
  have hlengths : receivedLengths comms (toAll message) sender =
      ((comms.members rank).map message).map List.length := by
    rw [receivedLengths, hmembers, List.map_map]
    rfl
  constructor
  · rw [memberDispls, List.getElem?_map, getElem?_prefixSums _ _ hlt, Nat.zero_add, hlengths]
    rfl
  · have hblock : ((comms.members rank).map message)[comms.rankOf rank]? = some (message rank) := by
      rw [List.getElem?_map, comms.getElem?_rankOf (comms.mem_self rank)]
      rfl
    have htake := getElem?_flatten_drop hblock
    have hreceived : received comms (toAll message) sender =
        ((comms.members rank).map message).flatten := by
      rw [received, hmembers]
      exact List.flatMap_def
    rw [hreceived]
    have hlength := congrArg List.length htake
    rw [List.length_take, List.length_drop] at hlength
    exact (readBlock_natCast fun hne => by rw [blockStart]; omega).trans (congrArg some htake)

/-- Blocks of one size start at the multiples of it. -/
theorem blockStart_even {rank : Fin p} {n : ℕ}
    (hlength : ∀ sender ∈ comms.members rank, (message sender).length = n) :
    blockStart comms message rank = comms.rankOf rank * n := by
  have hlengths : ((comms.members rank).map message).map List.length =
      List.replicate (comms.size rank) n := by
    rw [List.map_map]
    exact (List.map_congr_left hlength).trans List.map_const'
  rw [blockStart, hlengths, List.take_replicate, List.sum_replicate_nat,
    min_eq_left (comms.rankOf_lt rank).le]

/-- Blocks of one size are scattered in the order of the ranks. -/
theorem mpiScatter_even {sendBuf recvBuf : Fin p → List T} {sendCount : Fin p → ℕ} {n : ℕ}
    (hroot : ∀ rank, root < comms.size rank) (hlength : ∀ rank, (message rank).length = n)
    (hsendBuf : ∀ rank, comms.rankOf rank = root →
      sendBuf rank = received comms (toAll message) rank)
    (hsendCount : ∀ rank, comms.rankOf rank = root → sendCount rank = n)
    (hrecv : ∀ rank, n ≤ (recvBuf rank).length) :
    mpiScatter comms root sendBuf recvBuf sendCount (fun _ => (n : ℤ)) =
      some fun rank => overwrite (message rank) (recvBuf rank) := by
  refine allRanks_eq_some.mpr fun rank => ?_
  obtain ⟨sender, hsender, hrank, hmembers⟩ := exists_root (hroot rank)
  have hlt : comms.rankOf rank < comms.size sender :=
    (comms.rankOf_lt rank).trans_eq (congrArg List.length hmembers).symm
  have hread := (@readBlock_members p comms T message sender rank hmembers).2
  rw [blockStart_even fun other _ => hlength other, ← hsendBuf sender hrank] at hread
  refine @scatteredAt_eq_some p comms T root _ rank sender (message rank)
    ((comms.rankOf rank * n : ℕ) : ℤ) hsender ?_ ?_ hread ?_ ?_
  · simp [hlt, hsendCount sender hrank, hlength]
  · simp [hlt, hsendCount sender hrank]
  · exact congrArg Nat.cast (hlength rank).symm
  · exact (hlength rank).trans_le (hrecv rank)

/-- The nested `scatter` of the counts. -/
theorem scattervRecvCount_message {sendCounts : Fin p → List ℤ}
    (hroot : ∀ rank, root < comms.size rank)
    (hcounts : ∀ rank, comms.rankOf rank = root →
      sendCounts rank = memberCounts comms message rank) :
    scattervRecvCount comms root sendCounts none =
      some fun rank => ((message rank).length : ℤ) := by
  let count (rank : Fin p) : List ℤ := [((message rank).length : ℤ)]
  have hlength : ∀ rank, comms.rankOf rank = root →
      (sendCounts rank).length = comms.size rank := fun rank hrank => by
    rw [hcounts rank hrank, length_memberCounts]
  have hscatter : scatter comms root
      { sendBuf := sendCounts, recvCount := some fun _ => 1, recvBufPolicy := .noResize,
        recvBuf := fun _ => [0] } = some count := by
    have hprepared : allRanks (fun _ : Fin p =>
        preparedRecvBuf .noResize (sizeOfCount 1) ([0] : List ℤ)) = some fun _ => [0] :=
      allRanks_eq_some.mpr fun _ => rfl
    rw [scatter, if_pos]
    · simp only [scatterRecvCount, hprepared, Option.bind_eq_bind, Option.bind_some]
      refine @mpiScatter_even p comms ℤ count root sendCounts _ _ 1 hroot (fun _ => rfl) ?_ ?_
        fun _ => le_rfl
      · exact fun rank hrank => (hcounts rank hrank).trans (flatMap_count rank).symm
      · intro rank hrank
        rw [hlength rank hrank]
        exact Nat.div_self (comms.size_pos rank)
    · intro rank
      refine ⟨hroot rank, fun hrank => ?_⟩
      dsimp only
      rw [hlength rank hrank, Nat.mod_self, Nat.div_self (comms.size_pos rank)]
      exact ⟨comms.size_pos rank, rfl, by decide⟩
  rw [scattervRecvCount, hscatter]
  exact allRanks_eq_some.mpr fun _ => rfl

variable [Inhabited T]

/-- Every rank gets the block of the root that has its rank, if some block has elements. -/
theorem scatterv_message {args : ScattervArguments p T} {sendDispls : Fin p → List ℤ}
    (hroot : ∀ rank, root < comms.size rank)
    (hne : ∀ rank, comms.rankOf rank = root →
      0 < (received comms (toAll message) rank).length)
    (hsendBuf : ∀ rank, comms.rankOf rank = root →
      args.sendBuf rank = received comms (toAll message) rank)
    (hcounts : ∀ rank, comms.rankOf rank = root →
      args.sendCounts rank = memberCounts comms message rank)
    (hsendDispls : allRanks (scattervSendDispls comms root args.sendCounts args.sendDispls) =
      some sendDispls)
    (hdispls : ∀ rank, comms.rankOf rank = root →
      sendDispls rank = memberDispls comms message rank)
    (hrecvCount : args.recvCount = none) (hpolicy : args.recvBufPolicy = .resizeToFit) :
    scatterv comms root args =
      some { recvBuf := message, recvCount := fun rank => ((message rank).length : ℤ)
             sendDispls } := by
  let resized (rank : Fin p) : List T := args.recvBufPolicy.resizeIfRequested
    (message rank).length default (args.recvBuf rank)
  have hresized : ∀ rank, (resized rank).length = (message rank).length :=
    fun rank => by simp [resized, hpolicy, BufferResizePolicy.resizeIfRequested]
  have hprepared : (allRanks fun rank => preparedRecvBuf args.recvBufPolicy
      (sizeOfCount ((message rank).length : ℤ)) (args.recvBuf rank)) = some resized :=
    allRanks_eq_some.mpr fun rank => by
      rw [sizeOfCount, if_pos (Int.natCast_nonneg _), Int.toNat_natCast]
      exact if_pos (hresized rank).ge
  have hscattered : mpiScatterv comms root
      { sendBuf := args.sendBuf, sendCounts := args.sendCounts, sendDispls, recvBuf := resized
        recvCount := fun rank => ((message rank).length : ℤ) } = some message :=
    allRanks_eq_some.mpr fun rank => by
      obtain ⟨sender, hsender, hrank, hmembers⟩ := exists_root (hroot rank)
      have hcount := @getElem?_memberCounts p comms T message sender rank hmembers
      rw [← hcounts sender hrank] at hcount
      obtain ⟨hdispl, hread⟩ := @readBlock_members p comms T message sender rank hmembers
      rw [← hdispls sender hrank] at hdispl
      rw [← hsendBuf sender hrank] at hread
      rw [scatteredAt_eq_some hsender hcount hdispl hread rfl (hresized rank).ge,
        overwrite_eq (hresized rank)]
  rw [scatterv, if_pos fun rank => ⟨hroot rank, fun hrank =>
    ⟨by rw [hsendBuf rank hrank]; exact hne rank hrank,
      by rw [hcounts rank hrank, length_memberCounts]⟩⟩]
  simp only [hsendDispls, hrecvCount, scattervRecvCount_message hroot hcounts, hprepared,
    hscattered, Option.bind_eq_bind, Option.bind_some]

end Scattered

end MpiBindings.Collectives
