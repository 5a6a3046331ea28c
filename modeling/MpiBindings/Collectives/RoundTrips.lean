import MpiBindings.Collectives.Bcast
import MpiBindings.Collectives.Contents
import Mathlib.Data.List.SplitLengths

/-!
# Round trips of the vectorized collectives

What a rank gets from `alltoallv`, or the root from `gatherv`, is laid out so that it can be sent
back without computing anything: the next call restores the buffers of the first.
-/

namespace MpiBindings.Collectives

open CountingSort

/-! ## Buffers and their blocks -/

section Blocks

variable {p : ℕ} (comms : Communicators p) {T : Type}

/-- The part of a buffer that belongs to a member. -/
def blockOf (counts : List ℕ) (buffer : List T) (member : Fin p) : List T :=
  ((counts.splitLengths buffer)[comms.rankOf member]?).getD []

variable {comms} {counts : List ℕ} {buffer : List T} {rank : Fin p}

/-- The members divide the buffer. -/
theorem map_blockOf (hcounts : counts.length = comms.size rank) :
    (comms.members rank).map (blockOf comms counts buffer) = counts.splitLengths buffer := by
  have hlength : (counts.splitLengths buffer).length = comms.size rank := by
    rw [List.length_splitLengths, hcounts]
  calc (comms.members rank).map (blockOf comms counts buffer)
      = ((comms.members rank).map comms.rankOf).map
          fun index => ((counts.splitLengths buffer)[index]?).getD [] := by
        rw [List.map_map]
        rfl
    _ = (List.range (counts.splitLengths buffer).length).map
          fun index => ((counts.splitLengths buffer)[index]?).getD [] := by
        rw [comms.map_rankOf, hlength]
    _ = counts.splitLengths buffer := by
        refine List.ext_getElem (by simp) fun index _ hindex => ?_
        rw [List.getElem_map, List.getElem_range, List.getElem?_eq_getElem hindex,
          Option.getD_some]

theorem flatMap_blockOf (hcounts : counts.length = comms.size rank)
    (hsum : counts.sum = buffer.length) :
    (comms.members rank).flatMap (blockOf comms counts buffer) = buffer := by
  rw [List.flatMap_def, map_blockOf hcounts]
  exact List.flatten_splitLengths _ _ hsum.ge

theorem map_length_blockOf (hcounts : counts.length = comms.size rank)
    (hsum : counts.sum = buffer.length) :
    ((comms.members rank).map fun member => (blockOf comms counts buffer member).length) =
      counts := by
  have hlengths := congrArg (List.map List.length)
    (@map_blockOf _ comms _ counts buffer rank hcounts)
  rw [List.map_map, List.map_splitLengths_length _ _ hsum.le] at hlengths
  exact hlengths

/-- Buffers with counts for all members consist of one block for every member. -/
theorem exists_blocks {sendBuf : Fin p → List T} {counts : Fin p → List ℕ}
    (hcounts : ∀ rank, (counts rank).length = comms.size rank)
    (hsum : ∀ rank, (counts rank).sum = (sendBuf rank).length) :
    ∃ block : Fin p → Fin p → List T, counts = sentLengths comms block ∧
      sendBuf = fun rank => (comms.members rank).flatMap (block rank) := by
  refine ⟨fun rank => blockOf comms (counts rank) (sendBuf rank), ?_, ?_⟩
  · exact funext fun rank => (map_length_blockOf (hcounts rank) (hsum rank)).symm
  · exact funext fun rank => (flatMap_blockOf (hcounts rank) (hsum rank)).symm

end Blocks

/-! ## Exchange and return -/

section Exchange

variable {p : ℕ} {comms : Communicators p} {T : Type} [Inhabited T]

/-- The arguments of a call that passes a send buffer and its counts. -/
def countsOnly (sendBuf : Fin p → List T) (counts : Fin p → List ℕ) : AlltoallvArguments p T :=
  { sendBuf, sendCounts := fun rank => (counts rank).map Nat.cast, sendDispls := .omitted,
    recvCounts := .omitted, recvDispls := .omitted, recvBufPolicy := .resizeToFit,
    recvBuf := fun _ => [] }

/-- The arguments of a call that sends the elements back to the ranks that they came from. -/
def sendBack (result : AlltoallvResult p T) : AlltoallvArguments p T :=
  consecutiveArguments result.recvBuf result.recvCounts result.recvDispls

/-- The counts that the members have for a rank. -/
def arrivingCounts (comms : Communicators p) (counts : Fin p → List ℕ) (rank : Fin p) : List ℕ :=
  (comms.members rank).map fun sender => ((counts sender)[comms.rankOf rank]?).getD 0

/-- Only the values of the displacements matter. -/
theorem alltoallv_congr_sendDispls {args : AlltoallvArguments p T} {sendDispls : Parameter p}
    (hsame : displacements comms args.sendCounts sendDispls =
      displacements comms args.sendCounts args.sendDispls) :
    alltoallv comms { args with sendDispls } = alltoallv comms args := by
  simp only [alltoallv, hsame]

variable {block : Fin p → Fin p → List T}

omit [Inhabited T] in
theorem arrivingCounts_sentLengths :
    arrivingCounts comms (sentLengths comms block) = receivedLengths comms block := by
  funext rank
  refine List.map_congr_left fun sender hsender => ?_
  rw [sentLengths, List.getElem?_map, comms.getElem?_rankOf (comms.mem_members_comm hsender)]
  rfl

omit [Inhabited T] in
theorem displacements_sentLengths (displs : Parameter p) (hdispls : displs.ComputedInto comms.size)
    (hsent : ∀ rank, ((comms.members rank).flatMap (block rank)).length < 2 ^ 31) :
    displacements comms (fun rank => (sentLengths comms block rank).map Nat.cast) displs =
      some fun rank => (prefixSums 0 (sentLengths comms block rank)).map Nat.cast := by
  have hcomputed := displacements_computed comms (sentLengths comms block) (fun _ => [])
    (by simp) (fun rank => by simpa [sentLengths, List.length_flatMap] using hsent rank) hdispls
  simpa only [List.append_nil] using hcomputed

/-- Consecutive blocks with all that the library computes. -/
theorem alltoallv_blocks
    (hsent : ∀ rank, ((comms.members rank).flatMap (block rank)).length < 2 ^ 31)
    (hreceived : ∀ rank, (received comms block rank).length < 2 ^ 31) :
    alltoallv comms (consecutiveArguments
      (fun rank => (comms.members rank).flatMap (block rank))
      (fun rank => (sentLengths comms block rank).map Nat.cast)
      (fun rank => (prefixSums 0 (sentLengths comms block rank)).map Nat.cast)) = some
        { recvBuf := received comms block
          recvCounts := fun rank => (receivedLengths comms block rank).map Nat.cast
          recvDispls := fun rank => (prefixSums 0 (receivedLengths comms block rank)).map Nat.cast
          sendDispls := fun rank =>
            (prefixSums 0 (sentLengths comms block rank)).map Nat.cast } := by
  obtain ⟨result, hresult, hrecvBuf⟩ :=
    Option.map_eq_some_iff.mp (alltoallv_consecutive hsent hreceived)
  obtain ⟨_, hreturned⟩ := alltoallv_cases hresult
  have hrecvCounts := hreturned.recvCounts.symm.trans
    (receiveCounts_computed (Parameter.computedInto_omitted _))
  have hrecvDispls := hreturned.recvDispls.symm.trans
    ((congrArg (displacements comms · .omitted) (Option.some.inj hrecvCounts)).trans
      (@displacements_sentLengths p comms T (fun rank sender => block sender rank) .omitted
        (Parameter.computedInto_omitted _) hreceived))
  have hsendDispls := hreturned.sendDispls.symm.trans (if_pos fun rank => by simp)
  rw [hresult]
  exact congrArg some (AlltoallvResult.ext hrecvBuf (Option.some.inj hrecvCounts)
    (Option.some.inj hrecvDispls) (Option.some.inj hsendDispls))

/-- The blocks that the members pass arrive in the order of the members. -/
theorem alltoallv_countsOnly
    (hsent : ∀ rank, ((comms.members rank).flatMap (block rank)).length < 2 ^ 31)
    (hreceived : ∀ rank, (received comms block rank).length < 2 ^ 31) :
    alltoallv comms (countsOnly (fun rank => (comms.members rank).flatMap (block rank))
      (sentLengths comms block)) = some
        { recvBuf := received comms block
          recvCounts := fun rank => (receivedLengths comms block rank).map Nat.cast
          recvDispls := fun rank => (prefixSums 0 (receivedLengths comms block rank)).map Nat.cast
          sendDispls := fun rank =>
            (prefixSums 0 (sentLengths comms block rank)).map Nat.cast } := by
  have hdispls := displacements_sentLengths .omitted (Parameter.computedInto_omitted _) hsent
  refine (alltoallv_congr_sendDispls ?_).trans (alltoallv_blocks hsent hreceived)
  exact hdispls.trans (if_pos fun rank => by simp).symm

/-- Sending back what arrived restores the buffers and the counts. -/
theorem alltoallv_sendBack {sendBuf : Fin p → List T} {counts : Fin p → List ℕ}
    (hcounts : ∀ rank, (counts rank).length = comms.size rank)
    (hsum : ∀ rank, (counts rank).sum = (sendBuf rank).length)
    (hsent : ∀ rank, (sendBuf rank).length < 2 ^ 31)
    (hreceived : ∀ rank, (arrivingCounts comms counts rank).sum < 2 ^ 31) :
    ∃ result, alltoallv comms (countsOnly sendBuf counts) = some result ∧
      (result.recvCounts = fun rank => (arrivingCounts comms counts rank).map Nat.cast) ∧
      alltoallv comms (sendBack result) = some
        { recvBuf := sendBuf
          recvCounts := fun rank => (counts rank).map Nat.cast
          recvDispls := result.sendDispls
          sendDispls := result.recvDispls } := by
  obtain ⟨block, rfl, rfl⟩ := exists_blocks hcounts hsum
  have hlengths : ∀ rank, (received comms block rank).length < 2 ^ 31 := fun rank => by
    rw [length_received, ← arrivingCounts_sentLengths]
    exact hreceived rank
  refine ⟨_, alltoallv_countsOnly hsent hlengths, ?_, ?_⟩
  · rw [arrivingCounts_sentLengths]
  -- the second call exchanges the transposed blocks
  · exact @alltoallv_blocks p comms T _ (fun rank sender => block sender rank) hlengths hsent

/-- Rank `i` of three sends `i` times its rank to itself and once to the next rank. -/
theorem alltoallv_sendBack_three :
    let counts : Fin 3 → List ℕ := fun rank => (List.range 3).map fun index =>
      if index = rank.val then index else if index = rank.val + 1 then 1 else 0
    let sendBuf : Fin 3 → List ℕ := fun rank => List.replicate (counts rank).sum rank.val
    ∃ result, alltoallv (.world 3) (countsOnly sendBuf counts) = some result ∧
      (result.recvCounts = fun rank => (arrivingCounts (.world 3) counts rank).map Nat.cast) ∧
      alltoallv (.world 3) (sendBack result) = some
        { recvBuf := sendBuf
          recvCounts := fun rank => (counts rank).map Nat.cast
          recvDispls := result.sendDispls
          sendDispls := result.recvDispls } :=
  alltoallv_sendBack (by decide) (by decide) (by decide) (by decide)

end Exchange

/-! ## Root and members -/

section Root

variable {p : ℕ} {comms : Communicators p} {root : ℕ} {T : Type}

/-- The arguments of a call in which the root passes a send buffer and its counts. -/
def rootCountsOnly (sendBuf : Fin p → List T) (counts : Fin p → List ℕ) :
    ScattervArguments p T :=
  { sendBuf, sendCounts := fun rank => (counts rank).map Nat.cast, sendDispls := .omitted,
    recvCount := none, recvBufPolicy := .resizeToFit, recvBuf := fun _ => [] }

/-- The arguments of a call in which the root sends back what it gathered. -/
def scatterBack (result : GathervResult p T) : ScattervArguments p T :=
  { sendBuf := result.recvBuf, sendCounts := result.recvCounts,
    sendDispls := .given result.recvDispls, recvCount := none, recvBufPolicy := .resizeToFit,
    recvBuf := fun _ => [] }

/-- The buffer of every root consists of one message for every member. -/
theorem exists_messages {sendBuf : Fin p → List T} {counts : Fin p → List ℕ}
    (hroot : ∀ rank, root < comms.size rank)
    (hcounts : ∀ rank, comms.rankOf rank = root → (counts rank).length = comms.size rank)
    (hsum : ∀ rank, comms.rankOf rank = root → (counts rank).sum = (sendBuf rank).length) :
    ∃ message : Fin p → List T, ∀ rank, comms.rankOf rank = root →
      sendBuf rank = received comms (toAll message) rank ∧
        counts rank = receivedLengths comms (toAll message) rank := by
  choose rootOf hrootOf hrankOf hmembers using fun rank => exists_root (hroot rank)
  refine ⟨fun rank => blockOf comms (counts (rootOf rank)) (sendBuf (rootOf rank)) rank, ?_⟩
  intro rank hrank
  have hself : ∀ member ∈ comms.members rank, rootOf member = rank := by
    intro member hmember
    have hget := hrootOf member
    rw [comms.members_eq hmember, ← hrank, comms.getElem?_rankOf (comms.mem_self rank)] at hget
    exact (Option.some.inj hget).symm
  constructor
  · calc sendBuf rank
        = (comms.members rank).flatMap (blockOf comms (counts rank) (sendBuf rank)) :=
          (flatMap_blockOf (hcounts rank hrank) (hsum rank hrank)).symm
      _ = _ := List.flatMap_congr fun member hmember => by rw [toAll, hself member hmember]
  · calc counts rank
        = (comms.members rank).map
            fun member => (blockOf comms (counts rank) (sendBuf rank) member).length :=
          (map_length_blockOf (hcounts rank hrank) (hsum rank hrank)).symm
      _ = _ := List.map_congr_left fun member hmember => by rw [toAll, hself member hmember]

theorem atRoot_congr {α : Type} {buffers others : Fin p → List α}
    (hsame : ∀ rank, comms.rankOf rank = root → buffers rank = others rank) :
    atRoot comms root buffers = atRoot comms root others := by
  funext rank
  rw [atRoot, atRoot]
  split
  next hrank => exact hsame rank hrank
  next => rfl

variable {message : Fin p → List T}

/-- The messages of all members fit if those of the members of every root fit. -/
theorem received_lt (hroot : ∀ rank, root < comms.size rank)
    (hlt : ∀ rank, comms.rankOf rank = root →
      (received comms (toAll message) rank).length < 2 ^ 31) (rank : Fin p) :
    (received comms (toAll message) rank).length < 2 ^ 31 := by
  obtain ⟨sender, -, hrank, hmembers⟩ := exists_root (hroot rank)
  have hsame : received comms (toAll message) sender = received comms (toAll message) rank := by
    rw [received, hmembers]
    rfl
  rw [← hsame]
  exact hlt sender hrank

theorem scattervSendDispls_omitted {counts : Fin p → List ℕ}
    (hlt : ∀ rank, (received comms (toAll message) rank).length < 2 ^ 31)
    (hcounts : ∀ rank, comms.rankOf rank = root →
      counts rank = receivedLengths comms (toAll message) rank) :
    allRanks (scattervSendDispls comms root (fun rank => (counts rank).map Nat.cast) .omitted) =
      some (atRoot comms root (memberDispls comms message)) := by
  refine allRanks_eq_some.mpr fun rank => ?_
  by_cases hrank : comms.rankOf rank = root
  · rw [scattervSendDispls, if_pos hrank, Parameter.omitted, rootDispls, if_pos (by
      simp [BufferResizePolicy.resizeIfRequested]), atRoot, if_pos hrank, hcounts rank hrank,
      take_counts (length_receivedLengths _),
      exclusiveScan_zero (sum_receivedLengths_lt (hlt rank)),
      overwrite_eq (by simp [BufferResizePolicy.resizeIfRequested])]
    rfl
  · rw [scattervSendDispls, if_neg hrank, atRoot, if_neg hrank]
    rfl

variable [Inhabited T]

/-- What the root gathered goes back to the members. -/
theorem gatherv_scatterBack (hroot : ∀ rank, root < comms.size rank)
    (hne : ∀ rank, 0 < (received comms (toAll message) rank).length)
    (hlt : ∀ rank, (received comms (toAll message) rank).length < 2 ^ 31) :
    ∃ result, gatherv comms root (sendBufOnly message) = some result ∧
      scatterv comms root (scatterBack result) = some
        { recvBuf := message, recvCount := result.sendCount, sendDispls := result.recvDispls } := by
  refine ⟨_, gatherv_message hroot hlt,
    scatterv_message hroot (fun rank _ => hne rank) ?_ ?_ ?_ ?_ rfl rfl⟩
  · exact fun rank hrank => if_pos hrank
  · exact fun rank hrank => if_pos hrank
  · refine allRanks_eq_some.mpr fun rank => ?_
    by_cases hrank : comms.rankOf rank = root
    · rw [scattervSendDispls, if_pos hrank]
      exact if_pos (by simp [atRoot, hrank, memberDispls])
    · rw [scattervSendDispls, if_neg hrank]
      rfl
  · exact fun rank hrank => if_pos hrank

/-- What the members got from the root can be gathered again. -/
theorem scatterv_gatherBack {sendBuf : Fin p → List T} {counts : Fin p → List ℕ}
    (hroot : ∀ rank, root < comms.size rank)
    (hcounts : ∀ rank, comms.rankOf rank = root → (counts rank).length = comms.size rank)
    (hsum : ∀ rank, comms.rankOf rank = root → (counts rank).sum = (sendBuf rank).length)
    (hne : ∀ rank, comms.rankOf rank = root → 0 < (sendBuf rank).length)
    (hlt : ∀ rank, comms.rankOf rank = root → (sendBuf rank).length < 2 ^ 31) :
    ∃ result, scatterv comms root (rootCountsOnly sendBuf counts) = some result ∧
      gatherv comms root (sendBufOnly result.recvBuf) = some
        { recvBuf := atRoot comms root sendBuf
          sendCount := result.recvCount
          recvCounts := atRoot comms root fun rank => (counts rank).map Nat.cast
          recvDispls := result.sendDispls } := by
  obtain ⟨message, hmessage⟩ := exists_messages hroot hcounts hsum
  have hreceived := received_lt hroot fun rank hrank => by
    rw [← (hmessage rank hrank).1]
    exact hlt rank hrank
  have hscattered : scatterv comms root (rootCountsOnly sendBuf counts) = some
      { recvBuf := message, recvCount := fun rank => ((message rank).length : ℤ)
        sendDispls := atRoot comms root (memberDispls comms message) } := by
    refine scatterv_message hroot
      (fun rank hrank => by rw [← (hmessage rank hrank).1]; exact hne rank hrank)
      (fun rank hrank => (hmessage rank hrank).1) ?_
      (scattervSendDispls_omitted hreceived fun rank hrank => (hmessage rank hrank).2)
      (fun rank hrank => if_pos hrank) rfl rfl
    intro rank hrank
    rw [memberCounts, ← (hmessage rank hrank).2]
    rfl
  refine ⟨_, hscattered, (gatherv_message hroot hreceived).trans ?_⟩
  have hbuf : atRoot comms root (received comms (toAll message)) = atRoot comms root sendBuf :=
    atRoot_congr fun rank hrank => (hmessage rank hrank).1.symm
  have hcount : atRoot comms root (memberCounts comms message) =
      atRoot comms root fun rank => (counts rank).map Nat.cast :=
    atRoot_congr fun rank hrank => by rw [memberCounts, (hmessage rank hrank).2]
  rw [hbuf, hcount]

/-- `gatherv` and `scatterv` undo each other, unless all messages are empty. -/
theorem gatherv_scatterv_inverse (hroot : ∀ rank, root < comms.size rank) :
    (∀ message : Fin p → List T,
      (∀ rank, 0 < (received comms (toAll message) rank).length ∧
        (received comms (toAll message) rank).length < 2 ^ 31) →
      ∃ result, gatherv comms root (sendBufOnly message) = some result ∧
        scatterv comms root (scatterBack result) = some
          { recvBuf := message, recvCount := result.sendCount
            sendDispls := result.recvDispls }) ∧
    ∀ (sendBuf : Fin p → List T) (counts : Fin p → List ℕ),
      (∀ rank, comms.rankOf rank = root → (counts rank).length = comms.size rank ∧
        (counts rank).sum = (sendBuf rank).length ∧ 0 < (sendBuf rank).length ∧
        (sendBuf rank).length < 2 ^ 31) →
      ∃ result, scatterv comms root (rootCountsOnly sendBuf counts) = some result ∧
        gatherv comms root (sendBufOnly result.recvBuf) = some
          { recvBuf := atRoot comms root sendBuf
            sendCount := result.recvCount
            recvCounts := atRoot comms root fun rank => (counts rank).map Nat.cast
            recvDispls := result.sendDispls } := by
  constructor
  · intro message hlt
    exact gatherv_scatterBack hroot (fun rank => (hlt rank).1) fun rank => (hlt rank).2
  · intro sendBuf counts hargs
    exact scatterv_gatherBack hroot (fun rank hrank => (hargs rank hrank).1)
      (fun rank hrank => (hargs rank hrank).2.1) (fun rank hrank => (hargs rank hrank).2.2.1)
      fun rank hrank => (hargs rank hrank).2.2.2

/-- Three ranks with messages of different lengths. -/
theorem gatherv_scatterv_inverse_three :
    let message : Fin 3 → List ℕ := fun rank => List.replicate rank rank
    ∃ result, gatherv (.world 3) 1 (sendBufOnly message) = some result ∧
      scatterv (.world 3) 1 (scatterBack result) = some
        { recvBuf := message, recvCount := result.sendCount
          sendDispls := result.recvDispls } :=
  (gatherv_scatterv_inverse (by decide)).1 _ (by decide)

end Root

/-! ## Exchanges of a root with its members -/

section Agreement

variable {p : ℕ} {comms : Communicators p} {root : ℕ} {T : Type} {message : Fin p → List T}

/-- The blocks of a call in which only the root receives. -/
def toRoot (comms : Communicators p) (root : ℕ) (message : Fin p → List T)
    (sender receiver : Fin p) : List T :=
  if comms.rankOf receiver = root then message sender else []

/-- The blocks of a call in which only the root sends. -/
def fromRoot (comms : Communicators p) (root : ℕ) (message : Fin p → List T)
    (sender receiver : Fin p) : List T :=
  if comms.rankOf sender = root then message receiver else []

theorem flatMap_ite_eq {α β : Type} [DecidableEq α] {items : List α} {item : α}
    (hnodup : items.Nodup) (hmem : item ∈ items) (values : List β) :
    (items.flatMap fun other => if other = item then values else []) = values := by
  induction items with
  | nil => cases hmem
  | cons head rest ih =>
      obtain ⟨hhead, hrest⟩ := List.nodup_cons.mp hnodup
      rw [List.flatMap_cons]
      by_cases hitem : head = item
      · have hnil : (rest.flatMap fun other => if other = item then values else []) = [] :=
          List.flatMap_eq_nil_iff.mpr fun other hother =>
            if_neg fun heq => hhead (by rwa [hitem, ← heq])
        rw [if_pos hitem, hnil, List.append_nil]
      · rw [if_neg hitem, List.nil_append]
        exact ih hrest (List.mem_of_ne_of_mem (Ne.symm hitem) hmem)

/-- One member is the root. -/
theorem flatMap_root {rank : Fin p} (hroot : root < comms.size rank) (values : List T) :
    ((comms.members rank).flatMap fun member =>
      if comms.rankOf member = root then values else []) = values := by
  calc ((comms.members rank).flatMap fun member =>
        if comms.rankOf member = root then values else [])
      = ((comms.members rank).map comms.rankOf).flatMap
          fun index => if index = root then values else [] := by rw [List.flatMap_map]
    _ = values := by
        rw [comms.map_rankOf]
        exact flatMap_ite_eq List.nodup_range (List.mem_range.mpr hroot) values

theorem received_toRoot :
    received comms (toRoot comms root message) =
      atRoot comms root (received comms (toAll message)) := by
  funext rank
  rw [atRoot, received]
  split
  next hrank => exact List.flatMap_congr fun member _ => if_pos hrank
  next hrank => exact List.flatMap_eq_nil_iff.mpr fun member _ => if_neg hrank

theorem received_fromRoot (hroot : ∀ rank, root < comms.size rank) :
    received comms (fromRoot comms root message) = message :=
  funext fun rank => flatMap_root (hroot rank) (message rank)

theorem length_sent_toRoot (hroot : ∀ rank, root < comms.size rank) (rank : Fin p) :
    ((comms.members rank).flatMap (toRoot comms root message rank)).length =
      (message rank).length :=
  congrArg List.length (flatMap_root (hroot rank) (message rank))

theorem sent_fromRoot :
    (fun rank => (comms.members rank).flatMap (fromRoot comms root message rank)) =
      atRoot comms root (received comms (toAll message)) := by
  funext rank
  rw [atRoot]
  split
  next hrank => exact List.flatMap_congr fun member _ => if_pos hrank
  next hrank => exact List.flatMap_eq_nil_iff.mpr fun member _ => if_neg hrank

variable [Inhabited T]

/-- The arguments of the exchange of all blocks. -/
def exchangeOf (comms : Communicators p) (block : Fin p → Fin p → List T) :
    AlltoallvArguments p T :=
  countsOnly (fun rank => (comms.members rank).flatMap (block rank)) (sentLengths comms block)

theorem recvBuf_exchangeOf {block : Fin p → Fin p → List T}
    (hsent : ∀ rank, ((comms.members rank).flatMap (block rank)).length < 2 ^ 31)
    (hreceived : ∀ rank, (received comms block rank).length < 2 ^ 31) :
    (alltoallv comms (exchangeOf comms block)).map (·.recvBuf) = some (received comms block) := by
  rw [exchangeOf, alltoallv_countsOnly hsent hreceived]
  rfl

/-- `gatherv` and `scatterv` are exchanges in which only the root receives, or sends; `allgatherv`
is the exchange of the same block with all members.  `scatterv` needs some message with
elements. -/
theorem alltoallv_agrees (hroot : ∀ rank, root < comms.size rank)
    (hsent : ∀ rank, comms.size rank * (message rank).length < 2 ^ 31)
    (hlt : ∀ rank, (received comms (toAll message) rank).length < 2 ^ 31) :
    (∃ all, (alltoallv comms (exchangeOf comms (toAll message))).map (·.recvBuf) = some all ∧
      (allgatherv comms (sendBufOnly message)).map (·.recvBuf) = some all) ∧
    ∃ gathered, (alltoallv comms (exchangeOf comms (toRoot comms root message))).map
        (·.recvBuf) = some gathered ∧
      (gatherv comms root (sendBufOnly message)).map (·.recvBuf) = some gathered ∧
      (alltoallv comms (exchangeOf comms (fromRoot comms root message))).map (·.recvBuf) =
        some message ∧
      ((∀ rank, 0 < (received comms (toAll message) rank).length) →
        (scatterv comms root (rootCountsOnly gathered
          (receivedLengths comms (toAll message)))).map (·.recvBuf) = some message) := by
  have hmessage := length_message_lt hlt
  have hgathered : ∀ rank, (atRoot comms root (received comms (toAll message)) rank).length <
      2 ^ 31 := fun rank => by
    rw [atRoot]
    split
    next => exact hlt rank
    next => exact Nat.two_pow_pos 31
  refine ⟨⟨_, recvBuf_exchangeOf ?_ hlt, ?_⟩, _, recvBuf_exchangeOf ?_ ?_, ?_,
    (recvBuf_exchangeOf ?_ ?_).trans ?_, ?_⟩
  · intro rank
    have hlength : ((comms.members rank).flatMap (toAll message rank)).length =
        comms.size rank * (message rank).length := by
      simp [List.length_flatMap, toAll, Communicators.size]
    rw [hlength]
    exact hsent rank
  · rw [allgatherv_message hlt]
    rfl
  · intro rank
    rw [length_sent_toRoot hroot]
    exact hmessage rank
  · rw [received_toRoot]
    exact hgathered
  · rw [gatherv_message hroot hlt, received_toRoot]
    rfl
  · intro rank
    rw [congrFun sent_fromRoot rank]
    exact hgathered rank
  · rw [received_fromRoot hroot]
    exact hmessage
  · rw [received_fromRoot hroot]
  · intro hne
    rw [received_toRoot, scatterv_message hroot (fun rank _ => hne rank)
      (fun rank hrank => if_pos hrank)
      (fun rank _ => rfl) (scattervSendDispls_omitted hlt fun rank _ => rfl)
      (fun rank hrank => if_pos hrank) rfl rfl]
    rfl

/-- Three ranks with messages of different lengths and the last one as root. -/
theorem alltoallv_agrees_three :
    let comms := Communicators.world 3
    let message : Fin 3 → List ℕ := fun rank => List.replicate rank rank
    (∃ all, (alltoallv comms (exchangeOf comms (toAll message))).map (·.recvBuf) = some all ∧
      (allgatherv comms (sendBufOnly message)).map (·.recvBuf) = some all) ∧
    ∃ gathered, (alltoallv comms (exchangeOf comms (toRoot comms 2 message))).map
        (·.recvBuf) = some gathered ∧
      (gatherv comms 2 (sendBufOnly message)).map (·.recvBuf) = some gathered ∧
      (alltoallv comms (exchangeOf comms (fromRoot comms 2 message))).map (·.recvBuf) =
        some message ∧
      (scatterv comms 2 (rootCountsOnly gathered
        (receivedLengths comms (toAll message)))).map (·.recvBuf) = some message := by
  intro comms message
  obtain ⟨hall, gathered, htoRoot, hgather, hfromRoot, hscatter⟩ :=
    @alltoallv_agrees 3 comms 2 ℕ message _ (by decide) (by decide) (by decide)
  exact ⟨hall, gathered, htoRoot, hgather, hfromRoot, hscatter (by decide)⟩

end Agreement

/-! ## Gathering and broadcasting -/

section GatherBcast

open CollectiveProgram

variable {p : ℕ} {T : Type} [Inhabited T] {reduction : Reduction p T} {lead : Fin p}
  {message : Fin p → List T}

/-- `allgatherv` is a `gatherv` to any root followed by a `bcast` of what the root got. -/
theorem gatherv_bcast (root : Fin p)
    (hlt : ((List.finRange p).flatMap message).length < 2 ^ 31) :
    ∃ gathered, gatherv (.world p) root (sendBufOnly message) = some gathered ∧
      ∃ all, allgatherv (.world p) (sendBufOnly message) = some all ∧
        outcome (exchange reduction lead) lead
            (fun rank => bcast
              ⟨root, some ⟨gathered.recvBuf rank, .resizeToFit, true⟩, none⟩ rank) =
          .finished fun rank => ⟨all.recvBuf rank, (all.recvBuf rank).length⟩ := by
  have hroot : ∀ rank, root.val < (Communicators.world p).size rank := fun rank => by
    rw [Communicators.size_world]
    exact root.isLt
  refine ⟨_, gatherv_message hroot fun _ => hlt, _, allgatherv_message fun _ => hlt, ?_⟩
  have hgathered : atRoot (.world p) root.val (received (.world p) (toAll message)) root =
      received (.world p) (toAll message) root := if_pos (Communicators.rankOf_world root)
  refine (outcome_bcast_fitted ?_).trans (congrArg Outcome.finished (funext fun rank => ?_))
  · dsimp only
    rw [hgathered]
    exact hlt
  · dsimp only
    rw [hgathered]
    rfl

theorem gatherv_bcast_three :
    let message : Fin 3 → List ℕ := fun rank => List.replicate rank rank
    ∃ gathered, gatherv (.world 3) (1 : Fin 3) (sendBufOnly message) = some gathered ∧
      ∃ all, allgatherv (.world 3) (sendBufOnly message) = some all ∧
        outcome (exchange (sums 0 1 2) 0) 0
            (fun rank => bcast ⟨(1 : Fin 3), some ⟨gathered.recvBuf rank, .resizeToFit, true⟩,
              none⟩ rank) =
          .finished fun rank => ⟨all.recvBuf rank, (all.recvBuf rank).length⟩ :=
  gatherv_bcast 1 (by decide)

end GatherBcast

end MpiBindings.Collectives
