import MpiBindings.GridAlltoall.Returns
import MpiBindings.GridAlltoall.Correctness

/-!
# Surplus entries of counts and displacements

The builtin exchange looks at one count and one displacement for each rank and accepts
buffers with more entries.  The exchange over the grid runs over all entries of its
buffers and sizes the receive buffer by the last ones.  This module says for which
surplus entries it still does what it does without them.
-/

namespace MpiBindings.GridAlltoall

open Collectives CountingSort

/-! ## Cut buffers -/

section Cut

variable {p : ℕ} {T : Type}

/-- The entries of all ranks. -/
def cutBuffers (buffers : Fin p → List ℤ) (rank : Fin p) : List ℤ := (buffers rank).take p

def cutParameter : Parameter p → Parameter p
  | .given buffers => .given (cutBuffers buffers)
  | .computed policy buffers => .computed policy (cutBuffers buffers)

/-- The same call with the count and displacement buffers cut to one entry for each
rank. -/
def cutArguments (args : AlltoallvArguments p T) : AlltoallvArguments p T :=
  { args with
    sendCounts := cutBuffers args.sendCounts
    sendDispls := cutParameter args.sendDispls
    recvCounts := cutParameter args.recvCounts
    recvDispls := cutParameter args.recvDispls }

variable {policy : BufferResizePolicy} {buffer : List ℤ}

/-- A cut buffer that is large enough has exactly one entry for each rank. -/
theorem length_resize_take (hfits : p ≤ (policy.resizeIfRequested p 0 (buffer.take p)).length) :
    (policy.resizeIfRequested p 0 (buffer.take p)).length = p := by
  cases policy with
  | noResize =>
      rw [BufferResizePolicy.resizeIfRequested, List.length_take] at hfits ⊢
      omega
  | growOnly =>
      simp only [BufferResizePolicy.resizeIfRequested] at hfits ⊢
      split_ifs at hfits ⊢
      · exact length_resizeVector _ _ _
      · rw [List.length_take] at hfits ⊢
        omega
  | resizeToFit => exact length_resizeVector _ _ _

theorem le_length_resize (hfits : p ≤ (policy.resizeIfRequested p 0 (buffer.take p)).length) :
    p ≤ (policy.resizeIfRequested p 0 buffer).length := by
  apply BufferResizePolicy.le_length_resizeIfRequested
  rintro rfl
  rw [BufferResizePolicy.resizeIfRequested, List.length_take] at hfits
  omega

end Cut

/-! ## Surplus send counts -/

section Send

variable {p : ℕ} {T : Type} [Inhabited T] {level : MessageEnvelopeLevel}

omit [Inhabited T] in
/-- Ranks from the size of the communicator on have no row in their column. -/
theorem size_column_le {relay : Fin p} {destination : ℕ} (hle : p ≤ destination)
    (hcolumn : columnColor p destination = columnColor p relay) :
    (makeGridCommunicator p).columnComm.size relay ≤ destination / gridColumns p := by
  have hmod : ∀ member ∈ (makeGridCommunicator p).columnComm.members relay,
      member.val % gridColumns p = destination % gridColumns p := by
    intro member hmember
    exact (mem_column.mp hmember).trans hcolumn.symm
  have hnodup : (((makeGridCommunicator p).columnComm.members relay).map
      fun member => member.val / gridColumns p).Nodup := by
    apply ((makeGridCommunicator p).columnComm.nodup relay).map_on
    intro left hleft right hright hdiv
    apply Fin.ext
    rw [← Nat.div_add_mod left.val (gridColumns p), hdiv, hmod left hleft,
      ← hmod right hright, Nat.div_add_mod]
  have hsubset : (((makeGridCommunicator p).columnComm.members relay).map
      fun member => member.val / gridColumns p) ⊆ List.range (destination / gridColumns p) := by
    intro row hrow
    obtain ⟨member, hmember, rfl⟩ := List.mem_map.mp hrow
    rw [List.mem_range]
    by_contra hnot
    have hmul := Nat.mul_le_mul_left (gridColumns p) (Nat.le_of_not_lt hnot)
    have hmember' := Nat.div_add_mod member.val (gridColumns p)
    have hdestination := Nat.div_add_mod destination (gridColumns p)
    rw [hmod member hmember] at hmember'
    have hlt := member.isLt
    omega
  have hlength := (hnodup.subperm hsubset).length_le
  rwa [List.length_map, List.length_range] at hlength

omit [Inhabited T] in
/-- A message that a rank collects for its row reaches a relay in the column of its
destination. -/
theorem exists_relay_of_message {items : Fin p → List (ℕ × MessageEnvelope T)} {rank : Fin p}
    {destination : ℕ} {message : MessageEnvelope T}
    (hkeys : ∀ item ∈ items rank, item.1 < (makeGridCommunicator p).rowComm.size rank)
    (hitem : (columnColor p destination, message) ∈ items rank) :
    ∃ relay, message ∈ received (makeGridCommunicator p).rowComm
        (keyBlock (makeGridCommunicator p).rowComm items) relay ∧
      columnColor p destination = columnColor p relay := by
  have hkey := hkeys _ hitem
  have hrankOf := (makeGridCommunicator p).rowComm.rankOf_eq (List.getElem?_eq_getElem hkey)
  have hmember := List.getElem_mem hkey
  dsimp only at hrankOf hmember
  set relay := ((makeGridCommunicator p).rowComm.members rank)[columnColor p destination]
  refine ⟨relay, ?_, ?_⟩
  · apply List.mem_flatMap.mpr
    refine ⟨rank, (makeGridCommunicator p).rowComm.mem_members_comm hmember, ?_⟩
    rw [keyBlock, hrankOf]
    exact mem_withKey hitem
  · by_cases hcomplete : relay < completeRectangle p
    · rw [← hrankOf, rankOf_row_of_lt hcomplete]
      rfl
    · rw [rankOf_row_of_le (Nat.le_of_not_lt hcomplete)] at hrankOf
      have hpos := gridColumns_pos (Nat.zero_lt_of_lt rank.isLt)
      exact absurd hrankOf (Nat.ne_of_gt (Nat.mod_lt _ hpos))

/-- A message to a rank that does not exist fails at its relay. -/
theorem surplus_sendCounts_eq_zero {sendBuf : Fin p → List T} {sendCounts displs : Fin p → List ℤ}
    {result : Fin p → List (MessageEnvelope T)}
    (hresult : alltoallvWithEnvelope (makeGridCommunicator p) level sendBuf sendCounts
      (.given displs) = some result) (rank : Fin p) :
    ∀ count ∈ (sendCounts rank).drop p, count = 0 := by
  intro count hcount
  obtain ⟨offset, hoffset⟩ := List.mem_iff_getElem?.mp hcount
  rw [List.getElem?_drop] at hoffset
  obtain ⟨rowwiseRecvBuf, hrow, hcolumn⟩ := Option.bind_eq_some_iff.mp hresult
  obtain ⟨items, hmessages, hkeys, -, hreceived⟩ := rowwiseExchange_cases hrow
  obtain ⟨columnBuffers, hbuffers, -⟩ := Option.bind_eq_some_iff.mp hcolumn
  obtain ⟨block, hblock, hitems⟩ := rowwiseMessages_cases (hmessages rank)
  have hlt : p + offset < (sendCounts rank).length := (List.getElem?_eq_some_iff.mp hoffset).1
  have hlength := length_of_destinationBlock (hblock (p + offset) hlt)
  obtain rfl : count = (block (p + offset)).length :=
    Option.some.inj (hoffset.symm.trans hlength)
  by_contra hne
  have hnonempty : block (p + offset) ≠ [] := by
    intro hnil
    rw [hnil] at hne
    exact hne rfl
  obtain ⟨payload, hpayload⟩ := List.exists_mem_of_ne_nil _ hnonempty
  have hitem : (columnColor p (p + offset), rowEnvelope level rank (p + offset) payload) ∈
      items rank := by
    rw [hitems]
    exact List.mem_flatMap.mpr ⟨p + offset, List.mem_range.mpr hlt,
      List.mem_map.mpr ⟨payload, hpayload, rfl⟩⟩
  obtain ⟨relay, hmessage, hcolumn⟩ := exists_relay_of_message (hkeys rank) hitem
  rw [← (hreceived relay).1] at hmessage
  have hdestination : (rowEnvelope level rank (p + offset) payload).destination =
      some (p + offset) := by
    cases level <;> rfl
  have hrowIndex := columnwiseBuffers_cases (allRanks_eq_some.mp hbuffers relay) hmessage
    hdestination
  exact absurd hrowIndex (Nat.not_lt.mpr (size_column_le (Nat.le_add_right p offset) hcolumn))

omit [Inhabited T] in
theorem flatMap_range_of_nil {α : Type*} {n m : ℕ} (hle : n ≤ m) {f : ℕ → List α}
    (hnil : ∀ index, n ≤ index → f index = []) :
    (List.range m).flatMap f = (List.range n).flatMap f := by
  obtain ⟨more, rfl⟩ := Nat.exists_eq_add_of_le hle
  have hrest : ((List.range more).map (n + ·)).flatMap f = [] := by
    rw [List.flatMap_map, List.flatMap_eq_nil_iff]
    intro index _
    exact hnil _ (Nat.le_add_right n index)
  rw [List.range_add, List.flatMap_append, hrest, List.append_nil]

omit [Inhabited T] in
theorem destinationBlock_take {sendBuf : List T} {sendCounts displs : List ℤ} {destination : ℕ}
    (hlt : destination < p) :
    destinationBlock { sendBuf, sendCounts, sendDispls := displs } destination =
      destinationBlock
        { sendBuf, sendCounts := sendCounts.take p, sendDispls := displs.take p } destination := by
  simp only [destinationBlock, List.getElem?_take_of_lt hlt]

omit [Inhabited T] in
theorem destinationBlock_surplus {sendBuf : List T} {sendCounts displs : List ℤ}
    (hzero : ∀ count ∈ sendCounts.drop p, count = 0) {destination : ℕ} (hle : p ≤ destination)
    (hlt : destination < sendCounts.length) :
    destinationBlock { sendBuf, sendCounts, sendDispls := displs } destination = some [] := by
  have hget := List.getElem?_eq_getElem hlt
  have hdrop : (sendCounts.drop p)[destination - p]? = some sendCounts[destination] := by
    rw [List.getElem?_drop, Nat.add_sub_cancel' hle, hget]
  rw [hzero _ (List.mem_of_getElem? hdrop)] at hget
  simp only [destinationBlock, hget, if_pos]

/-- Surplus counts of zero do not change what a rank sends. -/
theorem rowwiseBuffers_surplus {numColumns rowSize rank : ℕ} (hcolumns : 0 < numColumns)
    (hsize : numColumns ≤ rowSize) {sendBuf : List T} {sendCounts displs displs' : List ℤ}
    (hzero : ∀ count ∈ sendCounts.drop p, count = 0) (hdispls : displs.take p = displs')
    {items : List (ℕ × MessageEnvelope T)}
    (hcut : rowwiseMessages level numColumns rank
      { sendBuf, sendCounts := sendCounts.take p, sendDispls := displs' } = some items) :
    rowwiseBuffers level numColumns rowSize rank { sendBuf, sendCounts, sendDispls := displs } =
      rowwiseBuffers level numColumns rowSize rank
        { sendBuf, sendCounts := sendCounts.take p, sendDispls := displs' } := by
  obtain ⟨block, hblock, -⟩ := rowwiseMessages_cases hcut
  dsimp only at hblock
  let block' := fun destination =>
    if destination < (sendCounts.take p).length then block destination else []
  have hblockCut : ∀ destination < (sendCounts.take p).length,
      destinationBlock { sendBuf, sendCounts := sendCounts.take p, sendDispls := displs' }
        destination = some (block' destination) := by
    intro destination hdestination
    rw [hblock destination hdestination]
    simp only [block', if_pos hdestination]
  have hblockFull : ∀ destination < sendCounts.length,
      destinationBlock { sendBuf, sendCounts, sendDispls := displs } destination =
        some (block' destination) := by
    intro destination hdestination
    by_cases hlt : destination < p
    · rw [destinationBlock_take hlt, hdispls]
      exact hblockCut destination (by rw [List.length_take]; omega)
    · rw [destinationBlock_surplus hzero (Nat.le_of_not_lt hlt) hdestination]
      have hcut : ¬ destination < (sendCounts.take p).length := by
        rw [List.length_take]
        omega
      simp only [block', if_neg hcut]
  have hitems : (List.range sendCounts.length).flatMap
      (messagesTo level numColumns rank block') =
        (List.range (sendCounts.take p).length).flatMap
          (messagesTo level numColumns rank block') := by
    apply flatMap_range_of_nil
    · rw [List.length_take]
      exact Nat.min_le_right _ _
    · intro destination hle
      simp only [messagesTo, block', if_neg (Nat.not_lt.mpr hle), List.map_nil]
  have hmessages : rowwiseMessages level numColumns rank
      { sendBuf, sendCounts, sendDispls := displs } =
        some ((List.range sendCounts.length).flatMap
          (messagesTo level numColumns rank block')) := rowwiseMessages_of_blocks hblockFull
  have hcutMessages : rowwiseMessages level numColumns rank
      { sendBuf, sendCounts := sendCounts.take p, sendDispls := displs' } =
        some ((List.range (sendCounts.take p).length).flatMap
          (messagesTo level numColumns rank block')) := rowwiseMessages_of_blocks hblockCut
  rw [hitems] at hmessages
  have hcounts : computeRowSendCounts numColumns rowSize sendCounts =
      computeRowSendCounts numColumns rowSize (sendCounts.take p) :=
    (computeRowSendCounts_bmod hcolumns hsize hmessages).trans
      (computeRowSendCounts_bmod hcolumns hsize hcutMessages).symm
  rw [rowwiseBuffers, rowwiseBuffers, hmessages, hcutMessages, hcounts]

/-- Surplus counts of zero and surplus displacements do not change the exchange. -/
theorem alltoallvWithEnvelope_surplus {sendBuf : Fin p → List T}
    {sendCounts displs displs' : Fin p → List ℤ} {result : Fin p → List (MessageEnvelope T)}
    (hzero : ∀ rank, ∀ count ∈ (sendCounts rank).drop p, count = 0)
    (hdispls : ∀ rank, (displs rank).take p = displs' rank)
    (hcut : alltoallvWithEnvelope (makeGridCommunicator p) level sendBuf (cutBuffers sendCounts)
      (.given displs') = some result) :
    alltoallvWithEnvelope (makeGridCommunicator p) level sendBuf sendCounts (.given displs) =
      some result := by
  obtain ⟨rowwiseRecvBuf, hrow, hcolumn⟩ := Option.bind_eq_some_iff.mp hcut
  obtain ⟨items, hmessages, -⟩ := rowwiseExchange_cases hrow
  apply Option.bind_eq_some_iff.mpr
  refine ⟨rowwiseRecvBuf, ?_, hcolumn⟩
  rw [← hrow, rowwiseExchange, rowwiseExchange]
  congr 2
  funext rank
  exact rowwiseBuffers_surplus (gridColumns_pos (Nat.zero_lt_of_lt rank.isLt))
    (gridColumns_le_size_row rank) (hzero rank) (hdispls rank) (hmessages rank)

end Send

/-! ## Displacements of the sender -/

section Displacements

variable {p : ℕ}

omit p in
theorem take_overwrite {values buffer : List ℤ} {size : ℕ} (hsize : values.length = size) :
    (overwrite values buffer).take size = values := by
  rw [overwrite, List.take_left' hsize]

/-- Computed displacements are those of the cut call, followed by what the buffer held. -/
theorem gridSendDispls_surplus {sendCounts cut : Fin p → List ℤ} {sendDispls : Parameter p}
    (hcut : gridSendDispls (cutBuffers sendCounts) (cutParameter sendDispls) = some cut) :
    ∃ displs, gridSendDispls sendCounts sendDispls = some displs ∧
      ∀ rank, (displs rank).take p = cut rank := by
  cases sendDispls with
  | given buffers =>
      obtain rfl := Option.some.inj hcut
      exact ⟨buffers, rfl, fun _ => rfl⟩
  | computed policy buffers =>
      rw [cutParameter, gridSendDispls, Option.ite_none_right_eq_some] at hcut
      obtain ⟨hchecks, hcut⟩ := hcut
      obtain rfl := Option.some.inj hcut
      have hcounts : ∀ rank, p ≤ (sendCounts rank).length := by
        intro rank
        have hle := (hchecks rank).1
        rw [cutBuffers, List.length_take] at hle
        omega
      have hscan : ∀ rank, (exclusiveScan 0 ((sendCounts rank).take p)).length = p := by
        intro rank
        rw [length_exclusiveScan, List.length_take, Nat.min_eq_left (hcounts rank)]
      refine ⟨_, if_pos fun rank => ⟨hcounts rank, le_length_resize (hchecks rank).2⟩, ?_⟩
      intro rank
      dsimp only
      rw [take_overwrite (hscan rank), cutBuffers, List.take_take, Nat.min_self]
      exact (overwrite_eq ((length_resize_take (hchecks rank).2).trans (hscan rank).symm)).symm

end Displacements

/-! ## Layout of the receiver -/

section Receive

variable {p : ℕ} {T : Type} {args : AlltoallvArguments p T} {block : Fin p → Fin p → List T}

/-- Receive counts of the call: those of the caller, or the numbers of elements that the
ranks send, followed by zeros. -/
def recvCountsOf (args : AlltoallvArguments p T) (rank : Fin p) : List ℤ :=
  match args.recvCounts with
  | .given counts => counts rank
  | .computed policy buffers =>
      (List.range (policy.resizeIfRequested p 0 (buffers rank)).length).map fun source =>
        if hsource : source < p then sendCount args ⟨source, hsource⟩ rank else 0

/-- Receive displacements of the call: those of the caller, or the prefix sums of all
receive counts, followed by what the buffer held. -/
def recvDisplsOf (args : AlltoallvArguments p T) (rank : Fin p) : List ℤ :=
  match args.recvDispls with
  | .given displs => displs rank
  | .computed policy buffers => overwrite (exclusiveScan 0 (recvCountsOf args rank))
      (policy.resizeIfRequested p 0 (buffers rank))

/-- Computed displacements have an entry for every receive count. -/
def ScanFits (args : AlltoallvArguments p T) : Prop :=
  ∀ policy buffers, args.recvDispls = .computed policy buffers → ∀ rank,
    (recvCountsOf args rank).length ≤ (policy.resizeIfRequested p 0 (buffers rank)).length

/-- The blocks are as long as the counts of their senders. -/
def BlocksCounted (args : AlltoallvArguments p T) (block : Fin p → Fin p → List T) : Prop :=
  ∀ source destination, ((block source destination).length : ℤ) =
    sendCount args source destination

variable (block) in
/-- Counting the delivered elements by their sources. -/
theorem tally_deliveries {rank : Fin p} {size : ℕ} (hsize : p ≤ size)
    (hlt : (deliveries block rank).length < 2 ^ 31) :
    tally ((deliveries block rank).map fun message => (message.1, 1))
        (List.replicate size 0) =
      some ((List.range size).map fun source =>
        ((withKey (deliveries block rank) source).length : ℤ)) := by
  rw [tally_ones
    (fun message hmessage => (deliveries_lt block rank message hmessage).trans_le hsize) hlt,
    keyCounts, List.map_map]
  rfl

theorem length_withKey_deliveries (hcounted : BlocksCounted args block) (rank : Fin p)
    (source : ℕ) :
    ((withKey (deliveries block rank) source).length : ℤ) =
      if hsource : source < p then sendCount args ⟨source, hsource⟩ rank else 0 := by
  split_ifs with hsource
  · rw [← hcounted, ← @withKey_deliveries p T block rank ⟨source, hsource⟩]
  · have hnil : withKey (deliveries block rank) source = [] := by
      rw [withKey, List.map_eq_nil_iff, List.filter_eq_nil_iff]
      intro message hmessage
      have hlt := deliveries_lt block rank message hmessage
      rw [decide_eq_true_eq]
      omega
    rw [hnil]
    rfl

/-- The receive counts of the call begin with those of the cut call. -/
theorem gridRecvCounts_surplus (hcounted : BlocksCounted args block)
    (hlt : ∀ rank, (deliveries block rank).length < 2 ^ 31) {cut : Fin p → List ℤ}
    (hcut : gridRecvCounts (deliveries block) (cutParameter args.recvCounts) = some cut) :
    gridRecvCounts (deliveries block) args.recvCounts = some (recvCountsOf args) ∧
      (∀ rank, p ≤ (recvCountsOf args rank).length) ∧
      ∀ rank, (recvCountsOf args rank).take p = cut rank := by
  have hunfold : recvCountsOf args = fun rank => match args.recvCounts with
    | .given counts => counts rank
    | .computed policy buffers =>
        (List.range (policy.resizeIfRequested p 0 (buffers rank)).length).map fun source =>
          if hsource : source < p then sendCount args ⟨source, hsource⟩ rank else 0 := rfl
  rw [hunfold]
  cases hcounts : args.recvCounts with
  | given counts =>
      rw [hcounts, cutParameter, gridRecvCounts, Option.ite_none_right_eq_some] at hcut
      obtain rfl := Option.some.inj hcut.2
      have hle : ∀ rank, p ≤ (counts rank).length := by
        intro rank
        have hle := hcut.1 rank
        rw [cutBuffers, List.length_take] at hle
        omega
      exact ⟨if_pos hle, hle, fun _ => rfl⟩
  | computed policy buffers =>
      rw [hcounts, cutParameter, gridRecvCounts, Option.ite_none_right_eq_some] at hcut
      obtain ⟨hchecks, hcut⟩ := hcut
      have hle : ∀ rank, p ≤ (policy.resizeIfRequested p 0 (buffers rank)).length :=
        fun rank => le_length_resize (hchecks rank)
      refine ⟨?_, fun rank => by simpa using hle rank, fun rank => ?_⟩
      · rw [gridRecvCounts]
        dsimp only
        rw [if_pos hle]
        apply allRanks_eq_some.mpr
        intro rank
        rw [tally_deliveries block (hle rank) (hlt rank)]
        simp only [length_withKey_deliveries hcounted]
      · have hrank := allRanks_eq_some.mp hcut rank
        change tally _ (List.replicate
          (policy.resizeIfRequested p 0 ((buffers rank).take p)).length 0) = _ at hrank
        rw [length_resize_take (hchecks rank), tally_deliveries block le_rfl (hlt rank)] at hrank
        simp only [length_withKey_deliveries hcounted] at hrank
        rw [← Option.some.inj hrank, ← List.map_take, List.take_range,
          Nat.min_eq_left (hle rank)]

omit p in
theorem take_exclusiveScan (start : ℤ) (counts : List ℤ) (size : ℕ) :
    (exclusiveScan start counts).take size = exclusiveScan start (counts.take size) := by
  induction counts generalizing start size with
  | nil => simp [exclusiveScan]
  | cons count counts ih =>
      cases size with
      | zero => rfl
      | succ size => rw [exclusiveScan, List.take_succ_cons, List.take_succ_cons, ih, exclusiveScan]

/-- The receive displacements of the call begin with those of the cut call, if the scan
stays inside their buffer. -/
theorem gridRecvDispls_surplus {cutCounts cut : Fin p → List ℤ}
    (hlength : ∀ rank, p ≤ (recvCountsOf args rank).length)
    (hcounts : ∀ rank, (recvCountsOf args rank).take p = cutCounts rank)
    (hcut : gridRecvDispls cutCounts (cutParameter args.recvDispls) = some cut) :
    (∀ displs, gridRecvDispls (recvCountsOf args) args.recvDispls = some displs ↔
      ScanFits args ∧ recvDisplsOf args = displs) ∧
    ∀ rank, (recvDisplsOf args rank).take p = cut rank := by
  have hunfold : recvDisplsOf args = fun rank => match args.recvDispls with
    | .given displs => displs rank
    | .computed policy buffers => overwrite (exclusiveScan 0 (recvCountsOf args rank))
        (policy.resizeIfRequested p 0 (buffers rank)) := rfl
  rw [hunfold, ScanFits]
  cases hdispls : args.recvDispls with
  | given displs =>
      rw [hdispls] at hcut
      obtain rfl := Option.some.inj hcut
      refine ⟨fun other => ?_, fun _ => rfl⟩
      rw [gridRecvDispls, Option.some.injEq]
      exact (and_iff_right fun _ _ hcomputed => by cases hcomputed).symm
  | computed policy buffers =>
      rw [hdispls, cutParameter, gridRecvDispls, Option.ite_none_right_eq_some] at hcut
      obtain ⟨hchecks, hcut⟩ := hcut
      obtain rfl := Option.some.inj hcut
      constructor
      · intro displs
        rw [gridRecvDispls, Option.ite_none_right_eq_some, Option.some.injEq]
        apply and_congr_left
        intro _
        constructor
        · rintro hfits _ _ hcomputed rank
          cases hcomputed
          exact (hfits rank).2
        · intro hfits rank
          exact ⟨le_length_resize (hchecks rank).1, hfits _ _ rfl rank⟩
      · intro rank
        have hscan : (exclusiveScan 0 (cutCounts rank)).length = p := by
          rw [length_exclusiveScan, ← hcounts, List.length_take, Nat.min_eq_left (hlength rank)]
        dsimp only
        rw [overwrite, List.take_append_of_le_length (by simpa using hlength rank),
          take_exclusiveScan, hcounts]
        exact (overwrite_eq ((length_resize_take (hchecks rank).1).trans hscan.symm)).symm

/-- Displacements that the call uses are machine integers. -/
theorem recvDisplsOf_lt (hlength : ∀ rank, p ≤ (recvCountsOf args rank).length)
    (hints : ∀ displs, args.recvDispls = .given displs → ∀ rank, ∀ displ ∈ displs rank,
      displ < 2 ^ 31) {rank source : Fin p} {displ : ℤ}
    (hdispl : (recvDisplsOf args rank)[source.val]? = some displ) : displ < 2 ^ 31 := by
  rw [recvDisplsOf] at hdispl
  split at hdispl
  · rename_i displs hgiven
    exact hints displs hgiven rank displ (List.mem_of_getElem? hdispl)
  · have hsource : source.val < (recvCountsOf args rank).length :=
      source.isLt.trans_le (hlength rank)
    rw [overwrite, List.getElem?_append_left (by simpa using hsource),
      getElem?_exclusiveScan_zero _ hsource] at hdispl
    rw [← Option.some.inj hdispl]
    have hlt := addInt_lt 0 ((recvCountsOf args rank).take source).sum
    rwa [addInt, Int.zero_add] at hlt

end Receive

/-! ## Receive buffer -/

section Buffer

variable {T : Type}

theorem getElem?_resizeIfRequested (policy : BufferResizePolicy) (size : ℕ) (fill : T)
    (buffer : List T) {index : ℕ}
    (hindex : index < (policy.resizeIfRequested size fill buffer).length) :
    (policy.resizeIfRequested size fill buffer)[index]? = some (buffer.getD index fill) := by
  have hresized : ∀ {index}, index < size →
      (resizeVector size fill buffer)[index]? = some (buffer.getD index fill) := by
    intro index hlt
    rw [resizeVector]
    by_cases hold : index < buffer.length
    · rw [List.getElem?_append_left (by rw [List.length_take]; omega),
        List.getElem?_take_of_lt hlt, List.getElem?_eq_getElem hold,
        List.getD_eq_getElem _ _ hold]
    · rw [List.getElem?_append_right (by rw [List.length_take]; omega), List.getElem?_replicate,
        if_pos (by rw [List.length_take]; omega), List.getD_eq_default _ _ (by omega)]
  have hkept : index < buffer.length → buffer[index]? = some (buffer.getD index fill) := by
    intro hlt
    rw [List.getElem?_eq_getElem hlt, List.getD_eq_getElem _ _ hlt]
  cases policy with
  | noResize => exact hkept hindex
  | growOnly =>
      simp only [BufferResizePolicy.resizeIfRequested] at hindex ⊢
      split_ifs at hindex ⊢
      · exact hresized (by simpa using hindex)
      · exact hkept hindex
  | resizeToFit => exact hresized (by simpa [BufferResizePolicy.resizeIfRequested] using hindex)

/-- Blocks inside two buffers that agree on their common positions. -/
theorem readBlock_congr {left right : List T} {displ count : ℤ} (hnonneg : 0 ≤ displ)
    (hleft : displ + count ≤ left.length) (hright : displ + count ≤ right.length)
    (hsame : ∀ i, i < left.length → i < right.length → left[i]? = right[i]?) :
    readBlock left displ count = readBlock right displ count := by
  rw [readBlock, readBlock]
  by_cases hzero : count = 0
  · rw [if_pos hzero, if_pos hzero]
  rw [if_neg hzero, if_neg hzero]
  by_cases hcount : 0 ≤ count
  · rw [if_pos ⟨hcount, hnonneg, hleft⟩, if_pos ⟨hcount, hnonneg, hright⟩]
    apply congrArg some
    apply List.ext_getElem?
    intro index
    rw [List.getElem?_take, List.getElem?_take]
    split_ifs with hindex
    · rw [List.getElem?_drop, List.getElem?_drop]
      apply hsame <;> omega
    · rfl
  · rw [if_neg fun h => hcount h.1, if_neg fun h => hcount h.1]

variable [Inhabited T]

theorem preparedRecvBuf_cases {policy : BufferResizePolicy} {required : Option ℕ}
    {buffer result : List T} (hprepared : preparedRecvBuf policy required buffer = some result) :
    ∃ size, result = policy.resizeIfRequested size default buffer := by
  cases required with
  | none => cases hprepared
  | some size =>
      rw [preparedRecvBuf, Option.ite_none_right_eq_some] at hprepared
      exact ⟨size, (Option.some.inj hprepared.2).symm⟩

/-- Receive buffers of two sizes agree on their common positions. -/
theorem preparedRecvBuf_congr {policy : BufferResizePolicy} {required required' : Option ℕ}
    {buffer left right : List T} (hleft : preparedRecvBuf policy required buffer = some left)
    (hright : preparedRecvBuf policy required' buffer = some right) :
    ∀ i, i < left.length → i < right.length → left[i]? = right[i]? := by
  obtain ⟨size, rfl⟩ := preparedRecvBuf_cases hleft
  obtain ⟨size', rfl⟩ := preparedRecvBuf_cases hright
  intro i hi hi'
  rw [getElem?_resizeIfRequested _ _ _ _ hi, getElem?_resizeIfRequested _ _ _ _ hi']

variable {p : ℕ} {args : AlltoallvArguments p T} {block : Fin p → Fin p → List T}

/-- The receive buffer that the last count and displacement ask for has room for the
blocks of all ranks. -/
def RoomForBlocks (args : AlltoallvArguments p T) (rank : Fin p) : Prop :=
  ∃ buffer, preparedRecvBuf args.recvBufPolicy
      (gridRequiredSize (recvCountsOf args rank) (recvDisplsOf args rank)) (args.recvBuf rank) =
        some buffer ∧
    ∀ (source : Fin p) (displ : ℤ), (recvDisplsOf args rank)[source.val]? = some displ →
      sendCount args source rank ≠ 0 → displ + sendCount args source rank ≤ buffer.length

omit [Inhabited T] in
theorem withKey_deliveries_ne_nil (hcounted : BlocksCounted args block) {rank source : Fin p} :
    withKey (deliveries block rank) source ≠ [] ↔ sendCount args source rank ≠ 0 := by
  rw [withKey_deliveries, ← hcounted, ne_eq, ne_eq, Nat.cast_eq_zero, List.length_eq_zero_iff]

/-- A receive buffer that is written has room for all blocks. -/
theorem roomForBlocks_of_write (hcounted : BlocksCounted args block) {rank : Fin p}
    (hint : ∀ (source : Fin p) (displ : ℤ),
      (recvDisplsOf args rank)[source.val]? = some displ → displ < 2 ^ 31)
    {recvBuf : List T}
    (hwrite : writeRecvBuffer args.recvBufPolicy (deliveries block rank)
      (recvCountsOf args rank) (recvDisplsOf args rank) (args.recvBuf rank) = some recvBuf) :
    RoomForBlocks args rank := by
  obtain ⟨buffer, hprepared, hplaced⟩ := Option.bind_eq_some_iff.mp hwrite
  obtain ⟨state, hplace, -⟩ := Option.map_eq_some_iff.mp hplaced
  refine ⟨buffer, hprepared, ?_⟩
  intro source displ hdispl hne
  have hinside := inside_of_placeItems hplace hdispl (hint source displ hdispl)
    ((withKey_deliveries_ne_nil hcounted).mpr hne)
  rw [withKey_deliveries, hcounted] at hinside
  exact hinside.2

/-- With room for all blocks the receive buffer is written, with the elements of the cut
call at the same positions. -/
theorem write_of_roomForBlocks (hcounted : BlocksCounted args block) {rank : Fin p}
    (hint : ∀ (source : Fin p) (displ : ℤ),
      (recvDisplsOf args rank)[source.val]? = some displ → displ < 2 ^ 31)
    {cutCounts cutDispls : List ℤ} {cutBuf : List T}
    (hdispls : (recvDisplsOf args rank).take p = cutDispls)
    (hcut : writeRecvBuffer args.recvBufPolicy (deliveries block rank) cutCounts cutDispls
      (args.recvBuf rank) = some cutBuf) (hroom : RoomForBlocks args rank) :
    ∃ recvBuf, writeRecvBuffer args.recvBufPolicy (deliveries block rank)
        (recvCountsOf args rank) (recvDisplsOf args rank) (args.recvBuf rank) = some recvBuf ∧
      ∀ (source : Fin p) (displ : ℤ), cutDispls[source.val]? = some displ →
        readBlock recvBuf displ (sendCount args source rank) =
          readBlock cutBuf displ (sendCount args source rank) := by
  obtain ⟨buffer, hprepared, hblocks⟩ := hroom
  obtain ⟨cutBuffer, hcutPrepared, hcutPlaced⟩ := Option.bind_eq_some_iff.mp hcut
  obtain ⟨cutState, hcutPlace, rfl⟩ := Option.map_eq_some_iff.mp hcutPlaced
  have hget : ∀ (source : Fin p) {displ : ℤ}, cutDispls[source.val]? = some displ →
      (recvDisplsOf args rank)[source.val]? = some displ := by
    intro source displ hdispl
    rwa [← hdispls, List.getElem?_take_of_lt source.isLt] at hdispl
  have hroom : ∀ (key : ℕ) (offset : ℤ), cutDispls[key]? = some offset →
      withKey (deliveries block rank) key ≠ [] →
        offset + (withKey (deliveries block rank) key).length ≤ buffer.length := by
    intro key offset hoffset hitems
    have hlength := length_withKey_deliveries hcounted rank key
    split_ifs at hlength with hkey
    · rw [hlength]
      exact hblocks ⟨key, hkey⟩ offset (hget ⟨key, hkey⟩ hoffset)
        ((withKey_deliveries_ne_nil hcounted).mp hitems)
    · exact absurd (List.length_eq_zero_iff.mp (Nat.cast_eq_zero.mp hlength)) hitems
  obtain ⟨state, hplace, hsame⟩ := placeItems_resize hcutPlace
    (hdispls ▸ List.take_prefix p (recvDisplsOf args rank)) hroom
    (preparedRecvBuf_congr hcutPrepared hprepared)
  refine ⟨state.2, Option.bind_eq_some_iff.mpr ⟨buffer, hprepared,
    Option.map_eq_some_iff.mpr ⟨state, hplace, rfl⟩⟩, ?_⟩
  intro source displ hdispl
  by_cases hzero : sendCount args source rank = 0
  · rw [hzero, readBlock, readBlock, if_pos rfl, if_pos rfl]
  · have hinside := inside_of_placeItems hcutPlace hdispl (hint source displ (hget source hdispl))
      ((withKey_deliveries_ne_nil hcounted).mpr hzero)
    rw [withKey_deliveries, hcounted] at hinside
    apply readBlock_congr hinside.1
    · rw [length_of_placeItems hplace]
      exact hblocks source displ (hget source hdispl) hzero
    · rw [length_of_placeItems hcutPlace]
      exact hinside.2
    · intro i hi hi'
      rw [length_of_placeItems hplace] at hi
      rw [length_of_placeItems hcutPlace] at hi'
      exact (hsame i hi' hi).symm

end Buffer

/-! ## Calls with surplus entries -/

section Calls

variable {p : ℕ} {T : Type} [Inhabited T] {args : AlltoallvArguments p T}
  {cutResult : AlltoallvResult p T}

/-- What a call with cut buffers does: it sends blocks, which are delivered, and writes
them to the receive buffers. -/
structure CutCall (args : AlltoallvArguments p T) (cutResult : AlltoallvResult p T)
    (block : Fin p → Fin p → List T) : Prop where
  counted : BlocksCounted args block
  length_lt : ∀ rank, (deliveries block rank).length < 2 ^ 31
  displs : gridSendDispls (cutBuffers args.sendCounts) (cutParameter args.sendDispls) =
    some cutResult.sendDispls
  exchange : alltoallvWithEnvelope (makeGridCommunicator p) .source args.sendBuf
    (cutBuffers args.sendCounts) (.given cutResult.sendDispls) =
      some fun rank => (sourceOrder rank).flatMap fun source =>
        (block source rank).map (envelope .source source rank)
  recvCounts : gridRecvCounts (deliveries block) (cutParameter args.recvCounts) =
    some cutResult.recvCounts
  recvDispls : gridRecvDispls cutResult.recvCounts (cutParameter args.recvDispls) =
    some cutResult.recvDispls
  recvBuf : ∀ rank, writeRecvBuffer args.recvBufPolicy (deliveries block rank)
    (cutResult.recvCounts rank) (cutResult.recvDispls rank) (args.recvBuf rank) =
      some (cutResult.recvBuf rank)

theorem exists_cutCall (hsize : ∀ rank, p ≤ (args.sendCounts rank).length)
    (hcut : gridAlltoallv (makeGridCommunicator p) (cutArguments args) = some cutResult) :
    ∃ block, CutCall args cutResult block := by
  obtain ⟨sendDispls, hdispls, hcut⟩ := Option.bind_eq_some_iff.mp hcut
  obtain ⟨gridRecvBuf, hexchange, hcut⟩ := Option.bind_eq_some_iff.mp hcut
  obtain ⟨messages, hmessages, hcut⟩ := Option.bind_eq_some_iff.mp hcut
  obtain ⟨recvCounts, hcounts, hcut⟩ := Option.bind_eq_some_iff.mp hcut
  obtain ⟨recvDispls, hrecvDispls, hcut⟩ := Option.bind_eq_some_iff.mp hcut
  obtain ⟨recvBuf, hrecvBuf, hcut⟩ := Option.bind_eq_some_iff.mp hcut
  obtain rfl := Option.some.inj hcut
  obtain ⟨block, hsends, hfit, rfl⟩ := exists_sends_of_alltoallvWithEnvelope (fun rank => by
    simp only [cutArguments, cutBuffers, List.length_take, Nat.min_eq_left (hsize rank)])
    hexchange
  obtain rfl : messages = deliveries block := by
    rw [allRanks_eq_some.mpr (sourceMessages_deliveries block)] at hmessages
    exact (Option.some.inj hmessages).symm
  have hcounted : BlocksCounted args block := by
    intro source destination
    have hsent := congrArg (·[destination.val]?) (hsends.counts source)
    simp only [cutArguments, cutBuffers, List.getElem?_take_of_lt destination.isLt,
      List.getElem?_map] at hsent
    rw [sendCount, List.getD_eq_getElem?_getD, hsent]
    simp
  refine ⟨block, hcounted, ?_, hdispls, hexchange, hcounts, hrecvDispls,
    allRanks_eq_some.mp hrecvBuf⟩
  intro rank
  rw [length_deliveries]
  exact hfit.received rank

theorem surplus_of_gridAlltoallv {result : AlltoallvResult p T}
    (hresult : gridAlltoallv (makeGridCommunicator p) args = some result) (rank : Fin p) :
    ∀ count ∈ (args.sendCounts rank).drop p, count = 0 := by
  obtain ⟨sendDispls, -, hresult⟩ := Option.bind_eq_some_iff.mp hresult
  obtain ⟨gridRecvBuf, hexchange, -⟩ := Option.bind_eq_some_iff.mp hresult
  exact surplus_sendCounts_eq_zero hexchange rank

/-- Without surplus send counts the call continues with the messages of the cut call. -/
theorem CutCall.gridAlltoallv_eq {block : Fin p → Fin p → List T}
    (hcall : CutCall args cutResult block)
    (hzero : ∀ rank, ∀ count ∈ (args.sendCounts rank).drop p, count = 0) :
    ∃ sendDispls, gridAlltoallv (makeGridCommunicator p) args =
      (gridRecvDispls (recvCountsOf args) args.recvDispls).bind fun recvDispls =>
        (allRanks fun rank => writeRecvBuffer args.recvBufPolicy (deliveries block rank)
          (recvCountsOf args rank) (recvDispls rank) (args.recvBuf rank)).bind fun recvBuf =>
            some { recvBuf, recvCounts := recvCountsOf args, recvDispls, sendDispls } := by
  obtain ⟨sendDispls, hdispls, htake⟩ := gridSendDispls_surplus hcall.displs
  have hexchange := alltoallvWithEnvelope_surplus hzero htake hcall.exchange
  have hcounts := (gridRecvCounts_surplus hcall.counted hcall.length_lt hcall.recvCounts).1
  refine ⟨sendDispls, ?_⟩
  rw [gridAlltoallv, hdispls]
  simp only [Option.bind_eq_bind, Option.bind_some, hexchange,
    allRanks_eq_some.mpr (sourceMessages_deliveries block), hcounts]

/-- The surplus entries do no harm: surplus send counts are zero, the scan of all receive
counts stays inside the receive displacements, and the receive buffer that the last
entries ask for has room for all blocks. -/
structure SurplusHarmless (args : AlltoallvArguments p T) : Prop where
  sendCounts : ∀ rank, ∀ count ∈ (args.sendCounts rank).drop p, count = 0
  recvDispls : ScanFits args
  recvBuf : ∀ rank, RoomForBlocks args rank

/-- A result with the counts, displacements and elements of the cut call. -/
structure IgnoresSurplus (args : AlltoallvArguments p T)
    (cutResult result : AlltoallvResult p T) : Prop where
  recvCounts : ∀ rank, (result.recvCounts rank).take p = cutResult.recvCounts rank
  recvDispls : ∀ rank, (result.recvDispls rank).take p = cutResult.recvDispls rank
  delivered : ∀ (rank source : Fin p) (displ : ℤ),
    (cutResult.recvDispls rank)[source.val]? = some displ →
      readBlock (result.recvBuf rank) displ (sendCount args source rank) =
        readBlock (cutResult.recvBuf rank) displ (sendCount args source rank)

/-- The exchange over the grid ignores surplus entries of its count and displacement
buffers exactly if they do no harm. -/
theorem gridAlltoallv_ignores_surplus_iff (args : AlltoallvArguments p T)
    (hsize : ∀ rank, p ≤ (args.sendCounts rank).length)
    (hints : ∀ displs, args.recvDispls = .given displs → ∀ rank, ∀ displ ∈ displs rank,
      displ < 2 ^ 31)
    (hcut : gridAlltoallv (makeGridCommunicator p) (cutArguments args) = some cutResult) :
    (∃ result, gridAlltoallv (makeGridCommunicator p) args = some result ∧
      IgnoresSurplus args cutResult result) ↔ SurplusHarmless args := by
  obtain ⟨block, hcall⟩ := exists_cutCall hsize hcut
  obtain ⟨-, hlength, hcounts⟩ :=
    gridRecvCounts_surplus hcall.counted hcall.length_lt hcall.recvCounts
  obtain ⟨hscan, hdispls⟩ := gridRecvDispls_surplus hlength hcounts hcall.recvDispls
  have hint : ∀ (rank source : Fin p) (displ : ℤ),
      (recvDisplsOf args rank)[source.val]? = some displ → displ < 2 ^ 31 :=
    fun rank source displ hdispl => recvDisplsOf_lt hlength hints hdispl
  constructor
  · rintro ⟨result, hresult, -⟩
    have hzero := surplus_of_gridAlltoallv hresult
    obtain ⟨sendDispls, hrest⟩ := hcall.gridAlltoallv_eq hzero
    rw [hrest] at hresult
    obtain ⟨recvDispls, hrecvDispls, hresult⟩ := Option.bind_eq_some_iff.mp hresult
    obtain ⟨hfits, rfl⟩ := (hscan recvDispls).mp hrecvDispls
    obtain ⟨recvBuf, hrecvBuf, -⟩ := Option.bind_eq_some_iff.mp hresult
    exact ⟨hzero, hfits, fun rank => roomForBlocks_of_write hcall.counted (hint rank)
      (allRanks_eq_some.mp hrecvBuf rank)⟩
  · intro hharmless
    obtain ⟨sendDispls, hrest⟩ := hcall.gridAlltoallv_eq hharmless.sendCounts
    choose recvBuf hrecvBuf hdelivered using fun rank =>
      write_of_roomForBlocks hcall.counted (hint rank) (hdispls rank) (hcall.recvBuf rank)
        (hharmless.recvBuf rank)
    rw [hrest, (hscan (recvDisplsOf args)).mpr ⟨hharmless.recvDispls, rfl⟩, Option.bind_some,
      allRanks_eq_some.mpr hrecvBuf, Option.bind_some]
    exact ⟨_, rfl, hcounts, hdispls, hdelivered⟩

/-- Two ranks with three send counts of which the last one is surplus. -/
def threeCounts (surplus : ℤ) : AlltoallvArguments 2 ℕ :=
  { sendBuf := fun _ => [5, 6, 7]
    sendCounts := fun _ => [1, 1, surplus]
    sendDispls := .given fun _ => [0, 1, 2]
    recvCounts := .omitted
    recvDispls := .omitted
    recvBufPolicy := .resizeToFit
    recvBuf := fun _ => [] }

theorem gridAlltoallv_cut_threeCounts (surplus : ℤ) :
    gridAlltoallv (makeGridCommunicator 2) (cutArguments (threeCounts surplus)) =
      some (expectedResult (cutArguments (threeCounts 0))) := by
  have hcut : cutArguments (threeCounts surplus) = cutArguments (threeCounts 0) := rfl
  rw [hcut]
  apply gridAlltoallv_eq_some
  · exact
      { length_sendCounts := by decide
        nonneg := by decide
        displs := fun displs hdispls => by cases hdispls; decide
        computed := fun hcomputed => absurd hcomputed (by decide)
        inside := by decide }
  · exact { sent := by decide, received := by decide, relayed := by decide +kernel }
  · exact
      { recvCounts := .inl (Parameter.computedInto_omitted _)
        recvDispls := Parameter.computedInto_omitted _
        recvBuf := by decide }

/-- A surplus count of one is sent to a rank that does not exist. -/
theorem gridAlltoallv_surplus_sendCount :
    (∃ cutResult, gridAlltoallv (makeGridCommunicator 2) (cutArguments (threeCounts 1)) =
      some cutResult) ∧
    ¬ ∃ result, gridAlltoallv (makeGridCommunicator 2) (threeCounts 1) = some result := by
  refine ⟨⟨_, gridAlltoallv_cut_threeCounts 1⟩, ?_⟩
  rintro ⟨result, hresult⟩
  exact absurd (surplus_of_gridAlltoallv hresult 0) (by decide)

/-- A surplus count of zero is ignored. -/
theorem gridAlltoallv_ignores_surplus_zero :
    ∃ result, gridAlltoallv (makeGridCommunicator 2) (threeCounts 0) = some result ∧
      IgnoresSurplus (threeCounts 0) (expectedResult (cutArguments (threeCounts 0))) result := by
  apply (gridAlltoallv_ignores_surplus_iff (threeCounts 0) (by decide)
    (fun displs hgiven => by cases hgiven) (gridAlltoallv_cut_threeCounts 0)).mpr
  refine ⟨by decide, ?_, fun rank => ⟨[0, 0], ?_, ?_⟩⟩
  · intro policy buffers hcomputed
    cases hcomputed
    decide
  · revert rank
    decide
  · revert rank
    decide

end Calls

end MpiBindings.GridAlltoall
