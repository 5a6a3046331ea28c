import MpiBindings.Collectives.Scatter

/-!
# Computed receive counts

Receive counts that the caller of `alltoallv` or `scatterv` omits are the result of a
nested `alltoall` or `scatter` of the send counts.  The nested call sends as many counts
to every member as the size of the buffer divided by the number of members, while the
outer call accepts every buffer with at least one count for every member.
-/

namespace MpiBindings.Collectives

open CountingSort

/-! ## Exchange of blocks of one size -/

section Alltoall

variable {p : ℕ} {comms : Communicators p} {T : Type}

/-- Every member sends as much as the receiver expects. -/
theorem sendCount_eq_of_mpiAlltoall {sendBuf recvBuf result : Fin p → List T}
    {sendCount recvCount : Fin p → ℕ}
    (hresult : mpiAlltoall comms sendBuf recvBuf sendCount recvCount = some result)
    {rank sender : Fin p} (hsender : sender ∈ comms.members rank) :
    sendCount sender = recvCount rank := by
  have hrank := allRanks_eq_some.mp hresult rank
  obtain ⟨blocks, hblocks, hwrite⟩ := Option.bind_eq_some_iff.mp hrank
  obtain ⟨block, hblock, hget⟩ := exists_of_mapM hblocks (comms.getElem?_rankOf hsender)
  obtain ⟨count, hcount, hblock⟩ := Option.bind_eq_some_iff.mp hblock
  obtain ⟨displ, -, hread⟩ := Option.bind_eq_some_iff.mp hblock
  have hsent : count = sendCount sender :=
    List.eq_of_mem_replicate (List.mem_of_getElem? hcount)
  have hreceived : (block.length : ℤ) = recvCount rank := by
    apply List.eq_of_mem_replicate
    apply (prefix_of_writeBlocks hwrite).subset
    exact List.mem_map.mpr ⟨block, List.mem_of_getElem? hget, rfl⟩
  rw [length_of_readBlock hread, hsent] at hreceived
  exact Nat.cast_injective hreceived

/-- The elements that a buffer holds for a member. -/
def evenBlock (size : ℕ) (buffer : List T) (index : ℕ) : List T :=
  (buffer.drop (index * size)).take size

theorem length_evenBlock {size index : ℕ} {buffer : List T} (hindex : index < p)
    (hlength : buffer.length = size * p) : (evenBlock size buffer index).length = size := by
  have hle : index * size + size ≤ buffer.length := by
    rw [hlength, mul_comm size p, ← Nat.succ_mul]
    exact Nat.mul_le_mul_right size hindex
  rw [evenBlock, List.length_take, List.length_drop]
  omega

theorem getElem?_evenBlock {size index offset : ℕ} {buffer : List T} (hoffset : offset < size) :
    (evenBlock size buffer index)[offset]? = buffer[index * size + offset]? := by
  rw [evenBlock, List.getElem?_take, if_pos hoffset, List.getElem?_drop]

theorem flatMap_evenBlock {size : ℕ} {sendBuf : Fin p → List T}
    (hlength : ∀ rank, (sendBuf rank).length = size * p) (rank : Fin p) :
    ((List.finRange p).flatMap fun sender => evenBlock size (sendBuf sender) rank).length =
      size * p := by
  rw [List.length_flatMap, List.map_congr_left
    (fun sender _ => length_evenBlock rank.isLt (hlength sender)), List.map_const',
    List.sum_replicate_nat, List.length_finRange, mul_comm]

/-- The even blocks of all ranks arrive in the order of the ranks. -/
theorem mpiAlltoall_world {size : ℕ} {sendBuf recvBuf : Fin p → List T}
    (hlength : ∀ rank, (sendBuf rank).length = size * p)
    (hfits : ∀ rank, size * p ≤ (recvBuf rank).length) :
    mpiAlltoall (Communicators.world p) sendBuf recvBuf (fun _ => size) (fun _ => size) =
      some fun rank : Fin p => ((List.finRange p).flatMap fun sender =>
        evenBlock size (sendBuf sender) rank) ++ (recvBuf rank).drop (size * p) := by
  have hblock : ∀ sender rank : Fin p,
      (evenBlock size (sendBuf sender) rank).length = size :=
    fun sender rank => length_evenBlock rank.isLt (hlength sender)
  rw [mpiAlltoall, mpiAlltoallv_eq_some fun sender receiver =>
    evenBlock size (sendBuf sender) receiver]
  · congr 1
    funext rank
    simp only [Communicators.world, flatMap_evenBlock hlength]
  · intro sender receiver _
    rw [Communicators.rankOf_world]
    simp only [MpiAlltoallvArguments.block, Communicators.size_world,
      List.getElem?_replicate, if_pos receiver.isLt, List.getElem?_map,
      List.getElem?_range receiver.isLt, Option.map_some, Option.bind_eq_bind, Option.bind_some]
    apply readBlock_natCast
    intro _
    rw [hlength, mul_comm size p, ← Nat.succ_mul]
    exact Nat.mul_le_mul_right size receiver.isLt
  · intro rank
    simp only [hblock, Communicators.size_world]
    rw [List.map_const', Communicators.world, List.length_finRange]
  · intro rank
    simp only [hblock, Communicators.size_world]
    rw [List.map_const', Communicators.world, List.length_finRange, prefixSums_replicate,
      List.map_map]
    rfl
  · intro rank
    rw [Communicators.world, flatMap_evenBlock hlength]
    exact hfits rank

/-- `alltoall` returns exactly for buffers of one size, a positive multiple of the number of
ranks, that fit into the receive buffers, and delivers the blocks in the order of the ranks. -/
theorem alltoall_world_eq_some_iff {sendBuf recvBuf result : Fin p → List T} :
    alltoall (Communicators.world p) sendBuf recvBuf = some result ↔
      ∃ size < 2 ^ 31, ∀ rank, 0 < size ∧ (sendBuf rank).length = size * p ∧
        size * p ≤ (recvBuf rank).length ∧
        result rank = ((List.finRange p).flatMap fun sender =>
          evenBlock size (sendBuf sender) rank) ++ (recvBuf rank).drop (size * p) := by
  obtain rfl | hpos := Nat.eq_zero_or_pos p
  · refine iff_of_true ?_ ⟨0, by decide, fun rank => rank.elim0⟩
    rw [alltoall, if_pos fun rank => rank.elim0, mpiAlltoall, mpiAlltoallv]
    exact allRanks_eq_some.mpr fun rank => rank.elim0
  constructor
  · intro hresult
    rw [alltoall, Option.ite_none_right_eq_some] at hresult
    obtain ⟨hchecks, hresult⟩ := hresult
    simp only [Communicators.size_world] at hchecks hresult
    have hsize : ∀ rank, (sendBuf rank).length / p = (sendBuf ⟨0, hpos⟩).length / p :=
      fun rank => sendCount_eq_of_mpiAlltoall hresult (List.mem_finRange rank)
    have hlength : ∀ rank, (sendBuf rank).length = (sendBuf ⟨0, hpos⟩).length / p * p := by
      intro rank
      rw [← hsize rank, Nat.div_mul_cancel (Nat.dvd_of_mod_eq_zero (hchecks rank).2.1)]
    have hfits : ∀ rank, (sendBuf ⟨0, hpos⟩).length / p * p ≤ (recvBuf rank).length := by
      intro rank
      rw [← hsize rank]
      exact (hchecks rank).2.2.1
    have hsizePos : 0 < (sendBuf ⟨0, hpos⟩).length / p := by
      have hsend := (hchecks ⟨0, hpos⟩).2.2.2.1
      rw [hlength] at hsend
      exact Nat.pos_of_mul_pos_right hsend
    simp only [hsize] at hresult
    rw [mpiAlltoall_world hlength hfits, Option.some.injEq] at hresult
    refine ⟨(sendBuf ⟨0, hpos⟩).length / p, (hchecks _).1, ?_⟩
    intro rank
    exact ⟨hsizePos, hlength rank, hfits rank, (congrFun hresult rank).symm⟩
  · rintro ⟨size, hbound, hall⟩
    have hdiv : ∀ rank, (sendBuf rank).length / p = size := by
      intro rank
      rw [(hall rank).2.1, Nat.mul_div_cancel _ hpos]
    have hstorage : ∀ rank, 0 < (sendBuf rank).length ∧ 0 < (recvBuf rank).length := by
      intro rank
      obtain ⟨hsizePos, hlength, hfits, -⟩ := hall rank
      have htotal : 0 < size * p := Nat.mul_pos hsizePos hpos
      exact ⟨hlength ▸ htotal, htotal.trans_le hfits⟩
    rw [alltoall]
    simp only [Communicators.size_world, hdiv]
    rw [if_pos fun rank => ⟨hbound, by rw [(hall rank).2.1, Nat.mul_mod_left],
        (hall rank).2.2.1, hstorage rank⟩,
      mpiAlltoall_world (fun rank => (hall rank).2.1) fun rank => (hall rank).2.2.1]
    congr 1
    funext rank
    exact (hall rank).2.2.2.symm

end Alltoall

/-! ## Receive counts of `alltoallv` -/

section Alltoallv

variable {p : ℕ}

/-- Every rank has the count that every sender has for it. -/
def CountsArrive (sendCounts recvCounts : Fin p → List ℤ) : Prop :=
  ∀ rank sender : Fin p, ∃ count, (sendCounts sender)[rank.val]? = some count ∧
    (recvCounts rank)[sender.val]? = some count

/-- The send counts have one size, a multiple of the number of ranks that fits into the
receive buffers, and the counts that arrive in place of the senders' are equal to them:
the count of a sender comes from the block of the rank at its quotient by the multiple. -/
def EvenCountsMatch (sendCounts recvBuf : Fin p → List ℤ) : Prop :=
  ∃ size < 2 ^ 31,
    (∀ rank, (sendCounts rank).length = size * p ∧ size * p ≤ (recvBuf rank).length) ∧
    ∀ rank sender origin : Fin p, ∀ offset < size, sender.val = origin * size + offset →
      (sendCounts origin)[rank * size + offset]? = (sendCounts sender)[rank.val]?

/-- The received element at a position comes from the block that covers the position. -/
theorem getElem?_evenBlocks {size offset : ℕ} {sendBuf : Fin p → List ℤ} {rest : List ℤ}
    (hlength : ∀ rank, (sendBuf rank).length = size * p) (hoffset : offset < size)
    (rank origin : Fin p) :
    (((List.finRange p).flatMap fun sender => evenBlock size (sendBuf sender) rank) ++
      rest)[origin * size + offset]? = (sendBuf origin)[rank * size + offset]? := by
  have hinside : origin * size + offset < size * p := by
    calc origin * size + offset
      _ < origin * size + size := Nat.add_lt_add_left hoffset _
      _ = (origin + 1) * size := (Nat.succ_mul _ _).symm
      _ ≤ p * size := Nat.mul_le_mul_right size origin.isLt
      _ = size * p := mul_comm p size
  have hblocks : ∀ block ∈ (List.finRange p).map fun sender =>
      evenBlock size (sendBuf sender) rank, block.length = size := by
    intro block hblock
    obtain ⟨sender, -, rfl⟩ := List.mem_map.mp hblock
    exact length_evenBlock rank.isLt (hlength sender)
  have hblock : ((List.finRange p).map fun sender =>
      evenBlock size (sendBuf sender) rank)[origin.val]? =
        some (evenBlock size (sendBuf origin) rank) := by
    simp
  rw [List.getElem?_append_left (by rw [flatMap_evenBlock hlength]; exact hinside),
    List.flatMap_def, Nat.add_comm, getElem?_flatten_of_length hblocks hoffset hblock,
    getElem?_evenBlock hoffset]

theorem countsArrive_iff {size : ℕ} {sendCounts recvCounts recvBuf : Fin p → List ℤ}
    (hcounts : ∀ rank, p ≤ (sendCounts rank).length)
    (hlength : ∀ rank, (sendCounts rank).length = size * p)
    (hresult : ∀ rank, recvCounts rank = ((List.finRange p).flatMap fun sender =>
      evenBlock size (sendCounts sender) rank) ++ (recvBuf rank).drop (size * p)) :
    CountsArrive sendCounts recvCounts ↔
      ∀ rank sender origin : Fin p, ∀ offset < size, sender.val = origin * size + offset →
        (sendCounts origin)[rank * size + offset]? = (sendCounts sender)[rank.val]? := by
  constructor
  · intro harrive rank sender origin offset hoffset hsender
    obtain ⟨count, hsent, hreceived⟩ := harrive rank sender
    rw [hresult, hsender, getElem?_evenBlocks hlength hoffset] at hreceived
    rw [hsent, hreceived]
  · intro hmatch rank sender
    have hrank : rank.val < (sendCounts sender).length := rank.isLt.trans_le (hcounts sender)
    refine ⟨(sendCounts sender)[rank.val], List.getElem?_eq_getElem hrank, ?_⟩
    have hsize : 0 < size := by
      apply Nat.pos_of_ne_zero
      rintro rfl
      rw [hlength, Nat.zero_mul] at hrank
      exact Nat.not_lt_zero _ hrank
    -- the position of the sender lies in the block of a rank before it
    let origin : Fin p := ⟨sender / size, (Nat.div_le_self _ _).trans_lt sender.isLt⟩
    have hposition : sender.val = origin * size + sender % size :=
      (Nat.div_add_mod' sender size).symm
    have hoffset : sender % size < size := Nat.mod_lt sender hsize
    rw [hresult, hposition, getElem?_evenBlocks hlength hoffset,
      hmatch rank sender origin _ hoffset hposition, List.getElem?_eq_getElem hrank]

/-- The nested `alltoall` returns the senders' counts. -/
def ReceiveCountsArrive (sendCounts : Fin p → List ℤ) (recvCounts : Parameter p) : Prop :=
  ∃ counts, receiveCounts (Communicators.world p) sendCounts recvCounts = some counts ∧
    CountsArrive sendCounts counts

theorem receiveCountsArrive_iff {sendCounts buffers : Fin p → List ℤ}
    {policy : BufferResizePolicy} (hcounts : ∀ rank, p ≤ (sendCounts rank).length)
    (hbuffers : ∀ rank, p ≤ (policy.resizeIfRequested p 0 (buffers rank)).length) :
    ReceiveCountsArrive sendCounts (.computed policy buffers) ↔
      EvenCountsMatch sendCounts fun rank => policy.resizeIfRequested p 0 (buffers rank) := by
  have hreceive : receiveCounts (Communicators.world p) sendCounts (.computed policy buffers) =
      alltoall (Communicators.world p) sendCounts fun rank =>
        policy.resizeIfRequested p 0 (buffers rank) := by
    rw [receiveCounts]
    simp only [Communicators.size_world]
    exact if_pos hbuffers
  rw [ReceiveCountsArrive, hreceive]
  constructor
  · rintro ⟨recvCounts, hresult, harrive⟩
    obtain ⟨size, hbound, hall⟩ := alltoall_world_eq_some_iff.mp hresult
    refine ⟨size, hbound, fun rank => ⟨(hall rank).2.1, (hall rank).2.2.1⟩, ?_⟩
    exact (countsArrive_iff hcounts (fun rank => (hall rank).2.1)
      fun rank => (hall rank).2.2.2).mp harrive
  · rintro ⟨size, hbound, hall, hmatch⟩
    have hsizePos : ∀ rank : Fin p, 0 < size := fun rank => by
      have hcount := rank.pos.trans_le (hcounts rank)
      rw [(hall rank).1] at hcount
      exact Nat.pos_of_mul_pos_right hcount
    refine ⟨_, alltoall_world_eq_some_iff.mpr ⟨size, hbound, fun rank =>
      ⟨hsizePos rank, (hall rank).1, (hall rank).2, rfl⟩⟩, ?_⟩
    exact (countsArrive_iff hcounts (fun rank => (hall rank).1) fun _ => rfl).mpr hmatch

/-- In receive buffers with one entry for every rank, only send counts of the same size
arrive. -/
theorem evenCountsMatch_iff {sendCounts recvBuf : Fin p → List ℤ}
    (hcounts : ∀ rank, p ≤ (sendCounts rank).length)
    (hbuffers : ∀ rank, (recvBuf rank).length = p) :
    EvenCountsMatch sendCounts recvBuf ↔ ∀ rank, (sendCounts rank).length = p := by
  constructor
  · rintro ⟨size, -, hall, -⟩ rank
    have hle := (hall rank).2
    rw [← (hall rank).1, hbuffers] at hle
    exact hle.antisymm (hcounts rank)
  · intro hlength
    refine ⟨1, by decide, fun rank => ⟨?_, ?_⟩, ?_⟩
    · rw [hlength, one_mul]
    · rw [hbuffers, one_mul]
    · intro rank sender origin offset hoffset hsender
      obtain rfl : offset = 0 := Nat.lt_one_iff.mp hoffset
      obtain rfl : sender = origin := by
        apply Fin.ext
        rw [hsender, Nat.mul_one, Nat.add_zero]
      rw [Nat.mul_one, Nat.add_zero]

end Alltoallv

/-! ## Receive counts of `scatterv` -/

section Scatterv

variable {p : ℕ}

/-- The nested `scatter` returns the root's counts. -/
def ScatteredCountsArrive (root : Fin p) (sendCounts : Fin p → List ℤ) : Prop :=
  ∃ recvCount, scattervRecvCount (Communicators.world p) root sendCounts none =
      some recvCount ∧
    ∀ rank : Fin p, (sendCounts root)[rank.val]? = some (recvCount rank)

theorem scatteredAt_world {T : Type} {root rank : Fin p} {sendBuf recvBuf : Fin p → List T}
    {sendCount : Fin p → ℕ} {recvCount : Fin p → ℤ} :
    scatteredAt (Communicators.world p) root
      { sendBuf
        sendCounts := fun rank => List.replicate ((Communicators.world p).size rank)
          (sendCount rank : ℤ)
        sendDispls := fun rank => (List.range ((Communicators.world p).size rank)).map
          fun index => ((index * sendCount rank : ℕ) : ℤ)
        recvBuf
        recvCount } rank =
      (readBlock (sendBuf root) ((rank * sendCount root : ℕ) : ℤ) (sendCount root)).bind
        fun block => if block.length = recvCount rank then writeBlock 0 block (recvBuf rank)
          else none := by
  have hroot : ((Communicators.world p).members rank)[root.val]? = some root := by
    simp [Communicators.world]
  rw [scatteredAt, hroot, Communicators.rankOf_world]
  simp only [Communicators.size_world, List.getElem?_replicate, if_pos rank.isLt,
    List.getElem?_map, List.getElem?_range rank.isLt, Option.map_some, Option.bind_eq_bind,
    Option.bind_some]

/-- Only the root checks the size of its send buffer. -/
theorem scatter_one {root : Fin p} {sendCounts : Fin p → List ℤ} :
    scatter (Communicators.world p) root
      { sendBuf := sendCounts, recvCount := some fun _ => 1, recvBufPolicy := .noResize,
        recvBuf := fun _ => [0] } =
      if 0 < (sendCounts root).length ∧ (sendCounts root).length % p = 0 ∧
          (sendCounts root).length / p < 2 ^ 31 then
        mpiScatter (Communicators.world p) root sendCounts (fun _ => [0])
          (fun rank => (sendCounts rank).length / p) fun _ => 1
      else none := by
  have hroot : (∀ rank : Fin p, root.val < p ∧ (rank.val = root.val →
      0 < (sendCounts rank).length ∧ (sendCounts rank).length % p = 0 ∧
        (sendCounts rank).length / p < 2 ^ 31)) ↔
      0 < (sendCounts root).length ∧ (sendCounts root).length % p = 0 ∧
        (sendCounts root).length / p < 2 ^ 31 := by
    constructor
    · intro hall
      exact (hall root).2 rfl
    · intro hchecks rank
      apply And.intro root.isLt
      intro hrank
      rwa [Fin.ext hrank]
  have hprepared : allRanks (fun _ : Fin p =>
      preparedRecvBuf .noResize (sizeOfCount 1) ([0] : List ℤ)) = some fun _ => [0] :=
    allRanks_eq_some.mpr fun _ => rfl
  rw [scatter]
  simp only [Communicators.size_world, Communicators.rankOf_world, hroot, scatterRecvCount,
    Option.bind_eq_bind, Option.bind_some, hprepared]

/-- The root sends as much to every rank as the rank expects. -/
theorem sendCount_eq_of_mpiScatter {T : Type} {root : Fin p} {sendBuf recvBuf : Fin p → List T}
    {sendCount : Fin p → ℕ} {recvCount : Fin p → ℤ} {result : Fin p → List T}
    (hresult : mpiScatter (Communicators.world p) root sendBuf recvBuf sendCount recvCount =
      some result) (rank : Fin p) : (sendCount root : ℤ) = recvCount rank := by
  have hrank := allRanks_eq_some.mp hresult rank
  rw [scatteredAt_world] at hrank
  obtain ⟨block, hread, hwrite⟩ := Option.bind_eq_some_iff.mp hrank
  rw [Option.ite_none_right_eq_some] at hwrite
  rw [← hwrite.1, length_of_readBlock hread]

/-- A root with one element for every rank. -/
theorem mpiScatter_one {T : Type} {root : Fin p} {sendBuf : Fin p → List T}
    {sendCount : Fin p → ℕ} {element : Fin p → T} (initial : T)
    (helement : ∀ rank : Fin p, (sendBuf root)[rank.val]? = some (element rank))
    (hcount : sendCount root = 1) :
    mpiScatter (Communicators.world p) root sendBuf (fun _ => [initial]) sendCount
      (fun _ => 1) = some fun rank => [element rank] := by
  apply allRanks_eq_some.mpr
  intro rank
  have hrank : rank.val < (sendBuf root).length :=
    (List.getElem?_eq_some_iff.mp (helement rank)).1
  have hread : readBlock (sendBuf root) ((rank * 1 : ℕ) : ℤ) ((1 : ℕ) : ℤ) =
      some [element rank] := by
    rw [readBlock_natCast fun _ => by omega, Nat.mul_one, List.take_one, List.head?_drop,
      helement rank]
    rfl
  rw [scatteredAt_world, hcount, hread]
  rfl

/-- Every rank receives one count exactly if the root has one count for every rank. -/
theorem scatteredCountsArrive_iff {root : Fin p} {sendCounts : Fin p → List ℤ}
    (hcounts : p ≤ (sendCounts root).length) :
    ScatteredCountsArrive root sendCounts ↔ (sendCounts root).length = p := by
  constructor
  · rintro ⟨recvCount, hresult, -⟩
    obtain ⟨received, hreceived, -⟩ := Option.bind_eq_some_iff.mp hresult
    rw [scatter_one, Option.ite_none_right_eq_some] at hreceived
    have hone := sendCount_eq_of_mpiScatter hreceived.2 root
    rw [← Nat.cast_one, Nat.cast_inj] at hone
    rw [← Nat.div_mul_cancel (Nat.dvd_of_mod_eq_zero hreceived.1.2.1), hone, Nat.one_mul]
  · intro hlength
    have hpos : 0 < p := Nat.zero_lt_of_lt root.isLt
    have hindex : ∀ rank : Fin p, rank.val < (sendCounts root).length :=
      fun rank => rank.isLt.trans_le hcounts
    obtain ⟨recvCount, hrecvCount⟩ : ∃ recvCount : Fin p → ℤ,
        ∀ rank : Fin p, (sendCounts root)[rank.val]? = some (recvCount rank) :=
      ⟨fun rank => (sendCounts root).get ⟨rank, hindex rank⟩,
        fun rank => List.getElem?_eq_getElem (hindex rank)⟩
    refine ⟨recvCount, ?_, hrecvCount⟩
    rw [scattervRecvCount, scatter_one, hlength, Nat.mod_self, Nat.div_self hpos,
      if_pos ⟨hpos, rfl, by decide⟩,
      mpiScatter_one 0 hrecvCount (by rw [hlength, Nat.div_self hpos])]
    exact allRanks_eq_some.mpr fun _ => rfl

end Scatterv

/-! ## Calls that return -/

section Calls

variable {p : ℕ} {comms : Communicators p} {T : Type} [Inhabited T]

/-- A call of `alltoallv` that returns has the computed receive counts. -/
theorem receiveCounts_of_alltoallv {args : AlltoallvArguments p T}
    {result : AlltoallvResult p T} (hresult : alltoallv comms args = some result) :
    receiveCounts comms args.sendCounts args.recvCounts = some result.recvCounts := by
  obtain ⟨_, hreturned⟩ := alltoallv_cases hresult
  exact hreturned.recvCounts

/-- A call of `scatterv` that returns has the computed receive counts. -/
theorem scattervRecvCount_of_scatterv {root : ℕ} {args : ScattervArguments p T}
    {result : ScattervResult p T} (hresult : scatterv comms root args = some result) :
    scattervRecvCount comms root args.sendCounts args.recvCount = some result.recvCount := by
  rw [scatterv, Option.ite_none_right_eq_some] at hresult
  obtain ⟨-, hresult⟩ := hresult
  obtain ⟨sendDispls, -, hresult⟩ := Option.bind_eq_some_iff.mp hresult
  obtain ⟨recvCount, hcount, hresult⟩ := Option.bind_eq_some_iff.mp hresult
  obtain ⟨recvBuf, -, hresult⟩ := Option.bind_eq_some_iff.mp hresult
  obtain ⟨received, -, hresult⟩ := Option.bind_eq_some_iff.mp hresult
  obtain rfl := Option.some.inj hresult
  exact hcount

end Calls

/-! ## Main result -/

/-- Computed receive counts are the senders' counts: in `alltoallv`, in receive buffers with
one entry for every rank, exactly if every rank has one count for every rank, and in other
receive buffers exactly if equal counts arrive in their place; in `scatterv` exactly if the
root has one count for every rank. -/
theorem computedCounts_arrive_iff {p : ℕ} (sendCounts : Fin p → List ℤ) :
    (∀ (policy : BufferResizePolicy) (buffers : Fin p → List ℤ),
      (∀ rank, p ≤ (sendCounts rank).length) →
      (∀ rank, p ≤ (policy.resizeIfRequested p 0 (buffers rank)).length) →
      (ReceiveCountsArrive sendCounts (.computed policy buffers) ↔
        EvenCountsMatch sendCounts fun rank =>
          policy.resizeIfRequested p 0 (buffers rank)) ∧
      ((∀ rank, (policy.resizeIfRequested p 0 (buffers rank)).length = p) →
        (ReceiveCountsArrive sendCounts (.computed policy buffers) ↔
          ∀ rank, (sendCounts rank).length = p))) ∧
    ∀ root : Fin p, p ≤ (sendCounts root).length →
      (ScatteredCountsArrive root sendCounts ↔ (sendCounts root).length = p) := by
  constructor
  · intro policy buffers hcounts hbuffers
    have hiff : ReceiveCountsArrive sendCounts (.computed policy buffers) ↔ _ :=
      receiveCountsArrive_iff hcounts hbuffers
    exact ⟨hiff, fun hexact => hiff.trans (evenCountsMatch_iff hcounts hexact)⟩
  · intro root hcounts
    exact scatteredCountsArrive_iff hcounts

/-- Two ranks with surplus counts: three counts fail in the nested calls, and of four
counts those of rank 0 arrive as `1, 2` where the senders have `1, 1`. -/
theorem computedCounts_surplus :
    (∀ rank : Fin 2, 2 ≤ ((fun _ => [1, 2, 3] : Fin 2 → List ℤ) rank).length) ∧
    ¬ ReceiveCountsArrive (fun _ : Fin 2 => [1, 2, 3]) .omitted ∧
    ¬ ScatteredCountsArrive (0 : Fin 2) (fun _ => [1, 2, 3]) ∧
    (receiveCounts (Communicators.world 2) (fun _ => [1, 2, 3, 4])
      (.computed .noResize fun _ => [0, 0, 0, 0])).map (fun counts => counts 0) =
        some [1, 2, 1, 2] := by
  refine ⟨by decide, ?_, ?_, by decide⟩
  · rw [Parameter.omitted, receiveCountsArrive_iff (fun _ => by decide) fun _ => by decide,
      evenCountsMatch_iff (fun _ => by decide) fun _ => by decide]
    intro hlength
    exact absurd (hlength 0) (by decide)
  · rw [scatteredCountsArrive_iff (by decide)]
    decide

/-- Two ranks with one count for every rank. -/
theorem computedCounts_arrive_twoRanks :
    ReceiveCountsArrive (fun _ : Fin 2 => [1, 2]) .omitted ∧
      ScatteredCountsArrive (0 : Fin 2) fun _ => [1, 2] := by
  obtain ⟨hreceive, hscatter⟩ := computedCounts_arrive_iff fun _ : Fin 2 => [1, 2]
  constructor
  · apply ((hreceive .resizeToFit (fun _ => []) (fun _ => by decide)
      fun _ => by decide).2 fun _ => by decide).mpr
    exact fun _ => rfl
  · exact (hscatter 0 (by decide)).mpr rfl

end MpiBindings.Collectives
