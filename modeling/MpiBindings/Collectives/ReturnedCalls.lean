import MpiBindings.Collectives.Contents

/-!
# Calls that return

Displacements and sizes that the library computes may wrap around.  A call in which
this happens writes some block outside of its buffer, so a call that returns had room for
everything that it received.
-/

namespace MpiBindings.Collectives

open CountingSort

/-! ## Blocks inside of a buffer -/

section Blocks

variable {T : Type}

/-- Blocks at the wrapped sums of their lengths fit if they were all written. -/
theorem sum_lt_of_writeBlocks {blocks : List (List T)} {lengths : List ℕ} {displs : List ℤ}
    {buffer buffer' : List T}
    (hwrite : writeBlocks blocks (lengths.map Nat.cast) displs buffer = some buffer')
    (hblocks : ∀ index < lengths.length, ∃ block, blocks[index]? = some block)
    (hdispls : ∀ index < lengths.length,
      displs[index]? = some (((lengths.take index).sum : ℤ).bmod (2 ^ 32)))
    (hbuffer : buffer.length < 2 ^ 31) : lengths.sum < 2 ^ 31 := by
  apply sum_lt_of_blocks_lt (by decide)
  intro index count hcount hpos hbefore
  have hindex := (List.getElem?_eq_some_iff.mp hcount).1
  obtain ⟨block, hblock⟩ := hblocks index hindex
  have hlength : block.length = count := by
    have hget := count_of_writeBlocks hwrite hblock
    rw [List.getElem?_map, hcount] at hget
    exact (Nat.cast_injective (Option.some.inj hget)).symm
  have hinside := inside_of_writeBlocks hwrite hblock (hdispls index hindex)
    (List.length_pos_iff.mp (by omega))
  rw [bmod_natCast hbefore] at hinside
  omega

/-- A computed size can be measured by a machine integer. -/
theorem requiredRecvBufSize_lt {counts displs : List ℤ} {size required : ℕ}
    (hrequired : requiredRecvBufSize size true counts displs = some required) :
    required < 2 ^ 31 := by
  rw [requiredRecvBufSize, if_pos rfl] at hrequired
  cases hend : lastEnd size counts displs with
  | none =>
      rw [hend] at hrequired
      cases hrequired
  | some blockEnd =>
      have hlt := lastEnd_lt hend
      rw [hend] at hrequired
      dsimp only at hrequired
      rw [Option.ite_none_right_eq_some] at hrequired
      have hsize := Option.some.inj hrequired.2
      omega

/-- A buffer that is resized to fit has the required size. -/
theorem length_of_preparedRecvBuf [Inhabited T] {required : Option ℕ} {buffer prepared : List T}
    (hprepared : preparedRecvBuf .resizeToFit required buffer = some prepared) :
    required = some prepared.length := by
  cases required with
  | none => cases hprepared
  | some size =>
      rw [preparedRecvBuf, Option.ite_none_right_eq_some] at hprepared
      rw [← Option.some.inj hprepared.2, BufferResizePolicy.resizeIfRequested,
        length_resizeVector]

/-- Blocks that are written at an accepted layout into a buffer of its size fit. -/
theorem AcceptedLayout.sum_lt {lengths : List ℕ} {layout : RecvLayout}
    (haccepted : AcceptedLayout lengths layout) {blocks : List (List T)}
    {buffer buffer' : List T}
    (hwrite : writeBlocks blocks (lengths.map Nat.cast) layout.displs buffer = some buffer')
    (hblocks : ∀ index < lengths.length, ∃ block, blocks[index]? = some block)
    (hbuffer : buffer.length = layout.size) : lengths.sum < 2 ^ 31 := by
  obtain ⟨resized, hdispls, hsize⟩ := haccepted
  refine sum_lt_of_writeBlocks hwrite hblocks (fun index hindex => ?_) ?_
  · rw [hdispls]
    exact getElem?_computed resized hindex
  · rw [hbuffer]
    exact requiredRecvBufSize_lt hsize

end Blocks

/-! ## Calls -/

section Calls

variable {p : ℕ} {comms : Communicators p} {T : Type} [Inhabited T]

/-- An `alltoallv` that computes its receive counts and returns had room for the blocks. -/
theorem received_lt_of_alltoallv {block : Fin p → Fin p → List T} {sendBuf : Fin p → List T}
    {sendDispls : Fin p → List ℤ} {result : AlltoallvResult p T}
    (hresult : alltoallv comms (consecutiveArguments sendBuf
      (fun rank => (sentLengths comms block rank).map Nat.cast) sendDispls) = some result)
    (rank : Fin p) : (received comms block rank).length < 2 ^ 31 := by
  obtain ⟨recvBuf, hreturned⟩ := alltoallv_cases hresult
  obtain ⟨blocks, hblocks, hwrite⟩ :=
    Option.bind_eq_some_iff.mp (allRanks_eq_some.mp hreturned.delivered rank)
  have hcounts : result.recvCounts =
      fun rank => (receivedLengths comms block rank).map Nat.cast := by
    rw [← Option.some.injEq, ← hreturned.recvCounts]
    exact receiveCounts_computed (Parameter.computedInto_omitted _)
  have hdispls := hreturned.recvDispls
  have hrequired := length_of_preparedRecvBuf (hreturned.prepared rank)
  simp only [hcounts] at hdispls hrequired hwrite
  have hlayout : recvLayout comms
      (fun rank => (receivedLengths comms block rank).map Nat.cast) .omitted rank =
        some ⟨result.recvDispls rank, (recvBuf rank).length⟩ :=
    Option.bind_eq_some_iff.mpr
      ⟨_, hdispls, Option.bind_eq_some_iff.mpr ⟨_, hrequired, rfl⟩⟩
  rw [length_received]
  refine (acceptedLayout_of_recvLayout (length_receivedLengths rank) hlayout).sum_lt hwrite
    (fun index hindex => ?_) rfl
  obtain ⟨found, -, hfound⟩ := exists_of_mapM hblocks
    (List.getElem?_eq_getElem (by simpa [Communicators.size] using hindex))
  exact ⟨found, hfound⟩

/-- So had an `allgatherv` for the messages, which it returns. -/
theorem allgatherv_cases {message : Fin p → List T} {result : GathervResult p T}
    (hresult : allgatherv comms (sendBufOnly message) = some result) :
    (∀ rank, (received comms (toAll message) rank).length < 2 ^ 31) ∧
      result.recvBuf = received comms (toAll message) := by
  suffices hlt : ∀ rank, (received comms (toAll message) rank).length < 2 ^ 31 by
    rw [allgatherv_message hlt] at hresult
    exact ⟨hlt, (congrArg GathervResult.recvBuf (Option.some.inj hresult)).symm⟩
  obtain ⟨sendCount, hsendCount, hresult⟩ := Option.bind_eq_some_iff.mp hresult
  obtain ⟨recvCounts, hrecvCounts, hresult⟩ := Option.bind_eq_some_iff.mp hresult
  obtain ⟨layouts, hlayouts, hresult⟩ := Option.bind_eq_some_iff.mp hresult
  obtain ⟨recvBuf, hprepared, hresult⟩ := Option.bind_eq_some_iff.mp hresult
  obtain ⟨gathered, hgathered, -⟩ := Option.bind_eq_some_iff.mp hresult
  have hsizes : sendCount = fun rank => ((message rank).length : ℤ) := funext fun rank => by
    have hrank := allRanks_eq_some.mp hsendCount rank
    rw [sendBufOnly, sendCountOf, Option.ite_none_right_eq_some] at hrank
    exact (Option.some.inj hrank.2).symm
  have hcounts : recvCounts = memberCounts comms message := by
    rw [hsizes] at hrecvCounts
    exact Option.some.inj (hrecvCounts.symm.trans allgathervCounts_omitted)
  subst hcounts
  intro rank
  obtain ⟨blocks, hblocks, hwrite⟩ :=
    Option.bind_eq_some_iff.mp (allRanks_eq_some.mp hgathered rank)
  have hlength := length_of_preparedRecvBuf (allRanks_eq_some.mp hprepared rank)
  rw [length_received]
  refine (acceptedLayout_of_recvLayout (length_receivedLengths rank)
    (allRanks_eq_some.mp hlayouts rank)).sum_lt hwrite (fun index hindex => ?_)
    (Option.some.inj hlength).symm
  obtain ⟨found, -, hfound⟩ := exists_of_mapM hblocks
    (List.getElem?_eq_getElem (by simpa [Communicators.size] using hindex))
  exact ⟨found, hfound⟩

end Calls

end MpiBindings.Collectives
