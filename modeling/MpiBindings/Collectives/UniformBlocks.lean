import MpiBindings.Collectives.RoundTrips

/-!
# Blocks of one size

The collectives for blocks of one size and their in-place versions deliver what the vectorized
collectives deliver, without exchanging counts.
-/

namespace MpiBindings.Collectives

open CountingSort

/-! ## In-place wrappers -/

/-- Arguments of `alltoall_inplace` and `allgather_inplace` on all ranks. -/
structure InplaceArguments (p : ℕ) (T : Type) where
  sendRecvBuf : Fin p → List T
  sendRecvCount : Option (Fin p → ℤ)
  policy : BufferResizePolicy

section Wrappers

variable {p : ℕ} (comms : Communicators p) {T : Type}

/-- The counts of the caller, or the sizes of the buffers divided by the number of ranks. -/
def inplaceCount (args : InplaceArguments p T) : Option (Fin p → ℤ) :=
  match args.sendRecvCount with
  | some counts => some counts
  | none => allRanks fun rank =>
      let count := (args.sendRecvBuf rank).length / comms.size rank
      if (args.sendRecvBuf rank).length % comms.size rank = 0 ∧ count < 2 ^ 31 then
        some (count : ℤ)
      else none

variable [Inhabited T]

/-- The buffers, resized if requested and checked. -/
def inplaceBuffers (args : InplaceArguments p T) (counts : Fin p → ℤ) :
    Option (Fin p → List T) :=
  allRanks fun rank => preparedRecvBuf args.policy
    ((sizeOfCount (counts rank)).map (· * comms.size rank)) (args.sendRecvBuf rank)

/-- `alltoall_inplace`: MPI sends the blocks of the buffers that it overwrites. -/
def alltoallInplace (args : InplaceArguments p T) : Option (Fin p → List T) := do
  let counts ← inplaceCount comms args
  let buffers ← inplaceBuffers comms args counts
  mpiAlltoall comms buffers buffers (fun rank => (counts rank).toNat)
    fun rank => (counts rank).toNat

/-- `allgather_inplace`: every rank has its own block at its position in the buffer. -/
def allgatherInplace (args : InplaceArguments p T) : Option (Fin p → List T) :=
  if ∀ rank, (comms.members rank).all fun other =>
      (args.sendRecvBuf other).length == (args.sendRecvBuf rank).length then do
    let counts ← inplaceCount comms args
    let buffers ← inplaceBuffers comms args counts
    mpiAllgather comms
      (fun rank => evenBlock (counts rank).toNat (buffers rank) (comms.rankOf rank)) buffers
      (fun rank => (counts rank).toNat) fun rank => (counts rank).toNat
  else none

end Wrappers

/-! ## Even blocks -/

section Even

variable {p : ℕ} {comms : Communicators p} {T : Type} {n : ℕ} {block : Fin p → Fin p → List T}
  (hblock : ∀ sender receiver, (block sender receiver).length = n)

include hblock

theorem length_flatMap_even (rank : Fin p) :
    ((comms.members rank).flatMap (block rank)).length = n * comms.size rank := by
  rw [List.length_flatMap, List.map_congr_left fun receiver _ => hblock rank receiver,
    List.map_const', List.sum_replicate_nat, Nat.mul_comm]
  rfl

theorem length_received_even (rank : Fin p) :
    (received comms block rank).length = n * comms.size rank :=
  @length_flatMap_even p comms T n (fun rank sender => block sender rank)
    (fun rank sender => hblock sender rank) rank

/-- The block of a member stands at a multiple of the size. -/
theorem readBlock_even {sender receiver : Fin p} (hmem : receiver ∈ comms.members sender) :
    readBlock ((comms.members sender).flatMap (block sender))
        ((comms.rankOf receiver * n : ℕ) : ℤ) (n : ℤ) = some (block sender receiver) := by
  have hget : ((comms.members sender).map (block sender))[comms.rankOf receiver]? =
      some (block sender receiver) := by
    rw [List.getElem?_map, comms.getElem?_rankOf hmem]
    rfl
  have hlt : comms.rankOf receiver < comms.size sender :=
    (comms.rankOf_lt receiver).trans_eq (comms.size_eq hmem)
  have htake := getElem?_flatten_drop hget
  have hlengths : ((comms.members sender).map (block sender)).map List.length =
      List.replicate (comms.size sender) n := by
    rw [List.map_map]
    exact (List.map_congr_left fun member _ => hblock sender member).trans List.map_const'
  rw [hlengths, List.take_replicate, List.sum_replicate_nat, min_eq_left hlt.le,
    ← List.flatMap_def, hblock] at htake
  refine (readBlock_natCast fun _ => ?_).trans (congrArg some htake)
  rw [length_flatMap_even hblock, ← Nat.succ_mul, Nat.mul_comm n]
  exact Nat.mul_le_mul_right n hlt

theorem mpiAlltoall_even {recvBuf : Fin p → List T}
    (hrecv : ∀ rank, (recvBuf rank).length = n * comms.size rank) :
    mpiAlltoall comms (fun rank => (comms.members rank).flatMap (block rank)) recvBuf (fun _ => n)
      (fun _ => n) = some (received comms block) := by
  have hlengths : ∀ rank, receivedLengths comms block rank = List.replicate (comms.size rank) n :=
    fun rank => receivedLengths_const fun sender _ => hblock sender rank
  rw [mpiAlltoall, mpiAlltoallv_eq_some block]
  · refine congrArg some (funext fun rank => ?_)
    exact overwrite_eq ((hrecv rank).trans (length_received_even hblock rank).symm)
  · intro sender receiver hmem
    have hlt : comms.rankOf receiver < comms.size sender :=
      (comms.rankOf_lt receiver).trans_eq (comms.size_eq hmem)
    simp only [MpiAlltoallvArguments.block, List.getElem?_replicate, if_pos hlt,
      List.getElem?_map, List.getElem?_range hlt, Option.map_some, Option.bind_eq_bind,
      Option.bind_some]
    exact readBlock_even hblock hmem
  · intro rank
    have hcast := congrArg (List.map (Nat.cast : ℕ → ℤ)) (hlengths rank)
    rw [receivedLengths, List.map_map, List.map_replicate] at hcast
    exact hcast ▸ List.prefix_rfl
  · intro rank
    have hlength := hlengths rank
    rw [receivedLengths] at hlength
    rw [hlength, prefixSums_replicate, List.map_map]
    exact List.prefix_rfl
  · intro rank
    exact ((length_received_even hblock rank).trans (hrecv rank).symm).le

end Even

/-! ## Calls without counts -/

section Calls

variable {p : ℕ} {comms : Communicators p} {T : Type} {n : ℕ} {root : ℕ}
  (hsize : ∀ rank, n * comms.size rank < 2 ^ 31)

include hsize

theorem size_lt (rank : Fin p) : n < 2 ^ 31 :=
  (Nat.le_mul_of_pos_right n (comms.size_pos rank)).trans_lt (hsize rank)

variable {buffer : Fin p → List T} (hbuffer : ∀ rank, (buffer rank).length = n * comms.size rank)

include hbuffer

omit hsize in
theorem count_even (rank : Fin p) :
    (buffer rank).length % comms.size rank = 0 ∧
      (buffer rank).length / comms.size rank = n := by
  rw [hbuffer]
  exact ⟨Nat.mul_mod_left _ _, Nat.mul_div_cancel _ (comms.size_pos rank)⟩

theorem inplaceCount_even {policy : BufferResizePolicy} :
    inplaceCount comms ⟨buffer, none, policy⟩ = some fun _ => (n : ℤ) := by
  refine allRanks_eq_some.mpr fun rank => ?_
  obtain ⟨hmod, hdiv⟩ := count_even hbuffer rank
  dsimp only
  rw [hmod, hdiv, if_pos ⟨rfl, size_lt hsize rank⟩]

theorem alltoall_even (hn : 0 < n) {block : Fin p → Fin p → List T}
    (hblock : ∀ sender receiver, (block sender receiver).length = n) :
    alltoall comms (fun rank => (comms.members rank).flatMap (block rank)) buffer =
      some (received comms block) := by
  have hcount : ∀ rank, ((comms.members rank).flatMap (block rank)).length / comms.size rank = n :=
    fun rank => (count_even (length_flatMap_even hblock) rank).2
  rw [alltoall]
  simp only [hcount]
  have hpos : ∀ rank, 0 < n * comms.size rank := fun rank => Nat.mul_pos hn (comms.size_pos rank)
  rw [if_pos fun rank => ⟨size_lt hsize rank,
    (count_even (length_flatMap_even hblock) rank).1, (hbuffer rank).ge,
    (length_flatMap_even hblock rank).symm ▸ hpos rank, (hbuffer rank).symm ▸ hpos rank⟩]
  exact mpiAlltoall_even hblock hbuffer

omit hsize in
theorem mpiAllgather_even {message : Fin p → List T}
    (hmessage : ∀ rank, (message rank).length = n) :
    mpiAllgather comms message buffer (fun _ => n) (fun _ => n) =
      some (received comms (toAll message)) := by
  have hgather := @mpiAllgather_eq_some p comms T message buffer n hmessage
    fun rank => (hbuffer rank).ge
  simp only [hmessage] at hgather
  refine hgather.trans (congrArg some (funext fun rank => overwrite_eq ?_))
  rw [hbuffer]
  exact (@length_received_even p comms T n (toAll message) (fun sender _ => hmessage sender)
    rank).symm

theorem allgather_even {message : Fin p → List T} (hmessage : ∀ rank, (message rank).length = n) :
    allgather comms message buffer = some (received comms (toAll message)) := by
  rw [allgather, if_pos fun rank => ⟨fun other _ => (hmessage other).trans (hmessage rank).symm,
    (hmessage rank).trans_lt (size_lt hsize rank), by rw [hmessage, hbuffer]⟩]
  simp only [hmessage]
  exact mpiAllgather_even hbuffer hmessage

variable [Inhabited T]

omit hsize in
theorem inplaceBuffers_even :
    inplaceBuffers comms ⟨buffer, none, .noResize⟩ (fun _ => (n : ℤ)) = some buffer := by
  refine allRanks_eq_some.mpr fun rank => ?_
  rw [sizeOfCount, if_pos (Int.natCast_nonneg n), Int.toNat_natCast]
  exact if_pos (hbuffer rank).ge

theorem allgatherInplace_even {message : Fin p → List T}
    (hmessage : ∀ rank, (message rank).length = n)
    (hown : ∀ rank, evenBlock n (buffer rank) (comms.rankOf rank) = message rank) :
    allgatherInplace comms ⟨buffer, none, .noResize⟩ =
      some (received comms (toAll message)) := by
  rw [allgatherInplace, if_pos fun rank => List.all_eq_true.mpr fun other hother => by
    rw [hbuffer, hbuffer, comms.size_eq hother, beq_self_eq_true]]
  simp only [inplaceCount_even hsize hbuffer, inplaceBuffers_even hbuffer, Option.bind_eq_bind,
    Option.bind_some, Int.toNat_natCast, hown]
  exact mpiAllgather_even hbuffer hmessage

omit hbuffer in
theorem alltoallInplace_even {block : Fin p → Fin p → List T}
    (hblock : ∀ sender receiver, (block sender receiver).length = n) :
    alltoallInplace comms ⟨fun rank => (comms.members rank).flatMap (block rank), none, .noResize⟩ =
      some (received comms block) := by
  have hlength : ∀ rank, ((comms.members rank).flatMap (block rank)).length = n * comms.size rank :=
    length_flatMap_even hblock
  simp only [alltoallInplace, inplaceCount_even hsize hlength, inplaceBuffers_even hlength,
    Option.bind_eq_bind, Option.bind_some, Int.toNat_natCast]
  exact mpiAlltoall_even hblock hlength

omit hbuffer in
theorem scatter_even (hn : 0 < n) {message sendBuf : Fin p → List T}
    (hroot : ∀ rank, root < comms.size rank)
    (hmessage : ∀ rank, (message rank).length = n)
    (hsendBuf : ∀ rank, comms.rankOf rank = root →
      sendBuf rank = received comms (toAll message) rank) :
    scatter comms root ⟨sendBuf, none, .resizeToFit, fun _ => []⟩ = some message := by
  have hlengths : ∀ rank, (received comms (toAll message) rank).length = n * comms.size rank :=
    @length_received_even p comms T n (toAll message) fun sender _ => hmessage sender
  have hcount : ∀ rank, comms.rankOf rank = root →
      (sendBuf rank).length % comms.size rank = 0 ∧
        (sendBuf rank).length / comms.size rank = n := fun rank hrank => by
    rw [hsendBuf rank hrank]
    exact count_even hlengths rank
  have hstorage : ∀ rank, comms.rankOf rank = root → 0 < (sendBuf rank).length :=
    fun rank hrank => by
      rw [hsendBuf rank hrank, hlengths]
      exact Nat.mul_pos hn (comms.size_pos rank)
  have hrecvCount : scatterRecvCount comms root
      (fun rank => (sendBuf rank).length / comms.size rank) none = some fun _ => (n : ℤ) := by
    refine allRanks_eq_some.mpr fun rank => ?_
    obtain ⟨sender, hsender, hrank, -⟩ := exists_root (hroot rank)
    rw [hsender, Option.map_some]
    exact congrArg (fun count : ℕ => some (count : ℤ)) (hcount sender hrank).2
  let resized (_ : Fin p) : List T := resizeVector n default []
  have hlength : ∀ rank, (resized rank).length = n := fun _ => length_resizeVector _ _ _
  have hprepared : (allRanks fun _ : Fin p =>
      preparedRecvBuf .resizeToFit (sizeOfCount (n : ℤ)) ([] : List T)) = some resized := by
    refine allRanks_eq_some.mpr fun rank => ?_
    rw [sizeOfCount, if_pos (Int.natCast_nonneg n), Int.toNat_natCast]
    exact if_pos (hlength rank).ge
  rw [scatter, if_pos fun rank => ⟨hroot rank, fun hrank => ⟨hstorage rank hrank,
    (hcount rank hrank).1, (hcount rank hrank).2.trans_lt (size_lt hsize rank)⟩⟩]
  simp only [hrecvCount, hprepared, Option.bind_eq_bind, Option.bind_some]
  refine (@mpiScatter_even p comms T message root sendBuf resized _ n hroot hmessage hsendBuf
    (fun rank hrank => (hcount rank hrank).2) fun rank => (hlength rank).ge).trans ?_
  exact congrArg some (funext fun rank =>
    overwrite_eq ((hlength rank).trans (hmessage rank).symm))

omit hbuffer in
/-- For blocks of one size, `allgather`, `scatter`, `alltoall` and the in-place versions return
what `allgatherv`, `scatterv` and `alltoallv` return.  `scatter`, `scatterv` and `alltoall` need
blocks with elements. -/
theorem uniform_agrees (hroot : ∀ rank, root < comms.size rank) :
    (∀ message : Fin p → List T, (∀ rank, (message rank).length = n) →
      (∀ buffer, (∀ rank, (buffer rank).length = n * comms.size rank) →
        ∃ all, (allgatherv comms (sendBufOnly message)).map (·.recvBuf) = some all ∧
          allgather comms message buffer = some all ∧
          ((∀ rank, evenBlock n (buffer rank) (comms.rankOf rank) = message rank) →
            allgatherInplace comms ⟨buffer, none, .noResize⟩ = some all)) ∧
      ∃ gathered, (gatherv comms root (sendBufOnly message)).map (·.recvBuf) = some gathered ∧
        (0 < n →
          (scatterv comms root (rootCountsOnly gathered fun rank =>
            List.replicate (comms.size rank) n)).map (·.recvBuf) = some message ∧
          scatter comms root ⟨gathered, none, .resizeToFit, fun _ => []⟩ = some message)) ∧
    ∀ block : Fin p → Fin p → List T, (∀ sender receiver, (block sender receiver).length = n) →
      ∀ buffer, (∀ rank, (buffer rank).length = n * comms.size rank) →
        ∃ delivered, (alltoallv comms (exchangeOf comms block)).map (·.recvBuf) = some delivered ∧
          (0 < n →
            alltoall comms (fun rank => (comms.members rank).flatMap (block rank)) buffer =
              some delivered) ∧
          alltoallInplace comms
            ⟨fun rank => (comms.members rank).flatMap (block rank), none, .noResize⟩ =
              some delivered := by
  constructor
  · intro message hmessage
    have hreceived : ∀ rank, (received comms (toAll message) rank).length < 2 ^ 31 := fun rank =>
      (@length_received_even p comms T n (toAll message) (fun sender _ => hmessage sender)
        rank).trans_lt (hsize rank)
    constructor
    · intro buffer hbuffer
      refine ⟨received comms (toAll message), ?_, allgather_even hsize hbuffer hmessage,
        allgatherInplace_even hsize hbuffer hmessage⟩
      rw [allgatherv_message hreceived]
      rfl
    · have hcounts : (fun rank => List.replicate (comms.size rank) n) =
          receivedLengths comms (toAll message) :=
        funext fun rank => (receivedLengths_const fun sender _ => hmessage sender).symm
      refine ⟨atRoot comms root (received comms (toAll message)), ?_, fun hn => ⟨?_,
        scatter_even hsize hn hroot hmessage fun rank hrank => if_pos hrank⟩⟩
      · rw [gatherv_message hroot hreceived]
        rfl
      · have hstorage : ∀ rank, 0 < (received comms (toAll message) rank).length := fun rank => by
          rw [@length_received_even p comms T n (toAll message) fun sender _ => hmessage sender]
          exact Nat.mul_pos hn (comms.size_pos rank)
        rw [hcounts, scatterv_message hroot (fun rank _ => hstorage rank)
          (fun rank hrank => if_pos hrank)
          (fun rank _ => rfl) (scattervSendDispls_omitted hreceived fun rank _ => rfl)
          (fun rank hrank => if_pos hrank) rfl rfl]
        rfl
  · intro block hblock buffer hbuffer
    refine ⟨received comms block, recvBuf_exchangeOf ?_ ?_,
      fun hn => alltoall_even hsize hbuffer hn hblock, alltoallInplace_even hsize hblock⟩
    · exact fun rank => (length_flatMap_even hblock rank).trans_lt (hsize rank)
    · exact fun rank => (length_received_even hblock rank).trans_lt (hsize rank)

omit hsize hbuffer in
/-- Two elements on each of three ranks; in place, every rank has only its own elements. -/
theorem uniform_agrees_three :
    let message : Fin 3 → List ℕ := fun rank => [rank, rank + 10]
    let buffer : Fin 3 → List ℕ := fun rank =>
      List.replicate (2 * rank) 0 ++ message rank ++ List.replicate (2 * (2 - rank)) 0
    ∃ all, (allgatherv (.world 3) (sendBufOnly message)).map (·.recvBuf) = some all ∧
      allgather (.world 3) message buffer = some all ∧
      allgatherInplace (.world 3) ⟨buffer, none, .noResize⟩ = some all := by
  intro message buffer
  have hagrees := (@uniform_agrees 3 (.world 3) ℕ 2 0 (by decide) _ (by decide)).1
  obtain ⟨all, hgatherv, hgather, hinplace⟩ :=
    (hagrees message (by decide)).1 buffer (by decide)
  exact ⟨all, hgatherv, hgather, hinplace (by decide)⟩

end Calls

end MpiBindings.Collectives
