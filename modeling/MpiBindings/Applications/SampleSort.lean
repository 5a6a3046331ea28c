import MpiBindings.SampleSort.Splitters

/-!
# Sample sort as an application

The application takes the same number of samples on all ranks, also on those without data, so
the splitters can always be picked.  One version flattens the buckets and leaves counts and
displacements to the wrappers, the other one fills all buffers for MPI.
-/

namespace MpiBindings.Applications.SampleSort

open Collectives CountingSort WeakOrder
open MpiBindings.SampleSort (Outcomes localSamples pickSplitters buildBuckets SplitData
  sortedBlocks tensLess twoRanksOutcomes)

/-! ## Both versions -/

section Versions

variable {p : ℕ} {T : Type} (comp : T → T → Prop) [DecidableRel comp] [Inhabited T]

def oversamplingRatio (commSize : ℕ) : ℕ := 16 * Nat.log 2 commSize + 1

/-- The samples of a rank. -/
def samples (outcomes : Fin p → Outcomes comp) (data : Fin p → List T) (rank : Fin p) : List T :=
  localSamples (outcomes rank).sampling (oversamplingRatio p) (data rank)

/-- The buckets of all ranks, from the gathered samples. -/
def buckets (outcomes : Fin p → Outcomes comp) (data globalSamples : Fin p → List T) :
    Option (Fin p → List (List T)) := do
  let splitters ← allRanks fun rank => pickSplitters (outcomes rank).sortSamples (p - 1)
    (oversamplingRatio p) (globalSamples rank)
  allRanks fun rank => buildBuckets comp (data rank) (splitters rank)

/-- The version with the library. -/
def sort (outcomes : Fin p → Outcomes comp) (data : Fin p → List T) :
    Option (Fin p → List T) := do
  let globalSamples ← allgather (.world p) (samples comp outcomes data)
    fun _ => List.replicate (oversamplingRatio p * p) default
  let buckets ← buckets comp outcomes data globalSamples
  let received ← alltoallvNested buckets
  some fun rank => (outcomes rank).sortData.sort (received rank)

/-- `static_cast<int>`. -/
def toInt (n : ℕ) : ℤ := (n : ℤ).bmod (2 ^ 32)

/-- The version with plain MPI. -/
def mpiSort (outcomes : Fin p → Outcomes comp) (data : Fin p → List T) :
    Option (Fin p → List T) := do
  let globalSamples ← mpiAllgather (.world p) (samples comp outcomes data)
    (fun rank => List.replicate ((samples comp outcomes data rank).length * p) default)
    (fun rank => (samples comp outcomes data rank).length)
    fun rank => (samples comp outcomes data rank).length
  let buckets ← buckets comp outcomes data globalSamples
  let sCounts := fun rank => (buckets rank).map fun bucket => toInt bucket.length
  let sDispls := fun rank => (prefixSums 0 ((buckets rank).map List.length)).map toInt
  let rCounts ← mpiAlltoall (.world p) sCounts (fun _ => List.replicate p 0) (fun _ => 1) fun _ => 1
  let rDispls := fun rank => exclusiveScan 0 (rCounts rank)
  let rData ← allRanks fun rank => do
    let size ← lastEnd p (rCounts rank) (rDispls rank)
    if 0 ≤ size then some (List.replicate size.toNat default) else none
  let received ← mpiAlltoallv (.world p)
    { sendBuf := fun rank => (buckets rank).flatten
      sendCounts := sCounts
      sendDispls := sDispls
      recvBuf := rData
      recvCounts := rCounts
      recvDispls := rDispls }
  some fun rank => (outcomes rank).sortData.sort (received rank)

end Versions

/-! ## Exchanges with all ranks -/

section Exchanges

variable {p : ℕ} {T : Type}

/-- Blocks of one size are gathered in the order of the ranks. -/
theorem mpiAllgather_world {sendBuf recvBuf : Fin p → List T} {n : ℕ}
    (hsend : ∀ rank, (sendBuf rank).length = n) (hrecv : ∀ rank, (recvBuf rank).length = n * p) :
    mpiAllgather (.world p) sendBuf recvBuf (fun rank => (sendBuf rank).length)
        (fun rank => (sendBuf rank).length) =
      some fun _ => (List.finRange p).flatMap sendBuf := by
  rw [mpiAllgather_eq_some hsend fun rank => by rw [hrecv, Communicators.size_world]]
  refine congrArg some (funext fun rank => overwrite_eq ?_)
  simp only [hrecv, List.length_flatMap, hsend, List.map_const', Communicators.world,
    List.sum_replicate_nat, List.length_finRange, Nat.mul_comm]

/-- An exchange of one count for each rank transposes the counts. -/
theorem mpiAlltoall_counts (count : Fin p → Fin p → ℤ) :
    mpiAlltoall (.world p) (fun rank => (List.finRange p).map (count rank))
        (fun _ => List.replicate p 0) (fun _ => 1) (fun _ => 1) =
      some fun rank => (List.finRange p).map fun sender => count sender rank := by
  have hbuf : ∀ rank : Fin p, (List.replicate p (0 : ℤ)).length =
      (Communicators.world p).size rank := fun rank => by
    rw [List.length_replicate, Communicators.size_world]
  have htranspose := alltoall_transpose (.world p) count hbuf
  let counts (rank : Fin p) : List ℤ := ((Communicators.world p).members rank).map (count rank)
  have hone : (fun rank => (counts rank).length / (Communicators.world p).size rank) =
      fun _ => 1 := by
    funext rank
    rw [List.length_map]
    exact Nat.div_self ((Communicators.world p).size_pos rank)
  rw [alltoall, Option.ite_none_right_eq_some] at htranspose
  have hexchange : mpiAlltoall (.world p) counts (fun _ => List.replicate p 0)
      (fun rank => (counts rank).length / (Communicators.world p).size rank)
      (fun rank => (counts rank).length / (Communicators.world p).size rank) = _ := htranspose.2
  rwa [hone] at hexchange

variable {block : Fin p → Fin p → List T}

/-- Counts and displacements that MPI gets for consecutive blocks. -/
theorem mpiAlltoallv_consecutive {recvBuf : Fin p → List T}
    (hrecv : ∀ rank, (recvBuf rank).length = (received (.world p) block rank).length) :
    mpiAlltoallv (.world p)
        { sendBuf := fun rank => (consecutive block rank).flatten
          sendCounts := fun rank => (sentLengths (.world p) block rank).map Nat.cast
          sendDispls := fun rank => (prefixSums 0 (sentLengths (.world p) block rank)).map Nat.cast
          recvBuf := recvBuf
          recvCounts := fun rank => (receivedLengths (.world p) block rank).map Nat.cast
          recvDispls := fun rank =>
            (prefixSums 0 (receivedLengths (.world p) block rank)).map Nat.cast } =
      some (received (.world p) block) := by
  have hsent : ∀ sender, (consecutive block sender).map List.length =
      sentLengths (.world p) block sender := fun sender => by
    rw [consecutive, List.map_map]
    rfl
  rw [mpiAlltoallv_eq_some block]
  · refine congrArg some (funext fun rank => ?_)
    change received (.world p) block rank ++
      (recvBuf rank).drop (received (.world p) block rank).length = _
    rw [List.drop_of_length_le (hrecv rank).le, List.append_nil]
  · intro sender receiver _
    have hblock : (consecutive block sender)[(receiver : ℕ)]? = some (block sender receiver) := by
      rw [consecutive, List.getElem?_map]
      simp
    have hread := getElem?_flatten_drop hblock
    have hlt : (receiver : ℕ) < (sentLengths (.world p) block sender).length := by
      rw [length_sentLengths, Communicators.size_world]
      exact receiver.isLt
    have hcount : ((sentLengths (.world p) block sender).map (Nat.cast : ℕ → ℤ))[(receiver : ℕ)]? =
        some ((block sender receiver).length : ℤ) := by
      rw [← hsent, List.getElem?_map, List.getElem?_map, hblock]
      rfl
    have hdispl : ((prefixSums 0 (sentLengths (.world p) block sender)).map
        (Nat.cast : ℕ → ℤ))[(receiver : ℕ)]? =
          some ((((sentLengths (.world p) block sender).take receiver).sum : ℕ) : ℤ) := by
      rw [List.getElem?_map, getElem?_prefixSums _ _ hlt, Nat.zero_add]
      rfl
    rw [hsent] at hread
    have hlength := congrArg List.length hread
    rw [List.length_take, List.length_drop] at hlength
    simp only [MpiAlltoallvArguments.block, Communicators.rankOf_world, hcount, hdispl,
      Option.bind_eq_bind, Option.bind_some]
    exact (readBlock_natCast fun hne => by omega).trans (congrArg some hread)
  · intro rank
    simp only [receivedLengths, List.map_map]
    exact List.prefix_rfl
  · exact fun rank => List.prefix_rfl
  · exact fun rank => (hrecv rank).ge

end Exchanges

/-! ## Buckets of all ranks -/

section Buckets

variable {p : ℕ} {T : Type} {comp : T → T → Prop} [DecidableRel comp] [Inhabited T]

/-- The samples of all ranks. -/
def globalSamples (outcomes : Fin p → Outcomes comp) (data : Fin p → List T) : List T :=
  (List.finRange p).flatMap (samples comp outcomes data)

variable (outcomes : Fin p → Outcomes comp) (data : Fin p → List T)

omit [DecidableRel comp] in
theorem length_samples (rank : Fin p) :
    (samples comp outcomes data rank).length = oversamplingRatio p :=
  MpiBindings.SampleSort.length_localSamples _ _ _

omit [DecidableRel comp] in
theorem length_globalSamples :
    (globalSamples outcomes data).length = oversamplingRatio p * p := by
  rw [globalSamples, List.length_flatMap, List.map_congr_left fun rank _ =>
    length_samples outcomes data rank]
  simp [Nat.mul_comm]

variable [IsStrictWeakOrder T comp]

omit [DecidableRel comp] in
/-- Every rank can pick its splitters, at the same positions of the sorted samples. -/
theorem exists_splitters (rank : Fin p) :
    ∃ splitters, pickSplitters (outcomes rank).sortSamples (p - 1) (oversamplingRatio p)
        (globalSamples outcomes data) = some splitters ∧
      splitters.length = p - 1 ∧ SortedBy comp splitters ∧
      ∀ i < p - 1, splitters[i]? =
        ((outcomes rank).sortSamples.sort (globalSamples outcomes data))[
          oversamplingRatio p * (i + 1)]? := by
  have hpos : 0 < oversamplingRatio p := Nat.succ_pos _
  have hrange : ∀ i < p - 1, oversamplingRatio p * (i + 1) < (globalSamples outcomes data).length :=
    fun i hi => by
      rw [length_globalSamples]
      exact Nat.mul_lt_mul_of_pos_left (by omega) hpos
  obtain ⟨splitters, hpick, hlength, hread⟩ :=
    MpiBindings.SampleSort.pickSplitters_eq_some (outcomes rank).sortSamples (fun _ => hpos) hrange
  exact ⟨splitters, hpick, hlength, MpiBindings.SampleSort.splitters_sorted (by rwa [hlength]),
    hread⟩

/-- The ranks exchange blocks of their data. -/
theorem exists_blocks :
    ∃ block, buckets comp outcomes data (fun _ => globalSamples outcomes data) =
        some (consecutive block) ∧ SplitData comp data block := by
  choose splitters hpick hlength hsorted hread using exists_splitters outcomes data
  -- the splitters are read from sorted permutations of the same samples
  have hequivalent : ∀ left right, data left ≠ [] → data right ≠ [] → ∀ (i : ℕ) (a b : T),
      (splitters left)[i]? = some a → (splitters right)[i]? = some b → ¬ comp b a := by
    intro left right _ _ i a b ha hb
    have hi := (List.getElem?_eq_some_iff.mp ha).1
    rw [hlength left] at hi
    rw [hread left i hi] at ha
    rw [hread right i hi] at hb
    exact MpiBindings.SampleSort.not_lt_of_read ha hb
  obtain ⟨block, hbuild, hsplit⟩ :=
    MpiBindings.SampleSort.exists_splitData hlength hsorted hequivalent
  refine ⟨block, ?_, hsplit⟩
  rw [buckets, allRanks_eq_some.mpr hpick, Option.bind_eq_bind, Option.bind_some, hbuild]

end Buckets

/-! ## Main result -/

section Main

variable {p : ℕ} {T : Type} {comp : T → T → Prop} [DecidableRel comp] [Inhabited T]
  {outcomes : Fin p → Outcomes comp} {data : Fin p → List T} {block : Fin p → Fin p → List T}

section Exchanged

variable
  (hbuckets : buckets comp outcomes data (fun _ => globalSamples outcomes data) =
    some (consecutive block))
  (hsent : ∀ rank, (consecutive block rank).flatten.length < 2 ^ 31)
  (hreceived : ∀ rank, (received (.world p) block rank).length < 2 ^ 31)

include hbuckets hsent hreceived

theorem sort_eq_some (hratio : oversamplingRatio p < 2 ^ 31) :
    sort comp outcomes data = some (sortedBlocks outcomes block) := by
  have hgathered : allgather (.world p) (samples comp outcomes data)
      (fun _ => List.replicate (oversamplingRatio p * p) default) =
        some fun _ => globalSamples outcomes data := by
    rw [allgather, if_pos]
    · exact mpiAllgather_world (length_samples outcomes data) fun _ => List.length_replicate
    · intro rank
      refine ⟨fun other _ => ?_, ?_, ?_⟩
      · rw [length_samples, length_samples]
      · rwa [length_samples]
      · rw [length_samples, Communicators.size_world, List.length_replicate]
  have hexchanged := alltoallvNested_eq_some hsent hreceived
  simp only [sort, hgathered, hbuckets, hexchanged, Option.bind_eq_bind, Option.bind_some]
  rfl

theorem mpiSort_eq_some : mpiSort comp outcomes data = some (sortedBlocks outcomes block) := by
  have hgathered : mpiAllgather (.world p) (samples comp outcomes data)
      (fun rank => List.replicate ((samples comp outcomes data rank).length * p) default)
      (fun rank => (samples comp outcomes data rank).length)
      (fun rank => (samples comp outcomes data rank).length) =
        some fun _ => globalSamples outcomes data :=
    mpiAllgather_world (length_samples outcomes data) fun rank => by
      rw [List.length_replicate, length_samples]
  have htotal : ∀ rank, (sentLengths (.world p) block rank).sum < 2 ^ 31 := fun rank => by
    have hlt := hsent rank
    rwa [List.length_flatten, map_length_consecutive] at hlt
  have hsCounts : ∀ rank, (consecutive block rank).map (fun bucket => toInt bucket.length) =
      (sentLengths (.world p) block rank).map Nat.cast := fun rank => by
    rw [← map_length_consecutive, List.map_map]
    refine List.map_congr_left fun bucket hbucket => bmod_natCast (lt_of_le_of_lt ?_ (hsent rank))
    exact (List.sublist_flatten_of_mem hbucket).length_le
  have hsDispls : ∀ rank, (prefixSums 0 ((consecutive block rank).map List.length)).map toInt =
      (prefixSums 0 (sentLengths (.world p) block rank)).map Nat.cast := fun rank => by
    rw [map_length_consecutive]
    refine List.map_congr_left fun displ hdispl => bmod_natCast (lt_of_le_of_lt ?_ (htotal rank))
    obtain ⟨receiver, hreceiver⟩ := List.mem_iff_getElem?.mp hdispl
    have hlt := (List.getElem?_eq_some_iff.mp hreceiver).1
    rw [length_prefixSums] at hlt
    rw [getElem?_prefixSums _ _ hlt, Nat.zero_add, Option.some.injEq] at hreceiver
    exact hreceiver ▸ sum_take_le _ _
  have hrCounts : mpiAlltoall (.world p)
      (fun rank => (sentLengths (.world p) block rank).map Nat.cast)
      (fun _ => List.replicate p (0 : ℤ)) (fun _ => 1) (fun _ => 1) =
        some fun rank => (receivedLengths (.world p) block rank).map Nat.cast := by
    have hcounts := mpiAlltoall_counts fun sender rank : Fin p => ((block sender rank).length : ℤ)
    simp only [sentLengths, receivedLengths, List.map_map]
    exact hcounts
  have hrDispls : ∀ rank,
      exclusiveScan 0 ((receivedLengths (.world p) block rank).map Nat.cast) =
        (prefixSums 0 (receivedLengths (.world p) block rank)).map Nat.cast := fun rank =>
    exclusiveScan_zero (by rw [← length_received]; exact hreceived rank)
  have hend : ∀ rank, lastEnd p ((receivedLengths (.world p) block rank).map Nat.cast)
      ((prefixSums 0 (receivedLengths (.world p) block rank)).map Nat.cast) =
        some ((received (.world p) block rank).length : ℤ) := fun rank => by
    have hlength : (receivedLengths (.world p) block rank).length = p := by
      rw [length_receivedLengths, Communicators.size_world]
    have hlast := lastEnd_prefixSums (receivedLengths (.world p) block rank)
      (List.length_pos_iff.mp (by rw [hlength]; exact rank.pos))
      (by rw [← length_received]; exact hreceived rank)
    rwa [hlength, ← length_received] at hlast
  have hrData : (allRanks fun rank => do
      let size ← lastEnd p ((receivedLengths (.world p) block rank).map Nat.cast)
        ((prefixSums 0 (receivedLengths (.world p) block rank)).map Nat.cast)
      if 0 ≤ size then some (List.replicate size.toNat (default : T)) else none) =
        some fun rank => List.replicate (received (.world p) block rank).length default :=
    allRanks_eq_some.mpr fun rank => by
      rw [hend, Option.bind_eq_bind, Option.bind_some, if_pos (Int.natCast_nonneg _),
        Int.toNat_natCast]
  have hreceive := @mpiAlltoallv_consecutive _ _ block
    (fun rank => List.replicate (received (.world p) block rank).length default)
    fun rank => List.length_replicate
  simp only [mpiSort, hgathered, hbuckets, hsCounts, hsDispls, hrCounts, hrDispls,
    Option.bind_eq_bind, Option.bind_some]
  simp only [Option.bind_eq_bind] at hrData
  rw [hrData, Option.bind_some, hreceive, Option.bind_some]
  rfl

end Exchanged

omit [DecidableRel comp] [Inhabited T] in
theorem oversamplingRatio_lt (hsize : p < 2 ^ 31) : oversamplingRatio p < 2 ^ 31 := by
  have hlog : Nat.log 2 p < 31 := Nat.log_lt_of_lt_pow' (by decide) hsize
  rw [oversamplingRatio]
  omega

/-- For any outcomes of sampling and sorting, both versions return the same: the elements of
all ranks, sorted on and across the ranks. -/
theorem sort_mpiSort [IsStrictWeakOrder T comp] (outcomes : Fin p → Outcomes comp)
    (data : Fin p → List T) (hsize : p < 2 ^ 31)
    (htotal : ((List.finRange p).flatMap data).length < 2 ^ 31) :
    ∃ result, sort comp outcomes data = some result ∧ mpiSort comp outcomes data = some result ∧
      (∀ rank, SortedBy comp (result rank)) ∧
      (∀ r s, r < s → ∀ x ∈ result r, ∀ y ∈ result s, ¬ comp y x) ∧
      ((List.finRange p).flatMap result).Perm ((List.finRange p).flatMap data) := by
  obtain ⟨block, hbuckets, hsplit⟩ := exists_blocks outcomes data
  have hsent := hsplit.sent_lt htotal
  have hreceived := hsplit.received_lt htotal
  exact ⟨sortedBlocks outcomes block,
    sort_eq_some hbuckets hsent hreceived (oversamplingRatio_lt hsize),
    mpiSort_eq_some hbuckets hsent hreceived, hsplit.sorts⟩

/-- Ranks that order equivalent samples differently, one of them without data. -/
theorem sort_mpiSort_twoRanks :
    let data : Fin 2 → List ℕ := fun rank => if rank = 0 then [] else [23, 3, 40]
    ∃ result, sort tensLess twoRanksOutcomes data = some result ∧
      mpiSort tensLess twoRanksOutcomes data = some result ∧
      (∀ rank, SortedBy tensLess (result rank)) ∧
      (∀ r s, r < s → ∀ x ∈ result r, ∀ y ∈ result s, ¬ tensLess y x) ∧
      ((List.finRange 2).flatMap result).Perm ((List.finRange 2).flatMap data) :=
  sort_mpiSort _ _ (by decide) (by decide)

end Main

end MpiBindings.Applications.SampleSort
