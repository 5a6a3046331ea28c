import MpiBindings.Core.CountingSort
import Mathlib.Data.Fintype.Basic
import Mathlib.Data.List.FinRange

/-!
# Communicators and vectorized exchange

Collective operations are functions of the data of all ranks.  A communicator is
the list of its members in the order of their ranks in it; a split gives every
rank the communicator of its color.  `MPI_Alltoallv` delivers the blocks that the
members address to a rank at the displacements of that rank, and fails where its
arguments are erroneous.
-/

namespace MpiBindings.Collectives

open CountingSort

/-! ## Results of all ranks -/

section AllRanks

variable {p : ℕ} {α β : Type*}

/-- The results of all ranks, if no rank fails. -/
def allRanks (results : Fin p → Option α) : Option (Fin p → α) :=
  if hsome : ∀ rank, (results rank).isSome then
    some fun rank => (results rank).get (hsome rank)
  else none

theorem allRanks_eq_some {results : Fin p → Option α} {values : Fin p → α} :
    allRanks results = some values ↔ ∀ rank, results rank = some (values rank) := by
  unfold allRanks
  constructor
  · intro h rank
    split at h
    · cases h
      simp
    · simp at h
  · intro h
    have hsome : ∀ rank, (results rank).isSome := fun rank => by simp [h]
    simp [h]

theorem allRanks_eq_none {results : Fin p → Option α} (rank : Fin p)
    (hrank : results rank = none) : allRanks results = none :=
  dif_neg fun hsome => by simpa [hrank] using hsome rank

theorem mapM_eq_some_map {f : α → Option β} {g : α → β} {items : List α}
    (h : ∀ item ∈ items, f item = some (g item)) : items.mapM f = some (items.map g) := by
  induction items with
  | nil => rfl
  | cons item items ih =>
      rw [List.mapM_cons, h item List.mem_cons_self,
        ih fun other hother => h other (List.mem_cons_of_mem _ hother)]
      rfl

/-- A list of partial values has every value. -/
theorem exists_of_mapM {f : α → Option β} {items : List α} {values : List β}
    (hvalues : items.mapM f = some values) {index : ℕ} {item : α}
    (hitem : items[index]? = some item) :
    ∃ value, f item = some value ∧ values[index]? = some value := by
  induction items generalizing values index with
  | nil => cases hitem
  | cons head items ih =>
      rw [List.mapM_cons] at hvalues
      obtain ⟨value, hvalue, hvalues⟩ := Option.bind_eq_some_iff.mp hvalues
      obtain ⟨rest, hrest, hvalues⟩ := Option.bind_eq_some_iff.mp hvalues
      obtain rfl := Option.some.inj hvalues
      cases index with
      | zero =>
          obtain rfl := Option.some.inj hitem
          exact ⟨value, hvalue, rfl⟩
      | succ index => exact ih hrest hitem

end AllRanks

/-! ## Communicators -/

/-- The communicator of every rank: its members in the order of their ranks in it. -/
structure Communicators (p : ℕ) where
  members : Fin p → List (Fin p)
  nodup : ∀ rank, (members rank).Nodup
  mem_self : ∀ rank, rank ∈ members rank
  members_eq : ∀ {rank other}, other ∈ members rank → members other = members rank

namespace Communicators

variable {p : ℕ} (comms : Communicators p)

/-- Size of the communicator of a rank. -/
def size (rank : Fin p) : ℕ := (comms.members rank).length

/-- Rank within the own communicator. -/
def rankOf (rank : Fin p) : ℕ := (comms.members rank).idxOf rank

/-- The communicator of all ranks. -/
def world (p : ℕ) : Communicators p where
  members := fun _ => List.finRange p
  nodup := fun _ => List.nodup_finRange p
  mem_self := List.mem_finRange
  members_eq := fun _ => rfl

/-- `MPI_Comm_split`: the ranks of one color, ordered by key and then by rank. -/
def split (color key : Fin p → ℕ) : Communicators p where
  members := fun rank =>
    ((List.finRange p).filter fun other => color other = color rank).mergeSort
      fun left right => key left ≤ key right
  nodup := fun rank =>
    (List.mergeSort_perm _ _).nodup_iff.mpr ((List.nodup_finRange p).filter _)
  mem_self := fun rank => by simp
  members_eq := fun {rank other} hother => by
    have hcolor : color other = color rank := by simpa using hother
    simp only [hcolor]

theorem members_split_rank (color : Fin p → ℕ) (rank : Fin p) :
    (split color Fin.val).members rank =
      (List.finRange p).filter fun other => color other = color rank := by
  refine List.mergeSort_of_pairwise ?_
  refine List.Pairwise.filter _ ?_
  refine (List.pairwise_le_finRange p).imp fun {left right} hle => ?_
  simpa using hle

theorem mem_members_comm {rank other : Fin p} (hother : other ∈ comms.members rank) :
    rank ∈ comms.members other := by
  rw [comms.members_eq hother]
  exact comms.mem_self rank

theorem size_eq {rank other : Fin p} (hother : other ∈ comms.members rank) :
    comms.size other = comms.size rank := by
  rw [size, size, comms.members_eq hother]

theorem rankOf_lt (rank : Fin p) : comms.rankOf rank < comms.size rank :=
  List.idxOf_lt_length_of_mem (comms.mem_self rank)

theorem size_pos (rank : Fin p) : 0 < comms.size rank :=
  Nat.zero_lt_of_lt (comms.rankOf_lt rank)

/-- A member stands at its rank. -/
theorem getElem?_rankOf {rank other : Fin p} (hother : other ∈ comms.members rank) :
    (comms.members rank)[comms.rankOf other]? = some other := by
  rw [rankOf, comms.members_eq hother]
  exact List.getElem?_idxOf hother

theorem rankOf_eq {rank other : Fin p} {index : ℕ}
    (hindex : (comms.members rank)[index]? = some other) : comms.rankOf other = index := by
  obtain ⟨hlt, rfl⟩ := List.getElem?_eq_some_iff.mp hindex
  rw [rankOf, comms.members_eq (List.getElem_mem hlt)]
  exact (comms.nodup rank).idxOf_getElem index hlt

/-- The members stand in the order of their ranks. -/
theorem map_rankOf (rank : Fin p) :
    (comms.members rank).map comms.rankOf = List.range (comms.size rank) := by
  refine List.ext_getElem? fun index => ?_
  by_cases hindex : index < comms.size rank
  · have hget := List.getElem?_eq_getElem (l := comms.members rank) hindex
    rw [List.getElem?_map, hget, List.getElem?_range hindex, Option.map_some,
      comms.rankOf_eq hget]
  · rw [List.getElem?_eq_none, List.getElem?_eq_none]
    · simpa using hindex
    · simpa [size] using hindex

theorem rankOf_world (rank : Fin p) : (world p).rankOf rank = rank :=
  have hrank : ((world p).members rank)[(rank : ℕ)]? = some rank := by simp [world]
  (world p).rankOf_eq hrank

theorem size_world (rank : Fin p) : (world p).size rank = p := by
  simp [size, world]

end Communicators

/-! ## Blocks of a buffer -/

section Blocks

variable {T : Type*}

/-- The elements at the given displacement; reading outside the buffer fails. -/
def readBlock (buffer : List T) (displ count : ℤ) : Option (List T) :=
  if count = 0 then some []
  else if 0 ≤ count ∧ 0 ≤ displ ∧ displ + count ≤ buffer.length then
    some ((buffer.drop displ.toNat).take count.toNat)
  else none

/-- Overwrite the elements at the given displacement; writing outside the buffer
fails. -/
def writeBlock (displ : ℤ) (block buffer : List T) : Option (List T) :=
  if block = [] then some buffer
  else if 0 ≤ displ ∧ displ + block.length ≤ buffer.length then
    some (buffer.take displ.toNat ++ block ++ buffer.drop (displ.toNat + block.length))
  else none

/-- Receive blocks with the given counts at the given displacements. -/
def writeBlocks : List (List T) → List ℤ → List ℤ → List T → Option (List T)
  | [], _, _, buffer => some buffer
  | block :: blocks, count :: counts, displ :: displs, buffer =>
      if block.length = count then
        (writeBlock displ block buffer).bind (writeBlocks blocks counts displs)
      else none
  | _ :: _, _, _, _ => none

theorem length_of_readBlock {buffer block : List T} {displ count : ℤ}
    (hread : readBlock buffer displ count = some block) : (block.length : ℤ) = count := by
  unfold readBlock at hread
  split_ifs at hread with hzero hinside
  · obtain rfl := Option.some.inj hread
    rw [hzero]
    rfl
  · obtain rfl := Option.some.inj hread
    rw [List.length_take, List.length_drop]
    omega

theorem length_of_writeBlock {block buffer buffer' : List T} {displ : ℤ}
    (hwrite : writeBlock displ block buffer = some buffer') :
    buffer'.length = buffer.length := by
  unfold writeBlock at hwrite
  split_ifs at hwrite with hnil hinside
  · rw [Option.some.inj hwrite]
  · obtain rfl := Option.some.inj hwrite
    simp only [List.length_append, List.length_take, List.length_drop]
    omega

theorem readBlock_natCast {buffer : List T} {displ count : ℕ}
    (hle : count ≠ 0 → displ + count ≤ buffer.length) :
    readBlock buffer (displ : ℤ) (count : ℤ) = some ((buffer.drop displ).take count) := by
  rw [readBlock]
  split_ifs with hzero hin
  · simp_all
  · simp
  · omega

theorem writeBlock_append {done block rest : List T} (hle : block.length ≤ rest.length) :
    writeBlock (done.length : ℤ) block (done ++ rest) =
      some (done ++ block ++ rest.drop block.length) := by
  unfold writeBlock
  split_ifs with hnil hin
  · simp [hnil]
  · simp
  · simp only [List.length_append, not_and] at hin
    omega

/-- Blocks received at the prefix sums of their lengths are written one after the
other. -/
theorem writeBlocks_prefixSums (blocks : List (List T)) (done rest : List T)
    {counts displs : List ℤ}
    (hcounts : (blocks.map fun block => (block.length : ℤ)) <+: counts)
    (hdispls : (prefixSums done.length (blocks.map List.length)).map Nat.cast <+: displs)
    (hle : blocks.flatten.length ≤ rest.length) :
    writeBlocks blocks counts displs (done ++ rest) =
      some (done ++ blocks.flatten ++ rest.drop blocks.flatten.length) := by
  induction blocks generalizing done rest counts displs with
  | nil => simp [writeBlocks]
  | cons block blocks ih =>
      simp only [List.map_cons, prefixSums] at hcounts hdispls
      obtain ⟨moreCounts, rfl⟩ := hcounts
      obtain ⟨moreDispls, rfl⟩ := hdispls
      rw [List.flatten_cons, List.length_append] at hle
      have hdispls : (prefixSums (done ++ block).length (blocks.map List.length)).map Nat.cast <+:
          (prefixSums (done.length + block.length) (blocks.map List.length)).map Nat.cast ++
            moreDispls := by
        rw [List.length_append]
        exact List.prefix_append _ moreDispls
      have hrest := ih (done ++ block) (rest.drop block.length)
        (List.prefix_append _ moreCounts) hdispls (by rw [List.length_drop]; omega)
      rw [List.cons_append, List.cons_append, writeBlocks, if_pos rfl,
        writeBlock_append (by omega), Option.bind_some, hrest]
      simp

theorem getElem?_flatten_of_length {blocks : List (List T)} {n : ℕ}
    (hlength : ∀ block ∈ blocks, block.length = n) {i j : ℕ} (hj : j < n) {block : List T}
    (hblock : blocks[i]? = some block) : blocks.flatten[j + i * n]? = block[j]? := by
  induction blocks generalizing i with
  | nil => simp at hblock
  | cons head blocks ih =>
      have hhead := hlength head List.mem_cons_self
      rw [List.flatten_cons]
      cases i with
      | zero =>
          obtain rfl : head = block := by simpa using hblock
          rw [Nat.zero_mul, Nat.add_zero, List.getElem?_append_left (by omega)]
      | succ i =>
          have hindex : j + (i + 1) * n = head.length + (j + i * n) := by
            rw [hhead, Nat.succ_mul]
            omega
          rw [hindex, List.getElem?_append_right (Nat.le_add_right _ _),
            Nat.add_sub_cancel_left]
          exact ih (fun other hother => hlength other (List.mem_cons_of_mem _ hother))
            (by simpa using hblock)

/-- Every block has the length that its receiver counts. -/
theorem prefix_of_writeBlocks {blocks : List (List T)} {counts displs : List ℤ}
    {buffer buffer' : List T} (hwrite : writeBlocks blocks counts displs buffer = some buffer') :
    (blocks.map fun block => (block.length : ℤ)) <+: counts := by
  induction blocks generalizing counts displs buffer with
  | nil => exact List.nil_prefix
  | cons block blocks ih =>
      obtain _ | ⟨count, counts⟩ := counts
      · cases hwrite
      obtain _ | ⟨displ, displs⟩ := displs
      · cases hwrite
      rw [writeBlocks, Option.ite_none_right_eq_some] at hwrite
      obtain ⟨rfl, hwrite⟩ := hwrite
      obtain ⟨next, -, hrest⟩ := Option.bind_eq_some_iff.mp hwrite
      exact List.cons_prefix_cons.mpr ⟨rfl, ih hrest⟩

theorem count_of_writeBlocks {blocks : List (List T)} {counts displs : List ℤ}
    {buffer buffer' : List T} (hwrite : writeBlocks blocks counts displs buffer = some buffer')
    {index : ℕ} {block : List T} (hblock : blocks[index]? = some block) :
    counts[index]? = some (block.length : ℤ) := by
  obtain ⟨more, rfl⟩ := prefix_of_writeBlocks hwrite
  have hindex := (List.getElem?_eq_some_iff.mp hblock).1
  rw [List.getElem?_append_left (by simpa using hindex), List.getElem?_map, hblock,
    Option.map_some]

/-- Every block is written inside the buffer. -/
theorem inside_of_writeBlocks {blocks : List (List T)} {counts displs : List ℤ}
    {buffer buffer' : List T} (hwrite : writeBlocks blocks counts displs buffer = some buffer')
    {index : ℕ} {block : List T} {displ : ℤ} (hblock : blocks[index]? = some block)
    (hdispl : displs[index]? = some displ) (hne : block ≠ []) :
    0 ≤ displ ∧ displ + block.length ≤ buffer.length := by
  induction blocks generalizing counts displs buffer index with
  | nil => cases hblock
  | cons head blocks ih =>
      obtain _ | ⟨count, counts⟩ := counts
      · cases hwrite
      obtain _ | ⟨start, displs⟩ := displs
      · cases hwrite
      rw [writeBlocks, Option.ite_none_right_eq_some] at hwrite
      obtain ⟨-, hwrite⟩ := hwrite
      obtain ⟨next, hhead, hrest⟩ := Option.bind_eq_some_iff.mp hwrite
      cases index with
      | zero =>
          obtain rfl := Option.some.inj hblock
          obtain rfl := Option.some.inj hdispl
          rw [writeBlock, if_neg hne, Option.ite_none_right_eq_some] at hhead
          exact hhead.1
      | succ index =>
          have hinside := ih hrest hblock hdispl
          rwa [length_of_writeBlock hhead] at hinside

end Blocks

/-! ## Exchange -/

/-- Arguments of `MPI_Alltoallv` on all ranks. -/
structure MpiAlltoallvArguments (p : ℕ) (T : Type) where
  sendBuf : Fin p → List T
  sendCounts : Fin p → List ℤ
  sendDispls : Fin p → List ℤ
  recvBuf : Fin p → List T
  recvCounts : Fin p → List ℤ
  recvDispls : Fin p → List ℤ

section Exchange

variable {p : ℕ} {T : Type} (comms : Communicators p)

/-- The block that a rank sends to the member with the given rank. -/
def MpiAlltoallvArguments.block (args : MpiAlltoallvArguments p T) (sender : Fin p)
    (index : ℕ) : Option (List T) := do
  let count ← (args.sendCounts sender)[index]?
  let displ ← (args.sendDispls sender)[index]?
  readBlock (args.sendBuf sender) displ count

/-- The receive buffer of a rank after `MPI_Alltoallv`. -/
def mpiAlltoallvAt (args : MpiAlltoallvArguments p T) (rank : Fin p) : Option (List T) := do
  let blocks ← (comms.members rank).mapM fun sender => args.block sender (comms.rankOf rank)
  writeBlocks blocks (args.recvCounts rank) (args.recvDispls rank) (args.recvBuf rank)

/-- `MPI_Alltoallv`: the receive buffers of all ranks. -/
def mpiAlltoallv (args : MpiAlltoallvArguments p T) : Option (Fin p → List T) :=
  allRanks (mpiAlltoallvAt comms args)

/-- `MPI_Alltoall`: the blocks of all members have one size and follow each other. -/
def mpiAlltoall (sendBuf recvBuf : Fin p → List T) (sendCount recvCount : Fin p → ℕ) :
    Option (Fin p → List T) :=
  mpiAlltoallv comms
    { sendBuf
      sendCounts := fun rank => List.replicate (comms.size rank) (sendCount rank : ℤ)
      sendDispls := fun rank => (List.range (comms.size rank)).map fun index =>
        ((index * sendCount rank : ℕ) : ℤ)
      recvBuf
      recvCounts := fun rank => List.replicate (comms.size rank) (recvCount rank : ℤ)
      recvDispls := fun rank => (List.range (comms.size rank)).map fun index =>
        ((index * recvCount rank : ℕ) : ℤ) }

variable {comms}

/-- The exchange delivers to every rank the blocks that the members address to it,
in the order of the members. -/
theorem mpiAlltoallv_eq_some {args : MpiAlltoallvArguments p T}
    (block : Fin p → Fin p → List T)
    (hblock : ∀ sender, ∀ receiver ∈ comms.members sender,
      args.block sender (comms.rankOf receiver) = some (block sender receiver))
    (hcounts : ∀ rank, ((comms.members rank).map fun sender =>
      ((block sender rank).length : ℤ)) <+: args.recvCounts rank)
    (hdispls : ∀ rank, (prefixSums 0 ((comms.members rank).map fun sender =>
      (block sender rank).length)).map Nat.cast <+: args.recvDispls rank)
    (hfits : ∀ rank, ((comms.members rank).flatMap fun sender => block sender rank).length ≤
      (args.recvBuf rank).length) :
    mpiAlltoallv comms args = some fun rank =>
      ((comms.members rank).flatMap fun sender => block sender rank) ++
        (args.recvBuf rank).drop
          ((comms.members rank).flatMap fun sender => block sender rank).length := by
  refine allRanks_eq_some.mpr fun rank => ?_
  have hblocks : (comms.members rank).mapM
      (fun sender => args.block sender (comms.rankOf rank)) =
        some ((comms.members rank).map fun sender => block sender rank) :=
    mapM_eq_some_map fun sender hsender => hblock sender rank (comms.mem_members_comm hsender)
  have hwrite := writeBlocks_prefixSums
    ((comms.members rank).map fun sender => block sender rank) [] (args.recvBuf rank)
    (by simpa [Function.comp_def] using hcounts rank)
    (by simpa [Function.comp_def] using hdispls rank)
    (by rw [← List.flatMap_def]; exact hfits rank)
  rw [mpiAlltoallvAt, hblocks]
  simpa [List.flatMap_def] using hwrite

end Exchange

end MpiBindings.Collectives
