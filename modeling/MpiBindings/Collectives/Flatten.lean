import MpiBindings.Collectives.Layouts
import Mathlib.Algebra.Order.BigOperators.Group.List

/-!
# Flattening of nested send buffers

`with_flattened` turns messages with destinations into one send buffer with counts
and displacements for all ranks.  It passes over the container twice: once to store
the size of each message as the count of its destination, and once to copy each
message to the displacement of its destination.  The container may visit the messages
in any order, and nothing excludes a destination that occurs twice.
-/

namespace MpiBindings.Collectives

open CountingSort

/-- Nested buffers as one send buffer with counts and displacements. -/
@[ext]
structure Flattened (T : Type) where
  sendBuf : List T
  sendCounts : List ℤ
  sendDispls : List ℤ
deriving DecidableEq, Repr

/-! ## The two passes -/

section Passes

variable {T : Type}

/-- Store the size of a message as the count of its destination; fails for a
destination out of range and for a size that is no machine integer. -/
def storeCount (destination : ℤ) (size : ℕ) (sendCounts : List ℤ) : Option (List ℤ) :=
  if 0 ≤ destination ∧ destination < sendCounts.length ∧ size < 2 ^ 31 then
    some (sendCounts.set destination.toNat (size : ℤ))
  else none

/-- The pass that stores the counts. -/
def storeCounts : List (ℤ × List T) → List ℤ → Option (List ℤ)
  | [], sendCounts => some sendCounts
  | (destination, message) :: messages, sendCounts =>
      (storeCount destination message.length sendCounts).bind (storeCounts messages)

/-- Copy a message to the displacement of its destination; fails outside the buffer. -/
def copyMessage (sendDispls : List ℤ) (destination : ℤ) (message flatSendBuf : List T) :
    Option (List T) :=
  if 0 ≤ destination then do
    let displ ← sendDispls[destination.toNat]?
    writeBlock displ message flatSendBuf
  else none

/-- The pass that copies the messages. -/
def copyMessages (sendDispls : List ℤ) : List (ℤ × List T) → List T → Option (List T)
  | [], flatSendBuf => some flatSendBuf
  | (destination, message) :: messages, flatSendBuf =>
      (copyMessage sendDispls destination message flatSendBuf).bind
        (copyMessages sendDispls messages)

/-- Last displacement plus last count, cast to a size. -/
def totalSendCount (sendCounts sendDispls : List ℤ) : Option ℕ :=
  match sendDispls.getLast?, sendCounts.getLast? with
  | some displ, some count =>
      if 0 ≤ addInt displ count then some (addInt displ count).toNat else none
  | _, _ => none

/-- `with_flattened` for destinations with messages, in the order of the iteration. -/
def withFlattened [Inhabited T] (messages : List (ℤ × List T)) (commSize : ℕ) :
    Option (Flattened T) := do
  let sendCounts ← storeCounts messages (List.replicate commSize 0)
  let sendDispls := exclusiveScan 0 sendCounts
  let total ← totalSendCount sendCounts sendDispls
  let sendBuf ← copyMessages sendDispls messages (List.replicate total default)
  some { sendBuf, sendCounts, sendDispls }

/-- `with_flattened` for nested buffers: both passes count the messages. -/
def withFlattenedNested [Inhabited T] (messages : List (List T)) (commSize : ℕ) :
    Option (Flattened T) :=
  withFlattened (messages.zipIdx.map fun message => ((message.2 : ℤ), message.1)) commSize

end Passes

/-! ## What the passes compute -/

section Contents

variable {T : Type}

/-- Messages with the destinations as the machine holds them. -/
def atDestinations (messages : List (ℕ × List T)) : List (ℤ × List T) :=
  messages.map fun message => ((message.1 : ℤ), message.2)

theorem withKey_atDestinations (messages : List (ℕ × List T)) (destination : ℕ) :
    withKey (atDestinations messages) (destination : ℤ) = withKey messages destination := by
  simp [withKey, atDestinations, List.filter_map, Function.comp_def]

theorem exists_atDestinations {messages : List (ℤ × List T)} {commSize : ℕ}
    (hdestinations : ∀ message ∈ messages, 0 ≤ message.1 ∧ message.1 < commSize) :
    ∃ naturals : List (ℕ × List T), messages = atDestinations naturals ∧
      ∀ message ∈ naturals, message.1 < commSize := by
  refine ⟨messages.map fun message => (message.1.toNat, message.2), ?_, ?_⟩
  · rw [atDestinations, List.map_map]
    refine (List.map_id messages).symm.trans (List.map_congr_left fun message hmem => ?_)
    have hnonneg := (hdestinations message hmem).1
    simp [Int.toNat_of_nonneg hnonneg]
  · intro message hmem
    obtain ⟨original, horiginal, rfl⟩ := List.mem_map.mp hmem
    have hrange := hdestinations original horiginal
    dsimp only
    omega

/-- Size of the last message for a destination, or what was stored before. -/
def lastSize (messages : List (ℕ × List T)) (stored : ℕ → ℕ) (destination : ℕ) : ℕ :=
  ((withKey messages destination).getLast?.map List.length).getD (stored destination)

theorem lastSize_cons (destination : ℕ) (message : List T) (messages : List (ℕ × List T))
    (stored : ℕ → ℕ) :
    lastSize ((destination, message) :: messages) stored =
      lastSize messages (Function.update stored destination message.length) := by
  funext other
  rw [lastSize, lastSize, withKey_cons]
  by_cases hsame : destination = other
  · subst hsame
    rw [if_pos rfl, List.getLast?_cons, Function.update_self]
    cases (withKey messages destination).getLast? <;> rfl
  · rw [if_neg hsame, Function.update_of_ne (Ne.symm hsame)]

/-- The counts are the sizes of the last messages. -/
theorem storeCounts_eq {messages : List (ℕ × List T)} {commSize : ℕ}
    (hdestinations : ∀ message ∈ messages, message.1 < commSize) (stored : ℕ → ℕ) :
    storeCounts (atDestinations messages) ((List.range commSize).map fun d => (stored d : ℤ)) =
      if ∀ message ∈ messages, message.2.length < 2 ^ 31 then
        some ((List.range commSize).map fun d => (lastSize messages stored d : ℤ))
      else none := by
  induction messages generalizing stored with
  | nil => rfl
  | cons head messages ih =>
      obtain ⟨destination, message⟩ := head
      have hdestination : destination < commSize := hdestinations _ List.mem_cons_self
      have hrest := fun stored => ih (fun other hother =>
        hdestinations other (List.mem_cons_of_mem _ hother)) stored
      have hset : ((List.range commSize).map fun d => (stored d : ℤ)).set destination
          (message.length : ℤ) = (List.range commSize).map fun d =>
            ((Function.update stored destination message.length d : ℕ) : ℤ) := by
        rw [set_map_range]
        refine List.map_congr_left fun other _ => ?_
        simp only [Function.update_apply]
        split_ifs <;> rfl
      rw [atDestinations, List.map_cons, ← atDestinations, storeCounts, storeCount]
      by_cases hsize : message.length < 2 ^ 31
      · rw [if_pos ⟨Int.natCast_nonneg _, by simpa using hdestination, hsize⟩,
          Option.bind_some, Int.toNat_natCast, hset, hrest, lastSize_cons]
        simp only [List.forall_mem_cons, hsize, true_and]
      · rw [if_neg fun h => hsize h.2.2, if_neg fun h => hsize (h _ List.mem_cons_self)]
        rfl

/-- Contents of the blocks after the copies of all messages that are not empty. -/
def copied : List (ℕ × List T) → (ℕ → List T) → ℕ → List T
  | [], content => content
  | (destination, message) :: messages, content =>
      copied messages
        (if message = [] then content else Function.update content destination message)

/-- A message of the size of a block replaces the block. -/
theorem writeBlock_flatMap_range (content : ℕ → List T) {destination commSize : ℕ}
    (hdestination : destination < commSize) {message : List T}
    (hsize : message.length = (content destination).length) :
    writeBlock ((((List.range destination).map fun d => (content d).length).sum : ℕ) : ℤ)
        message ((List.range commSize).flatMap content) =
      some ((List.range commSize).flatMap (Function.update content destination message)) := by
  obtain ⟨rest, rfl⟩ := Nat.exists_eq_add_of_lt hdestination
  have hrange : List.range (destination + rest + 1) = List.range destination ++
      (destination :: (List.range rest).map fun index => destination + 1 + index) := by
    rw [Nat.add_assoc, Nat.add_comm rest 1, ← Nat.add_assoc, List.range_add,
      List.range_succ, List.append_assoc]
    rfl
  have hfront : (List.range destination).flatMap
      (Function.update content destination message) = (List.range destination).flatMap content :=
    List.flatMap_congr fun other hother => by
      rw [Function.update_of_ne (Nat.ne_of_lt (List.mem_range.mp hother))]
  have hback : ((List.range rest).map fun index => destination + 1 + index).flatMap
      (Function.update content destination message) =
        ((List.range rest).map fun index => destination + 1 + index).flatMap content :=
    List.flatMap_congr fun other hother => by
      obtain ⟨index, -, rfl⟩ := List.mem_map.mp hother
      rw [Function.update_of_ne (by omega)]
  have hlength : ((List.range destination).map fun d => (content d).length).sum =
      ((List.range destination).flatMap content).length := by
    rw [List.length_flatMap]
  rw [hrange, List.flatMap_append, List.flatMap_append, List.flatMap_cons, List.flatMap_cons,
    hfront, hback, Function.update_self, hlength,
    writeBlock_append (by simp [hsize]), hsize, List.drop_left]
  simp

/-- Messages of the sizes of their blocks are copied block by block. -/
theorem copyMessages_eq {messages : List (ℕ × List T)} {commSize : ℕ} {size : ℕ → ℕ}
    {sendDispls : List ℤ}
    (hdispls : ∀ d < commSize,
      sendDispls[d]? = some ((((List.range d).map size).sum : ℕ) : ℤ))
    (content : ℕ → List T) (hcontent : ∀ d, (content d).length = size d)
    (hmessages : ∀ message ∈ messages, message.1 < commSize ∧
      (message.2 ≠ [] → message.2.length = size message.1)) :
    copyMessages sendDispls (atDestinations messages) ((List.range commSize).flatMap content) =
      some ((List.range commSize).flatMap (copied messages content)) := by
  induction messages generalizing content with
  | nil => rfl
  | cons head messages ih =>
      obtain ⟨destination, message⟩ := head
      obtain ⟨hdestination, hsize⟩ := hmessages _ List.mem_cons_self
      have hrest : ∀ next : ℕ → List T, (∀ d, (next d).length = size d) →
          copyMessages sendDispls (atDestinations messages)
              ((List.range commSize).flatMap next) =
            some ((List.range commSize).flatMap (copied messages next)) :=
        fun next hnext => ih next hnext fun other hother =>
          hmessages other (List.mem_cons_of_mem _ hother)
      rw [atDestinations, List.map_cons, ← atDestinations, copyMessages, copyMessage,
        if_pos (Int.natCast_nonneg _), Int.toNat_natCast, hdispls _ hdestination, copied]
      rw [Option.bind_eq_bind, Option.bind_some]
      by_cases hnil : message = []
      · rw [writeBlock, if_pos hnil, if_pos hnil, Option.bind_some, hrest content hcontent]
      · have hlength : message.length = (content destination).length := by
          rw [hcontent, hsize hnil]
        have hblock := writeBlock_flatMap_range content hdestination hlength
        simp only [hcontent] at hblock
        rw [hblock, if_neg hnil, Option.bind_some]
        refine hrest _ fun other => ?_
        rw [Function.update_apply]
        split_ifs with hother
        · rw [hother, hsize hnil]
        · exact hcontent other

end Contents

/-! ## Flattening without loss -/

section Lossless

variable {K T : Type} [DecidableEq K]

/-- Of the messages for one destination only the last one may have elements. -/
def OnlyLastNonempty (messages : List (K × List T)) : Prop :=
  ∀ destination, ∀ message ∈ (withKey messages destination).dropLast, message = []

/-- Number of elements of all messages. -/
def elementCount (messages : List (K × List T)) : ℕ :=
  (messages.map fun message => message.2.length).sum

theorem OnlyLastNonempty.tail {head : K × List T} {messages : List (K × List T)}
    (honly : OnlyLastNonempty (head :: messages)) : OnlyLastNonempty messages := by
  intro destination message hmem
  apply honly destination message
  rw [withKey_cons]
  split_ifs
  · have hne : withKey messages destination ≠ [] := by
      intro hnil
      simp [hnil] at hmem
    rw [List.dropLast_cons_of_ne_nil hne]
    exact List.mem_cons_of_mem _ hmem
  · exact hmem

theorem OnlyLastNonempty.flatten {messages : List (K × List T)}
    (honly : OnlyLastNonempty messages) (destination : K) :
    (withKey messages destination).flatten =
      (withKey messages destination).getLast?.getD [] := by
  rcases List.eq_nil_or_concat' (withKey messages destination) with hnil | ⟨front, last, hlast⟩
  · simp [hnil]
  · have hfront := honly destination
    rw [hlast, List.dropLast_concat] at hfront
    rw [hlast, List.flatten_append, List.flatten_eq_nil_iff.mpr hfront]
    simp

/-- A message with elements is the last one for its destination. -/
theorem OnlyLastNonempty.flatten_of_mem {messages : List (K × List T)}
    (honly : OnlyLastNonempty messages) {message : K × List T} (hmem : message ∈ messages)
    (hne : message.2 ≠ []) : (withKey messages message.1).flatten = message.2 := by
  rw [honly.flatten]
  have hkey := mem_withKey hmem
  rcases List.eq_nil_or_concat' (withKey messages message.1) with hnil | ⟨front, last, hlast⟩
  · simp [hnil] at hkey
  · have hfront := honly message.1
    rw [hlast, List.dropLast_concat] at hfront
    rw [hlast] at hkey ⊢
    rcases List.mem_append.mp hkey with hmem | hmem
    · exact absurd (hfront _ hmem) hne
    · rw [List.mem_singleton.mp hmem]
      simp

/-- The copies leave the concatenation of the messages in every block. -/
theorem copied_eq {messages : List (ℕ × List T)} (honly : OnlyLastNonempty messages)
    (content : ℕ → List T) (d : ℕ) :
    copied messages content d =
      if (withKey messages d).flatten = [] then content d
      else (withKey messages d).flatten := by
  induction messages generalizing content with
  | nil => rfl
  | cons head messages ih =>
      obtain ⟨destination, message⟩ := head
      rw [copied, ih honly.tail, withKey_cons]
      by_cases hsame : destination = d
      · subst hsame
        rw [if_pos rfl, List.flatten_cons]
        by_cases hrest : (withKey messages destination).flatten = []
        · rw [if_pos hrest, hrest, List.append_nil]
          split_ifs
          · rfl
          · exact Function.update_self ..
        · have hmessage : message = [] := by
            apply honly destination
            have hne : withKey messages destination ≠ [] := by
              intro hnil
              simp [hnil] at hrest
            rw [withKey_cons, if_pos rfl, List.dropLast_cons_of_ne_nil hne]
            exact List.mem_cons_self
          rw [if_neg hrest, hmessage, List.nil_append, if_neg hrest]
      · have hcontent : (if message = [] then content
            else Function.update content destination message) d = content d := by
          split_ifs
          · rfl
          · exact Function.update_of_ne (Ne.symm hsame) ..
        rw [if_neg hsame, hcontent]

theorem OnlyLastNonempty.lastSize {messages : List (ℕ × List T)}
    (honly : OnlyLastNonempty messages) :
    lastSize messages (fun _ => 0) = fun d => (withKey messages d).flatten.length := by
  funext d
  rw [Collectives.lastSize, honly.flatten]
  cases (withKey messages d).getLast? <;> rfl

/-- The elements for all destinations are the elements of all messages. -/
theorem sum_length_flatten_withKey {messages : List (ℕ × List T)} {commSize : ℕ}
    (hdestinations : ∀ message ∈ messages, message.1 < commSize) :
    ((List.range commSize).map fun d => (withKey messages d).flatten.length).sum =
      elementCount messages := by
  have hkeys : ∀ message ∈ messages, message.1 ∈ List.range commSize :=
    fun message hmem => List.mem_range.mpr (hdestinations message hmem)
  have hperm := flatMap_withKey_values_perm List.nodup_range hkeys
  have hsum := (hperm.map List.length).sum_eq
  rw [List.map_map, List.map_flatMap, List.flatMap_def, List.sum_flatten, List.map_map] at hsum
  simpa only [elementCount, Function.comp_def, List.length_flatten] using hsum

omit [DecidableEq K] in
theorem length_le_elementCount {messages : List (K × List T)} {message : K × List T}
    (hmem : message ∈ messages) : message.2.length ≤ elementCount messages :=
  List.single_le_sum (fun _ _ => Nat.zero_le _) _ (List.mem_map_of_mem hmem)

/-- The total of the scan is the required size of a computed layout. -/
theorem totalSendCount_eq (counts : List ℕ) (hpos : 0 < counts.length) :
    totalSendCount (counts.map Nat.cast) (exclusiveScan 0 (counts.map Nat.cast)) =
      if 0 ≤ (counts.sum : ℤ).bmod (2 ^ 32) then some ((counts.sum : ℤ).bmod (2 ^ 32)).toNat
      else none := by
  have hrequired := requiredRecvBufSize_computed counts hpos []
  rw [overwrite, List.drop_nil, List.append_nil] at hrequired
  rw [← hrequired]
  have hscan : (exclusiveScan 0 (counts.map (Nat.cast : ℕ → ℤ))).length - 1 =
      counts.length - 1 := by simp
  have hcounts : (counts.map (Nat.cast : ℕ → ℤ)).length - 1 = counts.length - 1 := by simp
  rw [totalSendCount, List.getLast?_eq_getElem?, List.getLast?_eq_getElem?, hscan, hcounts]
  simp only [requiredRecvBufSize, lastEnd, if_true]
  cases (exclusiveScan 0 (counts.map (Nat.cast : ℕ → ℤ)))[counts.length - 1]? <;>
    cases (counts.map (Nat.cast : ℕ → ℤ))[counts.length - 1]? <;>
    simp [addInt_comm]

variable [Inhabited T]

/-- Messages laid out in the order of their destinations. -/
def inRankOrder (commSize : ℕ) (message : ℕ → List T) : Flattened T where
  sendBuf := (List.range commSize).flatMap message
  sendCounts := (List.range commSize).map fun d => ((message d).length : ℤ)
  sendDispls :=
    (prefixSums 0 ((List.range commSize).map fun d => (message d).length)).map Nat.cast

theorem withFlattened_eq_some {messages : List (ℕ × List T)} {commSize : ℕ}
    (hpos : 0 < commSize) (hdestinations : ∀ message ∈ messages, message.1 < commSize)
    (honly : OnlyLastNonempty messages) (hfits : elementCount messages < 2 ^ 31) :
    withFlattened (atDestinations messages) commSize =
      some (inRankOrder commSize fun d => (withKey messages d).flatten) := by
  let size : ℕ → ℕ := fun d => (withKey messages d).flatten.length
  have hsum : ((List.range commSize).map size).sum = elementCount messages :=
    sum_length_flatten_withKey hdestinations
  have hcounts : storeCounts (atDestinations messages) (List.replicate commSize 0) =
      some (((List.range commSize).map size).map Nat.cast) := by
    have hstored := storeCounts_eq hdestinations fun _ => 0
    rw [if_pos fun message hmem => lt_of_le_of_lt (length_le_elementCount hmem) hfits,
      honly.lastSize] at hstored
    simpa [Function.comp_def, size] using hstored
  have hdispls : exclusiveScan 0 (((List.range commSize).map size).map Nat.cast) =
      (prefixSums 0 ((List.range commSize).map size)).map Nat.cast :=
    exclusiveScan_zero (by rwa [hsum])
  have htotal := totalSendCount_eq ((List.range commSize).map size) (by simpa using hpos)
  rw [hsum, bmod_natCast hfits, if_pos (Int.natCast_nonneg _), Int.toNat_natCast] at htotal
  have hzeros : List.replicate (elementCount messages) (default : T) =
      (List.range commSize).flatMap fun d => List.replicate (size d) default := by
    symm
    rw [List.eq_replicate_iff]
    constructor
    · rw [List.length_flatMap, ← hsum]
      simp
    · intro element hmem
      obtain ⟨d, -, hd⟩ := List.mem_flatMap.mp hmem
      exact List.eq_of_mem_replicate hd
  have hdispl : ∀ d < commSize,
      ((prefixSums 0 ((List.range commSize).map size)).map (Nat.cast : ℕ → ℤ))[d]? =
        some ((((List.range d).map size).sum : ℕ) : ℤ) := by
    intro d hd
    rw [List.getElem?_map, getElem?_prefixSums _ _ (by simpa using hd), ← List.map_take,
      List.take_range, Nat.min_eq_left hd.le, Nat.zero_add]
    rfl
  have hsizes : ∀ message ∈ messages, message.1 < commSize ∧
      (message.2 ≠ [] → message.2.length = size message.1) := by
    intro message hmem
    refine ⟨hdestinations message hmem, fun hne => ?_⟩
    simp only [size]
    rw [honly.flatten_of_mem hmem hne]
  have hcopies := copyMessages_eq hdispl (fun d => List.replicate (size d) default) (by simp)
    hsizes
  rw [withFlattened, hcounts]
  simp only [Option.bind_eq_bind, Option.bind_some]
  rw [htotal, hdispls, Option.bind_some, hzeros, hcopies, Option.bind_some]
  refine congrArg some (Flattened.ext ?_ ?_ rfl)
  · refine List.flatMap_congr fun d _ => ?_
    rw [copied_eq honly]
    split_ifs with hnil
    · have hzero : size d = 0 := by simp only [size, hnil, List.length_nil]
      rw [hzero, List.replicate_zero, hnil]
    · rfl
  · simp [inRankOrder, size]

omit [Inhabited T] in
@[simp]
theorem elementCount_atDestinations (messages : List (ℕ × List T)) :
    elementCount (atDestinations messages) = elementCount messages := by
  simp [elementCount, atDestinations, Function.comp_def]

omit [Inhabited T] in
theorem OnlyLastNonempty.of_atDestinations {messages : List (ℕ × List T)}
    (honly : OnlyLastNonempty (atDestinations messages)) : OnlyLastNonempty messages := by
  intro destination
  rw [← withKey_atDestinations]
  exact honly destination

/-! ### Distinct destinations -/

omit [Inhabited T] in
theorem withKey_eq_nil {messages : List (K × List T)} {destination : K}
    (hnotMem : destination ∉ messages.map Prod.fst) : withKey messages destination = [] := by
  rw [withKey, List.map_eq_nil_iff, List.filter_eq_nil_iff]
  intro message hmem hsame
  exact hnotMem (List.mem_map.mpr ⟨message, hmem, by simpa using hsame⟩)

omit [Inhabited T] in
/-- With distinct destinations there is at most one message for each. -/
theorem withKey_of_nodup {messages : List (K × List T)}
    (hnodup : (messages.map Prod.fst).Nodup) (destination : K) :
    withKey messages destination = (messages.lookup destination).toList := by
  induction messages with
  | nil => rfl
  | cons head messages ih =>
      obtain ⟨other, message⟩ := head
      rw [List.map_cons, List.nodup_cons] at hnodup
      rw [withKey_cons, List.lookup_cons]
      by_cases hsame : other = destination
      · subst hsame
        rw [if_pos rfl, withKey_eq_nil hnodup.1, beq_self_eq_true]
        rfl
      · rw [if_neg hsame, ih hnodup.2, beq_false_of_ne (Ne.symm hsame)]

omit [Inhabited T] in
theorem onlyLastNonempty_of_nodup {messages : List (K × List T)}
    (hnodup : (messages.map Prod.fst).Nodup) : OnlyLastNonempty messages := by
  intro destination message hmem
  rw [withKey_of_nodup hnodup] at hmem
  cases hlookup : messages.lookup destination <;> simp [hlookup] at hmem

omit [Inhabited T] in
/-- The message for a destination does not depend on the order of the iteration. -/
theorem withKey_perm_of_nodup {messages order : List (K × List T)}
    (hnodup : (messages.map Prod.fst).Nodup) (hperm : order.Perm messages) (destination : K) :
    withKey order destination = (messages.lookup destination).toList := by
  have hkeys : (withKey order destination).Perm (withKey messages destination) :=
    (hperm.filter _).map _
  rw [withKey_of_nodup hnodup] at hkeys
  cases hlookup : messages.lookup destination with
  | none =>
      rw [hlookup] at hkeys
      exact List.perm_nil.mp hkeys
  | some message =>
      rw [hlookup] at hkeys
      exact List.perm_singleton.mp hkeys

/-- A flat buffer that holds the message of every rank, one block after the other. -/
structure HoldsInRankOrder (commSize : ℕ) (message : ℕ → List T) (flattened : Flattened T) :
    Prop where
  length_sendCounts : flattened.sendCounts.length = commSize
  length_sendDispls : flattened.sendDispls.length = commSize
  first : flattened.sendDispls[0]? = some 0
  block : ∀ d < commSize, ∃ displ count : ℕ, flattened.sendDispls[d]? = some (displ : ℤ) ∧
    flattened.sendCounts[d]? = some (count : ℤ) ∧ count = (message d).length ∧
    (flattened.sendBuf.drop displ).take count = message d ∧
    -- the next block starts where this one ends, and the last one ends the buffer
    if d + 1 < commSize then flattened.sendDispls[d + 1]? = some ((displ + count : ℕ) : ℤ)
    else displ + count = flattened.sendBuf.length

omit [Inhabited T] in
theorem holdsInRankOrder_inRankOrder {commSize : ℕ} (hpos : 0 < commSize)
    (message : ℕ → List T) :
    HoldsInRankOrder commSize message (inRankOrder commSize message) := by
  have hdispl : ∀ d < commSize, (inRankOrder commSize message).sendDispls[d]? =
      some ((((List.range d).map fun other => (message other).length).sum : ℕ) : ℤ) := by
    intro d hd
    rw [inRankOrder, List.getElem?_map, getElem?_prefixSums _ _ (by simpa using hd),
      ← List.map_take, List.take_range, Nat.min_eq_left hd.le, Nat.zero_add]
    rfl
  refine ⟨by simp [inRankOrder], by simp [inRankOrder], hdispl 0 hpos, fun d hd => ?_⟩
  refine ⟨_, _, hdispl d hd, ?_, rfl, ?_, ?_⟩
  · simp [inRankOrder, hd]
  · have hblock : ((List.range commSize).map message)[d]? = some (message d) := by simp [hd]
    have htake := getElem?_flatten_drop hblock
    rw [List.map_map, ← List.map_take, List.take_range, Nat.min_eq_left hd.le] at htake
    rw [inRankOrder, List.flatMap_def]
    exact htake
  · have hnext : ((List.range (d + 1)).map fun other => (message other).length).sum =
        ((List.range d).map fun other => (message other).length).sum + (message d).length := by
      rw [List.range_succ, List.map_append, List.sum_append]
      simp
    split_ifs with hlast
    · rw [hdispl _ hlast, hnext]
    · obtain rfl : commSize = d + 1 := by omega
      rw [← hnext, inRankOrder, List.length_flatMap]

omit [Inhabited T] in
theorem withKey_zipIdx (messages : List (List T)) (start d : ℕ) :
    withKey ((messages.zipIdx start).map fun message => (message.2, message.1)) (start + d) =
      messages[d]?.toList := by
  induction messages generalizing start d with
  | nil => rfl
  | cons message messages ih =>
      rw [List.zipIdx_cons, List.map_cons, withKey_cons]
      cases d with
      | zero =>
          rw [if_pos (Nat.add_zero start).symm, withKey_eq_nil]
          · rfl
          · rw [List.map_map]
            intro hmem
            obtain ⟨later, hlater, hsame⟩ := List.mem_map.mp hmem
            have hle := List.le_snd_of_mem_zipIdx hlater
            simp only [Function.comp_apply] at hsame
            omega
      | succ d =>
          rw [if_neg (by omega), Nat.add_comm d 1, ← Nat.add_assoc, ih (start + 1) d,
            Nat.add_comm 1 d, List.getElem?_cons_succ]

/-- Messages for distinct destinations are flattened in rank order, in whichever order they
are visited. -/
theorem withFlattened_of_nodup {commSize : ℕ} (hpos : 0 < commSize)
    {messages order : List (ℤ × List T)}
    (hdestinations : ∀ message ∈ messages, 0 ≤ message.1 ∧ message.1 < commSize)
    (hnodup : (messages.map Prod.fst).Nodup) (hfits : elementCount messages < 2 ^ 31)
    (hperm : order.Perm messages) :
    withFlattened order commSize =
      some (inRankOrder commSize fun d => (messages.lookup (d : ℤ)).getD []) := by
  obtain ⟨naturals, rfl, hnaturals⟩ := exists_atDestinations fun message hmem =>
    hdestinations message (hperm.mem_iff.mp hmem)
  have honly : OnlyLastNonempty (atDestinations naturals) :=
    onlyLastNonempty_of_nodup ((hperm.map _).nodup_iff.mpr hnodup)
  have hcount : elementCount naturals = elementCount messages := by
    rw [← elementCount_atDestinations, elementCount, (hperm.map _).sum_eq]
    rfl
  rw [withFlattened_eq_some hpos hnaturals honly.of_atDestinations (by rwa [hcount])]
  refine congrArg (fun message => some (inRankOrder commSize message)) (funext fun d => ?_)
  rw [← withKey_atDestinations, withKey_perm_of_nodup hnodup hperm]
  cases messages.lookup (d : ℤ) <;> simp

/-- Nested buffers with the ranks that they are for. -/
def byRank (messages : List (List T)) : List (ℕ × List T) :=
  messages.zipIdx.map fun message => (message.2, message.1)

omit [Inhabited T] in
@[simp]
theorem withKey_byRank (messages : List (List T)) (d : ℕ) :
    withKey (byRank messages) d = messages[d]?.toList := by
  have hkey := withKey_zipIdx messages 0 d
  rwa [Nat.zero_add] at hkey

omit [Inhabited T] in
theorem lt_of_mem_byRank {messages : List (List T)} {message : ℕ × List T}
    (hmem : message ∈ byRank messages) : message.1 < messages.length := by
  obtain ⟨original, horiginal, rfl⟩ := List.mem_map.mp hmem
  simpa using List.snd_lt_of_mem_zipIdx horiginal

omit [Inhabited T] in
theorem onlyLastNonempty_byRank (messages : List (List T)) :
    OnlyLastNonempty (byRank messages) := by
  intro d message hmem
  rw [withKey_byRank] at hmem
  cases hget : messages[d]? <;> simp [hget] at hmem

omit [Inhabited T] in
theorem elementCount_byRank (messages : List (List T)) :
    elementCount (byRank messages) = (messages.map List.length).sum := by
  calc elementCount (byRank messages)
      = ((messages.zipIdx.map Prod.fst).map List.length).sum := by
        rw [elementCount, byRank, List.map_map, List.map_map]
        rfl
    _ = (messages.map List.length).sum := by rw [List.zipIdx_map_fst]

theorem withFlattenedNested_byRank (messages : List (List T)) (commSize : ℕ) :
    withFlattenedNested messages commSize =
      withFlattened (atDestinations (byRank messages)) commSize := by
  rw [withFlattenedNested, atDestinations, byRank, List.map_map]
  rfl

/-- Nested buffers are flattened in rank order. -/
theorem withFlattenedNested_eq_some {commSize : ℕ} (hpos : 0 < commSize)
    {messages : List (List T)} (hlength : messages.length ≤ commSize)
    (hfits : (messages.map List.length).sum < 2 ^ 31) :
    withFlattenedNested messages commSize =
      some (inRankOrder commSize fun d => messages[d]?.getD []) := by
  have hdestinations : ∀ message ∈ byRank messages, message.1 < commSize :=
    fun message hmem => (lt_of_mem_byRank hmem).trans_le hlength
  rw [withFlattenedNested_byRank, withFlattened_eq_some hpos hdestinations
    (onlyLastNonempty_byRank messages) (by rwa [elementCount_byRank])]
  refine congrArg (fun message => some (inRankOrder commSize message)) (funext fun d => ?_)
  rw [withKey_byRank]
  cases messages[d]? <;> simp

/-- Flattening is lossless: for distinct destinations, visited in any order, and for
nested buffers that are at most as many as the ranks, the flat buffer holds the message
of every rank in rank order. -/
theorem withFlattened_lossless (commSize : ℕ) (hpos : 0 < commSize) :
    (∀ messages : List (ℤ × List T),
      (∀ message ∈ messages, 0 ≤ message.1 ∧ message.1 < commSize) →
      (messages.map Prod.fst).Nodup → elementCount messages < 2 ^ 31 →
      ∃ flattened,
        (∀ order : List (ℤ × List T), order.Perm messages →
          withFlattened order commSize = some flattened) ∧
        HoldsInRankOrder commSize (fun d => (messages.lookup (d : ℤ)).getD []) flattened) ∧
    (∀ messages : List (List T),
      messages.length ≤ commSize → (messages.map List.length).sum < 2 ^ 31 →
      ∃ flattened, withFlattenedNested messages commSize = some flattened ∧
        HoldsInRankOrder commSize (fun d => messages[d]?.getD []) flattened) := by
  constructor
  · intro messages hdestinations hnodup hfits
    exact ⟨_, fun order hperm => withFlattened_of_nodup hpos hdestinations hnodup hfits hperm,
      holdsInRankOrder_inRankOrder hpos _⟩
  · intro messages hlength hfits
    exact ⟨_, withFlattenedNested_eq_some hpos hlength hfits,
      holdsInRankOrder_inRankOrder hpos _⟩

/-- Two messages for three ranks, the first of them for the last rank. -/
theorem withFlattened_lossless_two :
    (∃ flattened,
      (∀ order : List (ℤ × List ℕ), order.Perm [(2, [7, 8]), (0, [9])] →
        withFlattened order 3 = some flattened) ∧
      HoldsInRankOrder 3
        (fun d => (([(2, [7, 8]), (0, [9])] : List (ℤ × List ℕ)).lookup (d : ℤ)).getD [])
        flattened) ∧
    ∃ flattened, withFlattenedNested [[7, 8], [], [9]] 4 = some flattened ∧
      HoldsInRankOrder 4 (fun d => [[7, 8], [], [9]][d]?.getD []) flattened :=
  ⟨(withFlattened_lossless 3 (by decide)).1 _ (by decide) (by decide) (by decide),
    (withFlattened_lossless 4 (by decide)).2 _ (by decide) (by decide)⟩

end Lossless

/-! ## Repeated destinations -/

section Repeated

variable {T : Type}

/-- Every copy stays inside the block of its destination, and the block inside the flat
buffer. -/
def CopiesStayInside (messages : List (ℤ × List T)) (flattened : Flattened T) : Prop :=
  ∀ message ∈ messages, ∃ displ count : ℤ,
    flattened.sendDispls[message.1.toNat]? = some displ ∧
    flattened.sendCounts[message.1.toNat]? = some count ∧
    message.2.length ≤ count ∧
    (message.2 ≠ [] → 0 ≤ displ ∧ displ + count ≤ flattened.sendBuf.length)

/-- The block of every destination is the concatenation of its messages, and the copies
stay inside the blocks. -/
def KeepsEveryMessage (commSize : ℕ) (messages : List (ℤ × List T))
    (flattened : Flattened T) : Prop :=
  (∀ d < commSize, ∃ displ count : ℤ, flattened.sendDispls[d]? = some displ ∧
    flattened.sendCounts[d]? = some count ∧
    readBlock flattened.sendBuf displ count = some (withKey messages (d : ℤ)).flatten) ∧
  CopiesStayInside messages flattened

theorem length_of_copyMessages {sendDispls : List ℤ} {messages : List (ℤ × List T)}
    {buffer buffer' : List T} (hcopy : copyMessages sendDispls messages buffer = some buffer') :
    buffer'.length = buffer.length := by
  induction messages generalizing buffer with
  | nil => rw [Option.some.inj hcopy]
  | cons message messages ih =>
      obtain ⟨next, hmessage, hrest⟩ := Option.bind_eq_some_iff.mp hcopy
      rw [copyMessage, Option.ite_none_right_eq_some] at hmessage
      obtain ⟨displ, -, hwrite⟩ := Option.bind_eq_some_iff.mp hmessage.2
      rw [ih hrest, length_of_writeBlock hwrite]

/-- A list of messages whose elements are as many as those of the last one. -/
theorem dropLast_eq_nil_of_length_flatten {messages : List (List T)}
    (hlength : messages.flatten.length = (messages.getLast?.map List.length).getD 0) :
    ∀ message ∈ messages.dropLast, message = [] := by
  rcases List.eq_nil_or_concat' messages with rfl | ⟨front, last, rfl⟩
  · simp
  · rw [List.dropLast_concat]
    simp only [List.flatten_append, List.flatten_cons, List.flatten_nil, List.append_nil,
      List.length_append, List.getLast?_concat, Option.map_some, Option.getD_some] at hlength
    exact List.flatten_eq_nil_iff.mp (List.eq_nil_of_length_eq_zero (by omega))

variable [Inhabited T] {messages : List (ℕ × List T)} {commSize : ℕ} {flattened : Flattened T}

/-- What a flattening that returns has computed. -/
theorem withFlattened_cases (hdestinations : ∀ message ∈ messages, message.1 < commSize)
    (hflattened : withFlattened (atDestinations messages) commSize = some flattened) :
    0 < commSize ∧ flattened.sendBuf.length < 2 ^ 31 ∧
    flattened.sendCounts =
      ((List.range commSize).map (lastSize messages fun _ => 0)).map Nat.cast ∧
    flattened.sendDispls = exclusiveScan 0 flattened.sendCounts ∧
    copyMessages flattened.sendDispls (atDestinations messages)
      (List.replicate flattened.sendBuf.length default) = some flattened.sendBuf := by
  obtain ⟨sendCounts, hcounts, hflattened⟩ := Option.bind_eq_some_iff.mp hflattened
  obtain ⟨total, htotal, hflattened⟩ := Option.bind_eq_some_iff.mp hflattened
  obtain ⟨sendBuf, hcopies, hflattened⟩ := Option.bind_eq_some_iff.mp hflattened
  obtain rfl := Option.some.inj hflattened
  have hstored := storeCounts_eq hdestinations fun _ => 0
  have hzeros : ((List.range commSize).map fun _ => ((0 : ℕ) : ℤ)) =
      List.replicate commSize 0 := by simp
  rw [hzeros, hcounts] at hstored
  split_ifs at hstored with hsizes
  have hsendCounts : sendCounts =
      ((List.range commSize).map (lastSize messages fun _ => 0)).map Nat.cast := by
    rw [Option.some.inj hstored, List.map_map]
    rfl
  have hpos : 0 < commSize := by
    rw [Nat.pos_iff_ne_zero]
    rintro rfl
    rw [hsendCounts] at htotal
    simp [totalSendCount, exclusiveScan] at htotal
  have hlength := length_of_copyMessages hcopies
  rw [List.length_replicate] at hlength
  refine ⟨hpos, ?_, hsendCounts, rfl, by dsimp only; rwa [hlength]⟩
  rw [hsendCounts, totalSendCount_eq _ (by simpa using hpos),
    Option.ite_none_right_eq_some] at htotal
  have hlt := Int.bmod_lt (m := 2 ^ 32) (by decide)
    (x := (((List.range commSize).map (lastSize messages fun _ => 0)).sum : ℤ))
  have htotal := Option.some.inj htotal.2
  dsimp only
  omega

/-- A flattening that keeps every message of a destination keeps only the last one with
elements. -/
theorem onlyLastNonempty_of_keeps (hdestinations : ∀ message ∈ messages, message.1 < commSize)
    (hflattened : withFlattened (atDestinations messages) commSize = some flattened)
    (hkeeps : KeepsEveryMessage commSize (atDestinations messages) flattened) :
    OnlyLastNonempty messages := by
  obtain ⟨-, -, hcounts, -, -⟩ := withFlattened_cases hdestinations hflattened
  intro d
  by_cases hd : d < commSize
  · obtain ⟨displ, count, -, hcount, hread⟩ := hkeeps.1 d hd
    have hsize : ((lastSize messages (fun _ => 0) d : ℕ) : ℤ) = count := by
      rw [hcounts, List.map_map, List.getElem?_map, List.getElem?_range hd] at hcount
      exact Option.some.inj hcount
    have hlength := length_of_readBlock hread
    rw [withKey_atDestinations] at hlength
    apply dropLast_eq_nil_of_length_flatten
    rw [lastSize] at hsize
    omega
  · have hnil : withKey messages d = [] := withKey_eq_nil fun hmem => by
      obtain ⟨message, hmessage, rfl⟩ := List.mem_map.mp hmem
      exact hd (hdestinations message hmessage)
    simp [hnil]

omit [Inhabited T] in
/-- Every message is copied to a place inside the buffer. -/
theorem inside_of_copyMessages {sendDispls : List ℤ} {messages : List (ℤ × List T)}
    {buffer buffer' : List T} (hcopy : copyMessages sendDispls messages buffer = some buffer')
    {message : ℤ × List T} (hmem : message ∈ messages) {displ : ℤ}
    (hdispl : sendDispls[message.1.toNat]? = some displ) (hne : message.2 ≠ []) :
    displ + message.2.length ≤ buffer.length := by
  induction messages generalizing buffer with
  | nil => cases hmem
  | cons head messages ih =>
      obtain ⟨next, hhead, hrest⟩ := Option.bind_eq_some_iff.mp hcopy
      rw [copyMessage, Option.ite_none_right_eq_some] at hhead
      obtain ⟨start, hstart, hwrite⟩ := Option.bind_eq_some_iff.mp hhead.2
      obtain rfl | hmem := List.mem_cons.mp hmem
      · obtain rfl := Option.some.inj (hstart.symm.trans hdispl)
        rw [writeBlock, if_neg hne, Option.ite_none_right_eq_some] at hwrite
        exact hwrite.1.2
      · have hinside := ih hrest hmem
        rwa [length_of_writeBlock hwrite] at hinside

/-- A flattening that returns has a total that fits, if of the messages for one destination
only the last one has elements. -/
theorem elementCount_lt_of_returns (hdestinations : ∀ message ∈ messages, message.1 < commSize)
    (honly : OnlyLastNonempty messages)
    (hflattened : withFlattened (atDestinations messages) commSize = some flattened) :
    elementCount messages < 2 ^ 31 := by
  obtain ⟨-, hbuffer, hcounts, hdispls, hcopies⟩ := withFlattened_cases hdestinations hflattened
  rw [honly.lastSize] at hcounts
  rw [← sum_length_flatten_withKey hdestinations]
  -- a message at an exact displacement ends inside the machine integers
  apply sum_lt_of_blocks_lt (by decide)
  intro d size hsize hpos hbefore
  obtain ⟨hd, -⟩ := List.getElem?_eq_some_iff.mp hsize
  have hdispl := getElem?_exclusiveScan_natCast _ hd hbefore
  rw [← hcounts, ← hdispls] at hdispl
  rw [List.getElem?_map, List.getElem?_range (by simpa using hd), Option.map_some,
    Option.some.injEq] at hsize
  have hne : (withKey messages d).flatten ≠ [] := List.length_pos_iff.mp (by omega)
  obtain ⟨message, hkey, hmessage⟩ := List.flatten_ne_nil_iff.mp hne
  have hmem : (d, message) ∈ messages := by simpa [withKey] using hkey
  have hinside := inside_of_copyMessages hcopies (List.mem_map_of_mem hmem) hdispl hmessage
  rw [honly.flatten_of_mem hmem hmessage] at hsize
  rw [List.length_replicate] at hinside
  dsimp only at hinside hsize
  omega

/-- Blocks that all lie inside the flat buffer have a total that fits. -/
theorem elementCount_lt_of_keeps (hdestinations : ∀ message ∈ messages, message.1 < commSize)
    (hflattened : withFlattened (atDestinations messages) commSize = some flattened)
    (hkeeps : KeepsEveryMessage commSize (atDestinations messages) flattened) :
    elementCount messages < 2 ^ 31 :=
  elementCount_lt_of_returns hdestinations
    (onlyLastNonempty_of_keeps hdestinations hflattened hkeeps) hflattened

/-- So has a flattening of nested buffers that returns. -/
theorem sum_lt_of_withFlattenedNested {messages : List (List T)}
    (hflattened : withFlattenedNested messages messages.length = some flattened) :
    (messages.map List.length).sum < 2 ^ 31 := by
  rw [withFlattenedNested_byRank] at hflattened
  rw [← elementCount_byRank]
  exact elementCount_lt_of_returns (fun _ => lt_of_mem_byRank) (onlyLastNonempty_byRank messages)
    hflattened

omit [Inhabited T] in
theorem length_le_length_flatten {blocks : List (List T)} {block : List T}
    (hmem : block ∈ blocks) : block.length ≤ blocks.flatten.length := by
  rw [List.length_flatten]
  exact List.single_le_sum (fun _ _ => Nat.zero_le _) _ (List.mem_map_of_mem hmem)

omit [Inhabited T] in
/-- Messages in rank order are all kept. -/
theorem keepsEveryMessage_inRankOrder
    (hdestinations : ∀ message ∈ messages, message.1 < commSize) (hpos : 0 < commSize) :
    KeepsEveryMessage commSize (atDestinations messages)
      (inRankOrder commSize fun d => (withKey messages d).flatten) := by
  have hholds := holdsInRankOrder_inRankOrder hpos fun d => (withKey messages d).flatten
  have hinside : ∀ {displ count : ℕ} {block : List T},
      ((inRankOrder commSize fun d => (withKey messages d).flatten).sendBuf.drop displ).take
        count = block → count = block.length → count ≠ 0 → displ + count ≤
          (inRankOrder commSize fun d => (withKey messages d).flatten).sendBuf.length := by
    intro displ count block hblock hcount hne
    have hlength := congrArg List.length hblock
    rw [List.length_take, List.length_drop] at hlength
    omega
  constructor
  · intro d hd
    obtain ⟨displ, count, hdispl, hcount, hsize, hblock, -⟩ := hholds.block d hd
    refine ⟨displ, count, hdispl, hcount, ?_⟩
    rw [readBlock_natCast (hinside hblock hsize), hblock, withKey_atDestinations]
  · intro message hmem
    obtain ⟨original, horiginal, rfl⟩ := List.mem_map.mp hmem
    obtain ⟨displ, count, hdispl, hcount, hsize, hblock, -⟩ :=
      hholds.block original.1 (hdestinations _ horiginal)
    have hle := length_le_length_flatten (mem_withKey horiginal)
    refine ⟨displ, count, hdispl, hcount, by dsimp only; omega, fun hne => ?_⟩
    have hlength : 0 < original.2.length := List.length_pos_iff.mpr hne
    have hends := hinside hblock hsize (by omega)
    exact ⟨Int.natCast_nonneg _, by omega⟩

/-- Flattening keeps every message exactly if there is a rank, of the messages for one
destination only the last one has elements, and the total fits. -/
theorem withFlattened_keeps_iff {messages : List (ℤ × List T)} {commSize : ℕ}
    (hdestinations : ∀ message ∈ messages, 0 ≤ message.1 ∧ message.1 < commSize) :
    (∃ flattened, withFlattened messages commSize = some flattened ∧
      KeepsEveryMessage commSize messages flattened) ↔
    0 < commSize ∧ OnlyLastNonempty messages ∧ elementCount messages < 2 ^ 31 := by
  obtain ⟨naturals, rfl, hnaturals⟩ := exists_atDestinations hdestinations
  constructor
  · rintro ⟨flattened, hflattened, hkeeps⟩
    refine ⟨(withFlattened_cases hnaturals hflattened).1, ?_, ?_⟩
    · have honly := onlyLastNonempty_of_keeps hnaturals hflattened hkeeps
      intro destination
      by_cases hnonneg : 0 ≤ destination
      · rw [← Int.toNat_of_nonneg hnonneg, withKey_atDestinations]
        exact honly destination.toNat
      · have hnil : withKey (atDestinations naturals) destination = [] :=
          withKey_eq_nil fun hmem => by
            obtain ⟨message, hmessage, rfl⟩ := List.mem_map.mp hmem
            exact hnonneg (hdestinations message hmessage).1
        simp [hnil]
    · rw [elementCount_atDestinations]
      exact elementCount_lt_of_keeps hnaturals hflattened hkeeps
  · rintro ⟨hpos, honly, hfits⟩
    rw [elementCount_atDestinations] at hfits
    exact ⟨_, withFlattened_eq_some hpos hnaturals honly.of_atDestinations hfits,
      keepsEveryMessage_inRankOrder hnaturals hpos⟩

/-- The first message for rank 0 is cut to the size of the second one and overwritten. -/
theorem withFlattened_repeated :
    withFlattened [(0, [1, 2]), (0, [3]), (1, [4])] 2 =
        some { sendBuf := [3, 4], sendCounts := [1, 1], sendDispls := [0, 1] } ∧
      ¬ ∃ flattened, withFlattened [(0, [1, 2]), (0, [3]), (1, [4])] 2 = some flattened ∧
        KeepsEveryMessage 2 [(0, [1, 2]), (0, [3]), (1, [4])] flattened := by
  have hflattened : withFlattened [(0, [1, 2]), (0, [3]), (1, [4])] 2 =
      some { sendBuf := [3, 4], sendCounts := [1, 1], sendDispls := [0, 1] } := by decide
  refine ⟨hflattened, ?_⟩
  rintro ⟨flattened, h, hkeeps⟩
  obtain rfl := Option.some.inj (hflattened.symm.trans h)
  obtain ⟨displ, count, hdispl, hcount, hread⟩ := hkeeps.1 0 (by decide)
  obtain rfl := Option.some.inj hdispl
  obtain rfl := Option.some.inj hcount
  exact absurd hread (by decide)

/-- Repeated destinations with empty messages in front. -/
theorem withFlattened_keeps_empty :
    (∃ flattened, withFlattened [(1, []), (0, [3]), (1, [4])] 2 = some flattened ∧
      KeepsEveryMessage 2 [(1, []), (0, [3]), (1, [4])] flattened) ↔
    0 < 2 ∧ OnlyLastNonempty ([(1, []), (0, [3]), (1, [4])] : List (ℤ × List ℕ)) ∧
      elementCount ([(1, []), (0, [3]), (1, [4])] : List (ℤ × List ℕ)) < 2 ^ 31 :=
  withFlattened_keeps_iff (by decide)

end Repeated

end MpiBindings.Collectives
