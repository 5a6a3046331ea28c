import MpiBindings.ReproducibleReduce.Sending
import Mathlib.Data.List.Nodup

/-!
# The receiving side of the message buffer

A slot of the receive buffer only ever holds indices that some expected message
has in that slot.  The first index of a message is therefore never left in the
inbox, so the next reduction asks for the message again, and the message
overwrites every stale entry before it is read.
-/

namespace MpiBindings.ReproducibleReduce

open MessagePassing Choreography

/-- Between the receptions of one reduction: every slot of the receive buffer
holds indices that belong to it, and no index of the first slot is left in the
inbox.  `slot` is the position of an index in the message that carries it. -/
structure InboxInvariant {Rank T : Type} (slot : ℕ → ℕ) (mb : MessageBuffer Rank T) :
    Prop where
  aligned : ∀ s entry, mb.buffer[s]? = some entry → entry.index = 0 ∨ slot entry.index = s
  firstTaken : ∀ index value, mb.inbox index = some value → index = 0 ∨ 0 < slot index

/-- The part of the inbox invariant that concerns the current reduction:
`received` indices have arrived, those of `held` have not been asked for. -/
structure InboxHolds {Rank T : Type} (values : ℕ → T) (mb : MessageBuffer Rank T)
    (received held : List ℕ) : Prop where
  nonzero : ∀ index ∈ received, index ≠ 0
  fresh : ∀ entry ∈ mb.buffer, entry.index ∈ received → entry.value = values entry.index
  present : ∀ index ∈ held, index ∈ received ∧ mb.inbox index = some (values index)

/-- The indices of a message stand in their slots. -/
def Aligned (slot : ℕ → ℕ) (indices : List ℕ) : Prop :=
  ∀ s index, indices[s]? = some index → index ≠ 0 ∧ slot index = s

section Receiving

variable {Rank T : Type} [Inhabited T] (me : Rank) {values : ℕ → T}
variable {state state' : RankState Rank T} {outbox : Outbox Rank} {slot : ℕ → ℕ}

omit [Inhabited T] in
/-- The last entry with a given index decides. -/
theorem storeEntries_of_forall {buffer : List (MessageBufferEntry T)} {index : ℕ} {value : T}
    (inbox : ℕ → Option T)
    (hvalue : ∀ entry ∈ buffer, entry.index = index → entry.value = value)
    (hpresent : inbox index = some value ∨ ∃ entry ∈ buffer, entry.index = index) :
    MessageBuffer.storeEntries buffer inbox index = some value := by
  induction buffer generalizing inbox with
  | nil => simpa [MessageBuffer.storeEntries] using hpresent
  | cons entry buffer ih =>
      refine ih _ (fun other hother => hvalue other (List.mem_cons_of_mem _ hother)) ?_
      by_cases hentry : entry.index = index
      · left
        simp [← hentry, hvalue entry List.mem_cons_self hentry]
      · obtain hinbox | ⟨other, hother, hindex⟩ := hpresent
        · left
          simpa [Function.update_of_ne (Ne.symm hentry)] using hinbox
        · obtain rfl | hother := List.mem_cons.mp hother
          · exact absurd hindex hentry
          · exact Or.inr ⟨other, hother, hindex⟩

omit [Inhabited T] in
/-- A key of the inbox was there before or comes from the buffer. -/
theorem storeEntries_eq_some {buffer : List (MessageBufferEntry T)} {index : ℕ} {value : T}
    (inbox : ℕ → Option T)
    (hvalue : MessageBuffer.storeEntries buffer inbox index = some value) :
    inbox index = some value ∨ ∃ entry ∈ buffer, entry.index = index := by
  induction buffer generalizing inbox with
  | nil => exact Or.inl hvalue
  | cons entry buffer ih =>
      obtain hinbox | ⟨other, hother, hindex⟩ := ih _ hvalue
      · by_cases hentry : entry.index = index
        · exact Or.inr ⟨entry, List.mem_cons_self, hentry⟩
        · left
          simpa [Function.update_of_ne (Ne.symm hentry)] using hinbox
      · exact Or.inr ⟨other, List.mem_cons_of_mem _ hother, hindex⟩

/-- The buffer after a reception: the message, followed by stale entries and
value-initialised ones. -/
def bufferAfter (sizeofEntry : ℕ+) (message : Message T)
    (buffer : List (MessageBufferEntry T)) : List (MessageBufferEntry T) :=
  MessageBuffer.receiveInto message
    (MessageBuffer.resizeToFit (maxMessageLength * sizeofEntry) buffer)

theorem getElem?_bufferAfter {sizeofEntry : ℕ+} {message : Message T}
    {buffer : List (MessageBufferEntry T)} {s : ℕ} {entry : MessageBufferEntry T}
    (hentry : (bufferAfter sizeofEntry message buffer)[s]? = some entry) :
    message[s]? = some entry ∨ message.length ≤ s ∧
      (buffer[s]? = some entry ∨ entry = default) := by
  by_cases hlength : s < message.length
  · rw [bufferAfter, MessageBuffer.receiveInto, List.getElem?_append_left hlength] at hentry
    exact Or.inl hentry
  · have hle : message.length ≤ s := Nat.le_of_not_lt hlength
    rw [bufferAfter, MessageBuffer.receiveInto, List.getElem?_append_right hle,
      List.getElem?_drop, Nat.add_sub_cancel' hle, MessageBuffer.resizeToFit,
      List.getElem?_append] at hentry
    refine Or.inr ⟨hle, ?_⟩
    split at hentry
    · exact Or.inl (by grind)
    · exact Or.inr (by grind)

/-- State after the reception of a message. -/
def stateAfter (sizeofEntry : ℕ+) (message : Message T) (state : RankState Rank T) :
    RankState Rank T where
  messageBuffer := { state.messageBuffer with
    buffer := bufferAfter sizeofEntry message state.messageBuffer.buffer
    inbox := MessageBuffer.storeEntries
      (bufferAfter sizeofEntry message state.messageBuffer.buffer) state.messageBuffer.inbox }
  reduceBuffer := state.reduceBuffer

theorem runs_receive (sizeofEntry : ℕ+) (source : Rank) {message : Message T}
    (hclear : state.messageBuffer.sendBufferClear = true)
    (hlength : message.length ≤ maxMessageLength) :
    Runs me (MessageBuffer.receive sizeofEntry source) state [.message source me message] ()
      (stateAfter sizeofEntry message state) := by
  refine Runs.getBuffer.bind_silent ?_
  have hrecv : Runs me (Program.recv source) state [.message source me message] message
      state := by
    unfold Runs
    rw [hclear]
    exact Follows.recv (Follows.done _)
  refine hrecv.bind_last ?_
  · refine Runs.bind_silent (Runs.assertThat ?_) ?_
    · exact hlength.trans (Nat.le_mul_of_pos_right _ sizeofEntry.pos)
    · exact Runs.getBuffer.bind_silent (Runs.setBuffer rfl)

/-- State after an index was taken out of the inbox. -/
def stateTaken (index : ℕ) (state : RankState Rank T) : RankState Rank T where
  messageBuffer := { state.messageBuffer with
    inbox := Function.update state.messageBuffer.inbox index none }
  reduceBuffer := state.reduceBuffer

omit [Inhabited T] in
theorem InboxInvariant.taken (hinvariant : InboxInvariant slot state.messageBuffer)
    (index : ℕ) : InboxInvariant slot (stateTaken index state).messageBuffer := by
  refine ⟨hinvariant.aligned, fun other value hvalue => ?_⟩
  by_cases hother : other = index
  · simp [stateTaken, hother] at hvalue
  · exact hinvariant.firstTaken other value
      (by simpa [stateTaken, Function.update_of_ne hother] using hvalue)

omit [Inhabited T] in
theorem InboxHolds.taken {received held : List ℕ} {index : ℕ}
    (hholds : InboxHolds values state.messageBuffer received (index :: held))
    (hnotMem : index ∉ held) :
    InboxHolds values (stateTaken index state).messageBuffer received held := by
  refine ⟨hholds.nonzero, hholds.fresh, fun other hother => ?_⟩
  obtain ⟨hreceived, hinbox⟩ := hholds.present other (List.mem_cons_of_mem _ hother)
  have hne : other ≠ index := fun heq => hnotMem (heq ▸ hother)
  exact ⟨hreceived, by simpa [stateTaken, Function.update_of_ne hne] using hinbox⟩

/-- A message overwrites the first slot, so apart from its first index only
indices of later slots enter the inbox. -/
theorem InboxInvariant.afterReceive {index : ℕ} {rest : List ℕ} (sizeofEntry : ℕ+)
    (hinvariant : InboxInvariant slot state.messageBuffer)
    (haligned : Aligned slot (index :: rest)) :
    InboxInvariant slot (stateTaken index (stateAfter sizeofEntry
      (entriesOf values (index :: rest)) state)).messageBuffer := by
  have hbuffer : ∀ s entry, (bufferAfter sizeofEntry (entriesOf values (index :: rest))
      state.messageBuffer.buffer)[s]? = some entry → entry.index = 0 ∨ slot entry.index = s := by
    intro s entry hentry
    obtain hmessage | ⟨-, hstale | rfl⟩ := getElem?_bufferAfter hentry
    · simp only [entriesOf, List.getElem?_map, Option.map_eq_some_iff] at hmessage
      obtain ⟨other, hother, rfl⟩ := hmessage
      exact Or.inr (haligned s other hother).2
    · exact hinvariant.aligned s entry hstale
    · exact Or.inl rfl
  refine ⟨hbuffer, fun other value hvalue => ?_⟩
  by_cases hother : other = index
  · simp [stateTaken, hother] at hvalue
  simp only [stateTaken, stateAfter, Function.update_of_ne hother] at hvalue
  obtain hinbox | ⟨entry, hentry, rfl⟩ := storeEntries_eq_some _ hvalue
  · exact hinvariant.firstTaken other value hinbox
  · obtain ⟨s, hs⟩ := List.mem_iff_getElem?.mp hentry
    refine (hbuffer s entry hs).imp id fun hslot => ?_
    rw [hslot, Nat.pos_iff_ne_zero]
    rintro rfl
    simp only [bufferAfter, MessageBuffer.receiveInto, entriesOf, List.map_cons,
      List.cons_append, List.getElem?_cons_zero, Option.some.injEq] at hs
    exact hother (congrArg MessageBufferEntry.index hs.symm)

/-- Every received index has the value of the current reduction in the buffer,
the stale entries included. -/
theorem InboxHolds.afterReceive {received indices : List ℕ} (sizeofEntry : ℕ+)
    (hinvariant : InboxInvariant slot state.messageBuffer)
    (hholds : InboxHolds values state.messageBuffer received [])
    (haligned : Aligned slot indices) :
    InboxHolds values (stateAfter sizeofEntry (entriesOf values indices) state).messageBuffer
      (received ++ indices) indices := by
  have hnonzero : ∀ index ∈ indices, index ≠ 0 := by
    intro index hindex
    obtain ⟨s, hs⟩ := List.mem_iff_getElem?.mp hindex
    exact (haligned s index hs).1
  have hall : ∀ index ∈ received ++ indices, index ≠ 0 := by
    intro index hindex
    obtain hindex | hindex := List.mem_append.mp hindex
    · exact hholds.nonzero index hindex
    · exact hnonzero index hindex
  have hfresh : ∀ entry ∈ bufferAfter sizeofEntry (entriesOf values indices)
      state.messageBuffer.buffer, entry.index ∈ received ++ indices →
        entry.value = values entry.index := by
    intro entry hentry hindex
    obtain ⟨s, hs⟩ := List.mem_iff_getElem?.mp hentry
    obtain hmessage | ⟨hle, hstale | rfl⟩ := getElem?_bufferAfter hs
    · simp only [entriesOf, List.getElem?_map, Option.map_eq_some_iff] at hmessage
      obtain ⟨other, -, rfl⟩ := hmessage
      rfl
    · obtain hreceived | hindex := List.mem_append.mp hindex
      · exact hholds.fresh entry (List.mem_of_getElem? hstale) hreceived
      · obtain ⟨s', hs'⟩ := List.mem_iff_getElem?.mp hindex
        obtain ⟨hne, hslot'⟩ := haligned s' entry.index hs'
        have hslot := (hinvariant.aligned s entry hstale).resolve_left hne
        have hlt : s' < indices.length := (List.getElem?_eq_some_iff.mp hs').1
        simp only [entriesOf, List.length_map] at hle
        omega
    · exact absurd rfl (hall 0 hindex)
  refine ⟨hall, hfresh, fun index hindex => ⟨List.mem_append_right _ hindex, ?_⟩⟩
  have hmem : (⟨index, values index⟩ : MessageBufferEntry T) ∈
      bufferAfter sizeofEntry (entriesOf values indices) state.messageBuffer.buffer :=
    List.mem_append_left _ (List.mem_map.mpr ⟨index, hindex, rfl⟩)
  refine storeEntries_of_forall _ (fun entry hentry heq => ?_) (Or.inr ⟨_, hmem, rfl⟩)
  rw [hfresh entry hentry (List.mem_append_right _ (heq ▸ hindex)), heq]

omit [Inhabited T] in
theorem Aligned.nodup {indices : List ℕ} (haligned : Aligned slot indices) :
    indices.Nodup := by
  rw [List.nodup_iff_getElem?_ne_getElem?]
  intro s s' hlt hs' heq
  have hs := List.getElem?_eq_getElem hs'
  have hslot := (haligned s' _ hs).2
  have hslot' := (haligned s _ (heq.trans hs)).2
  omega

/-- What is known about the message buffer in the middle of a reduction. -/
structure BufferHolds {Rank T : Type} (slot : ℕ → ℕ) (values : ℕ → T)
    (mb : MessageBuffer Rank T) (outbox : Outbox Rank) (received held : List ℕ) :
    Prop where
  outbox : OutboxHolds values mb outbox
  invariant : InboxInvariant slot mb
  inbox : InboxHolds values mb received held

omit [Inhabited T] in
theorem BufferHolds.sameInbox {outbox' : Outbox Rank} {received held : List ℕ}
    (hholds : BufferHolds slot values state.messageBuffer outbox received held)
    (hsame : SameInbox state state')
    (houtbox : OutboxHolds values state'.messageBuffer outbox') :
    BufferHolds slot values state'.messageBuffer outbox' received held := by
  obtain ⟨-, ⟨haligned, hfirst⟩, ⟨hnonzero, hfresh, hpresent⟩⟩ := hholds
  refine ⟨houtbox, ⟨?_, ?_⟩, ⟨hnonzero, ?_, ?_⟩⟩
  · rwa [hsame.buffer]
  · rwa [hsame.inbox]
  · rwa [hsame.buffer]
  · rwa [hsame.inbox]

/-- An index that came with an earlier one is taken out of the inbox. -/
theorem runs_get_held {received held : List ℕ} {index : ℕ} (sizeofEntry : ℕ+)
    (source : Rank) (hnotMem : index ∉ held)
    (hholds : BufferHolds slot values state.messageBuffer outbox received (index :: held)) :
    ∃ state', Runs me (MessageBuffer.get sizeofEntry source index) state [] (values index)
        state' ∧
      BufferHolds slot values state'.messageBuffer outbox received held ∧
      state'.reduceBuffer = state.reduceBuffer := by
  refine ⟨stateTaken index state, ?_, ⟨hholds.outbox, hholds.invariant.taken index,
    hholds.inbox.taken hnotMem⟩, rfl⟩
  refine Runs.getBuffer.bind_silent ?_
  simp only [(hholds.inbox.present index List.mem_cons_self).2]
  exact Runs.bind_silent (Runs.setBuffer rfl) (Runs.pure _)

/-- The first index of a message is not in the inbox: the pending batch is sent
and the message is received. -/
theorem runs_get_first {received rest : List ℕ} {index : ℕ} (sizeofEntry : ℕ+)
    (source : Rank) (haligned : Aligned slot (index :: rest))
    (hlength : (index :: rest).length ≤ maxMessageLength)
    (hholds : BufferHolds slot values state.messageBuffer outbox received []) :
    ∃ state', Runs me (MessageBuffer.get sizeofEntry source index) state
        (outbox.toList.map (Batch.event me values) ++
          [.message source me (entriesOf values (index :: rest))]) (values index) state' ∧
      BufferHolds slot values state'.messageBuffer none (received ++ index :: rest) rest ∧
      state'.reduceBuffer = state.reduceBuffer := by
  obtain ⟨flushed, hflush, hflushed, hflushedInbox⟩ := runs_flush me hholds.outbox
  obtain ⟨clear, hwait, hclearOutbox, hclear, hclearInbox⟩ := runs_wait me hflushed
  have hsame := hflushedInbox.trans hclearInbox
  obtain ⟨-, hinvariant, hinbox⟩ := hholds.sameInbox hsame hclearOutbox
  obtain ⟨hne, hslot⟩ := haligned 0 index rfl
  have hmissing : state.messageBuffer.inbox index = none := by
    cases hvalue : state.messageBuffer.inbox index with
    | none => rfl
    | some value =>
        have := (hholds.invariant.firstTaken index value hvalue).resolve_left hne
        omega
  have hafter := hinbox.afterReceive sizeofEntry hinvariant haligned
  refine ⟨stateTaken index (stateAfter sizeofEntry (entriesOf values (index :: rest)) clear),
    ?_, ⟨⟨hclearOutbox.1, hclearOutbox.2⟩, hinvariant.afterReceive sizeofEntry haligned,
    hafter.taken (List.nodup_cons.mp haligned.nodup).1⟩, hsame.reduceBuffer⟩
  refine Runs.getBuffer.bind_silent ?_
  simp only [hmissing]
  refine hflush.bind (hwait.bind_silent ?_)
  refine (runs_receive me sizeofEntry source hclear
    (by simpa [entriesOf] using hlength)).bind_last ?_
  refine Runs.getBuffer.bind_silent ?_
  simp only [(hafter.present index List.mem_cons_self).2]
  exact Runs.bind_silent (Runs.setBuffer rfl) (Runs.pure _)

end Receiving

/-! ## Expected messages -/

/-- A message that a rank expects: its sender and its indices. -/
structure Delivery (Rank : Type) where
  source : Rank
  indices : List ℕ
  deriving DecidableEq

/-- Communication event of a delivery to `me`. -/
def Delivery.event {Rank T : Type} (me : Rank) (values : ℕ → T) (delivery : Delivery Rank) :
    Event Rank (Message T) T :=
  .message delivery.source me (entriesOf values delivery.indices)

structure Delivery.WellFormed {Rank : Type} (slot : ℕ → ℕ) (sourceOf : ℕ → Option Rank)
    (delivery : Delivery Rank) : Prop where
  nonempty : delivery.indices ≠ []
  length_le : delivery.indices.length ≤ maxMessageLength
  aligned : Aligned slot delivery.indices
  source_eq : ∀ index ∈ delivery.indices, sourceOf index = some delivery.source

/-- The rank asks for the indices of `queue` in this order: some are left from
the last message, the others arrive with the messages of `incoming`. -/
def Awaits {Rank T : Type} (slot : ℕ → ℕ) (sourceOf : ℕ → Option Rank) (values : ℕ → T)
    (mb : MessageBuffer Rank T) (outbox : Outbox Rank) (incoming : List (Delivery Rank))
    (queue : List ℕ) : Prop :=
  ∃ received held, BufferHolds slot values mb outbox received held ∧ held.Nodup ∧
    (∀ index ∈ held, (sourceOf index).isSome) ∧
    (∀ delivery ∈ incoming, delivery.WellFormed slot sourceOf) ∧
    queue = held ++ incoming.flatMap Delivery.indices

/-- Communication until all expected messages have arrived: the first one is only
awaited after the pending batch is sent. -/
def receptionTrace {Rank T : Type} (me : Rank) (values : ℕ → T) (outbox : Outbox Rank) :
    List (Delivery Rank) → List (Event Rank (Message T) T)
  | [] => []
  | delivery :: incoming =>
      outbox.toList.map (Batch.event me values) ++
        (delivery :: incoming).map (Delivery.event me values)

theorem receptionTrace_none {Rank T : Type} (me : Rank) (values : ℕ → T)
    (incoming : List (Delivery Rank)) :
    receptionTrace me values none incoming = incoming.map (Delivery.event me values) := by
  cases incoming <;> rfl

/-- The outbox after the expected messages have arrived. -/
def outboxAfter {Rank : Type} (outbox : Outbox Rank) : List (Delivery Rank) → Outbox Rank
  | [] => outbox
  | _ :: _ => none

section Expected

variable {Rank T : Type} [Inhabited T] (me : Rank) {values : ℕ → T}
variable {state : RankState Rank T} {outbox : Outbox Rank} {slot : ℕ → ℕ}
variable {sourceOf : ℕ → Option Rank} {incoming : List (Delivery Rank)} {queue : List ℕ}

omit [Inhabited T] in
theorem Awaits.nil (hholds : BufferHolds slot values state.messageBuffer outbox [] [])
    (hincoming : ∀ delivery ∈ incoming, delivery.WellFormed slot sourceOf) :
    Awaits slot sourceOf values state.messageBuffer outbox incoming
      (incoming.flatMap Delivery.indices) :=
  ⟨[], [], hholds, List.nodup_nil, by simp, hincoming, by simp⟩

omit [Inhabited T] in
/-- Without open requests no message is expected any more. -/
theorem Awaits.eq_nil
    (hawaits : Awaits slot sourceOf values state.messageBuffer outbox incoming []) :
    incoming = [] ∧ ∃ received, BufferHolds slot values state.messageBuffer outbox received [] := by
  obtain ⟨received, held, hholds, -, -, hincoming, hqueue⟩ := hawaits
  obtain ⟨rfl, hindices⟩ := List.append_eq_nil_iff.mp hqueue.symm
  refine ⟨?_, received, hholds⟩
  cases incoming with
  | nil => rfl
  | cons delivery incoming =>
      exact absurd (List.flatMap_eq_nil_iff.mp hindices delivery List.mem_cons_self)
        (hincoming delivery List.mem_cons_self).nonempty

omit [Inhabited T] in
/-- A new round of requests begins after all earlier ones were served. -/
theorem Awaits.renew
    (hawaits : Awaits slot sourceOf values state.messageBuffer outbox [] [])
    (hincoming : ∀ delivery ∈ incoming, delivery.WellFormed slot sourceOf) :
    Awaits slot sourceOf values state.messageBuffer outbox incoming
      (incoming.flatMap Delivery.indices) := by
  obtain ⟨-, received, hholds⟩ := hawaits.eq_nil
  exact ⟨received, [], hholds, List.nodup_nil, by simp, hincoming, rfl⟩

omit [Inhabited T] in
theorem Awaits.sameInbox
    {state' : RankState Rank T} {outbox' : Outbox Rank}
    (hawaits : Awaits slot sourceOf values state.messageBuffer outbox [] [])
    (hsame : SameInbox state state')
    (houtbox : OutboxHolds values state'.messageBuffer outbox') :
    Awaits slot sourceOf values state'.messageBuffer outbox' [] [] := by
  obtain ⟨-, received, hholds⟩ := hawaits.eq_nil
  exact ⟨received, [], hholds.sameInbox hsame houtbox, List.nodup_nil, by simp, by simp, rfl⟩

omit [Inhabited T] in
theorem Awaits.outboxHolds
    (hawaits : Awaits slot sourceOf values state.messageBuffer outbox [] []) :
    OutboxHolds values state.messageBuffer outbox := by
  obtain ⟨-, received, hholds⟩ := hawaits.eq_nil
  exact hholds.outbox

/-- `get` serves the next request, from the inbox or by receiving a message. -/
theorem runs_get {index : ℕ} (sizeofEntry : ℕ+)
    (hawaits : Awaits slot sourceOf values state.messageBuffer outbox incoming
      (index :: queue)) :
    ∃ source trace outbox' incoming' state', sourceOf index = some source ∧
      Runs me (MessageBuffer.get sizeofEntry source index) state trace (values index) state' ∧
      Awaits slot sourceOf values state'.messageBuffer outbox' incoming' queue ∧
      trace ++ receptionTrace me values outbox' incoming' =
        receptionTrace me values outbox incoming ∧
      outboxAfter outbox' incoming' = outboxAfter outbox incoming ∧
      state'.reduceBuffer = state.reduceBuffer := by
  obtain ⟨received, held, hholds, hnodup, hheld, hincoming, hqueue⟩ := hawaits
  cases held with
  | cons next held =>
      simp only [List.cons_append, List.cons.injEq] at hqueue
      obtain ⟨rfl, rfl⟩ := hqueue
      obtain ⟨hnotMem, hnodup⟩ := List.nodup_cons.mp hnodup
      obtain ⟨source, hsource⟩ := Option.isSome_iff_exists.mp (hheld index List.mem_cons_self)
      obtain ⟨state', hruns, hholds', hreduce⟩ :=
        runs_get_held me sizeofEntry source hnotMem hholds
      exact ⟨source, [], outbox, incoming, state', hsource, hruns,
        ⟨received, held, hholds', hnodup, fun other hother =>
          hheld other (List.mem_cons_of_mem _ hother), hincoming, rfl⟩, rfl, rfl, hreduce⟩
  | nil =>
      cases incoming with
      | nil => simp at hqueue
      | cons delivery incoming =>
          obtain ⟨source, indices⟩ := delivery
          have hdelivery := hincoming _ List.mem_cons_self
          cases indices with
          | nil => exact absurd rfl hdelivery.nonempty
          | cons first rest =>
              simp only [List.nil_append, List.flatMap_cons, List.cons_append,
                List.cons.injEq] at hqueue
              obtain ⟨rfl, rfl⟩ := hqueue
              obtain ⟨state', hruns, hholds', hreduce⟩ := runs_get_first me
                sizeofEntry source hdelivery.aligned hdelivery.length_le hholds
              refine ⟨source, _, none, incoming, state',
                hdelivery.source_eq _ List.mem_cons_self, hruns,
                ⟨received ++ index :: rest, rest, hholds',
                  (List.nodup_cons.mp hdelivery.aligned.nodup).2, ?_, ?_, rfl⟩, ?_, ?_,
                hreduce⟩
              · intro other hother
                rw [hdelivery.source_eq other (List.mem_cons_of_mem _ hother)]
                rfl
              · exact fun other hother => hincoming other (List.mem_cons_of_mem _ hother)
              · cases incoming <;> simp [receptionTrace, Delivery.event]
              · cases incoming <;> rfl

end Expected

end MpiBindings.ReproducibleReduce
