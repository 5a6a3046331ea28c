import MpiBindings.ReproducibleReduce.Batching

/-!
# What a received message stores

The receive count of `receive` is a number of elements multiplied by an element
size, so the buffer has more slots than a message has entries.  The slots behind a
message hold entries of earlier messages or value-initialised ones, and they are put
into the inbox as well.  This file says when that does no harm.
-/

namespace MpiBindings.ReproducibleReduce

section Entries

variable {T : Type}

/-- Value of the last entry for an index. -/
def lastValue (entries : List (MessageBufferEntry T)) (index : ℕ) : Option T :=
  ((entries.filter fun entry => entry.index = index).getLast?).map MessageBufferEntry.value

theorem lastValue_append (first second : List (MessageBufferEntry T)) (index : ℕ) :
    lastValue (first ++ second) index = (lastValue second index).or (lastValue first index) := by
  rw [lastValue, List.filter_append, List.getLast?_append, lastValue, lastValue]
  cases (second.filter fun entry => decide (entry.index = index)).getLast? <;> rfl

/-- An index is absent exactly if no entry is for it. -/
theorem lastValue_eq_none_iff {entries : List (MessageBufferEntry T)} {index : ℕ} :
    lastValue entries index = none ↔ ∀ entry ∈ entries, entry.index ≠ index := by
  simp [lastValue]

/-- Each index of a message without repetitions has the value of its entry. -/
theorem lastValue_of_mem {entries : List (MessageBufferEntry T)}
    (hnodup : (entries.map MessageBufferEntry.index).Nodup) {entry : MessageBufferEntry T}
    (hentry : entry ∈ entries) : lastValue entries entry.index = some entry.value := by
  induction entries with
  | nil => cases hentry
  | cons first entries ih =>
      rw [List.map_cons, List.nodup_cons] at hnodup
      rw [← List.singleton_append, lastValue_append]
      obtain rfl | hentry := List.mem_cons.mp hentry
      · have hnone : lastValue entries entry.index = none :=
          lastValue_eq_none_iff.mpr fun other hother hindex =>
            hnodup.1 (hindex ▸ List.mem_map_of_mem hother)
        rw [hnone, Option.none_or]
        simp [lastValue]
      · rw [ih hnodup.2 hentry, Option.some_or]

theorem storeEntries_apply (entries : List (MessageBufferEntry T)) (inbox : ℕ → Option T)
    (index : ℕ) :
    MessageBuffer.storeEntries entries inbox index =
      (lastValue entries index).or (inbox index) := by
  induction entries using List.reverseRecOn with
  | nil => rfl
  | append_singleton entries entry ih =>
      rw [MessageBuffer.storeEntries, List.foldl_append, lastValue_append]
      by_cases hindex : entry.index = index
      · subst hindex
        simp [lastValue]
      · have hother : lastValue [entry] index = none := by simp [lastValue, hindex]
        rw [hother, Option.none_or, ← ih]
        exact Function.update_of_ne (Ne.symm hindex) _ _

/-- The inbox maps the indices of the message to its values and is unchanged at all
other indices. -/
structure StoresExactly (message : Message T) (before after : ℕ → Option T) : Prop where
  stored : ∀ index value, lastValue message index = some value → after index = some value
  kept : ∀ index, lastValue message index = none → after index = before index

theorem storesExactly_iff {message : Message T} {before after : ℕ → Option T} :
    StoresExactly message before after ↔
      ∀ index, after index = (lastValue message index).or (before index) := by
  constructor
  · rintro ⟨hstored, hkept⟩ index
    cases hvalue : lastValue message index with
    | none => exact hkept index hvalue
    | some value => exact hstored index value hvalue
  · intro hafter
    refine ⟨fun index value hvalue => ?_, fun index hnone => ?_⟩
    · rw [hafter, hvalue, Option.some_or]
    · rw [hafter, hnone, Option.none_or]

theorem StoresExactly.entry {message : Message T} {before after : ℕ → Option T}
    (hstores : StoresExactly message before after)
    (hnodup : (message.map MessageBufferEntry.index).Nodup) {entry : MessageBufferEntry T}
    (hentry : entry ∈ message) : after entry.index = some entry.value :=
  hstores.stored entry.index entry.value (lastValue_of_mem hnodup hentry)

end Entries

section Receive

open FaultingState Audited

variable {Rank T : Type} [Inhabited T]

/-- Slots of the receive buffer behind a message. -/
def leftover (sizeofEntry : ℕ+) (message : Message T) (mb : MessageBuffer Rank T) :
    List (MessageBufferEntry T) :=
  (MessageBuffer.resizeToFit (maxMessageLength * sizeofEntry) mb.buffer).drop message.length

/-- The last slot of every index behind the message repeats the value of the message
for that index, or else the value that the inbox already has for it. -/
def LeftoverAgrees (sizeofEntry : ℕ+) (message : Message T) (mb : MessageBuffer Rank T) : Prop :=
  ∀ index value, lastValue (leftover sizeofEntry message mb) index = some value →
    match lastValue message index with
    | some sent => value = sent
    | none => mb.inbox index = some value

/-- All slots are stored, those behind the message last. -/
theorem storeEntries_receiveInto (sizeofEntry : ℕ+) (message : Message T)
    (mb : MessageBuffer Rank T) (index : ℕ) :
    MessageBuffer.storeEntries (MessageBuffer.receiveInto message
        (MessageBuffer.resizeToFit (maxMessageLength * sizeofEntry) mb.buffer)) mb.inbox index =
      (lastValue (leftover sizeofEntry message mb) index).or
        ((lastValue message index).or (mb.inbox index)) := by
  rw [MessageBuffer.receiveInto, storeEntries_apply, lastValue_append, Option.or_assoc, leftover]

theorem storesExactly_receiveInto_iff (sizeofEntry : ℕ+) (message : Message T)
    (mb : MessageBuffer Rank T) :
    StoresExactly message mb.inbox (MessageBuffer.storeEntries (MessageBuffer.receiveInto message
        (MessageBuffer.resizeToFit (maxMessageLength * sizeofEntry) mb.buffer)) mb.inbox) ↔
      LeftoverAgrees sizeofEntry message mb := by
  simp only [storesExactly_iff, storeEntries_receiveInto, LeftoverAgrees]
  refine forall_congr' fun index => ?_
  cases lastValue (leftover sizeofEntry message mb) index with
  | none => simp
  | some value => cases lastValue message index <;> simp [eq_comm]

variable [DecidableEq Rank]

/-- `receive` with an arriving message of at most the length of a batch. -/
theorem wp_receive_message (sizeofEntry : ℕ+) {source : Rank} {audit : BufferAudit Rank T}
    {message : Message T} {rest : List (Message T)}
    {fails : BufferFault → BufferAudit Rank T → Prop} {post : Unit → BufferAudit Rank T → Prop}
    (hincoming : audit.incoming source = message :: rest)
    (hlength : message.length ≤ maxMessageLength) :
    wp fails ((auditEffects Rank T).receive sizeofEntry source) post audit ↔
      post () ((audit.takeMessage source).assign { audit.buffer with
        buffer := MessageBuffer.receiveInto message
          (MessageBuffer.resizeToFit (maxMessageLength * sizeofEntry) audit.buffer.buffer)
        inbox := MessageBuffer.storeEntries (MessageBuffer.receiveInto message
          (MessageBuffer.resizeToFit (maxMessageLength * sizeofEntry) audit.buffer.buffer))
            audit.buffer.inbox }) := by
  have hfits : message.length ≤ maxMessageLength * sizeofEntry :=
    hlength.trans (Nat.le_mul_of_pos_right _ sizeofEntry.pos)
  unfold BufferEffects.receive
  rw [wp_bind, wp_getBuffer, wp_bind, wp_recv, hincoming]
  dsimp only
  rw [wp_bind, wp_assertThat, if_pos hfits, wp_bind, wp_getBuffer, wp_setBuffer]
  rfl

/-- In every state that a sequence of calls reaches, a message of one to
`MAX_MESSAGE_LENGTH` entries is stored exactly if and only if the slots behind it
agree with the message and the inbox. -/
theorem receive_storesExactly_iff (sizeofEntry : ℕ+) (calls : List (BufferCall Rank T))
    (incoming : Rank → List (Message T)) :
    wp (fun _ _ => True) ((auditEffects Rank T).performAll sizeofEntry calls)
      (fun _ audit => ∀ source message rest, audit.incoming source = message :: rest →
        1 ≤ message.length → message.length ≤ maxMessageLength →
        wp (fun _ _ => False) ((auditEffects Rank T).receive sizeofEntry source)
          (fun _ after => StoresExactly message audit.buffer.inbox after.buffer.inbox ↔
            LeftoverAgrees sizeofEntry message audit.buffer) audit)
      (BufferAudit.initial incoming) := by
  refine wp_of_forall fun _ audit source message rest hincoming _ hlength => ?_
  rw [wp_receive_message sizeofEntry hincoming hlength]
  exact storesExactly_receiveInto_iff sizeofEntry message audit.buffer

/-- The first message leaves a value for index zero in the inbox, which it does not
contain. -/
theorem receive_stores_indexZero :
    wp (fun _ _ => False) ((auditEffects ℕ ℤ).receive 16 0)
      (fun _ after => after.buffer.inbox 0 = some 0 ∧ after.buffer.inbox 1 = some 7 ∧
        ¬ StoresExactly [⟨1, 7⟩] (MessageBuffer.initial ℕ ℤ).inbox after.buffer.inbox)
      (BufferAudit.initial fun _ => [[⟨1, 7⟩]]) := by
  refine (wp_receive_message 16 rfl (by decide)).mpr ?_
  have hzero : MessageBuffer.storeEntries (MessageBuffer.receiveInto [⟨1, 7⟩]
      (MessageBuffer.resizeToFit (maxMessageLength * (16 : ℕ+)) [])) (fun _ => none) 0 =
        some (0 : ℤ) := by decide +kernel
  refine ⟨hzero, by decide +kernel, fun hstores => ?_⟩
  have hkept := hstores.kept 0 rfl
  have hnone : some (0 : ℤ) = none := hzero.symm.trans hkept
  cases hnone

end Receive

end MpiBindings.ReproducibleReduce
