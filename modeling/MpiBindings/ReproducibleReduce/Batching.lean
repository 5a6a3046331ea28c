import MpiBindings.ReproducibleReduce.BufferAudit

/-!
# Batching

Over any sequence of calls the outbox is either collecting for one rank, handed to
a pending send, or empty.  What was sent to a rank together with what is collected
for it is the sequence of entries put for it.
-/

namespace MpiBindings.ReproducibleReduce

/-- A call of an operation of the message buffer. -/
inductive BufferCall (Rank T : Type) where
  | put (target : Rank) (index : ℕ) (value : T)
  | get (source : Rank) (index : ℕ)
  | flush
  | wait
  | receive (source : Rank)

section Calls

variable {Rank T : Type} [DecidableEq Rank] [Inhabited T] {m : Type → Type} [Monad m]

def BufferEffects.perform (effects : BufferEffects Rank T m) (sizeofEntry : ℕ+) :
    BufferCall Rank T → m Unit
  | .put target index value => effects.put target index value
  | .get source index => do
      let _ ← effects.get sizeofEntry source index
      return ()
  | .flush => effects.flush
  | .wait => effects.wait
  | .receive source => effects.receive sizeofEntry source

def BufferEffects.performAll (effects : BufferEffects Rank T m) (sizeofEntry : ℕ+) :
    List (BufferCall Rank T) → m Unit
  | [] => return ()
  | call :: calls => do
      effects.perform sizeofEntry call
      effects.performAll sizeofEntry calls

end Calls

section Observations

variable {Rank T : Type} [DecidableEq Rank]

omit [DecidableEq Rank] in
/-- Calls that may wait for a message. -/
def BufferCall.Receives : BufferCall Rank T → Prop
  | .get _ _ | .receive _ => True
  | .put _ _ _ | .flush | .wait => False

/-- Entries that a call puts for a rank. -/
def BufferCall.entriesFor (target : Rank) : BufferCall Rank T → List (MessageBufferEntry T)
  | .put dst index value => if dst = target then [⟨index, value⟩] else []
  | _ => []

/-- Entries of the messages to a rank. -/
def BufferEvent.entriesTo (target : Rank) : BufferEvent Rank T → List (MessageBufferEntry T)
  | .sent _ dst message => if dst = target then message else []
  | .outboxWritten _ _ _ => []

omit [DecidableEq Rank] in
/-- The outbox is not changed and no request replaced while a send is pending, and a
message has the length of a batch. -/
def BufferEvent.Orderly : BufferEvent Rank T → Prop
  | .outboxWritten pending before after => pending = true → after = before
  | .sent pending _ message =>
      pending = false ∧ 1 ≤ message.length ∧ message.length ≤ maxMessageLength

/-- Entries that are collected for a rank and not sent yet. -/
def MessageBuffer.unsent (mb : MessageBuffer Rank T) (target : Rank) :
    List (MessageBufferEntry T) :=
  if mb.targetRank = some target then mb.outbox else []

/-- The sending side of an audited buffer after the given entries were put for each
rank. -/
structure Collected (puts : Rank → List (MessageBufferEntry T)) (audit : BufferAudit Rank T) :
    Prop where
  pending : audit.pending = !audit.buffer.sendBufferClear
  collecting : ∀ target, audit.buffer.targetRank = some target →
    audit.buffer.sendBufferClear = true ∧ audit.buffer.outbox ≠ [] ∧
      audit.buffer.outbox.length ≤ maxMessageLength
  idle : audit.buffer.targetRank = none → audit.buffer.sendBufferClear = true →
    audit.buffer.outbox = []
  orderly : ∀ event ∈ audit.log, event.Orderly
  delivered : ∀ target, audit.log.flatMap (BufferEvent.entriesTo target) ++
    audit.buffer.unsent target = puts target

/-- A collected batch has room for another entry. -/
def HasRoom (audit : BufferAudit Rank T) : Prop :=
  audit.buffer.targetRank ≠ none → audit.buffer.outbox.length < maxMessageLength

/-- The faults of a call are those of receiving, and nothing disorderly happened. -/
def ReceivingFault (fault : BufferFault) (audit : BufferAudit Rank T) : Prop :=
  fault ≠ .capacity ∧ fault ≠ .noRequest ∧ ∀ event ∈ audit.log, event.Orderly

end Observations

/-! ## Operations -/

section Operations

open FaultingState Audited

variable {Rank T : Type} [DecidableEq Rank] {puts : Rank → List (MessageBufferEntry T)}
variable {audit : BufferAudit Rank T}
variable {fails : BufferFault → BufferAudit Rank T → Prop}
variable {post : Unit → BufferAudit Rank T → Prop}

omit [DecidableEq Rank] in
theorem orderly_append {log : List (BufferEvent Rank T)} {event : BufferEvent Rank T}
    (hlog : ∀ earlier ∈ log, earlier.Orderly) (hevent : event.Orderly) :
    ∀ earlier ∈ log ++ [event], earlier.Orderly := by
  intro earlier hearlier
  obtain hearlier | hearlier := List.mem_append.mp hearlier
  · exact hlog earlier hearlier
  · rwa [List.mem_singleton.mp hearlier]

/-- What was collected is sent as one message. -/
theorem wp_flush (hcollected : Collected puts audit)
    (hpost : ∀ after, Collected puts after → after.buffer.targetRank = none → post () after) :
    wp fails (auditEffects Rank T).flush post audit := by
  unfold BufferEffects.flush
  rw [wp_bind, wp_getBuffer]
  cases htarget : audit.buffer.targetRank with
  | none => exact hpost audit hcollected htarget
  | some target =>
      obtain ⟨hclear, hne, hlength⟩ := hcollected.collecting target htarget
      have hpending : audit.pending = false := by rw [hcollected.pending, hclear]; rfl
      have hsome : audit.buffer.outbox.isEmpty = false := by simpa using hne
      simp only [hsome, Bool.false_eq_true, if_false]
      rw [wp_bind, wp_isend, wp_setBuffer]
      refine hpost _ ⟨rfl, nofun, nofun, ?_, fun other => ?_⟩ rfl
      · refine orderly_append (orderly_append hcollected.orderly ?_) fun _ => rfl
        exact ⟨hpending, List.length_pos_iff.mpr hne, hlength⟩
      · rw [← hcollected.delivered other]
        simp [BufferEvent.entriesTo, MessageBuffer.unsent, htarget]

/-- A pending send is completed and its outbox is emptied. -/
theorem wp_wait (hcollected : Collected puts audit)
    (hpost : ∀ after, Collected puts after → after.buffer.sendBufferClear = true →
      after.buffer.targetRank = audit.buffer.targetRank →
      (audit.buffer.targetRank ≠ none → after.buffer.outbox = audit.buffer.outbox) →
      post () after) :
    wp fails (auditEffects Rank T).wait post audit := by
  unfold BufferEffects.wait
  rw [wp_bind, wp_getBuffer]
  cases hclear : audit.buffer.sendBufferClear with
  | true => exact hpost audit hcollected hclear rfl fun _ => rfl
  | false =>
      have htarget : audit.buffer.targetRank = none := by
        cases htarget : audit.buffer.targetRank with
        | none => rfl
        | some target =>
            have := (hcollected.collecting target htarget).1
            rw [hclear] at this
            cases this
      have hpending : audit.pending = true := by rw [hcollected.pending, hclear]; rfl
      simp only [Bool.false_eq_true, if_false]
      rw [wp_bind, wp_waitRequest hpending, wp_bind, wp_getBuffer, wp_setBuffer]
      refine hpost _ ⟨rfl, ?_, fun _ _ => rfl, ?_, fun other => ?_⟩ rfl rfl
        fun hne => absurd htarget hne
      · simp [htarget]
      · exact orderly_append hcollected.orderly nofun
      · rw [← hcollected.delivered other]
        simp [BufferEvent.entriesTo, MessageBuffer.unsent, htarget]

/-- Other members than those of the sending side may be assigned at any time. -/
theorem Collected.assign (hcollected : Collected puts audit) {mb : MessageBuffer Rank T}
    (htarget : mb.targetRank = audit.buffer.targetRank)
    (houtbox : mb.outbox = audit.buffer.outbox)
    (hclear : mb.sendBufferClear = audit.buffer.sendBufferClear) :
    Collected puts (audit.assign mb) := by
  refine ⟨?_, ?_, ?_, ?_, fun target => ?_⟩
  · rw [BufferAudit.assign_pending, BufferAudit.assign_buffer, hclear, hcollected.pending]
  · simpa [htarget, houtbox, hclear] using hcollected.collecting
  · simpa [htarget, houtbox, hclear] using hcollected.idle
  · exact orderly_append hcollected.orderly fun _ => houtbox
  · rw [← hcollected.delivered target]
    simp [BufferEvent.entriesTo, MessageBuffer.unsent, htarget, houtbox]

/-- The entries put so far and one more. -/
def putEntry (puts : Rank → List (MessageBufferEntry T)) (target : Rank)
    (entry : MessageBufferEntry T) (other : Rank) : List (MessageBufferEntry T) :=
  puts other ++ if target = other then [entry] else []

/-- An entry is added to a buffer that collects for its target or for no one. -/
theorem Collected.store (hcollected : Collected puts audit)
    (hclear : audit.buffer.sendBufferClear = true) {target : Rank}
    (htarget : audit.buffer.targetRank = none ∨ audit.buffer.targetRank = some target)
    (hlength : audit.buffer.outbox.length < maxMessageLength) (entry : MessageBufferEntry T) :
    Collected (putEntry puts target entry)
      ((audit.assign { audit.buffer with targetRank := some target }).assign
        { audit.buffer with
          targetRank := some target, outbox := audit.buffer.outbox ++ [entry] }) := by
  have hpending : audit.pending = false := by rw [hcollected.pending, hclear]; rfl
  refine ⟨?_, fun other _ => ⟨hclear, by simp, by simpa using Nat.succ_le_of_lt hlength⟩,
    nofun, ?_, fun other => ?_⟩
  · simp [hpending, hclear]
  · refine orderly_append (orderly_append hcollected.orderly fun _ => rfl) ?_
    intro hbusy
    rw [BufferAudit.assign_pending, hpending] at hbusy
    cases hbusy
  · rw [putEntry, ← hcollected.delivered other]
    obtain hnone | hsome := htarget
    · by_cases hother : target = other <;>
        simp [BufferEvent.entriesTo, MessageBuffer.unsent, hnone, hother,
          hcollected.idle hnone hclear]
    · by_cases hother : target = other <;>
        simp [BufferEvent.entriesTo, MessageBuffer.unsent, hsome, hother]

theorem wp_put (target : Rank) (index : ℕ) (value : T) (hcollected : Collected puts audit)
    (hroom : HasRoom audit)
    (hpost : ∀ after, Collected (putEntry puts target ⟨index, value⟩) after → HasRoom after →
      post () after) :
    wp fails ((auditEffects Rank T).put target index value) post audit := by
  unfold BufferEffects.put
  rw [wp_bind, wp_getBuffer]
  dsimp only
  -- what is stored once the buffer does not collect for another rank
  have hstore : ∀ before, Collected puts before →
      (before.buffer.targetRank = none ∨ before.buffer.targetRank = some target ∧
        before.buffer.outbox.length < maxMessageLength) →
      wp fails (do
        (auditEffects Rank T).wait
        (auditEffects Rank T).setBuffer
          { (← (auditEffects Rank T).getBuffer) with targetRank := some target }
        let mb ← (auditEffects Rank T).getBuffer
        (auditEffects Rank T).assertThat .capacity
          (mb.outbox.length < MessageBuffer.outboxCapacity ∧ MessageBuffer.outboxCapacity > 0)
        (auditEffects Rank T).setBuffer { mb with outbox := mb.outbox ++ [⟨index, value⟩] }
        if (← (auditEffects Rank T).getBuffer).outbox.length ≥ maxMessageLength then
          (auditEffects Rank T).flush) post before := by
    intro before hbefore htarget
    rw [wp_bind]
    refine wp_wait hbefore fun clear hclearCollected hclear hsame houtbox => ?_
    have hlength : clear.buffer.outbox.length < maxMessageLength := by
      obtain hnone | ⟨hsome, hlt⟩ := htarget
      · rw [hclearCollected.idle (hsame.trans hnone) hclear]
        simp [maxMessageLength]
      · rwa [houtbox (by rw [hsome]; nofun)]
    have htarget' : clear.buffer.targetRank = none ∨ clear.buffer.targetRank = some target :=
      hsame ▸ htarget.imp_right And.left
    have hstored := hclearCollected.store hclear htarget' hlength ⟨index, value⟩
    rw [wp_bind, wp_getBuffer, wp_bind, wp_setBuffer, wp_bind, wp_getBuffer, wp_bind,
      wp_assertThat, if_pos ⟨hlength.trans (Nat.lt_succ_self _), Nat.succ_pos _⟩, wp_bind,
      wp_setBuffer, wp_bind, wp_getBuffer]
    split
    · exact wp_flush hstored fun after hafter hnone => hpost after hafter fun hne =>
        absurd hnone hne
    · rename_i hnotFull
      exact hpost _ hstored fun _ => Nat.lt_of_not_ge hnotFull
  split
  · rw [wp_bind]
    exact wp_flush hcollected fun after hafter hnone => hstore after hafter (Or.inl hnone)
  · rename_i hkeep
    refine hstore audit hcollected ?_
    simp only [Bool.or_eq_true, Bool.and_eq_true, decide_eq_true_eq, not_or, not_and,
      Decidable.not_not] at hkeep
    cases hbuffer : audit.buffer.targetRank with
    | none => exact Or.inl rfl
    | some other =>
        refine Or.inr ⟨hbuffer ▸ hkeep.2 (by rw [hbuffer]; rfl), hroom (by rw [hbuffer]; nofun)⟩

variable [Inhabited T]

/-- Receiving does not touch the sending side. -/
theorem wp_receive (sizeofEntry : ℕ+) (source : Rank) (hcollected : Collected puts audit)
    (hroom : HasRoom audit)
    (hpost : ∀ after, Collected puts after → HasRoom after → post () after) :
    wp ReceivingFault ((auditEffects Rank T).receive sizeofEntry source) post audit := by
  unfold BufferEffects.receive
  rw [wp_bind, wp_getBuffer, wp_bind, wp_recv]
  split
  · exact ⟨nofun, nofun, hcollected.orderly⟩
  · rename_i message rest hincoming
    have htaken : Collected puts (audit.takeMessage source) :=
      ⟨hcollected.pending, hcollected.collecting, hcollected.idle, hcollected.orderly,
        hcollected.delivered⟩
    rw [wp_bind, wp_assertThat]
    split
    · rw [wp_bind, wp_getBuffer, wp_setBuffer]
      exact hpost _ (htaken.assign rfl rfl rfl) hroom
    · exact ⟨nofun, nofun, hcollected.orderly⟩

theorem wp_get {post : T → BufferAudit Rank T → Prop} (sizeofEntry : ℕ+) (source : Rank)
    (index : ℕ) (hcollected : Collected puts audit) (hroom : HasRoom audit)
    (hpost : ∀ result after, Collected puts after → HasRoom after → post result after) :
    wp ReceivingFault ((auditEffects Rank T).get sizeofEntry source index) post audit := by
  unfold BufferEffects.get
  rw [wp_bind, wp_getBuffer]
  split
  · rw [wp_bind, wp_setBuffer]
    exact hpost _ _ (hcollected.assign rfl rfl rfl) hroom
  · rw [wp_bind]
    refine wp_flush hcollected fun flushed hflushed hnone => ?_
    rw [wp_bind]
    refine wp_wait hflushed fun clear hclear _ hsame _ => ?_
    have hclearRoom : HasRoom clear := fun hne => absurd (hsame.trans hnone) hne
    rw [wp_bind]
    refine wp_receive sizeofEntry source hclear hclearRoom
      fun received hreceived hreceivedRoom => ?_
    rw [wp_bind, wp_getBuffer]
    split
    · rw [wp_bind, wp_setBuffer]
      exact hpost _ _ (hreceived.assign rfl rfl rfl) hreceivedRoom
    · exact ⟨nofun, nofun, hreceived.orderly⟩

/-- Every call keeps the sending side in order and adds the entries that it puts.  Only a
call that receives may fault. -/
theorem wp_perform (sizeofEntry : ℕ+) (call : BufferCall Rank T)
    (hcollected : Collected puts audit) (hroom : HasRoom audit)
    (hpost : ∀ after, Collected (fun target => puts target ++ call.entriesFor target) after →
      HasRoom after → post () after) :
    wp (fun fault after => call.Receives ∧ ReceivingFault fault after)
      ((auditEffects Rank T).perform sizeofEntry call) post audit := by
  have hsilent : (∀ target, call.entriesFor target = []) →
      ∀ after, Collected puts after → HasRoom after → post () after := by
    intro hnone after hafter hafterRoom
    refine hpost after ?_ hafterRoom
    simpa only [hnone, List.append_nil] using hafter
  cases call with
  | put target index value => exact wp_put target index value hcollected hroom hpost
  | get source index =>
      unfold BufferEffects.perform
      rw [wp_bind]
      exact wp_mono (fun _ _ hfault => ⟨trivial, hfault⟩) (fun _ _ => id)
        (wp_get sizeofEntry source index hcollected hroom fun _ => hsilent fun _ => rfl)
  | flush =>
      exact wp_flush hcollected fun after hafter hnone =>
        hsilent (fun _ => rfl) after hafter fun hne => absurd hnone hne
  | wait =>
      exact wp_wait hcollected fun after hafter _ hsame houtbox =>
        hsilent (fun _ => rfl) after hafter fun hne => by
          rw [hsame] at hne
          rw [houtbox hne]
          exact hroom hne
  | receive source =>
      exact wp_mono (fun _ _ hfault => ⟨trivial, hfault⟩) (fun _ _ => id)
        (wp_receive sizeofEntry source hcollected hroom (hsilent fun _ => rfl))

/-- A sequence of calls stops in a call that receives, after the calls before it returned. -/
def StopsReceiving (sizeofEntry : ℕ+) (calls : List (BufferCall Rank T))
    (start : BufferAudit Rank T) (fault : BufferFault) (after : BufferAudit Rank T) : Prop :=
  ∃ before call rest middle, calls = before ++ call :: rest ∧ call.Receives ∧
    ((auditEffects Rank T).performAll sizeofEntry before).run.run start = (.ok (), middle) ∧
    ((auditEffects Rank T).perform sizeofEntry call).run.run middle = (.error fault, after)

theorem StopsReceiving.cons {sizeofEntry : ℕ+} {calls : List (BufferCall Rank T)}
    {middle : BufferAudit Rank T} {fault : BufferFault} {after : BufferAudit Rank T}
    {call : BufferCall Rank T}
    (hcall : ((auditEffects Rank T).perform sizeofEntry call).run.run audit = (.ok (), middle))
    (hstops : StopsReceiving sizeofEntry calls middle fault after) :
    StopsReceiving sizeofEntry (call :: calls) audit fault after := by
  obtain ⟨before, receiving, rest, state, rfl, hreceives, hbefore, hfault⟩ := hstops
  refine ⟨call :: before, receiving, rest, state, rfl, hreceives, ?_, hfault⟩
  unfold BufferEffects.performAll
  rw [run_bind_of_ok hcall]
  exact hbefore

/-- So does every sequence of calls. -/
theorem wp_performAll (sizeofEntry : ℕ+) (calls : List (BufferCall Rank T))
    (hcollected : Collected puts audit) (hroom : HasRoom audit)
    (hpost : ∀ after, Collected
        (fun target => puts target ++ calls.flatMap (BufferCall.entriesFor target)) after →
      HasRoom after → post () after) :
    wp (fun fault after => StopsReceiving sizeofEntry calls audit fault after ∧
        ReceivingFault fault after)
      ((auditEffects Rank T).performAll sizeofEntry calls) post audit := by
  induction calls generalizing puts audit with
  | nil => exact hpost audit (by simpa using hcollected) hroom
  | cons call calls ih =>
      unfold BufferEffects.performAll
      rw [wp_bind]
      have hcall : wp (fun fault after => call.Receives ∧ ReceivingFault fault after)
          ((auditEffects Rank T).perform sizeofEntry call)
          (fun _ middle =>
            Collected (fun target => puts target ++ call.entriesFor target) middle ∧
              HasRoom middle) audit :=
        wp_perform sizeofEntry call hcollected hroom fun _ hmiddle hmiddleRoom =>
          ⟨hmiddle, hmiddleRoom⟩
      refine wp_mono ?_ ?_ (wp_and_run hcall)
      · rintro fault after ⟨⟨hreceives, hfault⟩, hrun⟩
        exact ⟨⟨[], call, calls, audit, rfl, hreceives, rfl, hrun⟩, hfault⟩
      · rintro _ middle ⟨⟨hmiddle, hmiddleRoom⟩, hrun⟩
        refine wp_mono (fun fault after hfault => ⟨hfault.1.cons hrun, hfault.2⟩) (fun _ _ => id)
          (ih hmiddle hmiddleRoom fun after hafter hafterRoom => hpost after ?_ hafterRoom)
        simpa only [List.flatMap_cons, List.append_assoc] using hafter

theorem wp_performAll_append (sizeofEntry : ℕ+) (first second : List (BufferCall Rank T)) :
    wp fails ((auditEffects Rank T).performAll sizeofEntry (first ++ second)) post audit ↔
      wp fails ((auditEffects Rank T).performAll sizeofEntry first)
        (fun _ => wp fails ((auditEffects Rank T).performAll sizeofEntry second) post) audit := by
  induction first generalizing audit with
  | nil => rfl
  | cons call first ih =>
      simp only [List.cons_append, BufferEffects.performAll, wp_bind]
      exact ⟨wp_mono (fun _ _ => id) fun _ _ => ih.mp, wp_mono (fun _ _ => id) fun _ _ => ih.mpr⟩

omit [Inhabited T] in
theorem collected_initial (incoming : Rank → List (Message T)) :
    Collected (fun _ => []) (BufferAudit.initial incoming) :=
  ⟨rfl, nofun, fun _ _ => rfl, nofun, fun _ => rfl⟩

/-- Sequences that do not receive never stop. -/
theorem not_stopsReceiving {sizeofEntry : ℕ+} {calls : List (BufferCall Rank T)}
    (hcalls : ∀ call ∈ calls, ¬ call.Receives) {fault : BufferFault}
    {after : BufferAudit Rank T} : ¬ StopsReceiving sizeofEntry calls audit fault after := by
  rintro ⟨before, call, rest, -, rfl, hreceives, -⟩
  exact hcalls call (by simp) hreceives

/-- The messages to a rank are the entries put for it, in order and in batches.  No
call changes memory that a pending send reads, replaces its request or fails an
assertion of `put`.  Only a call that receives can stop the sequence, so a sequence
without such calls completes. -/
theorem performAll_batches (sizeofEntry : ℕ+) (calls : List (BufferCall Rank T))
    (incoming : Rank → List (Message T)) :
    wp (fun fault after =>
        StopsReceiving sizeofEntry calls (BufferAudit.initial incoming) fault after ∧
        fault ≠ .capacity ∧ fault ≠ .noRequest ∧ ∀ event ∈ after.log, event.Orderly)
      ((auditEffects Rank T).performAll sizeofEntry (calls ++ [.flush, .wait]))
      (fun _ after =>
        (∀ target, after.log.flatMap (BufferEvent.entriesTo target) =
          calls.flatMap (BufferCall.entriesFor target)) ∧
        ∀ event ∈ after.log, event.Orderly)
      (BufferAudit.initial incoming) ∧
    ((∀ call ∈ calls, ¬ call.Receives) →
      wp (fun _ _ => False)
        ((auditEffects Rank T).performAll sizeofEntry (calls ++ [.flush, .wait]))
        (fun _ after =>
          (∀ target, after.log.flatMap (BufferEvent.entriesTo target) =
            calls.flatMap (BufferCall.entriesFor target)) ∧
          ∀ event ∈ after.log, event.Orderly)
        (BufferAudit.initial incoming)) := by
  have hall : wp (fun fault after =>
        StopsReceiving sizeofEntry calls (BufferAudit.initial incoming) fault after ∧
        ReceivingFault fault after)
      ((auditEffects Rank T).performAll sizeofEntry (calls ++ [.flush, .wait]))
      (fun _ after =>
        (∀ target, after.log.flatMap (BufferEvent.entriesTo target) =
          calls.flatMap (BufferCall.entriesFor target)) ∧
        ∀ event ∈ after.log, event.Orderly)
      (BufferAudit.initial incoming) := by
    rw [wp_performAll_append]
    refine wp_performAll sizeofEntry calls (collected_initial incoming)
      (fun hne => absurd rfl hne) fun performed hperformed _ => ?_
    rw [BufferEffects.performAll, wp_bind]
    refine wp_flush hperformed fun flushed hflushed hnone => ?_
    rw [BufferEffects.performAll, wp_bind]
    refine wp_wait hflushed fun after hafter _ hsame _ => ⟨fun target => ?_, hafter.orderly⟩
    have hdelivered := hafter.delivered target
    simpa [MessageBuffer.unsent, hsame, hnone] using hdelivered
  exact ⟨hall, fun hcalls =>
    wp_mono (fun _ _ hfault => not_stopsReceiving hcalls hfault.1) (fun _ _ => id) hall⟩

-- Irreducible, so that applying a theorem to these calls does not evaluate the run.
/-- Five entries for one rank and one for another. -/
@[irreducible]
def sixPuts : List (BufferCall ℕ ℤ) :=
  [.put 1 2 20, .put 1 4 40, .put 1 6 60, .put 1 8 80, .put 1 10 100, .put 3 12 120]

theorem performAll_batches_sixPuts :
    (∀ call ∈ sixPuts, ¬ call.Receives) ∧
      wp (fun _ _ => False)
        ((auditEffects ℕ ℤ).performAll 16 (sixPuts ++ [.flush, .wait]))
        (fun _ after =>
          (∀ target, after.log.flatMap (BufferEvent.entriesTo target) =
            sixPuts.flatMap (BufferCall.entriesFor target)) ∧
          ∀ event ∈ after.log, event.Orderly)
        (BufferAudit.initial fun _ => []) := by
  have hcalls : ∀ call ∈ sixPuts, ¬ call.Receives := by simp [sixPuts, BufferCall.Receives]
  exact ⟨hcalls, (performAll_batches 16 sixPuts fun _ => []).2 hcalls⟩

end Operations

end MpiBindings.ReproducibleReduce
