import MpiBindings.Core.FaultingState
import MpiBindings.ReproducibleReduce.MessageBuffer

/-!
# Audit of a message buffer

An implementation of the effects of the message buffer that audits a single
buffer: it tells the assertions apart, keeps the memory that a pending send reads
in view and takes the arriving messages from a given supply.
-/

namespace MpiBindings.ReproducibleReduce

open FaultingState

/-- What an audit observes.  The flags tell whether a send was pending. -/
inductive BufferEvent (Rank T : Type) where
  /-- The members were assigned, the outbox among them. -/
  | outboxWritten (pending : Bool) (before after : List (MessageBufferEntry T))
  /-- A send was started and its request stored. -/
  | sent (pending : Bool) (target : Rank) (message : Message T)

/-- A message buffer, the request that it waits for and its surroundings. -/
structure BufferAudit (Rank T : Type) where
  buffer : MessageBuffer Rank T
  /-- Whether the stored request belongs to a send that was not waited for. -/
  pending : Bool
  /-- Messages that arrive from each rank. -/
  incoming : Rank → List (Message T)
  log : List (BufferEvent Rank T)

def BufferAudit.initial {Rank T : Type} (incoming : Rank → List (Message T)) :
    BufferAudit Rank T where
  buffer := MessageBuffer.initial Rank T
  pending := false
  incoming := incoming
  log := []

abbrev Audited (Rank T α : Type) := Faulting BufferFault (BufferAudit Rank T) α

section AuditEffects

variable {Rank T : Type} [DecidableEq Rank]

def BufferAudit.assign (audit : BufferAudit Rank T) (buffer : MessageBuffer Rank T) :
    BufferAudit Rank T :=
  { audit with
    buffer
    log := audit.log ++ [.outboxWritten audit.pending audit.buffer.outbox buffer.outbox] }

def BufferAudit.startSend (audit : BufferAudit Rank T) (target : Rank) (message : Message T) :
    BufferAudit Rank T :=
  { audit with
    pending := true
    log := audit.log ++ [.sent audit.pending target message] }

def BufferAudit.takeMessage (audit : BufferAudit Rank T) (source : Rank) :
    BufferAudit Rank T :=
  { audit with
    incoming := Function.update audit.incoming source (audit.incoming source).tail }

section Fields

variable (audit : BufferAudit Rank T)

omit [DecidableEq Rank] in
@[simp]
theorem BufferAudit.assign_buffer (buffer : MessageBuffer Rank T) :
    (audit.assign buffer).buffer = buffer := rfl

omit [DecidableEq Rank] in
@[simp]
theorem BufferAudit.assign_pending (buffer : MessageBuffer Rank T) :
    (audit.assign buffer).pending = audit.pending := rfl

omit [DecidableEq Rank] in
@[simp]
theorem BufferAudit.assign_log (buffer : MessageBuffer Rank T) :
    (audit.assign buffer).log =
      audit.log ++ [.outboxWritten audit.pending audit.buffer.outbox buffer.outbox] := rfl

omit [DecidableEq Rank] in
@[simp]
theorem BufferAudit.startSend_log (target : Rank) (message : Message T) :
    (audit.startSend target message).log =
      audit.log ++ [.sent audit.pending target message] := rfl

end Fields

/-- The effects on an audited buffer. -/
def auditEffects (Rank T : Type) [DecidableEq Rank] :
    BufferEffects Rank T (Audited Rank T) where
  getBuffer := return (← get).buffer
  setBuffer buffer := modify (·.assign buffer)
  isend target message := modify (·.startSend target message)
  waitRequest := do
    if (← get).pending then modify ({ · with pending := false })
    else throw .noRequest
  recv source := do
    match (← get).incoming source with
    | [] => throw .blocked
    | message :: _ =>
        modify (·.takeMessage source)
        return message
  fail := throw

variable {fails : BufferFault → BufferAudit Rank T → Prop} {audit : BufferAudit Rank T}

namespace Audited

section Effects

variable {post : Unit → BufferAudit Rank T → Prop}

theorem wp_getBuffer {post : MessageBuffer Rank T → BufferAudit Rank T → Prop} :
    wp fails (auditEffects Rank T).getBuffer post audit ↔ post audit.buffer audit := Iff.rfl

theorem wp_setBuffer (buffer : MessageBuffer Rank T) :
    wp fails ((auditEffects Rank T).setBuffer buffer) post audit ↔
      post () (audit.assign buffer) := Iff.rfl

theorem wp_isend (target : Rank) (message : Message T) :
    wp fails ((auditEffects Rank T).isend target message) post audit ↔
      post () (audit.startSend target message) := Iff.rfl

theorem wp_waitRequest (hpending : audit.pending = true) :
    wp fails (auditEffects Rank T).waitRequest post audit ↔
      post () { audit with pending := false } := by
  change wp fails (if audit.pending = true then modify ({ · with pending := false })
    else throw .noRequest) post audit ↔ _
  rw [if_pos hpending]
  rfl

theorem wp_recv {post : Message T → BufferAudit Rank T → Prop} (source : Rank) :
    wp fails ((auditEffects Rank T).recv source) post audit ↔
      match audit.incoming source with
      | [] => fails .blocked audit
      | message :: _ => post message (audit.takeMessage source) := by
  change wp fails (match audit.incoming source with
    | [] => throw .blocked
    | message :: _ => do
        modify (·.takeMessage source)
        return message) post audit ↔ _
  cases audit.incoming source <;> rfl

theorem wp_assertThat (fault : BufferFault) (condition : Prop) [Decidable condition] :
    wp fails ((auditEffects Rank T).assertThat fault condition) post audit ↔
      if condition then post () audit else fails fault audit := by
  unfold BufferEffects.assertThat
  split <;> rfl

end Effects

end Audited

end AuditEffects

end MpiBindings.ReproducibleReduce
