import MpiBindings.Core.Choreography
import MpiBindings.ReproducibleReduce.MessageBuffer

/-!
# The sending side of the message buffer

`Runs` is the program logic for the programs of one rank.  The outbox is
described by the batch of indices that it collects; `flush`, `wait` and `put`
send exactly the batches that this description predicts.
-/

namespace MpiBindings.ReproducibleReduce

open MessagePassing Choreography

/-- `Runs me program state trace result state'`: from `state`, rank `me` performs
exactly the communication `trace`, returns `result` and ends in `state'`.  A send
is outstanding exactly when the send buffer is not clear. -/
def Runs {Rank T α : Type} (me : Rank) (program : Program Rank T α)
    (state : RankState Rank T) (trace : List (Event Rank (Message T) T)) (result : α)
    (state' : RankState Rank T) : Prop :=
  Follows me (!state.messageBuffer.sendBufferClear) (program state) trace
    (result, state') (!state'.messageBuffer.sendBufferClear)

section Rules

variable {Rank T α β : Type} {me : Rank} {state state' state'' : RankState Rank T}
variable {trace trace' : List (Event Rank (Message T) T)}

theorem Runs.pure (result : α) :
    Runs me (Pure.pure result : Program Rank T α) state [] result state :=
  Follows.done _

theorem Runs.bind {program : Program Rank T α} {next : α → Program Rank T β}
    {middle : α} {result : β} (hfirst : Runs me program state trace middle state')
    (hsecond : Runs me (next middle) state' trace' result state'') :
    Runs me (program >>= next) state (trace ++ trace') result state'' :=
  Follows.bind hfirst hsecond

/-- Sequencing after a program that does not communicate. -/
theorem Runs.bind_silent {program : Program Rank T α} {next : α → Program Rank T β}
    {middle : α} {result : β} (hfirst : Runs me program state [] middle state')
    (hsecond : Runs me (next middle) state' trace result state'') :
    Runs me (program >>= next) state trace result state'' :=
  hfirst.bind hsecond

/-- Sequencing before a program that does not communicate. -/
theorem Runs.bind_last {program : Program Rank T α} {next : α → Program Rank T β}
    {middle : α} {result : β} (hfirst : Runs me program state trace middle state')
    (hsecond : Runs me (next middle) state' [] result state'') :
    Runs me (program >>= next) state trace result state'' := by
  rw [← List.append_nil trace]
  exact hfirst.bind hsecond

/-- An optional first statement followed by the rest of the program. -/
theorem Runs.optional {condition : Prop} [Decidable condition]
    {program : Program Rank T Unit} {next : Unit → Program Rank T β} {result : β}
    (hruns : Runs me ((if condition then program else Pure.pure ()) >>= next) state trace
      result state') :
    Runs me (if condition then program >>= next else next ()) state trace result state' := by
  by_cases hcondition : condition
  · simpa only [if_pos hcondition] using hruns
  · rw [if_neg hcondition] at hruns ⊢
    exact hruns

theorem Runs.getBuffer :
    Runs me Program.getBuffer state [] state.messageBuffer state :=
  Follows.done _

theorem Runs.setBuffer {messageBuffer : MessageBuffer Rank T}
    (hclear : messageBuffer.sendBufferClear = state.messageBuffer.sendBufferClear) :
    Runs me (Program.setBuffer messageBuffer) state [] ()
      { state with messageBuffer } := by
  unfold Runs
  rw [hclear]
  exact Follows.done _

theorem Runs.assertThat {condition : Prop} [Decidable condition]
    {failing : Program Rank T Unit} (hholds : condition) :
    Runs me (if condition then Pure.pure () else failing) state [] () state := by
  rw [if_pos hholds]
  exact Runs.pure ()

theorem Runs.onReduceBuffer {f : List T → Option (α × List T)} (result : α)
    (reduceBuffer : List T) (hf : f state.reduceBuffer = some (result, reduceBuffer)) :
    Runs me (Program.onReduceBuffer f) state [] result { state with reduceBuffer } := by
  simp only [Runs, Program.onReduceBuffer, hf]
  exact Follows.done _

end Rules

/-- Indices that are sent together to one rank. -/
structure Batch (Rank : Type) where
  target : Rank
  indices : List ℕ
  deriving DecidableEq

/-- The batch that is being collected. -/
abbrev Outbox (Rank : Type) := Option (Batch Rank)

/-- The batch that cannot be continued for `target` and the indices that can. -/
def Outbox.split {Rank : Type} [DecidableEq Rank] (target : Rank) :
    Outbox Rank → Outbox Rank × List ℕ
  | none => (none, [])
  | some batch =>
      if batch.target = target then (none, batch.indices) else (some batch, [])

/-- The batch that is complete with the given indices, or the one that is
collected further. -/
def Outbox.close {Rank : Type} (target : Rank) (indices : List ℕ) :
    Outbox Rank × Outbox Rank :=
  if indices.length ≥ maxMessageLength then (some ⟨target, indices⟩, none)
  else (none, some ⟨target, indices⟩)

/-- Effect of `put`: the batches that are sent and the batch that is collected
afterwards. -/
def Outbox.put {Rank : Type} [DecidableEq Rank] (outbox : Outbox Rank) (target : Rank)
    (index : ℕ) : List (Batch Rank) × Outbox Rank :=
  let (sent, kept) := outbox.split target
  let (full, collected) := Outbox.close target (kept ++ [index])
  (sent.toList ++ full.toList, collected)

/-- Message with the values of the given indices. -/
def entriesOf {T : Type} (values : ℕ → T) (indices : List ℕ) : Message T :=
  indices.map fun index => ⟨index, values index⟩

/-- Communication event of a batch sent by `me`. -/
def Batch.event {Rank T : Type} (me : Rank) (values : ℕ → T) (batch : Batch Rank) :
    Event Rank (Message T) T :=
  .message me batch.target (entriesOf values batch.indices)

/-- The state of the buffer represents the given outbox. -/
def OutboxHolds {Rank T : Type} (values : ℕ → T) (mb : MessageBuffer Rank T) :
    Outbox Rank → Prop
  | none => mb.targetRank = none ∧ (mb.sendBufferClear = true → mb.outbox = [])
  | some batch => mb.targetRank = some batch.target ∧ mb.sendBufferClear = true ∧
      mb.outbox = entriesOf values batch.indices ∧ batch.indices ≠ [] ∧
      batch.indices.length < maxMessageLength

/-- Nothing but the sending side of the message buffer differs. -/
structure SameInbox {Rank T : Type} (state state' : RankState Rank T) : Prop where
  inbox : state'.messageBuffer.inbox = state.messageBuffer.inbox
  buffer : state'.messageBuffer.buffer = state.messageBuffer.buffer
  reduceBuffer : state'.reduceBuffer = state.reduceBuffer

section Sending

variable {Rank T : Type} [DecidableEq Rank] [Inhabited T] (me : Rank) {values : ℕ → T}
variable {state state' state'' : RankState Rank T} {outbox : Outbox Rank}

omit [DecidableEq Rank] [Inhabited T] in
theorem SameInbox.refl (state : RankState Rank T) : SameInbox state state := ⟨rfl, rfl, rfl⟩

omit [DecidableEq Rank] [Inhabited T] in
theorem SameInbox.trans (hfirst : SameInbox state state')
    (hsecond : SameInbox state' state'') : SameInbox state state'' :=
  ⟨hsecond.inbox.trans hfirst.inbox, hsecond.buffer.trans hfirst.buffer,
    hsecond.reduceBuffer.trans hfirst.reduceBuffer⟩

omit [DecidableEq Rank] [Inhabited T] in
/-- A nonempty outbox with a target is sent as one message. -/
theorem runs_flush_batch (batch : Batch Rank)
    (htarget : state.messageBuffer.targetRank = some batch.target)
    (hclear : state.messageBuffer.sendBufferClear = true)
    (hentries : state.messageBuffer.outbox = entriesOf values batch.indices)
    (hne : batch.indices ≠ []) :
    ∃ state', Runs me MessageBuffer.flush state [batch.event me values] () state' ∧
      OutboxHolds values state'.messageBuffer none ∧ SameInbox state state' := by
  refine ⟨⟨{ state.messageBuffer with targetRank := none, sendBufferClear := false },
    state.reduceBuffer⟩, ?_, ⟨rfl, by simp⟩, ⟨rfl, rfl, rfl⟩⟩
  refine Runs.getBuffer.bind_silent ?_
  have hnonempty : state.messageBuffer.outbox.isEmpty = false := by
    simpa [hentries, entriesOf] using hne
  simp only [htarget, hnonempty, Bool.false_eq_true, if_false]
  unfold Runs
  rw [hclear, hentries]
  exact Follows.isend (Follows.done _)

omit [DecidableEq Rank] [Inhabited T] in
theorem runs_flush (houtbox : OutboxHolds values state.messageBuffer outbox) :
    ∃ state', Runs me MessageBuffer.flush state (outbox.toList.map (Batch.event me values))
      () state' ∧ OutboxHolds values state'.messageBuffer none ∧ SameInbox state state' := by
  cases outbox with
  | none =>
      refine ⟨state, ?_, houtbox, SameInbox.refl state⟩
      refine Runs.getBuffer.bind_silent ?_
      simp only [houtbox.1]
      exact Runs.pure ()
  | some batch =>
      obtain ⟨htarget, hclear, hentries, hne, -⟩ := houtbox
      exact runs_flush_batch me batch htarget hclear hentries hne

omit [DecidableEq Rank] [Inhabited T] in
theorem runs_optional_flush (condition : Prop) [Decidable condition]
    (houtbox : OutboxHolds values state.messageBuffer outbox) :
    ∃ state', Runs me (if condition then MessageBuffer.flush else pure ()) state
        ((if condition then outbox else none).toList.map (Batch.event me values)) () state' ∧
      OutboxHolds values state'.messageBuffer (if condition then none else outbox) ∧
      SameInbox state state' := by
  by_cases hcondition : condition
  · simpa only [if_pos hcondition] using runs_flush me houtbox
  · simp only [if_neg hcondition]
    exact ⟨state, Runs.pure (), houtbox, SameInbox.refl state⟩

omit [DecidableEq Rank] [Inhabited T] in
theorem runs_wait (houtbox : OutboxHolds values state.messageBuffer outbox) :
    ∃ state', Runs me MessageBuffer.wait state [] () state' ∧
      OutboxHolds values state'.messageBuffer outbox ∧
      state'.messageBuffer.sendBufferClear = true ∧ SameInbox state state' := by
  cases hclear : state.messageBuffer.sendBufferClear with
  | true =>
      refine ⟨state, ?_, houtbox, hclear, SameInbox.refl state⟩
      refine Runs.getBuffer.bind_silent ?_
      simp only [hclear, if_true]
      exact Runs.pure ()
  | false =>
      cases outbox with
      | none =>
          refine ⟨⟨{ state.messageBuffer with outbox := [], sendBufferClear := true },
            state.reduceBuffer⟩, ?_, ⟨houtbox.1, fun _ => rfl⟩, rfl, ⟨rfl, rfl, rfl⟩⟩
          refine Runs.getBuffer.bind_silent ?_
          simp only [hclear, Bool.false_eq_true, if_false]
          unfold Runs
          rw [hclear]
          exact Follows.wait (Follows.done _)
      | some batch =>
          have hsome := houtbox.2.1
          rw [hclear] at hsome
          cases hsome

omit [Inhabited T] in
/-- What `put` sends first: a batch for another rank. -/
theorem runs_put_flush (target : Rank)
    (houtbox : OutboxHolds values state.messageBuffer outbox) :
    ∃ state', Runs me
        (if (decide (state.messageBuffer.outbox.length ≥ maxMessageLength) ||
            (state.messageBuffer.targetRank.isSome &&
              decide (state.messageBuffer.targetRank ≠ some target))) = true
          then MessageBuffer.flush else pure ()) state
        ((outbox.split target).1.toList.map (Batch.event me values)) () state' ∧
      OutboxHolds values state'.messageBuffer
        (if (outbox.split target).1 = none then outbox else none) ∧
      SameInbox state state' := by
  cases outbox with
  | none =>
      split
      · simpa [Outbox.split] using runs_flush me houtbox
      · exact ⟨state, Runs.pure (), houtbox, SameInbox.refl state⟩
  | some batch =>
      have hlength : ¬ state.messageBuffer.outbox.length ≥ maxMessageLength := by
        simpa [houtbox.2.2.1, entriesOf] using houtbox.2.2.2.2
      by_cases htarget : batch.target = target
      · refine ⟨state, ?_, by simpa [Outbox.split, htarget] using houtbox,
          SameInbox.refl state⟩
        simpa [houtbox.1, hlength, htarget, Outbox.split] using
          (Runs.pure () : Runs me _ _ _ _ _)
      · simpa [houtbox.1, hlength, htarget, Outbox.split] using runs_flush me houtbox

omit [DecidableEq Rank] [Inhabited T] in
/-- What `put` sends last: a full batch. -/
theorem runs_put_close (target : Rank) (indices : List ℕ)
    (htarget : state.messageBuffer.targetRank = some target)
    (hclear : state.messageBuffer.sendBufferClear = true)
    (hentries : state.messageBuffer.outbox = entriesOf values indices)
    (hne : indices ≠ []) :
    ∃ state', Runs me
        (Program.getBuffer >>= fun mb =>
          if mb.outbox.length ≥ maxMessageLength then MessageBuffer.flush else pure ()) state
        ((Outbox.close target indices).1.toList.map (Batch.event me values)) () state' ∧
      OutboxHolds values state'.messageBuffer (Outbox.close target indices).2 ∧
      SameInbox state state' := by
  have hlength : state.messageBuffer.outbox.length = indices.length := by
    simp [hentries, entriesOf]
  by_cases hfull : indices.length ≥ maxMessageLength
  · obtain ⟨state', hflush, houtbox, hinbox⟩ := runs_flush_batch me ⟨target, indices⟩
      htarget hclear hentries hne
    refine ⟨state', Runs.getBuffer.bind_silent ?_, ?_, hinbox⟩
    · simpa [hlength, hfull, Outbox.close] using hflush
    · simpa [hfull, Outbox.close] using houtbox
  · refine ⟨state, Runs.getBuffer.bind_silent ?_, ?_, SameInbox.refl state⟩
    · simpa [hlength, hfull, Outbox.close] using (Runs.pure () : Runs me _ _ _ _ _)
    · simpa [hfull, Outbox.close] using
        ⟨htarget, hclear, hentries, hne, Nat.lt_of_not_ge hfull⟩

omit [Inhabited T] in
theorem runs_put (target : Rank) (index : ℕ)
    (houtbox : OutboxHolds values state.messageBuffer outbox) :
    ∃ state', Runs me (MessageBuffer.put target index (values index)) state
        ((outbox.put target index).1.map (Batch.event me values)) () state' ∧
      OutboxHolds values state'.messageBuffer (outbox.put target index).2 ∧
      SameInbox state state' := by
  obtain ⟨flushed, hflush, hflushed, hflushedInbox⟩ := runs_put_flush me target houtbox
  obtain ⟨clear, hwait, hclearOutbox, hclear, hclearInbox⟩ := runs_wait me hflushed
  obtain ⟨hkept, hlength⟩ : clear.messageBuffer.outbox = entriesOf values (outbox.split target).2 ∧
      (outbox.split target).2.length < maxMessageLength := by
    cases outbox with
    | none => exact ⟨hclearOutbox.2 hclear, by simp [Outbox.split, maxMessageLength]⟩
    | some batch =>
        by_cases htarget : batch.target = target
        · simp only [Outbox.split, htarget, if_true] at hclearOutbox ⊢
          exact ⟨hclearOutbox.2.2.1, hclearOutbox.2.2.2.2⟩
        · simp only [Outbox.split, htarget, if_false, reduceCtorEq] at hclearOutbox ⊢
          exact ⟨hclearOutbox.2 hclear, by simp [maxMessageLength]⟩
  let extended : RankState Rank T :=
    ⟨{ clear.messageBuffer with
        targetRank := some target,
        outbox := clear.messageBuffer.outbox ++ [⟨index, values index⟩] }, clear.reduceBuffer⟩
  have hentries : extended.messageBuffer.outbox =
      entriesOf values ((outbox.split target).2 ++ [index]) := by
    simp [extended, hkept, entriesOf]
  obtain ⟨state', hclose, houtbox', hinbox⟩ :=
    runs_put_close me target _ (rfl : extended.messageBuffer.targetRank = some target) hclear
      hentries (by simp)
  refine ⟨state', ?_, houtbox', hflushedInbox.trans (hclearInbox.trans ?_)⟩
  swap
  · exact ⟨hinbox.inbox, hinbox.buffer, hinbox.reduceBuffer⟩
  unfold MessageBuffer.put
  rw [Outbox.put, List.map_append]
  refine Runs.getBuffer.bind_silent (Runs.optional (hflush.bind (hwait.bind_silent ?_)))
  refine Runs.getBuffer.bind_silent (Runs.bind_silent (Runs.setBuffer (by rfl)) ?_)
  refine Runs.getBuffer.bind_silent (Runs.bind_silent (Runs.assertThat ?_) ?_)
  · refine ⟨?_, by simp [MessageBuffer.outboxCapacity]⟩
    rw [hkept, entriesOf, List.length_map]
    exact hlength.trans (Nat.lt_succ_self _)
  · exact Runs.bind_silent (Runs.setBuffer (by rfl)) hclose

end Sending

end MpiBindings.ReproducibleReduce
