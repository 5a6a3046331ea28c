import MpiBindings.ReproducibleReduce.PassSpecs
import MpiBindings.ReproducibleReduce.TransferLog

/-!
# The communication of one rank

`rankTrace` is the sequence of messages that a rank exchanges in one reduction,
computed from the distribution alone.  The program of the rank performs exactly
this sequence, with the partial results of the tree as values.
-/

namespace MpiBindings.ReproducibleReduce

open MessagePassing Choreography Program

/-- What is known about the region of one rank with elements. -/
structure LocalRegion (n : ℕ) (comm : ReproducibleCommunicator) : Prop where
  two_le : 2 ≤ n
  lt_two_pow : n < 2 ^ 31
  globalSize : comm.globalSize = n
  regionEnd : comm.regionEnd = comm.regionBegin + comm.regionSize
  inside : 0 < comm.regionSize → comm.regionEnd ≤ n

/-- Whether the pending batch is sent before `index` is reduced. -/
def ReproducibleCommunicator.flushesBefore (comm : ReproducibleCommunicator)
    (index : ℕ) : Bool :=
  decide (treeSubtreeSize index > 16) || !(comm.requests index).isEmpty

section Bounds

variable {n index : ℕ} {comm : ReproducibleCommunicator}

theorem LocalRegion.subtreeBounds (hregion : LocalRegion n comm) (hindex : index < n) :
    SubtreeBounds n index (comm.maxX index) (comm.maxY index) := by
  have htwo := hregion.two_le
  unfold ReproducibleCommunicator.maxX ReproducibleCommunicator.maxY
  rw [hregion.globalSize]
  by_cases hzero : index = 0
  · have hle := Nat.le_pow_clog (b := 2) (by omega) n
    rw [if_pos hzero, if_pos hzero, treeHeight_eq_clog, hzero]
    exact ⟨by omega, by omega, dvd_zero _, by omega, Or.inl (by omega)⟩
  · have hpos := Nat.pos_of_ne_zero hzero
    have hsize := treeSubtreeSize_eq_two_pow hpos
    have hsizePos := treeSubtreeSize_pos index
    rw [if_neg hzero, if_neg hzero]
    exact ⟨by omega, by omega, two_pow_subtreeHeight_dvd hpos, by omega, by omega⟩

theorem LocalRegion.maxY_lt (hregion : LocalRegion n comm) (hindex : index < n) :
    comm.maxY index < 64 := by
  have htwo := hregion.two_le
  have hlt := hregion.lt_two_pow
  unfold ReproducibleCommunicator.maxY
  split
  · rw [hregion.globalSize, treeHeight_eq_clog]
    have := (Nat.clog_le_iff_le_pow (b := 2) (by omega)).mpr hlt.le
    omega
  · rename_i hzero
    have hpos := Nat.pos_of_ne_zero hzero
    have hparent := treeParent_add_treeSubtreeSize hpos
    have hpow : 2 ^ subtreeHeight index < 2 ^ 31 := by
      rw [← treeSubtreeSize_eq_two_pow hpos]
      omega
    have := (Nat.pow_lt_pow_iff_right (a := 2) (by omega)).mp hpow
    omega

theorem LocalRegion.maxY_pos (hregion : LocalRegion n comm) (heven : index % 2 = 0) :
    0 < comm.maxY index := by
  have htwo := hregion.two_le
  unfold ReproducibleCommunicator.maxY
  split
  · rw [hregion.globalSize, treeHeight_eq_clog]
    exact Nat.clog_pos (by omega) htwo
  · rename_i hzero
    obtain ⟨height, half, hindex⟩ := exists_eq_pow_mul_odd (Nat.pos_of_ne_zero hzero)
    rw [hindex, subtreeHeight_pow_mul_odd, Nat.pos_iff_ne_zero]
    rintro rfl
    omega

end Bounds

/-- The send buffer holds the elements of the region. -/
def HoldsRegion {T : Type} (array : ℕ → T) (comm : ReproducibleCommunicator)
    (buffer : List T) : Prop :=
  ∀ x < comm.regionSize, buffer[x]? = some (array (comm.regionBegin + x))

section Programs

variable {p : ℕ} {T : Type} [Inhabited T] (me : Fin p) (sizeofEntry : ℕ+)
variable {comm : ReproducibleCommunicator} {op : T → T → T} {array : ℕ → T} {n : ℕ}
variable {buffer : List T} {state : RankState (Fin p) T} {outbox : Outbox (Fin p)}
variable {slot : ℕ → ℕ} {incoming : List (Delivery (Fin p))} {index : ℕ}

theorem runs_maxX :
    Runs me ((networkEffects p T sizeofEntry).maxX comm index) state []
      (comm.maxX index) state := by
  unfold ReduceEffects.maxX ReproducibleCommunicator.maxX
  split <;> exact Runs.pure _

theorem runs_performReduceAt (hregion : LocalRegion n comm)
    (hlower : comm.regionBegin ≤ index) (hupper : index < comm.regionEnd)
    (hbuffer : HoldsRegion array comm buffer)
    (hlength : state.reduceBuffer.length = comm.regionSize)
    (hawaits : Awaits slot (comm.rankOfIndex p) (partialResult op array n)
      state.messageBuffer outbox incoming (comm.requests index)) :
    ∃ state',
      Runs me (performReduceAt sizeofEntry comm op buffer index) state
        (receptionTrace me (partialResult op array n) outbox incoming)
        (treeReduce op array n (comm.maxY index) index) state' ∧
      Awaits slot (comm.rankOfIndex p) (partialResult op array n) state'.messageBuffer
        (outboxAfter outbox incoming) [] [] ∧
      state'.reduceBuffer.length = comm.regionSize := by
  have hend := hregion.regionEnd
  have hinside := hregion.inside (by omega)
  have hbounds : SubtreeBounds n index _ _ := hregion.subtreeBounds (by omega)
  unfold performReduceAt ReduceEffects.performReduceAt
  rw [Nat.and_one_is_mod]
  unfold ReproducibleCommunicator.requests at hawaits
  by_cases hodd : index % 2 = 1
  · rw [if_pos hodd] at hawaits ⊢
    obtain ⟨rfl, -⟩ := hawaits.eq_nil
    have hheight : comm.maxY index = 0 := by
      rw [ReproducibleCommunicator.maxY, if_neg (by omega), subtreeHeight_of_odd hodd]
    rw [hheight]
    refine ⟨state, Runs.bind_silent (Runs.pure ()) (Runs.bind_silent (Runs.pure _)
      (runs_ofOption ?_)), hawaits, hlength⟩
    rw [hbuffer _ (by omega), Nat.add_sub_cancel' hlower]
    rfl
  · rw [if_neg hodd] at hawaits ⊢
    have hlocal : index + comm.nLocalElements index =
        min (comm.maxX index + 1) comm.regionEnd := by
      have := hbounds.le
      simp only [ReproducibleCommunicator.nLocalElements]
      omega
    have hsize : 0 < comm.nLocalElements index := by
      have := hbounds.le
      omega
    have hread : HoldsLevel op array n index (comm.nLocalElements index) 0
        (.sendBuffer (buffer.drop (index - comm.regionBegin))) state.reduceBuffer := by
      intro x hx
      rw [elementsAt_zero] at hx
      simp only [SourceBuffer.read, List.getElem?_drop]
      rw [hbuffer _ (by omega)]
      simp only [nodeValue, treeReduce, pow_zero, mul_one]
      congr 2
      omega
    obtain ⟨state', hruns, hawaits', hholds, hlength'⟩ := runs_reducePasses me
      sizeofEntry hbounds (Nat.zero_add _) hsize (by omega) hread
      (by omega) hawaits
    have hone : elementsAt (comm.nLocalElements index) (comm.maxY index) = 1 :=
      hbounds.elementsAt_eq_one hsize (by omega)
    rw [if_neg (hregion.maxY_pos (by omega)).ne'] at hholds
    rw [hone, elementsAt_zero] at hruns
    have hresult := hholds 0 (by omega)
    simp only [SourceBuffer.read, nodeValue, Nat.zero_mul, Nat.add_zero] at hresult
    refine ⟨state', ?_, hawaits', hlength'.trans hlength⟩
    refine Runs.bind_silent (Runs.pure ()) (Runs.bind_silent (runs_maxX me sizeofEntry) ?_)
    refine Runs.bind_silent (Runs.assertThat (hregion.maxY_lt (by omega))) ?_
    refine Runs.bind_silent (Runs.pure (comm.nLocalElements index)) ?_
    refine Runs.bind_silent (Runs.pure _) ?_
    rw [← List.append_nil (receptionTrace _ _ _ _)]
    exact hruns.bind (Runs.bind_silent (Runs.assertThat rfl) (runs_readReduceBuffer hresult))

end Programs

/-! ## The communication of a reduction -/

section Traces

variable {Rank T : Type} [DecidableEq Rank]

/-- Messages that a rank exchanges while it reduces the given indices and puts
the results, and the batch that is still collected afterwards. -/
def communicateTrace (me : Rank) (values : ℕ → T) (targetOf : ℕ → Rank) (flushes : ℕ → Bool)
    (incomingAt : ℕ → List (Delivery Rank)) :
    List ℕ → Outbox Rank → List (Event Rank (Message T) T) × Outbox Rank
  | [], outbox => ([], outbox)
  | index :: indices, outbox =>
      let flushed : Outbox Rank := if flushes index then outbox else none
      let kept : Outbox Rank := if flushes index then none else outbox
      let (sent, collected) := Outbox.put kept (targetOf index) index
      let (trace, outbox) :=
        communicateTrace me values targetOf flushes incomingAt indices collected
      (flushed.toList.map (Batch.event me values) ++
        (incomingAt index).map (Delivery.event me values) ++
        sent.map (Batch.event me values) ++ trace, outbox)

/-- Messages that a rank exchanges in one reduction. -/
def rankTrace (me : Rank) (values : ℕ → T) (targetOf : ℕ → Rank) (flushes : ℕ → Bool)
    (incomingAt : ℕ → List (Delivery Rank)) (indices : List ℕ) (origin : Bool) :
    List (Event Rank (Message T) T) :=
  let (trace, outbox) := communicateTrace me values targetOf flushes incomingAt indices none
  trace ++ outbox.toList.map (Batch.event me values) ++
    if origin then (incomingAt 0).map (Delivery.event me values) else []

end Traces

section Transfers

variable {p : ℕ} {T : Type}

/-- Transfers of a rank while it reduces the given indices and puts the results. -/
def elementTransfers (comm : ReproducibleCommunicator) (targetOf : ℕ → Fin p) (values : ℕ → T)
    (indices : List ℕ) : List (Transfer p T) :=
  indices.flatMap fun index =>
    getsFor comm (comm.requests index) ++ [.put (targetOf index) index (values index)]

theorem elementTransfers_cons (comm : ReproducibleCommunicator) (targetOf : ℕ → Fin p)
    (values : ℕ → T) (index : ℕ) (indices : List ℕ) :
    elementTransfers comm targetOf values (index :: indices) =
      [] ++ (getsFor comm (comm.requests index) ++
        ([.put (targetOf index) index (values index)] ++
          elementTransfers comm targetOf values indices)) := by
  simp [elementTransfers]

/-- Transfers of a rank in one reduction. -/
def rankTransfers (comm : ReproducibleCommunicator) (targetOf : ℕ → Fin p) (values : ℕ → T)
    (origin : Bool) : List (Transfer p T) :=
  elementTransfers comm targetOf values comm.rankIntersectingElements ++
    if origin then getsFor comm (comm.requests 0) else []

end Transfers

/-- The messages that a rank expects are those that its reductions ask for. -/
structure ExpectedMessages {p : ℕ} (comm : ReproducibleCommunicator) (slot : ℕ → ℕ)
    (targetOf : ℕ → Fin p) (incomingAt : ℕ → List (Delivery (Fin p)))
    (indices : List ℕ) : Prop where
  target : ∀ index ∈ indices, comm.rankOfIndex p (treeParent index) = some (targetOf index)
  nonzero : ∀ index ∈ indices, index ≠ 0
  inside : ∀ index ∈ indices, comm.regionBegin ≤ index ∧ index < comm.regionEnd
  requests : ∀ index ∈ indices,
    comm.requests index = (incomingAt index).flatMap Delivery.indices
  wellFormed : ∀ index ∈ indices, ∀ delivery ∈ incomingAt index,
    delivery.WellFormed slot (comm.rankOfIndex p)

theorem ExpectedMessages.tail {p : ℕ} {comm : ReproducibleCommunicator} {slot : ℕ → ℕ}
    {targetOf : ℕ → Fin p} {incomingAt : ℕ → List (Delivery (Fin p))} {index : ℕ}
    {indices : List ℕ}
    (hexpected : ExpectedMessages comm slot targetOf incomingAt (index :: indices)) :
    ExpectedMessages comm slot targetOf incomingAt indices where
  target other hother := hexpected.target other (List.mem_cons_of_mem _ hother)
  nonzero other hother := hexpected.nonzero other (List.mem_cons_of_mem _ hother)
  inside other hother := hexpected.inside other (List.mem_cons_of_mem _ hother)
  requests other hother := hexpected.requests other (List.mem_cons_of_mem _ hother)
  wellFormed other hother := hexpected.wellFormed other (List.mem_cons_of_mem _ hother)

section Reduction

variable {p : ℕ} {T : Type} [Inhabited T] (me : Fin p) (sizeofEntry : ℕ+)
variable {comm : ReproducibleCommunicator} {op : T → T → T} {array : ℕ → T} {n : ℕ}
variable {buffer : List T} {state : RankState (Fin p) T} {outbox : Outbox (Fin p)}
variable {slot : ℕ → ℕ} {targetOf : ℕ → Fin p} {incomingAt : ℕ → List (Delivery (Fin p))}
variable {indices : List ℕ}

omit [Inhabited T] in
/-- A pending batch is sent before an index either because its subtree is large
or because the first result for it is awaited. -/
theorem flushed_or_awaited (outbox : Outbox (Fin p)) (values : ℕ → T) {index : ℕ}
    {incoming : List (Delivery (Fin p))}
    (hrequests : comm.requests index = incoming.flatMap Delivery.indices)
    (hnonempty : ∀ delivery ∈ incoming, delivery.indices ≠ []) :
    (if treeSubtreeSize index > 16 then outbox else none).toList.map (Batch.event me values) ++
        receptionTrace me values (if treeSubtreeSize index > 16 then none else outbox)
          incoming =
      (if comm.flushesBefore index then outbox else none).toList.map (Batch.event me values) ++
        incoming.map (Delivery.event me values) ∧
    outboxAfter (if treeSubtreeSize index > 16 then none else outbox) incoming =
      if comm.flushesBefore index then none else outbox := by
  unfold ReproducibleCommunicator.flushesBefore
  rw [hrequests]
  cases incoming with
  | nil => by_cases hlarge : treeSubtreeSize index > 16 <;>
      simp [hlarge, receptionTrace, outboxAfter]
  | cons delivery incoming =>
      have := hnonempty delivery List.mem_cons_self
      by_cases hlarge : treeSubtreeSize index > 16 <;>
        simp [hlarge, receptionTrace, outboxAfter, this]

variable (op) in
theorem logRuns_performReduceAt {index : ℕ} {incoming : List (Delivery (Fin p))}
    (hregion : LocalRegion n comm)
    (hlower : comm.regionBegin ≤ index) (hupper : index < comm.regionEnd)
    (hbuffer : HoldsRegion array comm buffer)
    (hlength : state.reduceBuffer.length = comm.regionSize)
    (hawaits : Awaits slot (comm.rankOfIndex p) (partialResult op array n)
      state.messageBuffer outbox incoming (comm.requests index)) :
    ∃ state',
      LogRuns me ((loggedEffects p T sizeofEntry).performReduceAt comm op buffer index) state
        (receptionTrace me (partialResult op array n) outbox incoming)
        (treeReduce op array n (comm.maxY index) index) (getsFor comm (comm.requests index))
        state' ∧
      Awaits slot (comm.rankOfIndex p) (partialResult op array n) state'.messageBuffer
        (outboxAfter outbox incoming) [] [] ∧
      state'.reduceBuffer.length = comm.regionSize := by
  obtain ⟨state', hruns, hrest⟩ := runs_performReduceAt me sizeofEntry hregion hlower hupper
    hbuffer hlength hawaits
  exact ⟨state', LogRuns.of_runs (erases_effects.performReduceAt comm op buffer index)
    (records_performReduceAt comm op buffer index) hruns, hrest⟩

variable (op) in
theorem logRuns_communicateElements (hregion : LocalRegion n comm)
    (hexpected : ExpectedMessages comm slot targetOf incomingAt indices)
    (hbuffer : HoldsRegion array comm buffer)
    (hlength : state.reduceBuffer.length = comm.regionSize)
    (hawaits : Awaits slot (comm.rankOfIndex p) (partialResult op array n)
      state.messageBuffer outbox [] []) :
    ∃ state',
      LogRuns me ((loggedEffects p T sizeofEntry).communicateElements comm op buffer indices)
        state
        (communicateTrace me (partialResult op array n) targetOf comm.flushesBefore incomingAt
          indices outbox).1 ()
        (elementTransfers comm targetOf (partialResult op array n) indices) state' ∧
      Awaits slot (comm.rankOfIndex p) (partialResult op array n) state'.messageBuffer
        (communicateTrace me (partialResult op array n) targetOf comm.flushesBefore incomingAt
          indices outbox).2 [] [] ∧
      state'.reduceBuffer.length = comm.regionSize := by
  induction indices generalizing state outbox with
  | nil => exact ⟨state, LogRuns.pure (), hawaits, hlength⟩
  | cons index indices ih =>
      obtain ⟨flushed, hflush, hflushed, hsame⟩ :=
        runs_optional_flush me (treeSubtreeSize index > 16) hawaits.outboxHolds
      obtain ⟨htrace, houtbox⟩ := flushed_or_awaited me outbox
        (partialResult op array n) (hexpected.requests index List.mem_cons_self)
        fun delivery hdelivery =>
          (hexpected.wellFormed index List.mem_cons_self delivery hdelivery).nonempty
      have htarget := hexpected.target index List.mem_cons_self
      obtain ⟨hlower, hupper⟩ := hexpected.inside index List.mem_cons_self
      have hrenewed := (hawaits.sameInbox hsame hflushed).renew
        (hexpected.wellFormed index List.mem_cons_self)
      rw [← hexpected.requests index List.mem_cons_self] at hrenewed
      obtain ⟨reduced, hreduce, hreduced, hreducedLength⟩ := logRuns_performReduceAt me
        sizeofEntry op hregion hlower hupper hbuffer
        (hsame.reduceBuffer ▸ hlength) hrenewed
      have hvalue : treeReduce op array n (comm.maxY index) index =
          partialResult op array n index := by
        rw [ReproducibleCommunicator.maxY,
          if_neg (hexpected.nonzero index List.mem_cons_self), partialResult]
      rw [hvalue] at hreduce
      rw [houtbox] at hreduced
      obtain ⟨stored, hput, hstored, hstoredSame⟩ :=
        runs_put me (targetOf index) index hreduced.outboxHolds
      obtain ⟨state', hrest, hawaits', hlength'⟩ := ih hexpected.tail
        (hstoredSame.reduceBuffer ▸ hreducedLength) (hreduced.sameInbox hstoredSame hstored)
      refine ⟨state', ?_, hawaits', hlength'⟩
      rw [communicateTrace, ← htrace, elementTransfers_cons]
      simp only [List.append_assoc]
      unfold ReduceEffects.communicateElements
      apply LogRuns.optional
      apply (LogRuns.optional_lift hflush).bind
      apply (LogRuns.ofOption _ htarget).bind_silent
      exact hreduce.bind ((LogRuns.record hput).bind hrest)

/-- State of a rank between two reductions. -/
structure Idle (slot : ℕ → ℕ) (comm : ReproducibleCommunicator)
    (state : RankState (Fin p) T) : Prop where
  targetRank : state.messageBuffer.targetRank = none
  clear : state.messageBuffer.sendBufferClear = true
  outbox : state.messageBuffer.outbox = []
  invariant : InboxInvariant slot state.messageBuffer
  length : state.reduceBuffer.length = comm.regionSize

omit [Inhabited T] in
theorem Idle.awaits {values : ℕ → T} {sourceOf : ℕ → Option (Fin p)}
    (hidle : Idle slot comm state) :
    Awaits slot sourceOf values state.messageBuffer none [] [] :=
  ⟨[], [], ⟨⟨hidle.targetRank, fun _ => hidle.outbox⟩, hidle.invariant,
    ⟨by simp, by simp, by simp⟩⟩, List.nodup_nil, by simp, by simp, rfl⟩

omit [Inhabited T] in
theorem Idle.of_awaits {values : ℕ → T} {sourceOf : ℕ → Option (Fin p)}
    (hclear : state.messageBuffer.sendBufferClear = true)
    (hawaits : Awaits slot sourceOf values state.messageBuffer none [] [])
    (hlength : state.reduceBuffer.length = comm.regionSize) : Idle slot comm state := by
  obtain ⟨-, received, hholds⟩ := hawaits.eq_nil
  exact ⟨hholds.outbox.1, hclear, hholds.outbox.2 hclear, hholds.invariant, hlength⟩

theorem idle_initialState : Idle slot comm (comm.initialState (Fin p) T) where
  targetRank := rfl
  clear := rfl
  outbox := rfl
  invariant := ⟨by simp [ReproducibleCommunicator.initialState, MessageBuffer.initial],
    by simp [ReproducibleCommunicator.initialState, MessageBuffer.initial]⟩
  length := by simp [ReproducibleCommunicator.initialState]

/-- The rank with the first element expects messages for the root of the tree. -/
structure ExpectedAtOrigin (comm : ReproducibleCommunicator) (slot : ℕ → ℕ) (me : Fin p)
    (incoming : List (Delivery (Fin p))) : Prop where
  inside : comm.regionBegin = 0 ∧ 0 < comm.regionSize
  requests : comm.requests 0 = incoming.flatMap Delivery.indices
  wellFormed : ∀ delivery ∈ incoming, delivery.WellFormed slot (comm.rankOfIndex p)
  source_ne : ∀ delivery ∈ incoming, delivery.source ≠ me

omit [Inhabited T] in
/-- A rank that receives all messages of a trace sends none. -/
theorem not_mem_receptionTrace {values : ℕ → T} {incoming : List (Delivery (Fin p))}
    (hsource : ∀ delivery ∈ incoming, delivery.source ≠ me) (dst : Fin p)
    (msg : Message T) : .message me dst msg ∉ receptionTrace me values none incoming := by
  rw [receptionTrace_none, List.mem_map]
  rintro ⟨delivery, hdelivery, heq⟩
  simp only [Delivery.event, Event.message.injEq] at heq
  exact hsource delivery hdelivery heq.1

theorem logRuns_messagePhase {origin : Fin p} (hregion : LocalRegion n comm)
    (horiginRank : comm.originRank = origin.val)
    (hexpected : ExpectedMessages comm slot targetOf incomingAt comm.rankIntersectingElements)
    (horigin : me = origin → ExpectedAtOrigin comm slot me (incomingAt 0))
    (hbuffer : HoldsRegion array comm buffer) (hidle : Idle slot comm state) :
    ∃ own state',
      LogRuns me ((loggedEffects p T sizeofEntry).messagePhase comm op me buffer) state
        (rankTrace me (partialResult op array n) targetOf comm.flushesBefore incomingAt
          comm.rankIntersectingElements (decide (me = origin))) own
        (rankTransfers comm targetOf (partialResult op array n) (decide (me = origin))) state' ∧
      (me = origin → own = treeReduce op array n (Nat.clog 2 n) 0) ∧
      Idle slot comm state' := by
  obtain ⟨reduced, hreduce, hreduced, hreducedLength⟩ := logRuns_communicateElements me
    sizeofEntry op hregion hexpected hbuffer hidle.length
    hidle.awaits
  obtain ⟨flushed, hflush, hflushed, hflushedSame⟩ := runs_flush me hreduced.outboxHolds
  obtain ⟨clear, hwait, hclearOutbox, hclear, hclearSame⟩ := runs_wait me hflushed
  have hsame := hflushedSame.trans hclearSame
  have hawaits := hreduced.sameInbox hsame hclearOutbox
  have hlength := hsame.reduceBuffer ▸ hreducedLength
  unfold ReduceEffects.messagePhase rankTransfers
  simp only [rankTrace, List.append_assoc, horiginRank, Fin.val_inj, decide_eq_true_eq]
  by_cases hme : me = origin
  · obtain ⟨⟨hbegin, hsize⟩, hrequests, hwellFormed, hsource⟩ := horigin hme
    have hrenewed := hawaits.renew hwellFormed
    rw [← hrequests] at hrenewed
    have hend := hregion.regionEnd
    obtain ⟨state', hruns, hawaits', hlength'⟩ := logRuns_performReduceAt me
      sizeofEntry op hregion (by omega) (by omega) hbuffer hlength hrenewed
    have hclear' : state'.messageBuffer.sendBufferClear = true := by
      have := Follows.not_busy (hruns []) (by simp [hclear]) (not_mem_receptionTrace me hsource)
      simpa using this
    have houtbox : outboxAfter none (incomingAt 0) = (none : Outbox (Fin p)) := by
      cases incomingAt 0 <;> rfl
    rw [receptionTrace_none] at hruns
    rw [if_pos hme, if_pos hme, if_pos hme]
    refine ⟨treeReduce op array n (comm.maxY 0) 0, state', ?_, fun _ => ?_,
      Idle.of_awaits hclear' (houtbox ▸ hawaits') hlength'⟩
    · apply hreduce.bind
      apply (LogRuns.lift hflush).bind
      exact (LogRuns.lift hwait).bind_silent hruns
    · rw [ReproducibleCommunicator.maxY, if_pos rfl, hregion.globalSize, treeHeight_eq_clog]
  · rw [if_neg hme, if_neg hme, if_neg hme]
    refine ⟨default, clear, ?_, fun heq => absurd heq hme,
      Idle.of_awaits hclear hawaits hlength⟩
    apply hreduce.bind
    apply (LogRuns.lift hflush).bind
    exact (LogRuns.lift hwait).bind_silent (LogRuns.pure default)

variable (op) in
/-- One call of `reproducible_reduce` with its transfers: the messages of the rank and
the broadcast of the value of the whole tree. -/
theorem logRuns_reproducibleReduce {origin : Fin p} (hregion : LocalRegion n comm)
    (horiginRank : comm.originRank = origin.val)
    (hexpected : ExpectedMessages comm slot targetOf incomingAt comm.rankIntersectingElements)
    (horigin : me = origin → ExpectedAtOrigin comm slot me (incomingAt 0))
    (hbuffer : HoldsRegion array comm buffer) (hbufferLength : buffer.length = comm.regionSize)
    (hidle : Idle slot comm state) :
    ∃ state',
      LogRuns me ((loggedEffects p T sizeofEntry).reproducibleReduce comm op me buffer) state
        (rankTrace me (partialResult op array n) targetOf comm.flushesBefore incomingAt
          comm.rankIntersectingElements (decide (me = origin)) ++
          [.broadcast origin (treeReduce op array n (Nat.clog 2 n) 0)])
        (treeReduce op array n (Nat.clog 2 n) 0)
        (rankTransfers comm targetOf (partialResult op array n) (decide (me = origin)))
        state' ∧
      Idle slot comm state' := by
  obtain ⟨own, state', hphase, hown, hidle'⟩ := logRuns_messagePhase me
    sizeofEntry hregion horiginRank hexpected horigin hbuffer hidle
  have hroot : (if horigin : comm.originRank < p then some (⟨comm.originRank, horigin⟩ : Fin p)
      else none) = some origin := by
    rw [dif_pos (horiginRank ▸ origin.isLt)]
    exact congrArg some (Fin.ext horiginRank)
  have hbcast : Runs me (Program.bcastSingle origin own) state'
      [.broadcast origin (treeReduce op array n (Nat.clog 2 n) 0)]
      (treeReduce op array n (Nat.clog 2 n) 0) state' := by
    unfold Runs
    rw [hidle'.clear]
    exact Follows.bcast hown (Follows.done _)
  refine ⟨state', ?_, hidle'⟩
  unfold ReduceEffects.reproducibleReduce ReduceEffects.performReduce
  rw [hroot, ← List.append_nil (rankTransfers _ _ _ _)]
  apply (LogRuns.assertThat hbufferLength).bind_silent
  apply hphase.bind
  exact (LogRuns.ofOption origin rfl).bind_silent (LogRuns.lift hbcast)

/-- One call of `reproducible_reduce`: the messages of the rank and the broadcast
of the value of the whole tree. -/
theorem runs_reproducibleReduce {origin : Fin p} (hregion : LocalRegion n comm)
    (horiginRank : comm.originRank = origin.val)
    (hexpected : ExpectedMessages comm slot targetOf incomingAt comm.rankIntersectingElements)
    (horigin : me = origin → ExpectedAtOrigin comm slot me (incomingAt 0))
    (hbuffer : HoldsRegion array comm buffer) (hbufferLength : buffer.length = comm.regionSize)
    (hidle : Idle slot comm state) :
    ∃ state', Runs me (reproducibleReduce sizeofEntry comm op me buffer) state
        (rankTrace me (partialResult op array n) targetOf comm.flushesBefore incomingAt
          comm.rankIntersectingElements (decide (me = origin)) ++
          [.broadcast origin (treeReduce op array n (Nat.clog 2 n) 0)])
        (treeReduce op array n (Nat.clog 2 n) 0) state' ∧
      Idle slot comm state' := by
  obtain ⟨state', hruns, hidle'⟩ := logRuns_reproducibleReduce me sizeofEntry op hregion
    horiginRank hexpected horigin hbuffer hbufferLength hidle
  refine ⟨state', ?_, hidle'⟩
  exact hruns.erase (erases_effects.reproducibleReduce comm op me buffer)

end Reduction

end MpiBindings.ReproducibleReduce
