import MpiBindings.PointToPoint.Recv

/-!
# A receive without count gets the probed message

The probed message is the first with its source and its tag.  Messages that arrive later queue
up behind it, so the receive with the probed source and tag takes it, whatever the wildcards of
the call select by then.
-/

namespace MpiBindings.PointToPoint

open MatchQueue Collectives

variable {α : Type}

/-! ## Selected messages -/

/-- The messages that the arguments of the call select. -/
def RecvCall.Selects (call : RecvCall α) : Message α → Prop :=
  PointToPoint.Selects call.constants (call.source.rankSigned call.constants)
    (call.tag.tag call.constants)

section Selection

variable {call : RecvCall α} {constants : Constants} {message other : Message α}

theorem natCast_ne {n : ℕ} {special : ℤ} (hneg : special < 0) : (n : ℤ) ≠ special := fun hsame =>
  absurd (hsame ▸ Int.natCast_nonneg n) (not_le_of_gt hneg)

theorem rankSigned_eq_procNull_iff :
    call.source.rankSigned call.constants = call.constants.procNull ↔ call.source = .null := by
  cases call.source with
  | value rank =>
      exact iff_of_false (natCast_ne call.constants.procNull_neg) SourceParam.noConfusion
  | any => exact iff_of_false call.constants.procNull_ne_anySource.symm SourceParam.noConfusion
  | null => exact iff_of_true rfl rfl

/-- The source and the tag of a message select the messages with both. -/
theorem selects_envelope_iff :
    Selects constants message.source message.tag other ↔ other.envelope = message.envelope := by
  rw [Message.envelope, Message.envelope, Prod.mk.injEq, Selects,
    or_iff_right (natCast_ne constants.anySource_neg),
    or_iff_right (natCast_ne constants.anyTag_neg), Nat.cast_inj, Nat.cast_inj, eq_comm,
    eq_comm (a := message.tag)]

/-- What is selected depends on the source and the tag of a message. -/
theorem RecvCall.selects_of_same (hselected : call.Selects message)
    (hsame : other.envelope = message.envelope) : call.Selects other := by
  obtain ⟨hsource, htag⟩ := Prod.mk.inj hsame
  rw [RecvCall.Selects, PointToPoint.Selects, hsource, htag]
  exact hselected

/-- The source and the tag of a matched message match it again. -/
theorem matched_envelope {queue before after : List (Message α)}
    (h : Matched Message.envelope call.Selects queue before message after) :
    Matched Message.envelope (PointToPoint.Selects constants message.source message.tag) queue
      before message after :=
  h.narrow (selects_envelope_iff.mpr rfl) fun _ hother =>
    have hsame := selects_envelope_iff.mp hother
    ⟨hsame, RecvCall.selects_of_same h.selected hsame⟩

theorem count_of_nonneg (hcount : ¬ message.count constants < 0) :
    message.remainder = 0 ∧ message.count constants = message.elements.length := by
  rw [Message.count] at hcount ⊢
  split_ifs at hcount ⊢ with hwhole
  · exact ⟨hwhole.1, rfl⟩
  · exact absurd constants.undefined_neg hcount

theorem count_of_neg (hcount : message.count constants < 0) :
    message.remainder ≠ 0 ∨ 2 ^ 31 ≤ message.elements.length := by
  rw [Message.count] at hcount
  split_ifs at hcount with hwhole
  · exact absurd hcount (not_lt_of_ge (Int.natCast_nonneg _))
  · rcases not_and_or.mp hwhole with hpart | hlong
    · exact Or.inl hpart
    · exact Or.inr (le_of_not_gt hlong)

end Selection

/-! ## Outcomes -/

variable [Inhabited α]

/-- The probe of the call has reported `message`; the queue holds it between the others. -/
def Pending (call : RecvCall α) (queue arrivals before : List (Message α)) (message : Message α)
    (after : List (Message α)) : Prop :=
  ∃ earlier later rest, arrivals = earlier ++ later ∧ after = rest ++ later ∧
    Run call ⟨queue, .entered⟩ earlier
      ⟨queue ++ earlier, .probed (message.status call.constants)⟩ ∧
    Matched Message.envelope call.Selects (queue ++ earlier) before message rest

/-- The call has received the message that its probe reported, and no other. -/
def Received (call : RecvCall α) (queue arrivals left : List (Message α))
    (result : RecvResult α) : Prop :=
  ∃ before message after, Pending call queue arrivals before message after ∧
    left = before ++ after ∧ message.remainder = 0 ∧
    result.recvCount = message.elements.length ∧
    result.status = message.status call.constants ∧
    result.recvBuf = overwrite message.elements
      (call.resizePolicy.resizeIfRequested message.elements.length default call.recvBuf) ∧
    (call.resizePolicy = .resizeToFit → result.recvBuf = message.elements)

/-- What the assertions of the call excuse: a probed message that is not a countable number of
elements, or that does not fit into a buffer that must not be resized. -/
def Excused (call : RecvCall α) (queue arrivals : List (Message α)) : Failure → Prop
  | .invalidArgument => ¬ call.Valid
  | .countUndefined => ∃ before message after, Pending call queue arrivals before message after ∧
      (message.remainder ≠ 0 ∨ 2 ^ 31 ≤ message.elements.length)
  | .bufferTooSmall => ∃ before message after, Pending call queue arrivals before message after ∧
      call.resizePolicy = .noResize ∧ call.recvBuf.length < message.elements.length
  | .truncated => False

/-- What holds in every state of a call. -/
structure Exact (call : RecvCall α) (queue arrivals : List (Message α)) (state : State α) :
    Prop where
  /-- A call that returns has received the probed message, or nothing from `rank::null`. -/
  returned : ∀ result, state.phase = .returned result →
    if call.source = .null then
      state.queue = queue ++ arrivals ∧ result.recvBuf = call.recvBuf ∧ result.recvCount = 0
    else Received call queue arrivals state.queue result
  failed : ∀ failure, state.phase = .failed failure → Excused call queue arrivals failure
  /-- A call that has not returned leaves all messages in the queue. -/
  queue_eq : (∀ result, state.phase ≠ .returned result) → state.queue = queue ++ arrivals
  /-- A call waits only in its probe, and only while no message is selected. -/
  progress : (∃ result, state.phase = .returned result) ∨
    (∃ failure, state.phase = .failed failure) ∨ (∃ next, Internal call state next) ∨
      state.phase = .entered ∧ ∀ message ∈ state.queue, ¬ call.Selects message

/-! ## Arrivals -/

section Arrivals

variable {call : RecvCall α} {queue arrivals before after left : List (Message α)}
variable {message : Message α}

theorem Pending.arrive (h : Pending call queue arrivals before message after)
    (next : Message α) :
    Pending call queue (arrivals ++ [next]) before message (after ++ [next]) := by
  obtain ⟨earlier, later, rest, rfl, rfl, hrun, hmatched⟩ := h
  exact ⟨earlier, later ++ [next], rest, List.append_assoc .., List.append_assoc .., hrun,
    hmatched⟩

/-- The probed message is still matched when the receive is made. -/
theorem Pending.matched (h : Pending call queue arrivals before message after) :
    Matched Message.envelope call.Selects (queue ++ arrivals) before message after := by
  obtain ⟨earlier, later, rest, rfl, rfl, -, hmatched⟩ := h
  rw [← List.append_assoc]
  exact hmatched.append later

theorem Received.arrive {result : RecvResult α} (h : Received call queue arrivals left result)
    (next : Message α) :
    Received call queue (arrivals ++ [next]) (left ++ [next]) result := by
  obtain ⟨before, message, after, hpending, rfl, hresult⟩ := h
  exact ⟨before, message, after ++ [next], hpending.arrive next, List.append_assoc .., hresult⟩

theorem Excused.arrive {failure : Failure} (h : Excused call queue arrivals failure)
    (next : Message α) : Excused call queue (arrivals ++ [next]) failure := by
  cases failure with
  | invalidArgument => exact h
  | truncated => exact h
  | countUndefined | bufferTooSmall =>
      obtain ⟨before, message, after, hpending, hreason⟩ := h
      exact ⟨before, message, after ++ [next], hpending.arrive next, hreason⟩

end Arrivals

/-! ## Runs -/

/-- What the phases of a call say about the queue. -/
def Tracked (call : RecvCall α) (queue arrivals left : List (Message α)) : Phase α → Prop
  | .entered => left = queue ++ arrivals
  | .probed status => left = queue ++ arrivals ∧
      (call.source = .null ∧ status = nullStatus call.constants ∨
        call.source ≠ .null ∧ ∃ before message after,
          Pending call queue arrivals before message after ∧
          status = message.status call.constants)
  | .receiving source tag count recvBuf => left = queue ++ arrivals ∧
      (call.source = .null ∧ source = call.constants.procNull ∧ count = 0 ∧
          recvBuf = call.recvBuf ∨
        call.source ≠ .null ∧ ∃ before message after,
          Pending call queue arrivals before message after ∧ message.remainder = 0 ∧
          source = message.source ∧ tag = message.tag ∧ count = message.elements.length ∧
          recvBuf = call.resizePolicy.resizeIfRequested message.elements.length default
            call.recvBuf)
  | .returned result =>
      if call.source = .null then
        left = queue ++ arrivals ∧ result.recvBuf = call.recvBuf ∧ result.recvCount = 0
      else Received call queue arrivals left result
  | .failed failure => left = queue ++ arrivals ∧ Excused call queue arrivals failure

section Runs

variable {call : RecvCall α} {queue arrivals left : List (Message α)} {state next : State α}

theorem Tracked.arrive {phase : Phase α} (h : Tracked call queue arrivals left phase)
    (message : Message α) :
    Tracked call queue (arrivals ++ [message]) (left ++ [message]) phase := by
  have hqueue : left = queue ++ arrivals → left ++ [message] = queue ++ (arrivals ++ [message]) :=
    fun hleft => by rw [hleft, List.append_assoc]
  cases phase with
  | entered => exact hqueue h
  | probed status =>
      refine ⟨hqueue h.1, h.2.imp_right ?_⟩
      rintro ⟨hsource, before, probed, after, hpending, hstatus⟩
      exact ⟨hsource, before, probed, after ++ [message], hpending.arrive message, hstatus⟩
  | receiving source tag count recvBuf =>
      refine ⟨hqueue h.1, h.2.imp_right ?_⟩
      rintro ⟨hsource, before, probed, after, hpending, harguments⟩
      exact ⟨hsource, before, probed, after ++ [message], hpending.arrive message, harguments⟩
  | returned result =>
      rw [Tracked] at h ⊢
      split_ifs at h ⊢
      · exact ⟨hqueue h.1, h.2⟩
      · exact h.arrive message
  | failed failure => exact ⟨hqueue h.1, h.2.arrive message⟩

theorem tracked_prepare {status : Status}
    (h : Tracked call queue arrivals left (.probed status)) :
    Tracked call queue arrivals left (call.prepare status) := by
  obtain ⟨hleft, ⟨hnull, rfl⟩ | ⟨hsource, before, message, after, hpending, rfl⟩⟩ := h
  · have hcount : ¬ (nullStatus call.constants).count < 0 := lt_irrefl 0
    rw [RecvCall.prepare, if_neg hcount, if_pos hnull]
    exact ⟨hleft, Or.inl ⟨hnull, rfl, rfl, rfl⟩⟩
  · rw [RecvCall.prepare, if_neg hsource]
    by_cases hcount : (message.status call.constants).count < 0
    · rw [if_pos hcount]
      exact ⟨hleft, before, message, after, hpending, count_of_neg hcount⟩
    · obtain ⟨hwhole, hlength⟩ := count_of_nonneg hcount
      have hstatus : (message.status call.constants).count = message.elements.length := hlength
      rw [if_neg hcount, hstatus, Int.toNat_natCast]
      dsimp only
      split_ifs with hfits
      · exact ⟨hleft, Or.inr ⟨hsource, before, message, after, hpending, hwhole, rfl, rfl, rfl,
          rfl⟩⟩
      · refine ⟨hleft, before, message, after, hpending, ?_⟩
        have hnoResize : ¬ (call.resizePolicy = .noResize →
            message.elements.length ≤ call.recvBuf.length) :=
          fun hroom => hfits (BufferResizePolicy.le_length_resizeIfRequested hroom)
        obtain ⟨hpolicy, hshort⟩ := Classical.not_imp.mp hnoResize
        exact ⟨hpolicy, lt_of_not_ge hshort⟩

omit [Inhabited α] in
theorem receive_of_whole {constants : Constants} {message : Message α} {recvBuf : List α}
    (hwhole : message.remainder = 0) :
    receive constants message.elements.length recvBuf message =
      .returned ⟨overwrite message.elements recvBuf, message.elements.length,
        message.status constants⟩ :=
  if_pos ⟨le_rfl, Or.inl hwhole⟩

/-- Every step of a call keeps what is known about the queue. -/
theorem Tracked.internal (h : Tracked call queue arrivals state.queue state.phase)
    (hrun : Run call ⟨queue, .entered⟩ arrivals state) (hstep : Internal call state next) :
    Tracked call queue arrivals next.queue next.phase := by
  cases hstep with
  | check hinvalid => exact ⟨h, hinvalid⟩
  | @probe _ before after message hvalid hsource hmatched =>
      obtain rfl : _ = queue ++ arrivals := h
      have hprobed := hrun.step (Internal.probe hvalid hsource hmatched)
      exact ⟨rfl, Or.inr ⟨mt rankSigned_eq_procNull_iff.mpr hsource, before, message, after,
        ⟨arrivals, [], after, (List.append_nil arrivals).symm, (List.append_nil after).symm,
          hprobed, hmatched⟩, rfl⟩⟩
  | probeNull hvalid hsource =>
      exact ⟨h, Or.inl ⟨rankSigned_eq_procNull_iff.mp hsource, rfl⟩⟩
  | prepare => exact tracked_prepare h
  | @recv _ before after message source tag count recvBuf hsource hmatched =>
      obtain ⟨hleft, ⟨-, hnull, -, -⟩ | ⟨hnotNull, before', probed, after', hpending, hwhole,
        rfl, rfl, rfl, rfl⟩⟩ := h
      · exact absurd hnull hsource
      · -- the receive can match the probed message only
        obtain rfl : _ = queue ++ arrivals := hleft
        obtain ⟨rfl, rfl, rfl⟩ := (matched_envelope hpending.matched).unique hmatched
          fun other hother => selects_envelope_iff.mp hother
        rw [receive_of_whole hwhole, Tracked, if_neg hnotNull]
        refine ⟨before', probed, after', hpending, rfl, hwhole, rfl, rfl, rfl, fun hpolicy => ?_⟩
        refine overwrite_eq ?_
        rw [hpolicy, BufferResizePolicy.resizeIfRequested, length_resizeVector]
  | recvNull hsource =>
      obtain ⟨hleft, ⟨hnull, -, rfl, rfl⟩ | ⟨-, _, probed, _, -, -, rfl, -⟩⟩ := h
      · rw [Tracked, if_pos hnull]
        exact ⟨hleft, rfl, rfl⟩
      · exact absurd hsource (natCast_ne call.constants.procNull_neg)

theorem Run.tracked (hrun : Run call ⟨queue, .entered⟩ arrivals state) :
    Tracked call queue arrivals state.queue state.phase := by
  induction hrun with
  | start => exact (List.append_nil queue).symm
  | arrive message _ ih => exact ih.arrive message
  | step hrun hstep ih => exact ih.internal hrun hstep

/-- A call that has neither returned nor failed makes a step, unless its probe waits for a
message. -/
theorem Tracked.progress (h : Tracked call queue arrivals state.queue state.phase) :
    (∃ result, state.phase = .returned result) ∨ (∃ failure, state.phase = .failed failure) ∨
      (∃ next, Internal call state next) ∨
      state.phase = .entered ∧ ∀ message ∈ state.queue, ¬ call.Selects message := by
  obtain ⟨left, phase⟩ := state
  cases phase with
  | returned result => exact Or.inl ⟨result, rfl⟩
  | failed failure => exact Or.inr (Or.inl ⟨failure, rfl⟩)
  | probed status => exact Or.inr (Or.inr (Or.inl ⟨_, .prepare⟩))
  | receiving source tag count recvBuf =>
      obtain ⟨hleft, ⟨-, hnull, -, -⟩ | ⟨-, before, message, after, hpending, -, rfl, rfl, -⟩⟩ := h
      · exact Or.inr (Or.inr (Or.inl ⟨_, .recvNull hnull⟩))
      · have hmatched : Matched Message.envelope
            (PointToPoint.Selects call.constants message.source message.tag) (queue ++ arrivals)
            before message after := matched_envelope hpending.matched
        obtain rfl : left = queue ++ arrivals := hleft
        exact Or.inr (Or.inr (Or.inl
          ⟨_, .recv (natCast_ne call.constants.procNull_neg) hmatched⟩))
  | entered =>
      by_cases hvalid : call.Valid
      · by_cases hnull : call.source.rankSigned call.constants = call.constants.procNull
        · exact Or.inr (Or.inr (Or.inl ⟨_, .probeNull hvalid hnull⟩))
        · by_cases hselected : ∃ message ∈ left, call.Selects message
          · obtain ⟨before, message, after, hmatched⟩ := exists_matched hselected
            exact Or.inr (Or.inr (Or.inl ⟨_, .probe hvalid hnull hmatched⟩))
          · push Not at hselected
            exact Or.inr (Or.inr (Or.inr ⟨rfl, hselected⟩))
      · exact Or.inr (Or.inr (Or.inl ⟨_, .check hvalid⟩))

end Runs

/-- In every state of a call of `recv` without count, whatever messages arrive meanwhile: a
returned call has received exactly the message that its probe reported and left all others in
their order; a call is never truncated, and it fails only where its assertions excuse it; and
it waits only while no message is selected. -/
theorem recv_exact {call : RecvCall α} {queue arrivals : List (Message α)} {state : State α}
    (hrun : Run call ⟨queue, .entered⟩ arrivals state) : Exact call queue arrivals state := by
  have htracked := hrun.tracked
  refine ⟨fun result hresult => ?_, fun failure hfailure => ?_, fun hpending => ?_,
    htracked.progress⟩
  · rw [hresult] at htracked
    exact htracked
  · rw [hfailure] at htracked
    exact htracked.2
  · cases hphase : state.phase with
    | returned result => exact absurd hphase (hpending result)
    | entered =>
        rw [hphase] at htracked
        exact htracked
    | probed | receiving | failed =>
        rw [hphase] at htracked
        exact htracked.1

/-- Values of a common implementation of the interface. -/
def commonConstants : Constants where
  anySource := -1
  procNull := -2
  anyTag := -1
  undefined := -32766
  anySource_neg := by decide
  procNull_neg := by decide
  anyTag_neg := by decide
  undefined_neg := by decide
  procNull_ne_anySource := by decide

/-- A call with both wildcards. -/
def anyCall : RecvCall ℤ where
  constants := commonConstants
  size := 2
  tagUpperBound := 100
  source := .any
  tag := .any
  resizePolicy := .resizeToFit
  recvBuf := []

/-- A longer message with the same source and tag arrives after the probe. -/
theorem recv_exact_any :
    Exact anyCall [⟨1, 5, [10, 20], 0⟩] [⟨1, 5, [30, 40, 50], 0⟩]
      ⟨[⟨1, 5, [30, 40, 50], 0⟩], .returned ⟨[10, 20], 2, ⟨1, 5, 2⟩⟩⟩ := by
  have hvalid : anyCall.Valid := ⟨fun _ htag => TagParam.noConfusion htag,
    fun _ hsource => SourceParam.noConfusion hsource⟩
  have hprobe : Internal anyCall ⟨[⟨1, 5, [10, 20], 0⟩], .entered⟩
      ⟨[⟨1, 5, [10, 20], 0⟩], .probed ⟨1, 5, 2⟩⟩ :=
    .probe hvalid (by decide)
      ⟨rfl, ⟨Or.inl rfl, Or.inl rfl⟩, fun _ hmem => absurd hmem List.not_mem_nil⟩
  have hprepare : Internal anyCall ⟨[⟨1, 5, [10, 20], 0⟩, ⟨1, 5, [30, 40, 50], 0⟩],
      .probed ⟨1, 5, 2⟩⟩ ⟨[⟨1, 5, [10, 20], 0⟩, ⟨1, 5, [30, 40, 50], 0⟩],
        .receiving 1 5 2 [0, 0]⟩ := .prepare
  have hrecv : Internal anyCall ⟨[⟨1, 5, [10, 20], 0⟩, ⟨1, 5, [30, 40, 50], 0⟩],
      .receiving 1 5 2 [0, 0]⟩
        ⟨[⟨1, 5, [30, 40, 50], 0⟩], .returned ⟨[10, 20], 2, ⟨1, 5, 2⟩⟩⟩ :=
    .recv (by decide)
      ⟨rfl, ⟨Or.inr rfl, Or.inr rfl⟩, fun _ hmem => absurd hmem List.not_mem_nil⟩
  exact recv_exact (((Run.start.step hprobe).arrive ⟨1, 5, [30, 40, 50], 0⟩).step hprepare |>.step
    hrecv)

end MpiBindings.PointToPoint
