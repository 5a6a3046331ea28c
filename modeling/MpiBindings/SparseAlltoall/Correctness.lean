import MpiBindings.SparseAlltoall.Exchange
import MpiBindings.Core.KeyedItems

/-!
# Correctness of the sparse all-to-all exchange

A message in transit keeps its sender from entering the barrier of the call, and
a rank leaves its loop only after all ranks have entered that barrier.  Hence
messages are received in the call in which they were sent, and none is left
when a rank returns.
-/

namespace MpiBindings.SparseAlltoall

variable {p : ℕ} {T : Type}

/-! ## Invariant -/

/-- Messages to one destination; empty messages are not sent. -/
def messagesTo (buffer : SparseSendBuf p T) (dst : Fin p) : List (List T) :=
  (withKey buffer dst).filter fun message => 0 < message.length

/-- Contents received from one source. -/
def receivedFrom (log : List (ReceivedMessage p T)) (src : Fin p) : List (List T) :=
  withKey (log.map fun entry => (entry.source, entry.recvBuf)) src

namespace LocalState

/-- Number of collectives that the position of a rank proves complete. -/
def certified (state : LocalState p T) : ℕ :=
  match state.phase with
  | .closing | .barrier _ => 2 * state.round + 1
  | _ => 2 * state.round

/-- Some sends of the current call may be incomplete. -/
def Open (state : LocalState p T) : Prop :=
  state.collectives.length = 2 * state.round ∧
    match state.phase with
    | .returned | .startingBarrier => False
    | _ => True

/-- The collectives that a rank has entered agree with its position. -/
def Synchronised (state : LocalState p T) : Prop :=
  match state.phase with
  | .sending _ => state.barrierRequest = none ∧ state.collectives.length = 2 * state.round
  | .probing | .onMessage _ | .testing =>
      state.barrierRequest = none ∧ state.collectives.length = 2 * state.round ∨
        state.barrierRequest = some (2 * state.round) ∧
          state.collectives.length = 2 * state.round + 1
  | .closing => state.collectives.length = 2 * state.round + 1
  | .barrier index =>
      index = 2 * state.round + 1 ∧ state.collectives.length = 2 * state.round + 2
  | _ => state.collectives.length = 2 * state.round

/-- The part of the send buffer of a call that was not sent yet. -/
def unsent (buffer : ℕ → SparseSendBuf p T) (state : LocalState p T) (round : ℕ) :
    SparseSendBuf p T :=
  if state.round = round then
    match state.phase with
    | .returned => buffer round
    | .sending remaining | .aborted remaining => remaining
    | _ => []
  else if state.round < round then buffer round else []

end LocalState

/-- The messages of a call that were sent and not received. -/
def Network.undelivered (net : Network p T) (src dst : Fin p) (round : ℕ) : List (List T) :=
  if (net.locals src).round = round then (net.channel src dst).map Envelope.message else []

structure Invariant (sendBuf : ℕ → Fin p → SparseSendBuf p T) (net : Network p T) : Prop where
  synchronised : ∀ rank, (net.locals rank).Synchronised
  certified : ∀ rank other,
    (net.locals rank).certified ≤ (net.locals other).collectives.length
  pending : ∀ src dst, ∀ envelope ∈ net.channel src dst,
    (net.locals src).Open ∧ envelope.request ∈ (net.locals src).requestPool
  probed : ∀ rank status, (net.locals rank).phase = .onMessage status →
    ∃ envelope rest, net.arrived status.source rank = envelope :: rest ∧
      envelope.message.length = status.count
  conserved : ∀ src dst round,
    receivedFrom ((net.locals dst).received round) src ++ net.undelivered src dst round ++
        messagesTo ((net.locals src).unsent (sendBuf · src) round) dst =
      messagesTo (sendBuf round src) dst
  recvCount : ∀ rank round, ∀ entry ∈ (net.locals rank).received round,
    entry.recvCount = entry.recvBuf.length

section Locals

variable (net : Network p T) {me : Fin p}

@[simp]
theorem Network.locals_setLocal_self (me : Fin p) (state : LocalState p T) :
    (net.setLocal me state).locals me = state :=
  Function.update_self ..

theorem Network.locals_setLocal_of_ne {rank : Fin p} (hrank : rank ≠ me)
    (state : LocalState p T) : (net.setLocal me state).locals rank = net.locals rank :=
  Function.update_of_ne hrank ..

@[simp]
theorem Network.locals_issend_self (me dst : Fin p) (message : List T)
    (remaining : SparseSendBuf p T) :
    (issend net me dst message remaining).locals me = { net.locals me with
      phase := .sending remaining
      nextRequest := (net.locals me).nextRequest + 1
      requestPool := (net.locals me).requestPool ++ [(net.locals me).nextRequest] } :=
  Function.update_self ..

theorem Network.locals_issend_of_ne {rank : Fin p} (hrank : rank ≠ me) (dst : Fin p)
    (message : List T) (remaining : SparseSendBuf p T) :
    (issend net me dst message remaining).locals rank = net.locals rank :=
  Function.update_of_ne hrank ..

end Locals

section Steps

variable {sendBuf : ℕ → Fin p → SparseSendBuf p T} {calls : ℕ} {net next : Network p T}
variable {me : Fin p}

theorem invariant_start : Invariant sendBuf (start : Network p T) where
  synchronised rank := rfl
  certified rank other := le_rfl
  pending src dst envelope henvelope := by simp [start, Network.channel] at henvelope
  probed rank status hphase := by simp [start] at hphase
  conserved src dst round := by
    rcases Nat.eq_zero_or_pos round with rfl | hround
    · simp [start, receivedFrom, Network.undelivered, Network.channel, LocalState.unsent]
    · simp [start, receivedFrom, Network.undelivered, LocalState.unsent, hround, hround.ne]
  recvCount rank round entry hentry := by simp [start] at hentry

/-- A rank with messages in transit has not started the barrier of its call. -/
theorem Invariant.channel_eq_nil (h : Invariant sendBuf net)
    (hclosed : ¬ (net.locals me).Open) (dst : Fin p) : net.channel me dst = [] := by
  rw [List.eq_nil_iff_forall_not_mem]
  intro envelope henvelope
  exact hclosed (h.pending me dst envelope henvelope).1

theorem Invariant.synchronised_of_others (h : Invariant sendBuf net)
    (hsync : (next.locals me).Synchronised)
    (hother : ∀ rank, rank ≠ me → next.locals rank = net.locals rank) (rank : Fin p) :
    (next.locals rank).Synchronised := by
  obtain rfl | hrank := eq_or_ne rank me
  · exact hsync
  · rw [hother rank hrank]
    exact h.synchronised rank

theorem Invariant.certified_of_others (h : Invariant sendBuf net)
    (hcertified : (next.locals me).certified = (net.locals me).certified)
    (hother : ∀ rank, rank ≠ me → next.locals rank = net.locals rank)
    (hcollectives : ∀ rank, (next.locals rank).collectives = (net.locals rank).collectives)
    (rank other : Fin p) :
    (next.locals rank).certified ≤ (next.locals other).collectives.length := by
  rw [hcollectives other]
  obtain rfl | hrank := eq_or_ne rank me
  · rw [hcertified]
    exact h.certified rank other
  · rw [hother rank hrank]
    exact h.certified rank other

/-- Steps that change only the local state of one rank. -/
theorem Invariant.setLocal (h : Invariant sendBuf net) {state : LocalState p T}
    (hreceived : state.received = (net.locals me).received)
    (hprogress : (net.locals me).collectives.length ≤ state.collectives.length)
    (hsynchronised : state.Synchronised)
    (hcertified : ∀ other, state.certified ≤ (net.locals other).collectives.length)
    (hpending : ∀ dst, net.channel me dst ≠ [] →
      state.Open ∧ state.round = (net.locals me).round ∧
        state.requestPool = (net.locals me).requestPool)
    (hprobed : ∀ status, state.phase = .onMessage status →
      ∃ envelope rest, net.arrived status.source me = envelope :: rest ∧
        envelope.message.length = status.count)
    (hunsent : ∀ dst round, messagesTo (state.unsent (sendBuf · me) round) dst =
      messagesTo ((net.locals me).unsent (sendBuf · me) round) dst) :
    Invariant sendBuf (net.setLocal me state) := by
  have hself := net.locals_setLocal_self me state
  have hother := fun rank (hrank : rank ≠ me) => net.locals_setLocal_of_ne hrank state
  refine ⟨fun rank => ?_, fun rank other => ?_, fun src dst envelope henvelope => ?_,
    fun rank status hphase => ?_, fun src dst round => ?_, fun rank round entry hentry => ?_⟩
  · exact h.synchronised_of_others (by rwa [hself]) hother rank
  · have hgrows : (net.locals other).collectives.length ≤
        ((net.setLocal me state).locals other).collectives.length := by
      obtain rfl | hrank := eq_or_ne other me
      · rwa [hself]
      · rw [hother other hrank]
    refine le_trans ?_ hgrows
    obtain rfl | hrank := eq_or_ne rank me
    · rw [hself]
      exact hcertified other
    · rw [hother rank hrank]
      exact h.certified rank other
  · have hold := h.pending src dst envelope henvelope
    obtain rfl | hsrc := eq_or_ne src me
    · obtain ⟨hopen, -, hpool⟩ := hpending dst (List.ne_nil_of_mem henvelope)
      rw [hself, hpool]
      exact ⟨hopen, hold.2⟩
    · rwa [hother src hsrc]
  · obtain rfl | hrank := eq_or_ne rank me
    · rw [hself] at hphase
      exact hprobed status hphase
    · rw [hother rank hrank] at hphase
      exact h.probed rank status hphase
  · have hlog : ((net.setLocal me state).locals dst).received = (net.locals dst).received := by
      obtain rfl | hdst := eq_or_ne dst me
      · rw [hself, hreceived]
      · rw [hother dst hdst]
    rw [hlog, ← h.conserved src dst round]
    obtain rfl | hsrc := eq_or_ne src me
    · have hundelivered : (net.setLocal src state).undelivered src dst round =
          net.undelivered src dst round := by
        rw [Network.undelivered, Network.undelivered, hself]
        by_cases hempty : net.channel src dst = []
        · have hempty' : (net.setLocal src state).channel src dst = [] := hempty
          simp [hempty, hempty']
        · rw [(hpending dst hempty).2.1]
          rfl
      rw [hself, hunsent, hundelivered]
    · rw [Network.undelivered, Network.undelivered, hother src hsrc]
      rfl
  · obtain rfl | hrank := eq_or_ne rank me
    · rw [hself, hreceived] at hentry
      exact h.recvCount rank round entry hentry
    · rw [hother rank hrank] at hentry
      exact h.recvCount rank round entry hentry

/-! ### Channels -/

theorem setQueue_self (queues : Fin p → Fin p → List (Envelope T)) (src dst : Fin p)
    (queue : List (Envelope T)) : setQueue queues src dst queue src dst = queue := by
  simp [setQueue]

theorem setQueue_of_ne (queues : Fin p → Fin p → List (Envelope T)) {src dst src' dst' : Fin p}
    (hne : src' ≠ src ∨ dst' ≠ dst) (queue : List (Envelope T)) :
    setQueue queues src dst queue src' dst' = queues src' dst' := by
  refine if_neg fun hsame => ?_
  obtain ⟨rfl, rfl⟩ := hsame
  simp at hne

/-- The arrival of a message changes neither the local states nor the messages
that were not received. -/
theorem Invariant.of_arrive (h : Invariant sendBuf net) {src dst : Fin p}
    (hstep : arrive net src dst = some next) : Invariant sendBuf next := by
  simp only [arrive] at hstep
  split at hstep
  · cases hstep
  rename_i envelope rest hqueue
  obtain rfl := Option.some.inj hstep
  have hchannel : ∀ src' dst', Network.channel
      { net with
        inFlight := setQueue net.inFlight src dst rest
        arrived := setQueue net.arrived src dst (net.arrived src dst ++ [envelope]) } src' dst' =
      net.channel src' dst' := by
    intro src' dst'
    simp only [Network.channel]
    by_cases hsame : src' = src ∧ dst' = dst
    · obtain ⟨rfl, rfl⟩ := hsame
      rw [setQueue_self, setQueue_self, hqueue, List.append_assoc, List.singleton_append]
    · rw [setQueue_of_ne _ (not_and_or.mp hsame), setQueue_of_ne _ (not_and_or.mp hsame)]
  refine ⟨h.synchronised, h.certified, fun src' dst' other hother => ?_,
    fun rank status hphase => ?_, fun src' dst' round => ?_, h.recvCount⟩
  · rw [hchannel] at hother
    exact h.pending src' dst' other hother
  · obtain ⟨first, others, harrived, hcount⟩ := h.probed rank status hphase
    by_cases hsame : status.source = src ∧ rank = dst
    · obtain ⟨rfl, rfl⟩ := hsame
      refine ⟨first, others ++ [envelope], ?_, hcount⟩
      simp only [setQueue_self, harrived, List.cons_append]
    · refine ⟨first, others, ?_, hcount⟩
      simp only [setQueue_of_ne _ (not_and_or.mp hsame), harrived]
  · rw [Network.undelivered, hchannel]
    exact h.conserved src' dst' round

theorem messagesTo_cons (dst : Fin p) (message : List T) (buffer : SparseSendBuf p T)
    (target : Fin p) :
    messagesTo ((dst, message) :: buffer) target =
      if dst = target ∧ 0 < message.length then message :: messagesTo buffer target
      else messagesTo buffer target := by
  rw [messagesTo, withKey_cons]
  by_cases hdst : dst = target <;> by_cases hlength : 0 < message.length <;>
    simp [messagesTo, hdst, hlength]

theorem channel_issend (net : Network p T) (me dst : Fin p) (message : List T)
    (remaining : SparseSendBuf p T) (src dst' : Fin p) :
    (issend net me dst message remaining).channel src dst' = net.channel src dst' ++
      if me = src ∧ dst = dst' then [⟨(net.locals me).nextRequest, message⟩] else [] := by
  simp only [Network.channel, issend]
  by_cases hsame : src = me ∧ dst' = dst
  · obtain ⟨rfl, rfl⟩ := hsame
    simp [setQueue_self]
  · have hother : ¬ (me = src ∧ dst = dst') := fun heq => hsame ⟨heq.1.symm, heq.2.symm⟩
    rw [setQueue_of_ne _ (not_and_or.mp hsame), if_neg hother, List.append_nil]

/-- A send moves the first unsent message to the end of its channel. -/
theorem Invariant.of_issend (h : Invariant sendBuf net) {dst : Fin p} {message : List T}
    {remaining : SparseSendBuf p T}
    (hphase : (net.locals me).phase = .sending ((dst, message) :: remaining))
    (hlength : 0 < message.length) :
    Invariant sendBuf (issend net me dst message remaining) := by
  have hself := net.locals_issend_self me dst message remaining
  have hother := fun rank (hrank : rank ≠ me) =>
    net.locals_issend_of_ne hrank dst message remaining
  have hsync := h.synchronised me
  rw [LocalState.Synchronised, hphase] at hsync
  have hkept : ∀ rank,
      ((issend net me dst message remaining).locals rank).round = (net.locals rank).round ∧
        ((issend net me dst message remaining).locals rank).collectives =
          (net.locals rank).collectives ∧
        ((issend net me dst message remaining).locals rank).received =
          (net.locals rank).received := by
    intro rank
    obtain rfl | hrank := eq_or_ne rank me
    · rw [hself]
      exact ⟨rfl, rfl, rfl⟩
    · rw [hother rank hrank]
      exact ⟨rfl, rfl, rfl⟩
  have hchannel := channel_issend net me dst message remaining
  refine ⟨fun rank => ?_, fun rank other => ?_, fun src dst' envelope henvelope => ?_,
    fun rank status hstatus => ?_, fun src dst' round => ?_, fun rank round => ?_⟩
  · refine h.synchronised_of_others ?_ hother rank
    rw [hself]
    exact hsync
  · refine h.certified_of_others ?_ hother (fun rank => (hkept rank).2.1) rank other
    rw [hself, LocalState.certified, LocalState.certified, hphase]
  · rw [hchannel, List.mem_append] at henvelope
    obtain rfl | hsrc := eq_or_ne src me
    · rw [hself]
      refine ⟨⟨hsync.2, trivial⟩, ?_⟩
      obtain henvelope | henvelope := henvelope
      · exact List.mem_append_left _ (h.pending src dst' envelope henvelope).2
      · split_ifs at henvelope
        · rw [List.mem_singleton.mp henvelope]
          exact List.mem_append_right _ List.mem_cons_self
        · cases henvelope
    · rw [if_neg fun hsame => hsrc hsame.1.symm] at henvelope
      rw [hother src hsrc]
      exact h.pending src dst' envelope (henvelope.resolve_right List.not_mem_nil)
  · obtain rfl | hrank := eq_or_ne rank me
    · rw [hself] at hstatus
      cases hstatus
    · rw [hother rank hrank] at hstatus
      exact h.probed rank status hstatus
  · rw [(hkept dst').2.2, ← h.conserved src dst' round, Network.undelivered,
      Network.undelivered, (hkept src).1, hchannel]
    obtain rfl | hsrc := eq_or_ne src me
    · rw [hself]
      simp only [LocalState.unsent, hphase]
      split_ifs with hcurrent hsame hlater
      · obtain ⟨-, rfl⟩ := hsame
        rw [messagesTo_cons, if_pos ⟨rfl, hlength⟩, List.map_append, List.append_assoc,
          List.append_assoc, List.append_assoc]
        rfl
      · have hsent : ¬ (dst = dst' ∧ 0 < message.length) := fun hto => hsame ⟨trivial, hto.1⟩
        rw [messagesTo_cons, if_neg hsent, List.append_nil]
      · rfl
      · rfl
    · have hnot : ¬ (me = src ∧ dst = dst') := fun hsame => hsrc hsame.1.symm
      rw [hother src hsrc, if_neg hnot, List.append_nil]
  · rw [(hkept rank).2.2]
    exact h.recvCount rank round

theorem LocalState.two_mul_round_le_certified (state : LocalState p T) :
    2 * state.round ≤ state.certified := by
  rw [LocalState.certified]
  split <;> omega

/-- A rank in its loop receives messages of its own call only. -/
theorem Invariant.round_eq (h : Invariant sendBuf net) {src : Fin p} {envelope : Envelope T}
    (henvelope : envelope ∈ net.channel src me)
    (hloop : (net.locals me).collectives.length ≤ 2 * (net.locals me).round + 1) :
    (net.locals src).round = (net.locals me).round := by
  have hsender := (h.pending src me envelope henvelope).1.1
  have hlower := (net.locals me).two_mul_round_le_certified.trans (h.certified me src)
  have hupper := (net.locals src).two_mul_round_le_certified.trans (h.certified src me)
  omega

theorem receivedFrom_append (log log' : List (ReceivedMessage p T)) (src : Fin p) :
    receivedFrom (log ++ log') src = receivedFrom log src ++ receivedFrom log' src := by
  rw [receivedFrom, List.map_append, withKey_append]
  rfl

theorem receivedFrom_singleton (entry : ReceivedMessage p T) (src : Fin p) :
    receivedFrom [entry] src = if entry.source = src then [entry.recvBuf] else [] := by
  rw [receivedFrom, List.map_singleton, withKey_cons, withKey_nil]

/-- Network after the callback has received the given message. -/
def afterRecv (net : Network p T) (me : Fin p) (entry : ReceivedMessage p T)
    (rest : List (Envelope T)) : Network p T where
  locals := Function.update net.locals me { net.locals me with
    phase := .testing
    received := Function.update (net.locals me).received (net.locals me).round
      ((net.locals me).received (net.locals me).round ++ [entry]) }
  inFlight := net.inFlight
  arrived := setQueue net.arrived entry.source me rest

theorem locals_afterRecv_self (net : Network p T) (me : Fin p) (entry : ReceivedMessage p T)
    (rest : List (Envelope T)) :
    (afterRecv net me entry rest).locals me = { net.locals me with
      phase := .testing
      received := Function.update (net.locals me).received (net.locals me).round
        ((net.locals me).received (net.locals me).round ++ [entry]) } :=
  Function.update_self ..

theorem locals_afterRecv_of_ne (net : Network p T) {me rank : Fin p} (hrank : rank ≠ me)
    (entry : ReceivedMessage p T) (rest : List (Envelope T)) :
    (afterRecv net me entry rest).locals rank = net.locals rank :=
  Function.update_of_ne hrank ..

/-- The received message was the first one of its channel. -/
theorem channel_afterRecv (entry : ReceivedMessage p T) {envelope : Envelope T}
    {rest : List (Envelope T)} (harrived : net.arrived entry.source me = envelope :: rest)
    (src dst : Fin p) :
    net.channel src dst = (if entry.source = src ∧ me = dst then [envelope] else []) ++
      (afterRecv net me entry rest).channel src dst := by
  simp only [Network.channel, afterRecv]
  by_cases hsame : src = entry.source ∧ dst = me
  · obtain ⟨rfl, rfl⟩ := hsame
    simp [setQueue_self, harrived]
  · have hother : ¬ (entry.source = src ∧ me = dst) := fun heq => hsame ⟨heq.1.symm, heq.2.symm⟩
    rw [setQueue_of_ne _ (not_and_or.mp hsame), if_neg hother, List.nil_append]

/-- The entry is logged in the current call. -/
theorem received_afterRecv (net : Network p T) (me : Fin p) (entry : ReceivedMessage p T)
    (rest : List (Envelope T)) (rank : Fin p) (round : ℕ) :
    ((afterRecv net me entry rest).locals rank).received round =
      (net.locals rank).received round ++
        if rank = me ∧ (net.locals me).round = round then [entry] else [] := by
  obtain rfl | hrank := eq_or_ne rank me
  · rw [locals_afterRecv_self]
    obtain rfl | hne := eq_or_ne (net.locals rank).round round
    · simp
    · simp [Function.update_of_ne hne.symm, hne]
  · rw [locals_afterRecv_of_ne net hrank, if_neg fun hsame => hrank hsame.1, List.append_nil]

/-- The callback receives the message that was probed. -/
theorem Invariant.recv_eq_some (h : Invariant sendBuf net) (hstep : recv net me = some next) :
    ∃ status envelope rest, (net.locals me).phase = .onMessage status ∧
      net.arrived status.source me = envelope :: rest ∧
      envelope.message.length = status.count ∧
      next = afterRecv net me ⟨status.source, status.count, envelope.message⟩ rest := by
  simp only [recv] at hstep
  split at hstep
  case h_2 => cases hstep
  rename_i status hphase
  obtain ⟨envelope, rest, harrived, hcount⟩ := h.probed me status hphase
  rw [harrived] at hstep
  simp only [hcount, le_refl, if_true] at hstep
  exact ⟨status, envelope, rest, hphase, harrived, hcount, (Option.some.inj hstep).symm⟩

/-- A receive moves the first message of a channel to the log of the call. -/
theorem Invariant.of_recv (h : Invariant sendBuf net) (hstep : recv net me = some next) :
    Invariant sendBuf next := by
  obtain ⟨status, envelope, rest, hphase, harrived, hcount, rfl⟩ := h.recv_eq_some hstep
  set entry : ReceivedMessage p T := ⟨status.source, status.count, envelope.message⟩
  have hself := locals_afterRecv_self net me entry rest
  have hother := fun rank (hrank : rank ≠ me) => locals_afterRecv_of_ne net hrank entry rest
  have hsync := h.synchronised me
  rw [LocalState.Synchronised, hphase] at hsync
  have hchannel := channel_afterRecv entry harrived
  have hround : (net.locals status.source).round = (net.locals me).round := by
    have henvelope : envelope ∈ net.channel status.source me := by
      rw [hchannel, if_pos ⟨rfl, rfl⟩]
      exact List.mem_append_left _ List.mem_cons_self
    refine h.round_eq henvelope ?_
    obtain ⟨-, hlength⟩ | ⟨-, hlength⟩ := hsync <;> omega
  have hkept : ∀ rank,
      ((afterRecv net me entry rest).locals rank).round = (net.locals rank).round ∧
        ((afterRecv net me entry rest).locals rank).collectives =
          (net.locals rank).collectives ∧
        ((afterRecv net me entry rest).locals rank).unsent (sendBuf · rank) =
          (net.locals rank).unsent (sendBuf · rank) := by
    intro rank
    obtain rfl | hrank := eq_or_ne rank me
    · rw [hself]
      refine ⟨rfl, rfl, ?_⟩
      funext round
      simp only [LocalState.unsent, hphase]
    · rw [hother rank hrank]
      exact ⟨rfl, rfl, rfl⟩
  have hreceived := received_afterRecv net me entry rest
  refine ⟨fun rank => ?_, fun rank other => ?_, fun src dst other hmem => ?_,
    fun rank status' hstatus => ?_, fun src dst round => ?_, fun rank round other hmem => ?_⟩
  · refine h.synchronised_of_others ?_ hother rank
    rw [hself]
    exact hsync
  · refine h.certified_of_others ?_ hother (fun rank => (hkept rank).2.1) rank other
    rw [hself, LocalState.certified, LocalState.certified, hphase]
  · have hpending := h.pending src dst other (by
      rw [hchannel]
      exact List.mem_append_right _ hmem)
    obtain rfl | hsrc := eq_or_ne src me
    · rw [hself]
      exact ⟨⟨hpending.1.1, trivial⟩, hpending.2⟩
    · rwa [hother src hsrc]
  · obtain rfl | hrank := eq_or_ne rank me
    · rw [hself] at hstatus
      cases hstatus
    · rw [hother rank hrank] at hstatus
      obtain ⟨first, others, hfirst, hlength⟩ := h.probed rank status' hstatus
      refine ⟨first, others, ?_, hlength⟩
      simp only [afterRecv]
      rw [setQueue_of_ne _ (Or.inr hrank), hfirst]
  · rw [(hkept src).2.2, ← h.conserved src dst round, hreceived, receivedFrom_append,
      Network.undelivered, Network.undelivered, (hkept src).1, hchannel src dst]
    by_cases hsame : status.source = src ∧ me = dst
    · obtain ⟨rfl, rfl⟩ := hsame
      rw [hround]
      by_cases hcurrent : (net.locals me).round = round
      · simp [hcurrent, receivedFrom_singleton, entry]
      · simp [hcurrent, receivedFrom]
    · have hnone : receivedFrom
          (if dst = me ∧ (net.locals me).round = round then [entry] else []) src = [] := by
        split_ifs with hlogged
        · rw [receivedFrom_singleton, if_neg fun hsource => hsame ⟨hsource, hlogged.1.symm⟩]
        · rfl
      rw [if_neg hsame, List.nil_append, hnone, List.append_nil]
  · rw [hreceived, List.mem_append] at hmem
    obtain hmem | hmem := hmem
    · exact h.recvCount rank round other hmem
    · split_ifs at hmem
      · rw [List.mem_singleton.mp hmem]
        exact hcount.symm
      · cases hmem

/-! ### Local steps -/

/-- Steps to another position in the same call. -/
theorem Invariant.setPhase (h : Invariant sendBuf net) {phase : Phase p T}
    (hsynchronised : { net.locals me with phase }.Synchronised)
    (hcertified : { net.locals me with phase }.certified = (net.locals me).certified)
    (hpending : ∀ dst, net.channel me dst ≠ [] → { net.locals me with phase }.Open)
    (hprobed : ∀ status, phase = .onMessage status →
      ∃ envelope rest, net.arrived status.source me = envelope :: rest ∧
        envelope.message.length = status.count)
    (hunsent : ∀ dst round,
      messagesTo ({ net.locals me with phase }.unsent (sendBuf · me) round) dst =
        messagesTo ((net.locals me).unsent (sendBuf · me) round) dst) :
    Invariant sendBuf (net.setPhase me phase) :=
  h.setLocal rfl le_rfl hsynchronised (fun other => hcertified ▸ h.certified me other)
    (fun dst hchannel => ⟨hpending dst hchannel, rfl, rfl⟩) hprobed hunsent

theorem Invariant.open_of_ne_nil (h : Invariant sendBuf net) {dst : Fin p}
    (hchannel : net.channel me dst ≠ []) : (net.locals me).Open := by
  by_contra hclosed
  exact hchannel (h.channel_eq_nil hclosed dst)

theorem Invariant.of_call (h : Invariant sendBuf net)
    (hstep : call sendBuf calls net me = some next) : Invariant sendBuf next := by
  simp only [call] at hstep
  split at hstep
  case h_2 => cases hstep
  rename_i hphase
  split_ifs at hstep
  obtain rfl := Option.some.inj hstep
  have hsync := h.synchronised me
  have hcertified := h.certified me
  simp only [LocalState.Synchronised, LocalState.certified, hphase] at hsync hcertified
  refine h.setLocal rfl le_rfl ⟨rfl, hsync⟩ hcertified (fun dst hchannel => ?_)
    (fun _ hstatus => by cases hstatus) fun dst round => ?_
  · have hopen := (h.open_of_ne_nil hchannel).2
    rw [hphase] at hopen
    exact hopen.elim
  · simp only [LocalState.unsent, hphase]
    obtain rfl | hround := eq_or_ne (net.locals me).round round
    · rfl
    · rw [if_neg hround, if_neg hround]

theorem Invariant.of_send (h : Invariant sendBuf net) (hstep : send net me = some next) :
    Invariant sendBuf next := by
  have hsync := h.synchronised me
  simp only [send] at hstep
  split at hstep
  · -- all messages were sent
    rename_i hphase
    obtain rfl := Option.some.inj hstep
    simp only [LocalState.Synchronised, hphase] at hsync
    refine h.setPhase (Or.inl hsync) ?_ (fun dst _ => ⟨hsync.2, trivial⟩)
      (fun _ hstatus => by cases hstatus) fun dst round => ?_
    · simp only [LocalState.certified, hphase]
    · simp only [LocalState.unsent, hphase]
  · rename_i dst message remaining hphase
    simp only [LocalState.Synchronised, hphase] at hsync
    split_ifs at hstep with hlength hint
    · obtain rfl := Option.some.inj hstep
      exact h.of_issend hphase hlength
    · obtain rfl := Option.some.inj hstep
      refine h.setPhase hsync.2 ?_ (fun dst _ => ⟨hsync.2, trivial⟩)
        (fun _ hstatus => by cases hstatus) fun target round => ?_
      · simp only [LocalState.certified, hphase]
      · simp only [LocalState.unsent, hphase]
    · obtain rfl := Option.some.inj hstep
      refine h.setPhase hsync ?_ (fun dst _ => ⟨hsync.2, trivial⟩)
        (fun _ hstatus => by cases hstatus) fun target round => ?_
      · simp only [LocalState.certified, hphase]
      · simp only [LocalState.unsent, hphase]
        split_ifs
        · rw [messagesTo_cons, if_neg fun hsent => hlength hsent.2]
        · rfl
        · rfl
  · cases hstep

theorem Invariant.of_iprobe (h : Invariant sendBuf net) {source : Option (Fin p)}
    (hstep : iprobe net me source = some next) : Invariant sendBuf next := by
  have hsync := h.synchronised me
  simp only [iprobe] at hstep
  split at hstep
  case h_3 => cases hstep
  · rename_i source hphase
    split at hstep
    · cases hstep
    rename_i envelope rest harrived
    obtain rfl := Option.some.inj hstep
    simp only [LocalState.Synchronised, hphase] at hsync
    refine h.setPhase hsync ?_ (fun dst hchannel => ⟨(h.open_of_ne_nil hchannel).1, trivial⟩)
      (fun status hstatus => ?_) fun dst round => ?_
    · simp only [LocalState.certified, hphase]
    · cases hstatus
      exact ⟨envelope, rest, harrived, rfl⟩
    · simp only [LocalState.unsent, hphase]
  · rename_i hphase
    split_ifs at hstep
    obtain rfl := Option.some.inj hstep
    simp only [LocalState.Synchronised, hphase] at hsync
    refine h.setPhase hsync ?_ (fun dst hchannel => ⟨(h.open_of_ne_nil hchannel).1, trivial⟩)
      (fun _ hstatus => by cases hstatus) fun dst round => ?_
    · simp only [LocalState.certified, hphase]
    · simp only [LocalState.unsent, hphase]

theorem Network.Entered.lt_length {index : ℕ} {collective : Collective}
    (hentered : net.Entered index collective) (rank : Fin p) :
    index < (net.locals rank).collectives.length :=
  (List.getElem?_eq_some_iff.mp (hentered rank)).1

theorem Invariant.of_test (h : Invariant sendBuf net) {flag : Bool}
    (hstep : test net me flag = some next) : Invariant sendBuf next := by
  have hsync := h.synchronised me
  simp only [test] at hstep
  split at hstep
  case h_4 => cases hstep
  · rename_i hphase
    obtain rfl := Option.some.inj hstep
    simp only [LocalState.Synchronised, hphase] at hsync
    refine h.setPhase hsync ?_ (fun dst hchannel => ⟨(h.open_of_ne_nil hchannel).1, trivial⟩)
      (fun _ hstatus => by cases hstatus) fun dst round => ?_
    · simp only [LocalState.certified, hphase]
    · simp only [LocalState.unsent, hphase]
  · -- all ranks have entered the barrier of the call
    rename_i index hphase hrequest
    split_ifs at hstep with hentered
    obtain rfl := Option.some.inj hstep
    simp only [LocalState.Synchronised, hphase, hrequest, reduceCtorEq, false_and, false_or,
      Option.some.injEq] at hsync
    obtain ⟨rfl, hlength⟩ := hsync
    refine h.setLocal rfl le_rfl hlength hentered.lt_length (fun dst hchannel => ?_)
      (fun _ hstatus => by cases hstatus) fun dst round => ?_
    · have := (h.open_of_ne_nil hchannel).1
      omega
    · simp only [LocalState.unsent, hphase]
  · rename_i hphase hrequest
    split_ifs at hstep with hmatched
    obtain rfl := Option.some.inj hstep
    simp only [LocalState.Synchronised, hphase, hrequest, reduceCtorEq, false_and, or_false,
      true_and] at hsync
    refine h.setPhase hsync ?_ (fun dst hchannel => ?_) (fun _ hstatus => by cases hstatus)
      fun dst round => ?_
    · simp only [LocalState.certified, hphase]
    · obtain ⟨envelope, henvelope⟩ := List.exists_mem_of_ne_nil _ hchannel
      exact absurd (h.pending me dst envelope henvelope).2 (hmatched dst envelope henvelope)
    · simp only [LocalState.unsent, hphase]

theorem Invariant.of_ibarrier (h : Invariant sendBuf net)
    (hstep : ibarrier net me = some next) : Invariant sendBuf next := by
  simp only [ibarrier] at hstep
  split at hstep
  case h_2 => cases hstep
  rename_i hphase
  obtain rfl := Option.some.inj hstep
  have hsync := h.synchronised me
  have hcertified := h.certified me
  simp only [LocalState.Synchronised, LocalState.certified, hphase] at hsync hcertified
  refine h.setLocal rfl (by simp) (Or.inr ?_) hcertified (fun dst hchannel => ?_)
    (fun _ hstatus => by cases hstatus) fun dst round => ?_
  · exact ⟨congrArg some hsync, by simp [hsync]⟩
  · have hopen := (h.open_of_ne_nil hchannel).2
    rw [hphase] at hopen
    exact hopen.elim
  · simp only [LocalState.unsent, hphase]

theorem Invariant.of_barrier (h : Invariant sendBuf net)
    (hstep : barrier net me = some next) : Invariant sendBuf next := by
  simp only [barrier] at hstep
  split at hstep
  case h_2 => cases hstep
  rename_i hphase
  obtain rfl := Option.some.inj hstep
  have hsync := h.synchronised me
  have hcertified := h.certified me
  simp only [LocalState.Synchronised, LocalState.certified, hphase] at hsync hcertified
  refine h.setLocal rfl (by simp) ⟨hsync, by simp [hsync]⟩ hcertified (fun dst hchannel => ?_)
    (fun _ hstatus => by cases hstatus) fun dst round => ?_
  · have := (h.open_of_ne_nil hchannel).1
    omega
  · simp only [LocalState.unsent, hphase]

theorem Invariant.of_leave (h : Invariant sendBuf net) (hstep : leave net me = some next) :
    Invariant sendBuf next := by
  simp only [leave] at hstep
  split at hstep
  case h_2 => cases hstep
  rename_i index hphase
  split_ifs at hstep with hentered
  obtain rfl := Option.some.inj hstep
  have hsync := h.synchronised me
  simp only [LocalState.Synchronised, hphase] at hsync
  obtain ⟨rfl, hlength⟩ := hsync
  refine h.setLocal rfl le_rfl hlength hentered.lt_length (fun dst hchannel => ?_)
    (fun _ hstatus => by cases hstatus) fun dst round => ?_
  · have := (h.open_of_ne_nil hchannel).1
    omega
  · simp only [LocalState.unsent, hphase]
    by_cases hnext : (net.locals me).round + 1 = round
    · rw [if_pos hnext, if_neg (by omega), if_pos (by omega)]
    · rw [if_neg hnext]
      split_ifs <;> first | rfl | omega

theorem Invariant.of_step (h : Invariant sendBuf net) {action : Action p}
    (hstep : step sendBuf calls action net = some next) : Invariant sendBuf next := by
  cases action with
  | arrive src dst => exact h.of_arrive hstep
  | call me => exact h.of_call hstep
  | send me => exact h.of_send hstep
  | iprobe me source => exact h.of_iprobe hstep
  | recv me => exact h.of_recv hstep
  | test me flag => exact h.of_test hstep
  | ibarrier me => exact h.of_ibarrier hstep
  | barrier me => exact h.of_barrier hstep
  | leave me => exact h.of_leave hstep

end Steps

/-! ## Main result -/

/-- Callbacks for the non-empty messages of one call to a rank. -/
def deliveries (sendBuf : Fin p → SparseSendBuf p T) (dst : Fin p) :
    List (ReceivedMessage p T) :=
  (List.finRange p).flatMap fun src =>
    (messagesTo (sendBuf src) dst).map fun message => ⟨src, message.length, message⟩

section Main

variable {sendBuf : ℕ → Fin p → SparseSendBuf p T} {calls : ℕ} {net : Network p T}

theorem LocalState.Synchronised.unsent_eq_nil {state : LocalState p T}
    (h : state.Synchronised) {buffer : ℕ → SparseSendBuf p T} {round : ℕ}
    (hlength : 2 * round + 1 ≤ state.collectives.length) : state.unsent buffer round = [] := by
  rw [LocalState.unsent]
  cases hphase : state.phase
  all_goals simp only [LocalState.Synchronised, hphase] at h
  all_goals split_ifs <;> first | rfl | omega

/-- A rank that has entered the barrier of a call has no message of it left to deliver. -/
theorem Invariant.receivedFrom_of_entered (h : Invariant sendBuf net) {src : Fin p} {round : ℕ}
    (hlength : 2 * round + 1 ≤ (net.locals src).collectives.length) (dst : Fin p) :
    receivedFrom ((net.locals dst).received round) src = messagesTo (sendBuf round src) dst := by
  have hconserved := h.conserved src dst round
  have hundelivered : net.undelivered src dst round = [] := by
    rw [Network.undelivered]
    split_ifs with hround
    · have hclosed : ¬ (net.locals src).Open := by
        intro hopen
        have hopenLength := hopen.1
        omega
      rw [h.channel_eq_nil hclosed, List.map_nil]
    · rfl
  rw [hundelivered, (h.synchronised src).unsent_eq_nil hlength, List.append_nil] at hconserved
  exact (List.append_nil _).symm.trans hconserved

/-- A rank that has returned from a call has received every message of it. -/
theorem Invariant.receivedFrom_eq (h : Invariant sendBuf net) {dst : Fin p} {round : ℕ}
    (hreturned : round < (net.locals dst).round) (src : Fin p) :
    receivedFrom ((net.locals dst).received round) src = messagesTo (sendBuf round src) dst := by
  have hlower := (net.locals dst).two_mul_round_le_certified.trans (h.certified dst src)
  exact h.receivedFrom_of_entered (by omega) dst

theorem Invariant.received_perm (h : Invariant sendBuf net) {dst : Fin p} {round : ℕ}
    (hreturned : round < (net.locals dst).round) :
    ((net.locals dst).received round).Perm (deliveries (sendBuf round) dst) := by
  let entryOf (item : Fin p × List T) : ReceivedMessage p T :=
    ⟨item.1, item.2.length, item.2⟩
  have hlog : (((net.locals dst).received round).map fun entry =>
      (entry.source, entry.recvBuf)).map entryOf = (net.locals dst).received round := by
    rw [List.map_map]
    refine (List.map_congr_left fun entry hentry => ?_).trans (List.map_id _)
    simp only [Function.comp_apply, entryOf, ← h.recvCount dst round entry hentry, id_eq]
  have hsources : ∀ item ∈ ((net.locals dst).received round).map fun entry =>
      (entry.source, entry.recvBuf), item.1 ∈ List.finRange p :=
    fun item _ => List.mem_finRange item.1
  have hsorted := flatMap_withKey_perm (List.nodup_finRange p) hsources
  rw [← hlog]
  refine (hsorted.map entryOf).symm.trans (List.Perm.of_eq ?_)
  rw [List.map_flatMap, deliveries]
  refine List.flatMap_congr fun src _ => ?_
  rw [List.map_map, ← h.receivedFrom_eq hreturned src]
  rfl

/-- When a rank has returned from a call, the callback was invoked exactly once for
each non-empty message that a rank addressed to it in that call. -/
theorem alltoallvSparse_delivers_round
    (hreach : CommutingSteps.Reachable (step sendBuf calls) start net) {me : Fin p} {round : ℕ}
    (hreturned : round < (net.locals me).round) :
    ((net.locals me).received round).Perm (deliveries (sendBuf round) me) :=
  (hreach.invariant invariant_start fun _ _ _ h hstep =>
    Invariant.of_step h hstep).received_perm hreturned

/-- Rank 0 sends a message and an empty one to rank 1. -/
def twoRanksSendBuf (_ : ℕ) : Fin 2 → SparseSendBuf 2 ℕ
  | 0 => [(1, [5, 6]), (1, [])]
  | 1 => []

def twoRanksSchedule : List (Action 2) :=
  [.call 0, .send 0, .arrive 0 1, .call 1, .send 1, .iprobe 1 (some 0), .send 0, .send 0,
    .recv 1, .iprobe 0 none, .test 1 true, .ibarrier 1, .test 0 true, .iprobe 1 none,
    .ibarrier 0, .iprobe 0 none, .test 1 true, .barrier 1, .test 0 true, .barrier 0, .leave 1]

theorem alltoallvSparse_delivers_round_twoRanks :
    let final := (CommutingSteps.run (step twoRanksSendBuf 1) twoRanksSchedule start).get
      (by decide +kernel)
    ((final.locals 1).received 0).Perm [⟨0, 2, [5, 6]⟩] :=
  alltoallvSparse_delivers_round ⟨twoRanksSchedule, (Option.some_get _).symm⟩
    (by decide +kernel)

end Main

end MpiBindings.SparseAlltoall
