import MpiBindings.PointToPoint.Irecv

/-!
# Receives without count never wait

A call of `irecv` without count posts its receive while the probed message is queued, and only
the thread itself could take the message out of the queue.  So the receive is matched at once,
and its buffer and count are those of the probed message.  Receives with a count may wait; a
message never waits in the queue while one of them selects it.
-/

namespace MpiBindings.PointToPoint

open MatchQueue Collectives

variable {α : Type} [Inhabited α]

/-! ## What is known about calls and results -/

/-- The buffer of a receive of `count` elements. -/
def IrecvCall.buffer (call : IrecvCall α) (count : ℤ) : List α :=
  if call.source = .null then call.recvBuf
  else call.resizePolicy.resizeIfRequested count.toNat default call.recvBuf

/-- What the probe of a call has reported, or the arguments of a call with a count. -/
def CountedFrom (call : IrecvCall α) (queue : List (Message α)) (source tag count : ℤ) :
    Option Status → Prop
  | none => source = call.source.rankSigned call.constants ∧
      tag = call.tag.tag call.constants ∧ call.recvCount = some count
  | some status => call.recvCount = none ∧
      (call.source = .null ∧ source = call.constants.procNull ∧ count = 0 ∧
          status = nullStatus call.constants ∨
        call.source ≠ .null ∧ ∃ before message after,
          Matched Message.envelope call.Selects queue before message after ∧
          message.remainder = 0 ∧ status = message.status call.constants ∧
          source = message.source ∧ tag = message.tag ∧ count = message.elements.length)

/-- What the phase of a call says about the queue. -/
def CallPhase (call : IrecvCall α) (queue : List (Message α)) : IrecvPhase α → Prop
  | .counted source tag count probed => CountedFrom call queue source tag count probed
  | .posting source tag count recvBuf probed =>
      CountedFrom call queue source tag count probed ∧ recvBuf = call.buffer count ∧
        (call.source ≠ .null → 0 ≤ count ∧ count.toNat ≤ recvBuf.length)
  | _ => True

/-- The result of a call without count has its message already, and was made for it. -/
def NbResult.Probed (result : NbResult α) (matched : Option (Message α)) : Prop :=
  result.call.recvCount = none → result.call.source ≠ .null →
    ∃ message, matched = some message ∧ message.remainder = 0 ∧
      result.count = message.elements.length ∧
      result.probed = some (message.status result.call.constants)

/-- The message that the receive of a request got. -/
def IrecvState.got (state : IrecvState α) (request : ℕ) : Option (Message α) :=
  state.matched.lookup request

/-- The requests whose receive waits for a message or got one. -/
def IrecvState.posted (state : IrecvState α) : List ℕ :=
  state.pending.map PostedReceive.request ++ state.matched.map Prod.fst

/-- What holds in every state of the thread. -/
structure IrecvExact (constants : Constants) (arrivals : List (Message α))
    (state : IrecvState α) : Prop where
  /-- From every source with every tag, messages are received in the order of their arrival, and
  the rest is queued in that order. -/
  conserved : ∀ envelope,
    ofChannel Message.envelope envelope (state.matched.map Prod.snd) ++
        ofChannel Message.envelope envelope state.queue =
      ofChannel Message.envelope envelope arrivals
  /-- No message waits while a posted receive selects it. -/
  waiting : ∀ receive ∈ state.pending, ∀ message ∈ state.queue,
    ¬ Selects constants receive.source receive.tag message
  /-- Every receive waits or got one message. -/
  once : state.posted.Nodup
  posted_iff : ∀ request, request ∈ state.posted ↔
    ∃ result, state.results[request]? = some result ∧ result.call.source ≠ .null
  pending : ∀ receive ∈ state.pending, ∀ result, state.results[receive.request]? = some result →
    ∀ message, Selects constants receive.source receive.tag message → result.call.Selects message
  selected : ∀ request result message, state.results[request]? = some result →
    state.got request = some message → result.call.Selects message
  probed : ∀ (request : ℕ) (result : NbResult α), state.results[request]? = some result →
    result.Probed (state.got request)
  buffer : ∀ (request : ℕ) (result : NbResult α), state.results[request]? = some result →
    result.call.constants = constants ∧ result.recvBuf = result.call.buffer result.count
  /-- A result hands its buffer out at most once, and checked only if its receive is matched. -/
  handedOnce : (state.handed.map Prod.fst).Nodup
  handed_iff : ∀ request, request ∈ state.handed.map Prod.fst ↔
    ∃ result, state.results[request]? = some result ∧ result.isExtracted = true
  handed : ∀ request recvBuf status, (request, .value recvBuf status) ∈ state.handed →
    ∃ result, state.results[request]? = some result ∧
      state.outcome request result = some (some (recvBuf, status))
  call : ∀ call phase, state.call = some (call, phase) →
    call.constants = constants ∧ CallPhase call state.queue phase

/-! ## Messages and results that are added -/

section Added

omit [Inhabited α]

theorem mem_posted_of_got {state : IrecvState α} {request : ℕ} {message : Message α}
    (hgot : state.got request = some message) : request ∈ state.posted := by
  by_contra hnone
  have hlookup : state.matched.lookup request = none := by
    refine List.lookup_eq_none_iff.mpr fun entry hentry => ?_
    have hne : request ≠ entry.1 := fun heq =>
      hnone (List.mem_append_right _ (List.mem_map.mpr ⟨entry, hentry, heq.symm⟩))
    simpa using hne
  cases hlookup.symm.trans hgot

theorem lookup_append_of_some {matched : List (ℕ × Message α)} {request : ℕ}
    {message : Message α} (hgot : matched.lookup request = some message)
    (more : List (ℕ × Message α)) : (matched ++ more).lookup request = some message :=
  (List.prefix_append matched more).lookup_eq_some hgot

theorem lookup_append_cases {matched more : List (ℕ × Message α)} {request : ℕ}
    {message : Message α} (hgot : (matched ++ more).lookup request = some message) :
    matched.lookup request = some message ∨ (request, message) ∈ more := by
  rw [List.lookup_append, Option.or_eq_some_iff] at hgot
  refine hgot.imp_right fun hnew => ?_
  obtain ⟨before, after, rfl, -⟩ := List.lookup_eq_some_iff.mp hnew.2
  exact List.mem_append_right before List.mem_cons_self

/-- What a request completes with does not change. -/
theorem outcome_append {state : IrecvState α} {request : ℕ} {result : NbResult α}
    {data : Option (List α × Status)} (houtcome : state.outcome request result = some data)
    (more : List (ℕ × Message α)) :
    IrecvState.outcome { state with matched := state.matched ++ more } request result =
      some data := by
  rw [IrecvState.outcome] at houtcome ⊢
  split_ifs at houtcome ⊢ with hnull
  · exact houtcome
  · obtain ⟨message, hgot, hdata⟩ := Option.map_eq_some_iff.mp houtcome
    rw [lookup_append_of_some hgot]
    exact congrArg some hdata

variable {results : List (NbResult α)} {result added : NbResult α} {request other : ℕ}

theorem getElem?_append_cases (hfound : (results ++ [added])[request]? = some result) :
    results[request]? = some result ∨ request = results.length ∧ result = added := by
  rcases Nat.lt_or_ge request results.length with hlt | hge
  · exact Or.inl ((List.getElem?_append_left hlt).symm.trans hfound)
  · have hlt := (List.getElem?_eq_some_iff.mp hfound).1
    rw [List.length_append, List.length_singleton] at hlt
    obtain rfl : request = results.length := by omega
    rw [List.getElem?_append_right le_rfl, Nat.sub_self] at hfound
    exact Or.inr ⟨rfl, (Option.some.inj hfound).symm⟩

theorem getElem?_append_of_some (hfound : results[request]? = some result) :
    (results ++ [added])[request]? = some result :=
  (List.getElem?_append_left (List.getElem?_eq_some_iff.mp hfound).1).trans hfound

theorem exists_append_iff {p : NbResult α → Prop} :
    (∃ result, (results ++ [added])[request]? = some result ∧ p result) ↔
      (∃ result, results[request]? = some result ∧ p result) ∨
        request = results.length ∧ p added := by
  constructor
  · rintro ⟨result, hfound, hp⟩
    rcases getElem?_append_cases hfound with hold | ⟨rfl, rfl⟩
    · exact Or.inl ⟨result, hold, hp⟩
    · exact Or.inr ⟨rfl, hp⟩
  · rintro (⟨result, hold, hp⟩ | ⟨rfl, hp⟩)
    · exact ⟨result, getElem?_append_of_some hold, hp⟩
    · exact ⟨added, List.getElem?_concat_length, hp⟩

/-- A result that was handed out differs in its flag only. -/
theorem getElem?_set_cases (hresult : results[request]? = some result)
    (hfound : (results.set request { result with isExtracted := true })[other]? = some added) :
    ∃ old, results[other]? = some old ∧ added = { old with isExtracted := added.isExtracted } := by
  obtain rfl | hne := eq_or_ne other request
  · rw [List.getElem?_set_self (List.getElem?_eq_some_iff.mp hresult).1] at hfound
    obtain rfl := Option.some.inj hfound
    exact ⟨result, hresult, rfl⟩
  · rw [List.getElem?_set_ne hne.symm] at hfound
    exact ⟨added, hfound, rfl⟩

end Added

/-! ## One call -/

section Call

variable {call : IrecvCall α} {queue : List (Message α)} {source tag count : ℤ}
variable {probed : Option Status}

omit [Inhabited α] in
theorem CountedFrom.source_iff (h : CountedFrom call queue source tag count probed) :
    source = call.constants.procNull ↔ call.source = .null := by
  cases probed with
  | none =>
      rw [h.1]
      exact @rankSigned_eq_procNull_iff _ call.toRecvCall
  | some status =>
      obtain ⟨-, ⟨hnull, rfl, -⟩ | ⟨hnotNull, _, message, _, -, -, -, rfl, -⟩⟩ := h
      · exact iff_of_true rfl hnull
      · exact iff_of_false (natCast_ne call.constants.procNull_neg) hnotNull

omit [Inhabited α] in
/-- What the posted receive selects, the arguments of the call select. -/
theorem CountedFrom.selects (h : CountedFrom call queue source tag count probed)
    (hsource : source ≠ call.constants.procNull) {message : Message α}
    (hselects : Selects call.constants source tag message) : call.Selects message := by
  cases probed with
  | none =>
      obtain ⟨rfl, rfl, -⟩ := h
      exact hselects
  | some status =>
      obtain ⟨-, ⟨-, hnull, -⟩ | ⟨-, _, found, _, hmatched, -, -, rfl, rfl, -⟩⟩ := h
      · exact absurd hnull hsource
      · exact RecvCall.selects_of_same hmatched.selected (selects_envelope_iff.mp hselects)

omit [Inhabited α] in
theorem CountedFrom.arrive (h : CountedFrom call queue source tag count probed)
    (message : Message α) : CountedFrom call (queue ++ [message]) source tag count probed := by
  cases probed with
  | none => exact h
  | some status =>
      refine ⟨h.1, h.2.imp_right ?_⟩
      rintro ⟨hnotNull, before, found, after, hmatched, hrest⟩
      exact ⟨hnotNull, before, found, after ++ [message], hmatched.append [message], hrest⟩

theorem CallPhase.arrive {phase : IrecvPhase α} (h : CallPhase call queue phase)
    (message : Message α) : CallPhase call (queue ++ [message]) phase := by
  cases phase with
  | entered | posted | failed => trivial
  | counted source tag count probed => exact CountedFrom.arrive h message
  | posting source tag count recvBuf probed => exact ⟨h.1.arrive message, h.2⟩

theorem callPhase_prepare (h : CountedFrom call queue source tag count probed) :
    CallPhase call queue (call.prepare source tag count probed) := by
  rw [IrecvCall.prepare]
  split_ifs with hnull hcount
  · refine ⟨h, ?_, fun hnotNull => absurd hnull hnotNull⟩
    rw [IrecvCall.buffer, if_pos hnull]
  · trivial
  · dsimp only
    split_ifs with hfits
    · refine ⟨h, ?_, fun _ => ⟨le_of_not_gt hcount, hfits⟩⟩
      rw [IrecvCall.buffer, if_neg hnull]
    · trivial

end Call

/-! ## All calls and results -/

namespace IrecvExact

variable {constants : Constants} {arrivals : List (Message α)} {state next : IrecvState α}

theorem start : IrecvExact constants ([] : List (Message α)) .start where
  conserved _ := rfl
  waiting _ hmem := absurd hmem List.not_mem_nil
  once := List.nodup_nil
  posted_iff _ := iff_of_false List.not_mem_nil fun ⟨_, hresult, _⟩ => by cases hresult
  pending _ hmem := absurd hmem List.not_mem_nil
  selected _ _ _ hresult := by cases hresult
  probed _ _ hresult := by cases hresult
  buffer _ _ hresult := by cases hresult
  handedOnce := List.nodup_nil
  handed_iff _ := iff_of_false List.not_mem_nil fun ⟨_, hresult, _⟩ => by cases hresult
  handed _ _ _ hmem := absurd hmem List.not_mem_nil
  call _ _ hcall := by cases hcall

variable (h : IrecvExact constants arrivals state)

include h

theorem queued (message : Message α)
    (hnone : ∀ receive ∈ state.pending, ¬ Selects constants receive.source receive.tag message) :
    IrecvExact constants (arrivals ++ [message])
      { state with queue := state.queue ++ [message] } where
  conserved envelope := by
    rw [ofChannel_append, ofChannel_append, ← List.append_assoc, h.conserved]
  waiting receive hreceive other hother := by
    rcases List.mem_append.mp hother with hold | hnew
    · exact h.waiting receive hreceive other hold
    · rw [List.mem_singleton.mp hnew]
      exact hnone receive hreceive
  once := h.once
  posted_iff := h.posted_iff
  pending := h.pending
  selected := h.selected
  probed := h.probed
  buffer := h.buffer
  handedOnce := h.handedOnce
  handed_iff := h.handed_iff
  handed := h.handed
  call call phase hcall := ⟨(h.call call phase hcall).1, (h.call call phase hcall).2.arrive message⟩

/-- A message goes to a receive that waits. -/
theorem arriveMatched (message : Message α) {before after : List PostedReceive}
    {receive : PostedReceive} (hpending : state.pending = before ++ receive :: after)
    (hselects : Selects constants receive.source receive.tag message) :
    IrecvExact constants (arrivals ++ [message])
      { state with
        pending := before ++ after
        matched := state.matched ++ [(receive.request, message)] } := by
  have hmem : receive ∈ state.pending := by
    rw [hpending]
    exact List.mem_append_right before List.mem_cons_self
  have hsub : ∀ other ∈ before ++ after, other ∈ state.pending := by
    intro other hother
    rw [hpending]
    exact List.mem_append.mpr ((List.mem_append.mp hother).imp_right (List.mem_cons_of_mem _))
  -- the receive moves from the waiting ones to the matched ones
  have hposted : ((before ++ after).map PostedReceive.request ++
      (state.matched ++ [(receive.request, message)]).map Prod.fst).Perm state.posted := by
    rw [IrecvState.posted, hpending, List.map_append, List.map_append, List.map_append,
      List.map_cons, ← List.append_assoc]
    refine (List.perm_append_singleton _ _).trans ?_
    rw [List.append_assoc, List.append_assoc]
    exact List.perm_middle.symm
  refine ⟨fun envelope => ?_, fun other hother => h.waiting other (hsub other hother),
    hposted.nodup_iff.mpr h.once, fun request => (hposted.mem_iff).trans (h.posted_iff request),
    fun other hother => h.pending other (hsub other hother),
    fun request result found hresult hgot => ?_, fun request result hresult hcount hsource => ?_,
    h.buffer, h.handedOnce, h.handed_iff, fun request recvBuf status hhanded => ?_, h.call⟩
  · rw [List.map_append, ofChannel_append, ofChannel_append, ← h.conserved]
    by_cases hkey : message.envelope = envelope
    · -- a queued message with this source and tag would be selected
      have hqueue : ofChannel Message.envelope envelope state.queue = [] :=
        ofChannel_eq_nil fun other hother hsame => by
          obtain ⟨hsource, htag⟩ := Prod.mk.inj (hsame.trans hkey.symm)
          refine h.waiting receive hmem other hother ?_
          rw [Selects, hsource, htag]
          exact hselects
      rw [hqueue, List.append_nil, List.append_nil]
      rfl
    · have hmessage : ofChannel Message.envelope envelope [message] = [] :=
        ofChannel_eq_nil fun other hother => by rwa [List.mem_singleton.mp hother]
      rw [hmessage, List.append_nil]
      refine congrArg (· ++ _) ((congrArg (_ ++ ·) hmessage).trans (List.append_nil _))
  · rcases lookup_append_cases hgot with hold | hnew
    · exact h.selected request result found hresult hold
    · obtain ⟨rfl, rfl⟩ := Prod.mk.inj (List.mem_singleton.mp hnew)
      exact h.pending receive hmem result hresult found hselects
  · obtain ⟨found, hgot, hfound⟩ := h.probed request result hresult hcount hsource
    exact ⟨found, lookup_append_of_some hgot _, hfound⟩
  · obtain ⟨result, hresult, houtcome⟩ := h.handed request recvBuf status hhanded
    exact ⟨result, hresult, outcome_append houtcome _⟩

theorem setPhase {call : IrecvCall α} {phase : IrecvPhase α}
    (hconstants : call.constants = constants) (hphase : CallPhase call state.queue phase) :
    IrecvExact constants arrivals (state.setPhase call phase) where
  conserved := h.conserved
  waiting := h.waiting
  once := h.once
  posted_iff := h.posted_iff
  pending := h.pending
  selected := h.selected
  probed := h.probed
  buffer := h.buffer
  handedOnce := h.handedOnce
  handed_iff := h.handed_iff
  handed := h.handed
  call other phase' hcall := by
    obtain ⟨rfl, rfl⟩ := Prod.mk.inj (Option.some.inj hcall)
    exact ⟨hconstants, hphase⟩

/-- The receive of a call is posted: it waits or gets a message, unless its source is
`rank::null`. -/
theorem addResult {call : IrecvCall α} {source tag count : ℤ} {recvBuf : List α}
    {probed : Option Status} (queue : List (Message α)) (pending : List PostedReceive)
    (matched : List (ℕ × Message α))
    (hcall : state.call = some (call, .posting source tag count recvBuf probed))
    (hconserved : ∀ envelope,
      ofChannel Message.envelope envelope (matched.map Prod.snd) ++
          ofChannel Message.envelope envelope queue =
        ofChannel Message.envelope envelope state.queue)
    (hqueue : ∀ message ∈ queue, message ∈ state.queue)
    (hposted : pending.map PostedReceive.request ++ matched.map Prod.fst =
      if call.source = .null then [] else [state.results.length])
    (hpending : ∀ receive ∈ pending, receive.source = source ∧ receive.tag = tag ∧
      ∀ message ∈ queue, ¬ Selects constants source tag message)
    (hmatched : ∀ entry ∈ matched, call.Selects entry.2)
    (hprobed : (⟨call, probed, count, recvBuf, false⟩ : NbResult α).Probed
      (matched.lookup state.results.length)) :
    IrecvExact constants arrivals
      { state.addResult call count recvBuf probed with
        queue := queue
        pending := state.pending ++ pending
        matched := state.matched ++ matched } := by
  obtain ⟨hconstants, hcounted, hbuffer, -⟩ := h.call call _ hcall
  -- the number of the new request is new
  have hnew : state.results.length ∉ state.posted := fun hmem => by
    obtain ⟨result, hresult, -⟩ := (h.posted_iff _).mp hmem
    exact absurd (List.getElem?_eq_some_iff.mp hresult).1 (lt_irrefl _)
  have hperm : ((state.pending ++ pending).map PostedReceive.request ++
      (state.matched ++ matched).map Prod.fst).Perm
        (state.posted ++ if call.source = .null then [] else [state.results.length]) := by
    rw [← hposted, IrecvState.posted, List.map_append, List.map_append, List.append_assoc,
      List.append_assoc]
    refine List.Perm.append_left _ ?_
    rw [← List.append_assoc, ← List.append_assoc]
    exact List.perm_append_comm.append_right _
  have hrequest : ∀ {request : ℕ},
      (request ∈ pending.map PostedReceive.request ∨ request ∈ matched.map Prod.fst) →
        request = state.results.length ∧ call.source ≠ .null := by
    intro request hmem
    have hmem' := List.mem_append.mpr hmem
    rw [hposted] at hmem'
    split_ifs at hmem' with hnull
    · exact absurd hmem' List.not_mem_nil
    · exact ⟨List.mem_singleton.mp hmem', hnull⟩
  have hsource : call.source ≠ .null → source ≠ call.constants.procNull :=
    mt hcounted.source_iff.mp
  refine ⟨fun envelope => ?_, fun receive hreceive message hmessage => ?_, ?_, fun request => ?_,
    fun receive hreceive result hresult message hselects => ?_,
    fun request result message hresult hgot => ?_, fun request result hresult => ?_,
    fun request result hresult => ?_, h.handedOnce, fun request => ?_,
    fun request data status hhanded => ?_, fun other phase hother => ?_⟩
  · rw [List.map_append, ofChannel_append, List.append_assoc, hconserved, h.conserved]
  · rcases List.mem_append.mp hreceive with hold | hadded
    · exact h.waiting receive hold message (hqueue message hmessage)
    · obtain ⟨hreceiveSource, hreceiveTag, hnone⟩ := hpending receive hadded
      rw [hreceiveSource, hreceiveTag]
      exact hnone message hmessage
  · refine hperm.nodup_iff.mpr (List.Nodup.append h.once ?_ ?_)
    · split_ifs
      · exact List.nodup_nil
      · exact List.nodup_singleton _
    · split_ifs
      · exact List.disjoint_nil_right _
      · exact List.disjoint_singleton.mpr hnew
  · refine hperm.mem_iff.trans (List.mem_append.trans ?_)
    refine Iff.trans ?_ exists_append_iff.symm
    refine or_congr (h.posted_iff request) ?_
    split_ifs with hnull
    · exact iff_of_false List.not_mem_nil fun hadded => hadded.2 hnull
    · exact List.mem_singleton.trans (and_iff_left hnull).symm
  · rcases List.mem_append.mp hreceive with hold | hadded
    · have hmem := List.mem_append_left (state.matched.map Prod.fst)
        (List.mem_map_of_mem (f := PostedReceive.request) hold)
      rcases getElem?_append_cases hresult with hresult | ⟨hlast, -⟩
      · exact h.pending receive hold result hresult message hselects
      · exact absurd (hlast ▸ hmem) hnew
    · obtain ⟨hlast, hnotNull⟩ := hrequest (Or.inl (List.mem_map_of_mem hadded))
      rw [hlast] at hresult
      obtain rfl := Option.some.inj (hresult.symm.trans List.getElem?_concat_length)
      obtain ⟨hreceiveSource, hreceiveTag, -⟩ := hpending receive hadded
      rw [hreceiveSource, hreceiveTag, ← hconstants] at hselects
      exact hcounted.selects (hsource hnotNull) hselects
  · rcases lookup_append_cases hgot with hold | hadded
    · rcases getElem?_append_cases hresult with hresult | ⟨rfl, -⟩
      · exact h.selected request result message hresult hold
      · exact absurd (mem_posted_of_got hold) hnew
    · obtain ⟨rfl, -⟩ := hrequest (Or.inr (List.mem_map_of_mem hadded))
      obtain rfl := Option.some.inj (hresult.symm.trans List.getElem?_concat_length)
      exact hmatched _ hadded
  · rcases getElem?_append_cases hresult with hresult | ⟨rfl, rfl⟩
    · intro hcount hnotNull
      obtain ⟨message, hgot, hmessage⟩ := h.probed request result hresult hcount hnotNull
      exact ⟨message, lookup_append_of_some hgot _, hmessage⟩
    · intro hcount hnotNull
      obtain ⟨message, hgot, hmessage⟩ := hprobed hcount hnotNull
      refine ⟨message, ?_, hmessage⟩
      have hnone : state.matched.lookup state.results.length = none := by
        by_contra hsome
        obtain ⟨found, hfound⟩ := Option.ne_none_iff_exists'.mp hsome
        exact hnew (mem_posted_of_got hfound)
      rw [IrecvState.got, List.lookup_append, hnone, Option.none_or]
      exact hgot
  · rcases getElem?_append_cases hresult with hresult | ⟨-, rfl⟩
    · exact h.buffer request result hresult
    · exact ⟨hconstants, hbuffer⟩
  · refine (h.handed_iff request).trans (Iff.trans ?_ exists_append_iff.symm)
    exact (or_iff_left fun hadded => Bool.noConfusion hadded.2).symm
  · obtain ⟨result, hresult, houtcome⟩ := h.handed request data status hhanded
    exact ⟨result, getElem?_append_of_some hresult, outcome_append houtcome matched⟩
  · obtain ⟨rfl, rfl⟩ := Prod.mk.inj (Option.some.inj hother)
    exact ⟨hconstants, trivial⟩

theorem step (hstep : IrecvStep state next)
    (hconstants : ∀ call phase, next.call = some (call, phase) → call.constants = constants) :
    IrecvExact constants arrivals next := by
  have hphase : ∀ {call : IrecvCall α} {phase phase' : IrecvPhase α},
      next = state.setPhase call phase' → state.call = some (call, phase) →
        CallPhase call state.queue phase' → IrecvExact constants arrivals next := by
    rintro call phase phase' rfl hcall hphase
    exact h.setPhase (h.call call phase hcall).1 hphase
  cases hstep with
  | enter call hidle => exact h.setPhase (hconstants call .entered rfl) trivial
  | check hcall hinvalid => exact hphase rfl hcall trivial
  | given hcall hvalid hcount => exact hphase rfl hcall ⟨rfl, rfl, hcount⟩
  | @probe call before after message hcall hvalid hcount hsource hmatched hdefined =>
      obtain ⟨hwhole, hlength⟩ := count_of_nonneg (not_lt_of_ge hdefined)
      exact hphase rfl hcall ⟨hcount, Or.inr ⟨hsource, before, message, after, hmatched, hwhole,
        rfl, rfl, rfl, hlength⟩⟩
  | probeUndefined hcall hvalid hcount hsource hmatched hundefined =>
      exact hphase rfl hcall trivial
  | probeNull hcall hvalid hcount hsource =>
      exact hphase rfl hcall ⟨hcount, Or.inl ⟨hsource, rfl, rfl, rfl⟩⟩
  | prepare hcall => exact hphase rfl hcall (callPhase_prepare (h.call _ _ hcall).2)
  | @postNull call source tag count recvBuf probed hcall hsource hcount =>
      have hnull := (h.call _ _ hcall).2.1.source_iff.mp hsource
      have hadded := h.addResult state.queue [] [] hcall
        (fun _ => rfl) (fun _ hmessage => hmessage) (if_pos hnull).symm
        (fun _ hmem => absurd hmem List.not_mem_nil) (fun _ hmem => absurd hmem List.not_mem_nil)
        (fun _ hnotNull => absurd hnull hnotNull)
      rwa [List.append_nil, List.append_nil] at hadded
  | @postMatched call source tag count recvBuf probed before after message hcall hsource hmatched =>
      obtain ⟨-, hcounted, -⟩ := h.call _ _ hcall
      have hnotNull : call.source ≠ .null := mt hcounted.source_iff.mpr hsource
      have hselects := hcounted.selects hsource hmatched.selected
      have hadded := h.addResult (before ++ after) [] [(state.results.length, message)] hcall
        (fun envelope => (hmatched.ofChannel_eq (fun other hsame => by
          obtain ⟨hother, htag⟩ := Prod.mk.inj hsame
          rw [Selects, hother, htag]
          exact hmatched.selected) envelope).symm)
        (fun other hother => by
          rw [hmatched.queue_eq]
          exact List.mem_append.mpr
            ((List.mem_append.mp hother).imp_right (List.mem_cons_of_mem _)))
        (if_neg hnotNull).symm (fun _ hmem => absurd hmem List.not_mem_nil)
        (fun entry hentry => (List.mem_singleton.mp hentry) ▸ hselects)
        (fun hcount _ => ?_)
      · rwa [List.append_nil] at hadded
      · cases probed with
        | none => cases hcount.symm.trans hcounted.2.2
        | some status =>
            obtain ⟨-, ⟨hnull, -⟩ | ⟨-, before', found, after', hprobed, hwhole, rfl, rfl, rfl,
              rfl⟩⟩ := hcounted
            · exact absurd hnull hnotNull
            · -- the receive can match the probed message only
              obtain ⟨-, rfl, -⟩ := (matched_envelope hprobed).unique hmatched
                fun other hother => selects_envelope_iff.mp hother
              exact ⟨found, List.lookup_cons_self, hwhole, rfl, rfl⟩
  | @postPending call source tag count recvBuf probed hcall hsource hnone =>
      obtain ⟨hconstants, hcounted, -⟩ := h.call _ _ hcall
      have hnotNull : call.source ≠ .null := mt hcounted.source_iff.mpr hsource
      have hadded := h.addResult state.queue [⟨state.results.length, source, tag⟩] [] hcall
        (fun _ => rfl)
        (fun _ hmessage => hmessage) (if_neg hnotNull).symm
        (fun receive hreceive => by
          rw [List.mem_singleton.mp hreceive, ← hconstants]
          exact ⟨rfl, rfl, hnone⟩)
        (fun _ hmem => absurd hmem List.not_mem_nil) (fun hcount _ => ?_)
      · rwa [List.append_nil] at hadded
      · cases probed with
        | none => cases hcount.symm.trans hcounted.2.2
        | some status =>
            obtain ⟨-, ⟨hnull, -⟩ | ⟨-, before, found, after, hprobed, -, -, rfl, rfl, -⟩⟩ :=
              hcounted
            · exact absurd hnull hnotNull
            · -- the probed message is queued still
              have hmem : found ∈ state.queue := by
                rw [hprobed.queue_eq]
                exact List.mem_append_right before List.mem_cons_self
              exact absurd (selects_envelope_iff.mpr rfl) (hnone found hmem)

/-- A result hands its buffer out. -/
theorem handOut {request : ℕ} {result : NbResult α} {handed : Handed α}
    (hresult : state.results[request]? = some result) (hextracted : result.isExtracted = false)
    (hvalue : ∀ recvBuf status, handed = .value recvBuf status →
      state.outcome request result = some (some (recvBuf, status))) :
    IrecvExact constants arrivals (state.handOut request result handed) := by
  have hold : ∀ {other : ℕ} {found : NbResult α},
      (state.handOut request result handed).results[other]? = some found →
        ∃ old, state.results[other]? = some old ∧
          found = { old with isExtracted := found.isExtracted } := getElem?_set_cases hresult
  have hnew : ∀ {other : ℕ} {old : NbResult α}, state.results[other]? = some old →
      ∃ isExtracted, (isExtracted = true ↔ other = request ∨ old.isExtracted = true) ∧
        (state.handOut request result handed).results[other]? =
          some { old with isExtracted := isExtracted } := by
    intro other old hother
    obtain rfl | hne := eq_or_ne other request
    · obtain rfl := Option.some.inj (hother.symm.trans hresult)
      exact ⟨true, iff_of_true rfl (Or.inl rfl),
        List.getElem?_set_self (List.getElem?_eq_some_iff.mp hresult).1⟩
    · exact ⟨old.isExtracted, (or_iff_right hne).symm, (List.getElem?_set_ne hne.symm).trans hother⟩
  have hfirst : request ∉ state.handed.map Prod.fst := fun hmem => by
    obtain ⟨old, hother, hflag⟩ := (h.handed_iff request).mp hmem
    obtain rfl := Option.some.inj (hother.symm.trans hresult)
    cases hflag.symm.trans hextracted
  refine ⟨h.conserved, h.waiting, h.once, fun other => (h.posted_iff other).trans ?_,
    fun receive hreceive found hfound => ?_, fun other found message hfound hgot => ?_,
    fun other found hfound => ?_, fun other found hfound => ?_, ?_, fun other => ?_,
    fun other recvBuf status hhanded => ?_, h.call⟩
  · constructor
    · rintro ⟨old, hother, hnotNull⟩
      obtain ⟨isExtracted, -, hnext⟩ := hnew hother
      exact ⟨_, hnext, hnotNull⟩
    · rintro ⟨found, hfound, hnotNull⟩
      obtain ⟨old, hother, heq⟩ := hold hfound
      rw [heq] at hnotNull
      exact ⟨old, hother, hnotNull⟩
  · obtain ⟨old, hother, heq⟩ := hold hfound
    rw [heq]
    exact h.pending receive hreceive old hother
  · obtain ⟨old, hother, heq⟩ := hold hfound
    rw [heq]
    exact h.selected other old message hother hgot
  · obtain ⟨old, hother, heq⟩ := hold hfound
    rw [heq]
    exact h.probed other old hother
  · obtain ⟨old, hother, heq⟩ := hold hfound
    rw [heq]
    exact h.buffer other old hother
  · rw [IrecvState.handOut, List.map_append, List.nodup_append_comm]
    exact List.nodup_cons.mpr ⟨hfirst, h.handedOnce⟩
  · rw [IrecvState.handOut, List.map_append, List.mem_append, h.handed_iff]
    constructor
    · rintro (⟨old, hother, hflag⟩ | hsame)
      · obtain ⟨isExtracted, hiff, hnext⟩ := hnew hother
        exact ⟨_, hnext, hiff.mpr (Or.inr hflag)⟩
      · obtain rfl := List.mem_singleton.mp hsame
        obtain ⟨isExtracted, hiff, hnext⟩ := hnew hresult
        exact ⟨_, hnext, hiff.mpr (Or.inl rfl)⟩
    · rintro ⟨found, hfound, hflag⟩
      obtain ⟨old, hother, -⟩ := hold hfound
      obtain ⟨isExtracted, hiff, hnext⟩ := hnew hother
      obtain rfl := Option.some.inj (hfound.symm.trans hnext)
      rcases hiff.mp hflag with rfl | hflag
      · exact Or.inr List.mem_cons_self
      · exact Or.inl ⟨old, hother, hflag⟩
  · rcases List.mem_append.mp hhanded with hbefore | hadded
    · obtain ⟨old, hother, houtcome⟩ := h.handed other recvBuf status hbefore
      obtain ⟨isExtracted, -, hnext⟩ := hnew hother
      exact ⟨_, hnext, houtcome⟩
    · obtain ⟨rfl, hsame⟩ := Prod.mk.inj (List.mem_singleton.mp hadded)
      obtain ⟨isExtracted, -, hnext⟩ := hnew hresult
      exact ⟨_, hnext, hvalue recvBuf status hsame.symm⟩

theorem result (hstep : ResultStep state next) : IrecvExact constants arrivals next := by
  cases hstep with
  | wait hresult hextracted houtcome =>
      refine h.handOut hresult hextracted fun recvBuf status hsame => ?_
      obtain ⟨rfl, rfl⟩ := Handed.value.inj hsame
      exact houtcome
  | extract hresult hextracted =>
      exact h.handOut hresult hextracted fun _ _ hsame => by cases hsame
  | testIncomplete => exact h
  | assertion => exact h

end IrecvExact

/-! ## Main result -/

/-- A matched request whose receive was made for its message. -/
def MatchedWith (state : IrecvState α) (request : ℕ) (result : NbResult α)
    (message : Message α) : Prop :=
  message.remainder = 0 ∧ result.probed = some (message.status result.call.constants) ∧
    ∃ recvBuf, state.outcome request result =
        some (some (recvBuf, message.status result.call.constants)) ∧
      recvBuf = overwrite message.elements (result.call.resizePolicy.resizeIfRequested
        message.elements.length default result.call.recvBuf) ∧
      (result.call.resizePolicy = .resizeToFit → recvBuf = message.elements)

theorem IrecvExact.matchedWith {constants : Constants} {arrivals : List (Message α)}
    {state : IrecvState α} (h : IrecvExact constants arrivals state) {request : ℕ}
    {result : NbResult α} (hresult : state.results[request]? = some result)
    (hcount : result.call.recvCount = none) (hsource : result.call.source ≠ .null) :
    ∃ message, state.got request = some message ∧ MatchedWith state request result message := by
  obtain ⟨message, hgot, hwhole, hlength, hprobed⟩ := h.probed request result hresult hcount hsource
  obtain ⟨-, hbuffer⟩ := h.buffer request result hresult
  rw [IrecvCall.buffer, if_neg hsource, hlength, Int.toNat_natCast] at hbuffer
  refine ⟨message, hgot, hwhole, hprobed, _, ?_, rfl, fun hpolicy => ?_⟩
  · rw [IrecvState.outcome, if_neg hsource, show state.matched.lookup request = _ from hgot,
      Option.map_some, hlength, receive_of_whole hwhole, hbuffer]
  · apply overwrite_eq
    rw [hpolicy, BufferResizePolicy.resizeIfRequested, length_resizeVector]

/-- In every state of a thread that calls `irecv` and uses the results in any order while
messages arrive: messages of one source and tag are received in the order of their arrival and
none waits while a posted receive selects it; every receive gets at most one message, one that
its call selects; a result hands its buffer out at most once, and its value only when its receive
is matched; and a result of a call without count is matched from the start, with the probed
message in a buffer of its size. -/
theorem irecv_exact {constants : Constants} {arrivals : List (Message α)} {state : IrecvState α}
    (hrun : IrecvRun constants arrivals state) :
    IrecvExact constants arrivals state ∧
      ∀ (request : ℕ) (result : NbResult α), state.results[request]? = some result →
        result.call.recvCount = none → result.call.source ≠ .null →
          ∃ message, state.got request = some message ∧
            MatchedWith state request result message := by
  have hexact : IrecvExact constants arrivals state := by
    induction hrun with
    | start => exact .start
    | queued message _ hnone ih => exact ih.queued message hnone
    | matched message _ hpending hselects _ ih => exact ih.arriveMatched message hpending hselects
    | call _ hstep hconstants ih => exact ih.step hstep hconstants
    | result _ hstep ih => exact ih.result hstep
  exact ⟨hexact, fun request result => hexact.matchedWith⟩

/-- A call without count and with both wildcards. -/
def anyIrecv : IrecvCall ℤ := { anyCall with recvCount := none }

/-- A thread that makes the call, with the given messages in its queue. -/
def anyThread (queue : List (Message ℤ)) (phase : IrecvPhase ℤ) : IrecvState ℤ :=
  { IrecvState.start with queue := queue, call := some (anyIrecv, phase) }

/-- The call has posted its receive, and its result was waited for. -/
def anyWaited : IrecvState ℤ :=
  IrecvState.handOut
    { (anyThread [⟨1, 5, [30], 0⟩] .posted).addResult anyIrecv 2 [0, 0] (some ⟨1, 5, 2⟩) with
      matched := [(0, ⟨1, 5, [10, 20], 0⟩)] }
    0 ⟨anyIrecv, some ⟨1, 5, 2⟩, 2, [0, 0], false⟩ (.value [10, 20] ⟨1, 5, 2⟩)

/-- Another message with the same source and tag arrives before the receive is posted. -/
theorem irecv_exact_any :
    IrecvExact commonConstants [⟨1, 5, [10, 20], 0⟩, ⟨1, 5, [30], 0⟩] anyWaited ∧
      ∃ message, anyWaited.got 0 = some message ∧
        MatchedWith anyWaited 0 ⟨anyIrecv, some ⟨1, 5, 2⟩, 2, [0, 0], true⟩ message := by
  have hvalid : anyIrecv.Valid := ⟨fun _ htag => TagParam.noConfusion htag,
    fun _ hsource => SourceParam.noConfusion hsource⟩
  have hconstants : ∀ {phase : IrecvPhase ℤ} (call : IrecvCall ℤ) (phase' : IrecvPhase ℤ),
      some (anyIrecv, phase) = some (call, phase') → call.constants = commonConstants := by
    intro phase call phase' hcall
    obtain ⟨rfl, -⟩ := Prod.mk.inj (Option.some.inj hcall)
    rfl
  have hprobed : Matched Message.envelope anyIrecv.Selects [⟨1, 5, [10, 20], 0⟩] []
      ⟨1, 5, [10, 20], 0⟩ [] :=
    ⟨rfl, ⟨Or.inl rfl, Or.inl rfl⟩, fun _ hmem => absurd hmem List.not_mem_nil⟩
  have hmatched : Matched Message.envelope (Selects commonConstants 1 5)
      [⟨1, 5, [10, 20], 0⟩, ⟨1, 5, [30], 0⟩] [] (⟨1, 5, [10, 20], 0⟩ : Message ℤ)
      [⟨1, 5, [30], 0⟩] :=
    ⟨rfl, ⟨Or.inr rfl, Or.inr rfl⟩, fun _ hmem => absurd hmem List.not_mem_nil⟩
  have hdefined : 0 ≤ Message.count commonConstants (⟨1, 5, [10, 20], 0⟩ : Message ℤ) := by decide
  have hentered : IrecvRun commonConstants [⟨1, 5, [10, 20], 0⟩]
      (anyThread [⟨1, 5, [10, 20], 0⟩] .entered) :=
    .call (.queued _ .start fun _ hmem => absurd hmem List.not_mem_nil)
      (.enter anyIrecv fun _ _ hcall => by cases hcall) hconstants
  have hcounted : IrecvRun commonConstants [⟨1, 5, [10, 20], 0⟩]
      (anyThread [⟨1, 5, [10, 20], 0⟩] (.counted 1 5 2 (some ⟨1, 5, 2⟩))) :=
    .call hentered (.probe rfl hvalid rfl (by decide) hprobed hdefined) hconstants
  have hposting : IrecvRun commonConstants [⟨1, 5, [10, 20], 0⟩, ⟨1, 5, [30], 0⟩]
      (anyThread [⟨1, 5, [10, 20], 0⟩, ⟨1, 5, [30], 0⟩]
        (.posting 1 5 2 [0, 0] (some ⟨1, 5, 2⟩))) :=
    .queued ⟨1, 5, [30], 0⟩ (.call hcounted (.prepare rfl) hconstants)
      fun _ hmem => absurd hmem List.not_mem_nil
  have hposted := IrecvRun.call hposting (.postMatched rfl (by decide) hmatched) hconstants
  have hwaited : IrecvRun commonConstants [⟨1, 5, [10, 20], 0⟩, ⟨1, 5, [30], 0⟩] anyWaited :=
    .result hposted (.wait rfl rfl rfl)
  exact ⟨(irecv_exact hwaited).1, (irecv_exact hwaited).2 0 _ rfl rfl (by decide)⟩

end MpiBindings.PointToPoint
