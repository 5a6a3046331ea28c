import MpiBindings.PointToPoint.TryRecv

/-!
# `try_recv` is exact on any number of threads

A message leaves the queue together with the decision which call receives it, so no other call
can take it or change what the first one receives.  The price is that a call that fails after
its probe loses the message.
-/

namespace MpiBindings.PointToPoint

open MatchQueue Collectives

variable {α : Type} [Inhabited α]

/-! ## Messages that calls have taken -/

section Taken

omit [Inhabited α]

variable {state : TryState α} {index other : ℕ} {message : Message α}

theorem took_eq_none_iff :
    state.took index = none ↔ index ∉ state.taken.map Prod.fst := by
  rw [TryState.took, List.lookup_eq_none_iff]
  constructor
  · rintro hnone hmem
    obtain ⟨entry, hentry, rfl⟩ := List.mem_map.mp hmem
    simpa using hnone entry hentry
  · intro hnone entry hentry
    have hne : index ≠ entry.1 := fun heq => hnone (List.mem_map.mpr ⟨entry, hentry, heq.symm⟩)
    simpa using hne

theorem took_take (hnone : state.took index = none) (message : Message α)
    (queue : List (Message α)) (calls : List (RecvCall α × TryPhase α)) :
    TryState.took ⟨queue, calls, state.taken ++ [(index, message)]⟩ =
      Function.update state.took index (some message) := by
  funext other
  rw [TryState.took, List.lookup_append]
  obtain rfl | hne := eq_or_ne other index
  · rw [Function.update_self, show state.taken.lookup other = none from hnone, Option.none_or]
    simp
  · have hlast : [(index, message)].lookup other = none := by simpa using hne
    rw [Function.update_of_ne hne, hlast, Option.or_none, TryState.took]

theorem calls_set_cases {call found : RecvCall α} {phase phase' : TryPhase α}
    {calls : List (RecvCall α × TryPhase α)}
    (hfound : (calls.set index (call, phase))[other]? = some (found, phase')) :
    other = index ∧ found = call ∧ phase' = phase ∨
      other ≠ index ∧ calls[other]? = some (found, phase') := by
  obtain rfl | hne := eq_or_ne other index
  · have hlt : other < calls.length := by
      simpa using (List.getElem?_eq_some_iff.mp hfound).1
    rw [List.getElem?_set_self hlt] at hfound
    obtain ⟨rfl, rfl⟩ := Prod.mk.inj (Option.some.inj hfound)
    exact Or.inl ⟨rfl, rfl, rfl⟩
  · rw [List.getElem?_set_ne hne.symm] at hfound
    exact Or.inr ⟨hne, hfound⟩

end Taken

/-! ## One call -/

section Call

variable {call : RecvCall α}

theorem phaseOf_prepare {took message : Option (Message α)}
    (h : PhaseOf call took (.matched message)) :
    PhaseOf call took (call.prepareMatched message) := by
  obtain ⟨rfl, hnull⟩ := h
  cases took with
  | none =>
      have hsource := hnull.mp rfl
      have hcount : ¬ (matchedStatus call.constants (none : Option (Message α))).count < 0 :=
        lt_irrefl 0
      simp only [RecvCall.prepareMatched, if_neg hcount, if_pos hsource]
      exact ⟨rfl, Or.inl ⟨hsource, rfl, rfl, rfl⟩⟩
  | some message =>
      have hsource : call.source ≠ .null := fun hsource => by cases hnull.mpr hsource
      by_cases hcount : (matchedStatus call.constants (some message)).count < 0
      · have hprepare : call.prepareMatched (some message) = .failed .countUndefined :=
          if_pos hcount
        rw [hprepare]
        exact ⟨message, rfl, count_of_neg hcount⟩
      · obtain ⟨hwhole, hlength⟩ := count_of_nonneg hcount
        have hstatus : (matchedStatus call.constants (some message)).count =
            message.elements.length := hlength
        have hprepare : call.prepareMatched (some message) =
            if message.elements.length ≤ (call.resizePolicy.resizeIfRequested
                message.elements.length default call.recvBuf).length then
              .receiving (some message) message.elements.length
                (call.resizePolicy.resizeIfRequested message.elements.length default call.recvBuf)
            else .failed .bufferTooSmall := by
          rw [hstatus] at hcount
          simp only [RecvCall.prepareMatched, hstatus, if_neg hcount, if_neg hsource,
            Int.toNat_natCast]
        rw [hprepare]
        split_ifs with hfits
        · exact ⟨rfl, Or.inr ⟨hsource, message, rfl, hwhole, rfl, rfl⟩⟩
        · have hnoResize : ¬ (call.resizePolicy = .noResize →
              message.elements.length ≤ call.recvBuf.length) :=
            fun hroom => hfits (BufferResizePolicy.le_length_resizeIfRequested hroom)
          obtain ⟨hpolicy, hshort⟩ := Classical.not_imp.mp hnoResize
          exact ⟨message, rfl, hpolicy, lt_of_not_ge hshort⟩

theorem phaseOf_mrecv {took message : Option (Message α)} {count : ℤ} {recvBuf : List α}
    (h : PhaseOf call took (.receiving message count recvBuf)) :
    PhaseOf call took (mrecv call.constants count recvBuf message) := by
  obtain ⟨rfl, ⟨hsource, rfl, rfl, rfl⟩ | ⟨-, found, rfl, hwhole, rfl, rfl⟩⟩ := h
  · exact Or.inl ⟨hsource, rfl, rfl, rfl⟩
  · rw [mrecv, receive_of_whole hwhole]
    refine Or.inr ⟨found, rfl, hwhole, rfl, rfl, rfl, fun hpolicy => ?_⟩
    apply overwrite_eq
    rw [hpolicy, BufferResizePolicy.resizeIfRequested, length_resizeVector]

/-- A call in progress can make a step, whatever the other calls do. -/
theorem exists_tryStep {state : TryState α} {index : ℕ} {phase : TryPhase α}
    (hcall : state.calls[index]? = some (call, phase)) :
    (∃ result, phase = .returned result) ∨ (∃ failure, phase = .failed failure) ∨
      ∃ next, TryStep index state next := by
  cases phase with
  | returned result => exact Or.inl ⟨result, rfl⟩
  | failed failure => exact Or.inr (Or.inl ⟨failure, rfl⟩)
  | matched message => exact Or.inr (Or.inr ⟨_, .prepare hcall⟩)
  | receiving message count recvBuf => exact Or.inr (Or.inr ⟨_, .mrecv hcall⟩)
  | entered =>
      by_cases hvalid : call.Valid
      · by_cases hsource : call.source = .null
        · exact Or.inr (Or.inr ⟨_, .improbeNull hcall hvalid hsource⟩)
        · by_cases hselected : ∃ message ∈ state.queue, call.Selects message
          · obtain ⟨before, message, after, hmatched⟩ := exists_matched hselected
            exact Or.inr (Or.inr ⟨_, .improbe hcall hvalid hsource hmatched⟩)
          · push Not at hselected
            exact Or.inr (Or.inr ⟨_, .improbeNothing hcall hvalid hsource hselected⟩)
      · exact Or.inr (Or.inr ⟨_, .check hcall hvalid⟩)

end Call

/-! ## All calls -/

namespace TryExact

variable {arrivals : List (Message α)} {state next : TryState α} {index : ℕ}

theorem start : TryExact ([] : List (Message α)) ⟨[], [], []⟩ where
  conserved _ := rfl
  once := List.nodup_nil
  taken_lt _ hmem := absurd hmem List.not_mem_nil
  selected _ _ _ _ hcall := by cases hcall
  phase _ _ _ hcall := by cases hcall
  progress _ _ _ hcall := by cases hcall

variable (h : TryExact arrivals state)

include h

theorem arrive (message : Message α) :
    TryExact (arrivals ++ [message]) { state with queue := state.queue ++ [message] } where
  conserved envelope := by
    rw [ofChannel_append, ofChannel_append, ← List.append_assoc, h.conserved]
  once := h.once
  taken_lt := h.taken_lt
  selected := h.selected
  phase := h.phase
  progress _ _ _ hcall := exists_tryStep hcall

theorem enter (call : RecvCall α) :
    TryExact arrivals { state with calls := state.calls ++ [(call, .entered)] } := by
  have hlast : state.took state.calls.length = none :=
    took_eq_none_iff.mpr fun hmem => lt_irrefl _ (h.taken_lt _ hmem)
  have hcases : ∀ {index found phase},
      (state.calls ++ [(call, .entered)])[index]? = some (found, phase) →
        state.calls[index]? = some (found, phase) ∨
          index = state.calls.length ∧ phase = .entered := by
    intro index found phase hfound
    rcases Nat.lt_or_ge index state.calls.length with hlt | hge
    · exact Or.inl ((List.getElem?_append_left hlt).symm.trans hfound)
    · have hlt := (List.getElem?_eq_some_iff.mp hfound).1
      rw [List.length_append, List.length_singleton] at hlt
      obtain rfl : index = state.calls.length := by omega
      rw [List.getElem?_append_right le_rfl, Nat.sub_self] at hfound
      exact Or.inr ⟨rfl, (Prod.mk.inj (Option.some.inj hfound)).2.symm⟩
  refine ⟨h.conserved, h.once, fun index hmem => ?_, fun index found phase message hfound htook =>
    ?_, fun index found phase hfound => ?_, fun index found phase hfound => exists_tryStep hfound⟩
  · rw [List.length_append]
    exact Nat.lt_add_right _ (h.taken_lt index hmem)
  · rcases hcases hfound with hold | ⟨rfl, -⟩
    · exact h.selected index found phase message hold htook
    · cases hlast.symm.trans htook
  · rcases hcases hfound with hold | ⟨rfl, rfl⟩
    · exact h.phase index found phase hold
    · exact hlast

/-- A call changes its phase without taking a message. -/
theorem set {call : RecvCall α} {old phase : TryPhase α}
    (hcall : state.calls[index]? = some (call, old))
    (hphase : PhaseOf call (state.took index) phase) :
    TryExact arrivals (state.set index call phase) where
  conserved := h.conserved
  once := h.once
  taken_lt other hmem := by
    rw [TryState.set, List.length_set]
    exact h.taken_lt other hmem
  selected other found phase' message hfound htook := by
    rcases calls_set_cases hfound with ⟨rfl, rfl, -⟩ | ⟨-, hold⟩
    · exact h.selected other found old message hcall htook
    · exact h.selected other found phase' message hold htook
  phase other found phase' hfound := by
    rcases calls_set_cases hfound with ⟨rfl, rfl, rfl⟩ | ⟨-, hold⟩
    · exact hphase
    · exact h.phase other found phase' hold
  progress _ _ _ hfound := exists_tryStep hfound

/-- `MPI_Improbe` takes the first message of its source and tag. -/
theorem take {call : RecvCall α} {before after : List (Message α)} {message : Message α}
    (hcall : state.calls[index]? = some (call, .entered)) (hsource : call.source ≠ .null)
    (hmatched : Matched Message.envelope call.Selects state.queue before message after) :
    TryExact arrivals
      { queue := before ++ after
        calls := state.calls.set index (call, .matched (some message))
        taken := state.taken ++ [(index, message)] } := by
  have hnone : state.took index = none := h.phase index call .entered hcall
  have htook := took_take hnone message (before ++ after)
    (state.calls.set index (call, .matched (some message)))
  refine ⟨fun envelope => ?_, ?_, fun other hmem => ?_, fun other found phase taken hfound => ?_,
    fun other found phase hfound => ?_, fun other found phase hfound => exists_tryStep hfound⟩
  · rw [← h.conserved, hmatched.ofChannel_eq (fun _ => RecvCall.selects_of_same hmatched.selected),
      List.map_append, ofChannel_append, List.append_assoc]
    rfl
  · rw [List.map_append, List.nodup_append_comm]
    exact List.nodup_cons.mpr ⟨took_eq_none_iff.mp hnone, h.once⟩
  · rw [List.length_set]
    rw [List.map_append] at hmem
    rcases List.mem_append.mp hmem with hold | hnew
    · exact h.taken_lt other hold
    · obtain rfl := List.mem_singleton.mp hnew
      exact (List.getElem?_eq_some_iff.mp hcall).1
  · rw [htook]
    rcases calls_set_cases hfound with ⟨rfl, rfl, -⟩ | ⟨hne, hold⟩
    · rw [Function.update_self]
      rintro heq
      obtain rfl := Option.some.inj heq
      exact hmatched.selected
    · rw [Function.update_of_ne hne]
      exact h.selected other found phase taken hold
  · rw [htook]
    rcases calls_set_cases hfound with ⟨rfl, rfl, rfl⟩ | ⟨hne, hold⟩
    · rw [Function.update_self]
      exact ⟨rfl, iff_of_false (Option.some_ne_none _) hsource⟩
    · rw [Function.update_of_ne hne]
      exact h.phase other found phase hold

theorem step (hstep : TryStep index state next) : TryExact arrivals next := by
  cases hstep with
  | check hcall hinvalid => exact h.set hcall ⟨h.phase index _ _ hcall, hinvalid⟩
  | improbe hcall _ hsource hmatched => exact h.take hcall hsource hmatched
  | improbeNothing hcall _ _ _ =>
      have hnone : state.took index = none := h.phase index _ _ hcall
      exact h.set hcall hnone
  | improbeNull hcall _ hsource =>
      exact h.set hcall ⟨h.phase index _ _ hcall, iff_of_true rfl hsource⟩
  | prepare hcall => exact h.set hcall (phaseOf_prepare (h.phase index _ _ hcall))
  | mrecv hcall => exact h.set hcall (phaseOf_mrecv (h.phase index _ _ hcall))

end TryExact

/-! ## Main result -/

/-- Whatever the interleaving of the calls and the arrivals: every message is taken by at most
one call and no call takes two; a call that returns a result received exactly the message it
took, and one that returns nothing took none; messages with one source and tag are taken in the
order of their arrival and the rest stays queued in that order; no call waits. -/
theorem tryRecv_exact {arrivals : List (Message α)} {state : TryState α}
    (hrun : TryRun arrivals state) : TryExact arrivals state := by
  induction hrun with
  | start => exact .start
  | arrive message _ ih => exact ih.arrive message
  | enter call _ ih => exact ih.enter call
  | step _ hstep ih => exact ih.step hstep

/-- Two messages from one source with one tag. -/
def longer : Message ℤ := ⟨1, 5, [10, 20], 0⟩

def shorter : Message ℤ := ⟨1, 5, [30], 0⟩

/-- Two calls on two threads: the first one has probed, the second one is in the given phase. -/
def twoThreads (phase : TryPhase ℤ) : TryState ℤ :=
  ⟨[], [(anyCall, .matched (some longer)), (anyCall, phase)], [(0, longer), (1, shorter)]⟩

/-- The second call receives first. -/
theorem tryRecv_exact_twoThreads : TryExact [longer, shorter]
    (twoThreads (.returned (some ⟨[30], 1, ⟨1, 5, 1⟩⟩))) := by
  have hvalid : anyCall.Valid := ⟨fun _ htag => TagParam.noConfusion htag,
    fun _ hsource => SourceParam.noConfusion hsource⟩
  have hmatched : ∀ message, Matched Message.envelope anyCall.Selects [message] [] message [] :=
    fun message => ⟨rfl, ⟨Or.inl rfl, Or.inl rfl⟩, fun _ hmem => absurd hmem List.not_mem_nil⟩
  have hfirst : TryStep 0 ⟨[longer], [(anyCall, .entered)], []⟩
      ⟨[], [(anyCall, .matched (some longer))], [(0, longer)]⟩ :=
    TryStep.improbe (show (⟨[longer], [(anyCall, .entered)], []⟩ : TryState ℤ).calls[0]? = _
      from rfl) hvalid (by decide) (hmatched longer)
  have hsecond : TryStep 1
      ⟨[shorter], [(anyCall, .matched (some longer)), (anyCall, .entered)], [(0, longer)]⟩
      (twoThreads (.matched (some shorter))) :=
    TryStep.improbe (show (⟨[shorter], [(anyCall, .matched (some longer)), (anyCall, .entered)],
        [(0, longer)]⟩ : TryState ℤ).calls[1]? = _ from rfl)
      hvalid (by decide) (hmatched shorter)
  have hprepared : TryStep 1 (twoThreads (.matched (some shorter)))
      (twoThreads (.receiving (some shorter) 1 [0])) :=
    TryStep.prepare (show (twoThreads (.matched (some shorter))).calls[1]? =
      some (anyCall, .matched (some shorter)) from rfl)
  have hreceived : TryStep 1 (twoThreads (.receiving (some shorter) 1 [0]))
      (twoThreads (.returned (some ⟨[30], 1, ⟨1, 5, 1⟩⟩))) :=
    TryStep.mrecv (show (twoThreads (.receiving (some shorter) 1 [0])).calls[1]? =
      some (anyCall, .receiving (some shorter) 1 [0]) from rfl)
  have hone : TryRun [longer] ⟨[], [(anyCall, .matched (some longer))], [(0, longer)]⟩ :=
    .step (.enter anyCall (.arrive longer .start)) hfirst
  have htwo : TryRun [longer, shorter] ⟨[shorter],
      [(anyCall, .matched (some longer)), (anyCall, .entered)], [(0, longer)]⟩ :=
    .enter anyCall (.arrive shorter hone)
  exact tryRecv_exact (((htwo.step hsecond).step hprepared).step hreceived)

end MpiBindings.PointToPoint
