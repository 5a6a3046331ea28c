import MpiBindings.ReproducibleReduce.Correctness

/-!
# One schedule for senders and receivers

A sender computes what it puts for another rank from the borders of its region, a
receiver computes what it gets level by level from its own region.  Both are the
same sequence of indices, in every reduction and for every pair of ranks.
-/

namespace MpiBindings.ReproducibleReduce

open MessagePassing Choreography

/-! ## Elements of a subtree -/

/-- Leaves of a tree node from left to right. -/
def leaves (n height i : ℕ) : List ℕ :=
  treeReduce (· ++ ·) (fun j => [j]) n height i

/-- The leaves of a node are the elements of its subtree, cut at the length of the
array. -/
theorem leaves_eq_range' {n : ℕ} (height : ℕ) {i : ℕ} (hi : i < n) :
    leaves n height i = List.range' i (min (2 ^ height) (n - i)) := by
  induction height generalizing i with
  | zero =>
      have hone : min (2 ^ 0) (n - i) = 1 := by omega
      rw [hone]
      rfl
  | succ height ih =>
      have hpow : 2 ^ (height + 1) = 2 ^ height + 2 ^ height := by ring
      rw [leaves, treeReduce]
      split
      · rename_i hinside
        have hleft : min (2 ^ height) (n - i) = 2 ^ height := by omega
        have hsize : min (2 ^ (height + 1)) (n - i) =
            2 ^ height + min (2 ^ height) (n - (i + 2 ^ height)) := by omega
        change leaves n height i ++ leaves n height (i + 2 ^ height) = _
        rw [ih hi, ih hinside, hleft, hsize, List.range'_append_1]
      · rename_i houtside
        have hsize : min (2 ^ (height + 1)) (n - i) = min (2 ^ height) (n - i) := by omega
        rw [hsize]
        exact ih hi

/-! ## Transfers between two ranks -/

section Transfers

variable {p : ℕ} {T : Type}

/-- What a log puts for a rank, in order. -/
def putsTo (target : Fin p) (log : List (Transfer p T)) : List (ℕ × T) :=
  log.filterMap fun
    | .put targetRank index value => if targetRank = target then some (index, value) else none
    | .get _ _ => none

/-- What a log gets from a rank, in order. -/
def getsFrom (source : Fin p) (log : List (Transfer p T)) : List ℕ :=
  log.filterMap fun
    | .get sourceRank index => if sourceRank = source then some index else none
    | .put _ _ _ => none

theorem putsTo_append (target : Fin p) (log log' : List (Transfer p T)) :
    putsTo target (log ++ log') = putsTo target log ++ putsTo target log' :=
  List.filterMap_append

theorem getsFrom_append (source : Fin p) (log log' : List (Transfer p T)) :
    getsFrom source (log ++ log') = getsFrom source log ++ getsFrom source log' :=
  List.filterMap_append

variable {comm : ReproducibleCommunicator} {targetOf : ℕ → Fin p} {values : ℕ → T}

theorem putsTo_getsFor (target : Fin p) (indices : List ℕ) :
    putsTo target (getsFor comm indices : List (Transfer p T)) = [] := by
  rw [putsTo, getsFor, List.filterMap_filterMap]
  apply List.filterMap_eq_nil_iff.mpr
  intro index _
  cases comm.rankOfIndex p index <;> rfl

theorem getsFrom_getsFor (source : Fin p) (indices : List ℕ) :
    getsFrom source (getsFor comm indices : List (Transfer p T)) =
      indices.filter fun index => comm.rankOfIndex p index = some source := by
  rw [getsFrom, getsFor, List.filterMap_filterMap, ← List.filterMap_eq_filter]
  congr 1
  funext index
  rw [Option.guard]
  cases comm.rankOfIndex p index <;> simp

theorem putsTo_elementTransfers (target : Fin p) (indices : List ℕ) :
    putsTo target (elementTransfers comm targetOf values indices) =
      (indices.filter fun index => targetOf index = target).map fun index =>
        (index, values index) := by
  induction indices with
  | nil => rfl
  | cons index indices ih =>
      rw [elementTransfers_cons, List.nil_append, putsTo_append, putsTo_append, putsTo_getsFor,
        List.nil_append, ih]
      by_cases htarget : targetOf index = target <;> simp [putsTo, htarget]

theorem getsFrom_elementTransfers (source : Fin p) (indices : List ℕ) :
    getsFrom source (elementTransfers comm targetOf values indices) =
      (indices.flatMap comm.requests).filter fun index =>
        comm.rankOfIndex p index = some source := by
  induction indices with
  | nil => rfl
  | cons index indices ih =>
      rw [elementTransfers_cons, List.nil_append, getsFrom_append, getsFrom_append,
        getsFrom_getsFor, ih, List.flatMap_cons, List.filter_append]
      rfl

theorem putsTo_rankTransfers (target : Fin p) (origin : Bool) :
    putsTo target (rankTransfers comm targetOf values origin) =
      (comm.rankIntersectingElements.filter fun index => targetOf index = target).map
        fun index => (index, values index) := by
  rw [rankTransfers, putsTo_append, putsTo_elementTransfers]
  cases origin with
  | false => exact List.append_nil _
  | true => rw [if_pos rfl, putsTo_getsFor, List.append_nil]

theorem getsFrom_rankTransfers (source : Fin p) (origin : Bool) :
    getsFrom source (rankTransfers comm targetOf values origin) =
      ((comm.rankIntersectingElements ++ if origin then [0] else []).flatMap
        comm.requests).filter fun index => comm.rankOfIndex p index = some source := by
  rw [rankTransfers, getsFrom_append, getsFrom_elementTransfers, List.flatMap_append,
    List.filter_append]
  cases origin with
  | false => rfl
  | true => rw [if_pos rfl, if_pos rfl, getsFrom_getsFor, List.flatMap_singleton]

end Transfers

/-! ## The schedule -/

theorem flatMap_eq_of_unique {α β : Type} {items : List α} (hnodup : items.Nodup)
    {f : α → List β} {x : α} (hx : x ∈ items) (hother : ∀ y ∈ items, y ≠ x → f y = []) :
    items.flatMap f = f x := by
  obtain ⟨front, back, rfl⟩ := List.append_of_mem hx
  obtain ⟨-, hback, hdisjoint⟩ := List.nodup_append.mp hnodup
  have hfrontNil : front.flatMap f = [] := List.flatMap_eq_nil_iff.mpr fun y hy =>
    hother y (List.mem_append_left _ hy) (hdisjoint y hy x List.mem_cons_self)
  have hbackNil : back.flatMap f = [] := List.flatMap_eq_nil_iff.mpr fun y hy =>
    hother y (List.mem_append_right _ (List.mem_cons_of_mem _ hy)) fun heq =>
      (List.nodup_cons.mp hback).1 (heq ▸ hy)
  rw [List.flatMap_append, List.flatMap_cons, hfrontNil, hbackNil, List.nil_append,
    List.append_nil]

namespace Distributed

variable {p n : ℕ} {comms : Fin p → ReproducibleCommunicator} {origin : Fin p}

/-- Indices of the results that one rank sends to another, in order. -/
def schedule (comms : Fin p → ReproducibleCommunicator) (origin source target : Fin p) : List ℕ :=
  (comms source).rankIntersectingElements.filter fun index =>
    targetOf comms origin index = target

theorem reducedBy_nodup (h : Distributed p n comms origin) (me : Fin p) :
    (reducedBy comms origin me).Nodup := by
  unfold reducedBy
  split
  · rename_i hme
    rw [h.elements_eq_nil (hme ▸ h.originBegin)]
    exact List.nodup_singleton 0
  · rw [List.append_nil]
    exact (h.elements_sorted me).imp fun hlt => hlt.ne

/-- At most one index of a rank asks for results, and it asks for all of them. -/
theorem flatMap_requests (h : Distributed p n comms origin) (me : Fin p) :
    (reducedBy comms origin me).flatMap (comms me).requests =
      (incoming comms origin me).flatMap Delivery.indices := by
  by_cases hnone : ∀ x ∈ reducedBy comms origin me, (comms me).requests x = []
  · rw [List.flatMap_eq_nil_iff.mpr hnone]
    symm
    apply List.eq_nil_iff_forall_not_mem.mpr
    intro g hg
    obtain ⟨hend, hlt, hlower, hupper⟩ := h.mem_incoming_indices.mp hg
    obtain ⟨x, hx, hle⟩ := h.exists_reduced hlower hupper hend hlt
    obtain ⟨hxLower, hxUpper⟩ := h.reducedBy_inside hx
    have hrequests : g ∈ (comms me).requests x :=
      ((h.region me).mem_requests hxLower hxUpper).mpr ⟨hend, hle, hupper⟩
    exact List.ne_nil_of_mem hrequests (hnone x hx)
  · push Not at hnone
    obtain ⟨x, hx, hsome⟩ := hnone
    rw [← h.requests_eq_incoming hx hsome]
    apply flatMap_eq_of_unique (h.reducedBy_nodup me) hx
    intro y hy hne
    by_contra hrequests
    exact hne (le_antisymm (h.le_of_crosses hx hy (h.crosses_of_requests hx hsome))
      (h.le_of_crosses hy hx (h.crosses_of_requests hy hrequests)))

/-- What a rank gets from a sender is what the sender has for the rank. -/
theorem requests_from (h : Distributed p n comms origin) (me source : Fin p) :
    ((reducedBy comms origin me).flatMap (comms me).requests).filter
        (fun index => (comms me).rankOfIndex p index = some source) =
      schedule comms origin source me := by
  rw [h.flatMap_requests]
  apply ((h.incoming_sorted me).filter _).eq_of_mem_iff ((h.elements_sorted source).filter _)
  intro index
  rw [incoming_indices]
  simp only [List.mem_filter, List.mem_flatMap, decide_eq_true_eq, mem_ranksInOrder]
  constructor
  · rintro ⟨⟨other, -, helement, htarget⟩, hrank⟩
    obtain ⟨hlower, hupper, -⟩ := h.mem_elements.mp helement
    rw [h.lookup me other index hlower hupper] at hrank
    obtain rfl := Option.some.inj hrank
    exact ⟨helement, htarget⟩
  · rintro ⟨helement, htarget⟩
    obtain ⟨hlower, hupper, -⟩ := h.mem_elements.mp helement
    have hend := (h.region source).regionEnd
    exact ⟨⟨source, by omega, helement, htarget⟩, h.lookup me source index hlower hupper⟩

end Distributed

/-! ## Sequences of reductions -/

section Sequences

variable {p n : ℕ} {T : Type} [Inhabited T]

/-- Successive calls of `reproducible_reduce` on one communicator; returns the result
and the transfers of every call. -/
def loggedCalls (sizeofEntry : ℕ+) (comm : ReproducibleCommunicator) (me : Fin p) :
    List (ReduceCall T) → Program (Fin p) T (List (T × List (Transfer p T)))
  | [] => return []
  | call :: calls => do
      let result ←
        ((loggedEffects p T sizeofEntry).reproducibleReduce comm call.op me call.sendBuf).run []
      return result :: (← loggedCalls sizeofEntry comm me calls)

/-- Without the transfers the calls are those of the network. -/
theorem loggedCalls_erase (sizeofEntry : ℕ+) (comm : ReproducibleCommunicator) (me : Fin p)
    (calls : List (ReduceCall T)) (state : RankState (Fin p) T) :
    (loggedCalls sizeofEntry comm me calls state).map
        (fun result => (result.1.map Prod.fst, result.2)) =
      reduceCalls sizeofEntry comm me calls state := by
  induction calls generalizing state with
  | nil => rfl
  | cons call calls ih =>
      change (Process.bind ((loggedEffects p T sizeofEntry).reproducibleReduce comm call.op me
          call.sendBuf [] state) fun result =>
        Process.bind (loggedCalls sizeofEntry comm me calls result.2) fun rest =>
          .done (result.1 :: rest.1, rest.2)).map _ =
        Process.bind (reproducibleReduce sizeofEntry comm call.op me call.sendBuf state)
          fun result => Process.bind (reduceCalls sizeofEntry comm me calls result.2) fun rest =>
            .done (result.1 :: rest.1, rest.2)
      rw [Process.map_bind, reproducibleReduce,
        ← erases_effects.reproducibleReduce comm call.op me call.sendBuf [] state,
        Process.bind_map]
      congr 1
      funext result
      rw [Process.map_bind, ← ih, Process.bind_map]
      rfl

variable {comms : Fin p → ReproducibleCommunicator} {origin : Fin p}

theorem runs_loggedCalls (h : Distributed p n comms origin) (me : Fin p)
    {state : RankState (Fin p) T} (sizeofEntry : ℕ+) (reductions : List (Reduction T))
    (hidle : Idle (Distributed.slotOf (Distributed.incoming comms origin me)) (comms me) state) :
    ∃ state', Runs me (loggedCalls sizeofEntry (comms me) me
        (reductions.map fun reduction => reduction.call (comms me))) state
        (sequenceTrace n comms origin reductions me)
        (reductions.map fun reduction => (reduction.value n,
          rankTransfers (comms me) (Distributed.targetOf comms origin)
            (partialResult reduction.op reduction.array n) (decide (me = origin)))) state' ∧
      Idle (Distributed.slotOf (Distributed.incoming comms origin me)) (comms me) state' := by
  induction reductions generalizing state with
  | nil => exact ⟨state, Runs.pure [], hidle⟩
  | cons reduction reductions ih =>
      have hbuffer : HoldsRegion reduction.array (comms me)
          (reduction.call (comms me)).sendBuf := fun x hx => by simp [Reduction.call, hx]
      obtain ⟨middle, hfirst, hmiddle⟩ := logRuns_reproducibleReduce me sizeofEntry reduction.op
        (h.region me) (h.originRank me) (h.expectedMessages me) h.expectedAtOrigin hbuffer
        (by simp [Reduction.call]) hidle
      obtain ⟨state', hrest, hidle'⟩ := ih hmiddle
      exact ⟨state', (hfirst []).bind (hrest.bind_last (Runs.pure _)), hidle'⟩

end Sequences

/-! ## Main result -/

/-- Indices that a rank sends to another one: each once, held by the sender, and
standing for the whole subtree of the index up to the end of the array. -/
structure AgreedIndices (n : ℕ) (comm : ReproducibleCommunicator) (indices : List ℕ) : Prop where
  nodup : indices.Nodup
  held : ∀ index ∈ indices, comm.regionBegin ≤ index ∧ index < comm.regionEnd
  subtree : ∀ index ∈ indices, leaves n (subtreeHeight index) index =
    List.range' index (min (treeSubtreeSize index) (n - index))

theorem Distributed.agreedIndices {p n : ℕ} {comms : Fin p → ReproducibleCommunicator}
    {origin : Fin p} (h : Distributed p n comms origin) (source target : Fin p) :
    AgreedIndices n (comms source) (schedule comms origin source target) where
  nodup := ((h.elements_sorted source).imp fun hlt => hlt.ne).filter _
  held index hindex := by
    obtain ⟨hlower, hupper, -⟩ := h.mem_elements.mp (List.mem_of_mem_filter hindex)
    exact ⟨hlower, hupper⟩
  subtree index hindex := by
    obtain ⟨hlower, hupper, hparent⟩ := h.mem_elements.mp (List.mem_of_mem_filter hindex)
    rw [treeSubtreeSize_eq_two_pow (by omega)]
    exact leaves_eq_range' _ (h.lt_of_mem hlower hupper)

/-- The transfers of one call on rank `me` are those of the schedule; what is put has
the value of its subtree. -/
def FollowsSchedule {p : ℕ} {T : Type} (n : ℕ) (schedule : Fin p → Fin p → List ℕ) (me : Fin p)
    (reduction : Reduction T) (call : T × List (Transfer p T)) : Prop :=
  ∀ other,
    putsTo other call.2 = (schedule me other).map (fun index =>
      (index, partialResult reduction.op reduction.array n index)) ∧
    getsFrom other call.2 = schedule other me

/-- In every reduction, the indices that a rank puts for another one are, in the same
order, those that the other one gets from it. -/
theorem loggedCalls_follow_schedule {p n : ℕ} {T : Type} [Inhabited T]
    (sendCounts recvDispls : List ℤ) {comms : Fin p → ReproducibleCommunicator}
    (reductions : List (Reduction T)) (hp : 0 < p) (hsum : sendCounts.sum = n) (htwo : 2 ≤ n)
    (hcomms : ∀ rank : Fin p,
      makeReproducibleComm p sendCounts recvDispls rank = some (comms rank))
    (sizeofEntry : ℕ+) (policy : Policy (Fin p)) :
    ∃ schedule : Fin p → Fin p → List ℕ,
      (∀ source target, AgreedIndices n (comms source) (schedule source target)) ∧
      AlwaysReturns policy
        (fun me => loggedCalls sizeofEntry (comms me) me
          (reductions.map fun reduction => reduction.call (comms me))
          ((comms me).initialState (Fin p) T))
        fun me result => List.Forall₂ (FollowsSchedule n schedule me) reductions result.1 := by
  obtain ⟨origin, hdistributed⟩ := exists_distributed hcomms hp hsum htwo
  choose final hruns hidle using fun me =>
    runs_loggedCalls hdistributed me sizeofEntry reductions idle_initialState
  obtain ⟨trace, hrealises⟩ := exists_realises hdistributed reductions hruns
    fun me => (hidle me).clear
  refine ⟨Distributed.schedule comms origin, hdistributed.agreedIndices, ?_⟩
  apply hrealises.alwaysReturns.mono
  rintro me result rfl
  apply List.forall₂_map_right_iff.mpr
  apply List.forall₂_same.mpr
  intro reduction _ other
  constructor
  · exact putsTo_rankTransfers other _
  · have hrequests := hdistributed.requests_from me other
    rw [getsFrom_rankTransfers, ← hrequests, Distributed.reducedBy]
    simp only [decide_eq_true_eq]

/-- The differences of the array `[1, 2, 3, ..]`. -/
def differences : Reduction ℤ where
  op a b := a - b
  array i := i + 1

theorem loggedCalls_follow_schedule_swapped :
    ∃ schedule : Fin 2 → Fin 2 → List ℕ,
      (∀ source target, AgreedIndices 3 (swappedComms source) (schedule source target)) ∧
      AlwaysReturns ⟨fun _ _ => false, fun _ _ => true⟩
        (fun me => loggedCalls 16 (swappedComms me) me
          ([differences, differences].map fun reduction => reduction.call (swappedComms me))
          ((swappedComms me).initialState (Fin 2) ℤ))
        fun me result =>
          List.Forall₂ (FollowsSchedule 3 schedule me) [differences, differences] result.1 :=
  loggedCalls_follow_schedule [2, 1] [1, 0] [differences, differences] (by decide) (by decide)
    (by decide) (fun _ => (Option.some_get _).symm) 16 _

end MpiBindings.ReproducibleReduce
