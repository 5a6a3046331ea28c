import MpiBindings.ReproducibleReduce.Matching

/-!
# Reproducible reductions in every run

For every accepted distribution, every interleaving and every MPI implementation
choice, a sequence of reductions returns the values of the fixed tree on all
ranks, without getting stuck and without influence of earlier reductions.
-/

namespace MpiBindings.ReproducibleReduce

open CommutingSteps MessagePassing Choreography

/-! ## Accepted distributions -/

section Accepted

variable {p n : ℕ} {sendCounts recvDispls : List ℤ}
variable {comms : Fin p → ReproducibleCommunicator}

/-- What `make_reproducible_comm` builds on one rank. -/
structure MadeFrom (indexMap : OrderedMap ℕ ℕ) (n first size : ℕ)
    (comm : ReproducibleCommunicator) : Prop where
  startIndices : comm.startIndices = indexMap
  regionBegin : comm.regionBegin = first
  regionSize : comm.regionSize = size
  regionEnd : comm.regionEnd = first + size
  globalSize : comm.globalSize = n
  originRank : n ≠ 0 → treeRankFromIndexMap indexMap 0 = some comm.originRank
  elements : treeRankIntersectingElements first (first + size) =
    some comm.rankIntersectingElements

theorem madeFrom_of_create {startIndices : OrderedMap ℕ ℕ} {first size : ℕ}
    {comm : ReproducibleCommunicator}
    (hglobal : startIndices.entries.getLast?.map (·.1) = some n)
    (hcreate : ReproducibleCommunicator.create startIndices first size = some comm) :
    MadeFrom startIndices n first size comm := by
  simp only [ReproducibleCommunicator.create, hglobal, Option.bind_eq_bind,
    Option.bind_eq_some_iff] at hcreate
  obtain ⟨globalSize, hsize, hcreate⟩ := hcreate
  obtain rfl := Option.some.inj hsize
  split_ifs at hcreate with hzero
  · simp only [Option.bind_some, Option.bind_eq_some_iff] at hcreate
    obtain ⟨elements, helements, hcomm⟩ := hcreate
    obtain rfl := Option.some.inj hcomm
    exact ⟨rfl, rfl, rfl, rfl, rfl, fun hne => absurd hzero hne, helements⟩
  · simp only [Option.bind_eq_some_iff] at hcreate
    obtain ⟨originRank, horigin, elements, helements, hcomm⟩ := hcreate
    obtain rfl := Option.some.inj hcomm
    exact ⟨rfl, rfl, rfl, rfl, rfl, fun _ => horigin, helements⟩

theorem exists_madeFrom
    (hcomms : ∀ rank : Fin p,
      makeReproducibleComm p sendCounts recvDispls rank = some (comms rank)) (hp : 0 < p) :
    ∃ startIndices, Accepted p sendCounts.sum.toNat sendCounts recvDispls startIndices ∧
      ∀ rank : Fin p, MadeFrom startIndices sendCounts.sum.toNat (displOf recvDispls rank)
        (countOf sendCounts rank) (comms rank) := by
  have hmake := hcomms ⟨0, hp⟩
  simp only [makeReproducibleComm, Option.bind_eq_bind, Option.bind_eq_some_iff] at hmake hcomms
  obtain ⟨startIndices, hchecked, -⟩ := hmake
  have haccepted := accepted_of_checked hchecked
  refine ⟨startIndices, haccepted, fun rank => ?_⟩
  obtain ⟨startIndices', hchecked', displ, hdispl, count, hcount, hcreate⟩ := hcomms rank
  rw [hchecked] at hchecked'
  obtain rfl := Option.some.inj hchecked'
  have hmade := madeFrom_of_create haccepted.globalSize hcreate
  simpa [displOf, countOf, hdispl, hcount] using hmade

theorem exists_distributed
    (hcomms : ∀ rank : Fin p,
      makeReproducibleComm p sendCounts recvDispls rank = some (comms rank))
    (hp : 0 < p) (hsum : sendCounts.sum = n) (htwo : 2 ≤ n) :
    ∃ origin, Distributed p n comms origin := by
  obtain ⟨startIndices, haccepted, hmade⟩ := exists_madeFrom hcomms hp
  rw [hsum, Int.toNat_natCast] at haccepted hmade
  obtain ⟨⟨hcover, hinside, hlookup⟩, hglobal, hlt⟩ := haccepted
  obtain ⟨origin, horigin, hfirst, hsize⟩ := hcover 0 (by omega)
  have hrankOf : ∀ me (rank : Fin p) i, displOf recvDispls rank ≤ i →
      i < displOf recvDispls rank + countOf sendCounts rank →
      (comms me).rankOfIndex p i = some rank := by
    intro me rank i hlower hupper
    simp [ReproducibleCommunicator.rankOfIndex, (hmade me).startIndices,
      hlookup rank rank.isLt i hlower hupper]
  refine ⟨⟨origin, horigin⟩, ?_, ?_, ?_, ?_, ?_, ?_, ?_⟩
  · intro rank
    refine ⟨htwo, hlt, (hmade rank).globalSize, ?_, ?_⟩
    · rw [(hmade rank).regionEnd, (hmade rank).regionBegin, (hmade rank).regionSize]
    · rw [(hmade rank).regionEnd, (hmade rank).regionSize]
      exact hinside rank rank.isLt
  · intro i hi
    obtain ⟨rank, hrank, hlower, hupper⟩ := hcover i hi
    refine ⟨⟨rank, hrank⟩, ?_⟩
    rw [(hmade _).regionBegin, (hmade _).regionEnd]
    exact ⟨hlower, hupper⟩
  · intro me rank i hlower hupper
    rw [(hmade rank).regionBegin] at hlower
    rw [(hmade rank).regionEnd] at hupper
    exact hrankOf me rank i hlower hupper
  · intro rank
    rw [(hmade rank).regionBegin, (hmade rank).regionEnd]
    exact (hmade rank).elements
  · intro rank
    have hroot := (hmade rank).originRank (by omega)
    rw [hlookup origin horigin 0 hfirst hsize] at hroot
    exact (Option.some.inj hroot).symm
  · rw [(hmade _).regionBegin]
    dsimp only
    omega
  · rw [(hmade _).regionSize]
    dsimp only
    omega

end Accepted

/-! ## Sequences of reductions -/

/-- A reduction of one array, the same on all ranks. -/
structure Reduction (T : Type) where
  op : T → T → T
  array : ℕ → T

section Sequences

variable {p : ℕ} {T : Type}

/-- Value of the whole tree. -/
def Reduction.value (reduction : Reduction T) (n : ℕ) : T :=
  treeReduce reduction.op reduction.array n (Nat.clog 2 n) 0

/-- The call that a rank makes: its send buffer holds the elements of its region. -/
def Reduction.call (reduction : Reduction T) (comm : ReproducibleCommunicator) :
    ReduceCall T where
  op := reduction.op
  sendBuf := (List.range comm.regionSize).map fun x => reduction.array (comm.regionBegin + x)

variable [Inhabited T]

/-- All ranks call `reproducible_reduce` for the given reductions one after the
other on newly made communicators. -/
def reduceProcesses (sizeofEntry : ℕ+) (comms : Fin p → ReproducibleCommunicator)
    (reductions : List (Reduction T)) (me : Fin p) :
    Process (Fin p) (Message T) T (List T × RankState (Fin p) T) :=
  reduceCalls sizeofEntry (comms me) me
    (reductions.map fun reduction => reduction.call (comms me))
    ((comms me).initialState (Fin p) T)

variable {n : ℕ} {comms : Fin p → ReproducibleCommunicator} {origin : Fin p}

/-- Communication of a rank in a sequence of reductions. -/
def sequenceTrace (n : ℕ) (comms : Fin p → ReproducibleCommunicator) (origin : Fin p)
    (reductions : List (Reduction T)) (me : Fin p) : List (Event (Fin p) (Message T) T) :=
  reductions.flatMap fun reduction =>
    Distributed.localTrace comms origin (partialResult reduction.op reduction.array n) me ++
      [.broadcast origin (reduction.value n)]

theorem runs_reduction (h : Distributed p n comms origin) (me : Fin p)
    {state : RankState (Fin p) T} (sizeofEntry : ℕ+) (reduction : Reduction T)
    (hidle : Idle (Distributed.slotOf (Distributed.incoming comms origin me)) (comms me) state) :
    ∃ state', Runs me (reproducibleReduce sizeofEntry (comms me) reduction.op me
        (reduction.call (comms me)).sendBuf) state
        (Distributed.localTrace comms origin (partialResult reduction.op reduction.array n) me ++
          [.broadcast origin (reduction.value n)]) (reduction.value n) state' ∧
      Idle (Distributed.slotOf (Distributed.incoming comms origin me)) (comms me) state' :=
  runs_reproducibleReduce me sizeofEntry (h.region me) (h.originRank me) (h.expectedMessages me)
    h.expectedAtOrigin (fun x hx => by simp [Reduction.call, hx]) (by simp [Reduction.call])
    hidle

/-- The state between two reductions is idle, whatever was reduced before. -/
theorem runs_reduceCalls (h : Distributed p n comms origin) (me : Fin p)
    {state : RankState (Fin p) T} (sizeofEntry : ℕ+) (reductions : List (Reduction T))
    (hidle : Idle (Distributed.slotOf (Distributed.incoming comms origin me)) (comms me) state) :
    ∃ state', Runs me (reduceCalls sizeofEntry (comms me) me
        (reductions.map fun reduction => reduction.call (comms me))) state
        (sequenceTrace n comms origin reductions me)
        (reductions.map fun reduction => reduction.value n) state' ∧
      Idle (Distributed.slotOf (Distributed.incoming comms origin me)) (comms me) state' := by
  induction reductions generalizing state with
  | nil => exact ⟨state, Runs.pure [], hidle⟩
  | cons reduction reductions ih =>
      obtain ⟨middle, hfirst, hmiddle⟩ := runs_reduction h me sizeofEntry reduction hidle
      obtain ⟨state', hrest, hidle'⟩ := ih hmiddle
      exact ⟨state', hfirst.bind (hrest.bind_last (Runs.pure _)), hidle'⟩

/-- Programs that perform the communication of a sequence of reductions follow
one choreography. -/
theorem exists_realises (h : Distributed p n comms origin) {α : Type}
    {programs : Fin p → Program (Fin p) T α} {results : Fin p → α}
    {final : Fin p → RankState (Fin p) T} (reductions : List (Reduction T))
    (hruns : ∀ me, Runs me (programs me) ((comms me).initialState (Fin p) T)
      (sequenceTrace n comms origin reductions me) (results me) (final me))
    (hclear : ∀ me, (final me).messageBuffer.sendBufferClear = true) :
    ∃ trace, Realises trace
      (fun me => programs me ((comms me).initialState (Fin p) T))
      fun me => (results me, final me) := by
  choose trace hproper hproject using fun reduction : Reduction T =>
    h.exists_trace (partialResult reduction.op reduction.array n)
  refine ⟨reductions.flatMap fun reduction =>
    trace reduction ++ [.broadcast origin (reduction.value n)], ?_, fun me => ?_⟩
  · intro src dst msg hevent
    obtain ⟨reduction, -, hevent⟩ := List.mem_flatMap.mp hevent
    exact hproper reduction src dst msg (by simpa using hevent)
  · have hlocal : project me (reductions.flatMap fun reduction =>
        trace reduction ++ [.broadcast origin (reduction.value n)]) =
          sequenceTrace n comms origin reductions me := by
      rw [List.flatMap, project_flatten, List.map_map, sequenceTrace, List.flatMap]
      congr 2
      funext reduction
      rw [Function.comp_apply, project_append, hproject, project_broadcast, project_nil]
    have hfollows := hruns me
    rw [Runs, hclear me] at hfollows
    rw [hlocal]
    exact hfollows

theorem exists_realises_reduceCalls (h : Distributed p n comms origin) (sizeofEntry : ℕ+)
    (reductions : List (Reduction T)) :
    ∃ trace results, Realises trace (reduceProcesses sizeofEntry comms reductions) results ∧
      ∀ rank, (results rank).1 = reductions.map fun reduction => reduction.value n := by
  choose final hruns hidle using fun me =>
    runs_reduceCalls h me sizeofEntry reductions idle_initialState
  obtain ⟨trace, hrealises⟩ := exists_realises h reductions hruns fun me => (hidle me).clear
  exact ⟨trace, _, hrealises, fun _ => rfl⟩

end Sequences

/-! ## Main results -/

section Main

variable {p n : ℕ} {T : Type} [Inhabited T] (sendCounts recvDispls : List ℤ)
variable {comms : Fin p → ReproducibleCommunicator}

/-- A reduction returns the value of the fixed tree on every rank, whatever the
distribution and the interleaving. -/
theorem reproducibleReduce_returns_treeReduce (op : T → T → T) (array : ℕ → T)
    (hp : 0 < p) (hsum : sendCounts.sum = n) (htwo : 2 ≤ n)
    (hcomms : ∀ rank : Fin p,
      makeReproducibleComm p sendCounts recvDispls rank = some (comms rank))
    (sizeofEntry : ℕ+) (policy : Policy (Fin p)) :
    AlwaysReturns policy
      (fun me => reproducibleReduce sizeofEntry (comms me) op me
        (Reduction.call ⟨op, array⟩ (comms me)).sendBuf ((comms me).initialState (Fin p) T))
      fun _ result => result.1 = treeReduce op array n (Nat.clog 2 n) 0 := by
  obtain ⟨origin, hdistributed⟩ := exists_distributed hcomms hp hsum htwo
  choose final hruns hidle using fun me =>
    runs_reduction hdistributed me sizeofEntry ⟨op, array⟩ idle_initialState
  obtain ⟨trace, hrealises⟩ := exists_realises hdistributed [⟨op, array⟩]
    (fun me => by simpa [sequenceTrace] using hruns me) fun me => (hidle me).clear
  exact hrealises.alwaysReturns.mono fun rank result hresult => hresult ▸ rfl

/-- Communicators over three elements: rank 0 holds elements 1 and 2, rank 1 holds
element 0. -/
def swappedComms (rank : Fin 2) : ReproducibleCommunicator :=
  (makeReproducibleComm 2 [2, 1] [1, 0] rank).get (by revert rank; decide +kernel)

theorem reproducibleReduce_returns_treeReduce_swapped :
    AlwaysReturns ⟨fun _ _ => false, fun _ _ => true⟩
      (fun me => reproducibleReduce 16 (swappedComms me) (fun a b : ℤ => a - b) me
        (Reduction.call ⟨fun a b : ℤ => a - b, fun i => i + 1⟩ (swappedComms me)).sendBuf
        ((swappedComms me).initialState (Fin 2) ℤ))
      fun _ result => result.1 = -4 :=
  reproducibleReduce_returns_treeReduce (n := 3) [2, 1] [1, 0]
    (fun a b : ℤ => a - b) (fun i => i + 1) (by decide) (by decide)
    (by decide) (fun _ => (Option.some_get _).symm) 16 _

/-- The results of a sequence of reductions on one communicator are those of its
single reductions. -/
theorem reduceCalls_returns_values (reductions : List (Reduction T))
    (hp : 0 < p) (hsum : sendCounts.sum = n) (htwo : 2 ≤ n)
    (hcomms : ∀ rank : Fin p,
      makeReproducibleComm p sendCounts recvDispls rank = some (comms rank))
    (sizeofEntry : ℕ+) (policy : Policy (Fin p)) :
    AlwaysReturns policy (reduceProcesses sizeofEntry comms reductions)
      fun _ result => result.1 = reductions.map fun reduction => reduction.value n := by
  obtain ⟨origin, hdistributed⟩ := exists_distributed hcomms hp hsum htwo
  obtain ⟨trace, results, hrealises, hresults⟩ :=
    exists_realises_reduceCalls hdistributed sizeofEntry reductions
  exact hrealises.alwaysReturns.mono fun rank result hresult => hresult ▸ hresults rank

theorem reduceCalls_returns_values_swapped :
    AlwaysReturns ⟨fun _ _ => true, fun _ _ => false⟩
      (reduceProcesses 16 swappedComms
        [⟨fun a b : ℤ => a - b, fun i => i + 1⟩, ⟨fun a b : ℤ => a * b, fun i => i + 5⟩])
      fun _ result => result.1 = [-4, 210] :=
  reduceCalls_returns_values (n := 3) [2, 1] [1, 0]
    [⟨fun a b : ℤ => a - b, fun i => i + 1⟩, ⟨fun a b : ℤ => a * b, fun i => i + 5⟩]
    (by decide) (by decide) (by decide) (fun _ => (Option.some_get _).symm) 16 _

/-- In every reachable state some step is enabled unless all ranks have left the
message phase; no assertion fails; afterwards no message is in flight. -/
theorem reduceCalls_never_stuck (reductions : List (Reduction T))
    (hp : 0 < p) (hsum : sendCounts.sum = n) (htwo : 2 ≤ n)
    (hcomms : ∀ rank : Fin p,
      makeReproducibleComm p sendCounts recvDispls rank = some (comms rank))
    (sizeofEntry : ℕ+) (policy : Policy (Fin p))
    {net : Network (Fin p) (Message T) T (List T × RankState (Fin p) T)}
    (hreach : Reachable (step policy) (start (reduceProcesses sizeofEntry comms reductions))
      net) :
    ((∃ rank, ¬ Quiet (net.locals rank).process) →
        ∃ rank next, step policy rank net = some next) ∧
      (∀ rank, (net.locals rank).process ≠ .fail) ∧
      ((∀ rank, Quiet (net.locals rank).process) →
        ∀ src dst, net.channel src dst = []) := by
  obtain ⟨origin, hdistributed⟩ := exists_distributed hcomms hp hsum htwo
  obtain ⟨trace, results, hrealises, -⟩ :=
    exists_realises_reduceCalls hdistributed sizeofEntry reductions
  refine ⟨?_, hrealises.not_fail hreach, hrealises.channel_eq_nil hreach⟩
  rintro ⟨rank, hquiet⟩
  obtain hdone | hstep := hrealises.progress hreach
  · rw [hdone rank] at hquiet
    exact absurd (Quiet.done _) hquiet
  · exact hstep

theorem reduceCalls_never_stuck_swapped :
    let net := start (reduceProcesses 16 swappedComms
      [⟨fun a b : ℤ => a - b, fun i => i + 1⟩])
    let policy : Policy (Fin 2) := ⟨fun _ _ => false, fun _ _ => true⟩
    ((∃ rank, ¬ Quiet (net.locals rank).process) →
        ∃ rank next, step policy rank net = some next) ∧
      (∀ rank, (net.locals rank).process ≠ .fail) ∧
      ((∀ rank, Quiet (net.locals rank).process) →
        ∀ src dst, net.channel src dst = []) :=
  reduceCalls_never_stuck (n := 3) [2, 1] [1, 0]
    [⟨fun a b : ℤ => a - b, fun i => i + 1⟩] (by decide) (by decide) (by decide)
    (fun _ => (Option.some_get _).symm) 16 _ (Reachable.refl _)

end Main

end MpiBindings.ReproducibleReduce
