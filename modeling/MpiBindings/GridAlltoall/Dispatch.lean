import MpiBindings.GridAlltoall.Correctness

/-!
# Dispatch by communication volume

`alltoallv_dispatch` chooses between the exchange over the grid and the builtin
exchange.  Every rank decides from the largest send buffer, which a reduction tells
it, and every rank keeps its own grid communicator, created at its first use.  The
ranks must decide alike: the two branches, and the splits that create the grid, are
collective, and a rank that enters one alone waits forever.
-/

namespace MpiBindings.GridAlltoall

open Collectives

/-! ## Model -/

/-- A call of `alltoallv_dispatch` by all ranks. -/
structure DispatchCall (p : ℕ) where
  T : Type
  inhabited : Inhabited T
  elementSize : ℕ
  commVolumeThreshold : Fin p → ℕ
  args : AlltoallvArguments p T

/-- The branches of `alltoallv_dispatch`. -/
inductive DispatchBranch where
  | grid
  | builtin
deriving DecidableEq, Repr

section Model

variable {p : ℕ}

/-- Maximum over all ranks, as every rank receives it from the reduction. -/
def allreduceMax (values : Fin p → ℕ) (_rank : Fin p) : ℕ :=
  ((List.finRange p).map values).foldl max 0

/-- The decision of a rank; the volume in bytes is a 64-bit product. -/
def DispatchCall.branch (call : DispatchCall p) (rank : Fin p) : DispatchBranch :=
  let maxBottleneckSendVolume := allreduceMax (fun other => (call.args.sendBuf other).length) rank
  if maxBottleneckSendVolume * call.elementSize % 2 ^ 64 < call.commVolumeThreshold rank then
    .grid
  else .builtin

/-- What a call does on all ranks. -/
structure DispatchOutcome (call : DispatchCall p) where
  branch : Fin p → DispatchBranch
  created : Fin p → Bool
  result : AlltoallvResult p call.T

/-- The lazy creation of the grid on all ranks: which ranks create their grid
communicator.  The splits need all ranks. -/
def initializeGrid (hasGrid : Fin p → Bool) : Option (Fin p → Bool) :=
  if (∀ rank, hasGrid rank = true) ∨ ∀ rank, hasGrid rank = false then
    some fun rank => !hasGrid rank
  else none

/-- `alltoallv_dispatch` on all ranks, with the ranks that hold a grid communicator
before and after the call. -/
def alltoallvDispatch (call : DispatchCall p) (hasGrid : Fin p → Bool) :
    Option (DispatchOutcome call × (Fin p → Bool)) :=
  let _ := call.inhabited
  if ∀ rank, call.branch rank = .grid then do
    let created ← initializeGrid hasGrid
    let result ← gridAlltoallv (makeGridCommunicator p) call.args
    some ({ branch := call.branch, created, result }, fun rank => hasGrid rank || created rank)
  else if ∀ rank, call.branch rank = .builtin then do
    let result ← alltoallv (.world p) call.args
    some ({ branch := call.branch, created := fun _ => false, result }, hasGrid)
  else none

/-- A finite sequence of calls. -/
def runDispatch : List (DispatchCall p) → (Fin p → Bool) →
    Option (List ((call : DispatchCall p) × DispatchOutcome call))
  | [], _ => some []
  | call :: calls, hasGrid =>
      match alltoallvDispatch call hasGrid with
      | some (outcome, hasGrid) =>
          (runDispatch calls hasGrid).map fun outcomes => ⟨call, outcome⟩ :: outcomes
      | none => none

end Model

/-! ## Correctness -/

section Correctness

variable {p : ℕ}

/-- Calls in scope: one threshold, counts for exactly the ranks of the communicator,
computed displacements, and send buffers that hold the elements.  The builtin exchange
takes the size of a send buffer as an integer. -/
structure DispatchCall.Admissible (call : DispatchCall p) : Prop where
  threshold : ∀ rank other, call.commVolumeThreshold rank = call.commVolumeThreshold other
  length_sendCounts : ∀ rank, (call.args.sendCounts rank).length = p
  nonneg : ∀ rank, ∀ count ∈ call.args.sendCounts rank, 0 ≤ count
  sendDispls : call.args.sendDispls.ComputedInto fun _ => p
  sendBuf : ∀ rank, (call.args.sendCounts rank).sum ≤ (call.args.sendBuf rank).length
  sendBuf_lt : (∃ rank, call.branch rank = .builtin) →
    ∀ rank, (call.args.sendBuf rank).length < 2 ^ 31
  sums : SumsFit call.args
  receive : ReceiveComputed call.args

/-- The outcome of a call: one branch, one decision about the grid, and the result of
the builtin exchange. -/
structure Agrees (call : DispatchCall p) (outcome : DispatchOutcome call) : Prop where
  branch : ∀ rank other, outcome.branch rank = outcome.branch other
  created : ∀ rank other, outcome.created rank = outcome.created other
  delivers : let _ := call.inhabited; DeliversBuiltin call.args outcome.result

theorem branch_eq {call : DispatchCall p} (h : call.Admissible) (rank other : Fin p) :
    call.branch rank = call.branch other := by
  rw [DispatchCall.branch, DispatchCall.branch, h.threshold rank other]
  rfl

theorem sendDisplsOf_computed {T : Type} {args : AlltoallvArguments p T}
    (hcomputed : args.sendDispls.ComputedInto fun _ => p) (source : Fin p) :
    sendDisplsOf args source =
      (CountingSort.prefixSums 0 ((args.sendCounts source).map Int.toNat)).map Nat.cast := by
  unfold sendDisplsOf
  cases hdispls : args.sendDispls with
  | given displs =>
      rw [hdispls] at hcomputed
      exact hcomputed.elim
  | computed policy buffers => rfl

theorem sum_map_toNat {counts : List ℤ} (hnonneg : ∀ count ∈ counts, 0 ≤ count) :
    (((counts.map Int.toNat).sum : ℕ) : ℤ) = counts.sum := by
  induction counts with
  | nil => rfl
  | cons count counts ih =>
      have hcount := hnonneg count List.mem_cons_self
      have hrest := ih fun other hother => hnonneg other (List.mem_cons_of_mem _ hother)
      rw [List.map_cons, List.sum_cons, List.sum_cons, Nat.cast_add, hrest]
      omega

/-- Blocks behind each other lie in a buffer that holds all elements. -/
theorem DispatchCall.Admissible.blocksInside {call : DispatchCall p} (h : call.Admissible) :
    BlocksInside call.args where
  length_sendCounts := h.length_sendCounts
  nonneg source destination := by
    have hlt : destination < (call.args.sendCounts source).length := by
      rw [h.length_sendCounts]
      exact destination.isLt
    rw [sendCount, List.getD_eq_getElem _ _ hlt]
    exact h.nonneg source _ (List.getElem_mem hlt)
  displs displs hdispls := by
    have hcomputed := h.sendDispls
    rw [hdispls] at hcomputed
    exact hcomputed.elim
  computed _ := h.sendDispls
  inside source destination _ := by
    let counts := (call.args.sendCounts source).map Int.toNat
    have hlt : destination < counts.length := by
      simp [counts, h.length_sendCounts]
    have hcount : sendCount call.args source destination = (counts[(destination : ℕ)] : ℤ) := by
      have hlt' : destination < (call.args.sendCounts source).length := by
        simpa [counts] using hlt
      have hnonneg := h.nonneg source _ (List.getElem_mem hlt')
      rw [sendCount, List.getD_eq_getElem _ _ hlt', List.getElem_map,
        Int.toNat_of_nonneg hnonneg]
    have hdispl : sendDispl call.args source destination =
        (((counts.take destination).sum : ℕ) : ℤ) := by
      have hget := CountingSort.getElem?_prefixSums 0 counts hlt
      rw [sendDispl, sendDisplsOf_computed h.sendDispls, List.getD_eq_getElem?_getD,
        List.getElem?_map, hget, Nat.zero_add]
      rfl
    have hsum := List.sum_take_add_sum_drop counts destination
    rw [List.drop_eq_getElem_cons hlt, List.sum_cons] at hsum
    have htotal : ((counts.sum : ℕ) : ℤ) = (call.args.sendCounts source).sum :=
      sum_map_toNat (h.nonneg source)
    have hle := h.sendBuf source
    rw [hcount, hdispl]
    omega

/-- The assertion of the builtin exchange on the send buffers holds. -/
theorem DispatchCall.Admissible.sendBlocksFit {call : DispatchCall p} (h : call.Admissible)
    (hlt : ∀ rank, (call.args.sendBuf rank).length < 2 ^ 31) (rank : Fin p) :
    sendBlocksFit p (call.args.sendCounts rank) (sendDisplsOf call.args rank)
      (call.args.sendBuf rank).length := by
  have hinside := h.blocksInside
  have hcounts := map_toNat_sendCounts hinside rank
  have hsum : (((sentLengths (.world p) (sentBlock call.args) rank).sum : ℕ) : ℤ) =
      (call.args.sendCounts rank).sum := by
    rw [← hcounts]
    exact sum_map_toNat (h.nonneg rank)
  have hle := h.sendBuf rank
  have hsize := hlt rank
  have hlast := lastEnd_prefixSums (sentLengths (.world p) (sentBlock call.args) rank)
    (List.length_pos_iff.mp (by simpa using (Communicators.world p).size_pos rank)) (by omega)
  rw [length_sentLengths, Communicators.size_world] at hlast
  rw [sendDisplsOf_computed h.sendDispls, hcounts, sendCounts_eq hinside,
    Collectives.sendBlocksFit, hlast]
  exact decide_eq_true ⟨hsize, by omega⟩

theorem initializeGrid_const (grid : Bool) :
    initializeGrid (fun _ : Fin p => grid) = some fun _ => !grid := by
  cases grid with
  | true => exact if_pos (.inl fun _ => rfl)
  | false => exact if_pos (.inr fun _ => rfl)

/-- One call: the ranks that hold a grid hold it together, before and after the call,
and the grid is created only if there is none. -/
theorem alltoallvDispatch_agrees {call : DispatchCall p} (h : call.Admissible) (grid : Bool) :
    ∃ outcome grid', alltoallvDispatch call (fun _ => grid) = some (outcome, fun _ => grid') ∧
      Agrees call outcome ∧ (grid = true → grid' = true) ∧
      ∀ rank, outcome.created rank = (!grid && grid') := by
  let _ := call.inhabited
  have hinside := h.blocksInside
  have hdelivers := deliversBuiltin_expectedResult hinside h.sums h.receive
  by_cases hgrid : ∀ rank, call.branch rank = .grid
  · refine ⟨{ branch := call.branch, created := fun _ => !grid,
              result := expectedResult call.args }, true, ?_, ⟨branch_eq h, fun _ _ => rfl,
                hdelivers⟩, fun _ => rfl, fun _ => by simp⟩
    rw [alltoallvDispatch, if_pos hgrid, initializeGrid_const]
    simp only [Option.bind_eq_bind, Option.bind_some]
    rw [gridAlltoallv_eq_some hinside h.sums h.receive, Option.bind_some]
    simp
  · obtain ⟨rank, hrank⟩ := not_forall.mp hgrid
    have hbuiltin : call.branch rank = .builtin := by
      cases hbranch : call.branch rank with
      | grid => exact absurd hbranch hrank
      | builtin => rfl
    have hall : ∀ other, call.branch other = .builtin := fun other =>
      (branch_eq h other rank).trans hbuiltin
    have hresult := hdelivers.wrapper (h.sendBlocksFit (h.sendBuf_lt ⟨rank, hbuiltin⟩))
    refine ⟨{ branch := call.branch, created := fun _ => false,
              result := expectedResult call.args }, grid, ?_, ⟨branch_eq h, fun _ _ => rfl,
                hdelivers⟩, id, fun _ => by cases grid <;> rfl⟩
    rw [alltoallvDispatch, if_neg hgrid, if_pos hall]
    simp only [Option.bind_eq_bind]
    rw [hresult, Option.bind_some]

/-- Calls that create the grid on some rank. -/
def creations (outcomes : List ((call : DispatchCall p) × DispatchOutcome call)) : ℕ :=
  outcomes.countP fun outcome => decide (∃ rank, outcome.2.created rank = true)

/-- A run from a state in which all ranks or none hold a grid. -/
theorem runDispatch_agrees_from {calls : List (DispatchCall p)}
    (h : ∀ call ∈ calls, call.Admissible) (grid : Bool) :
    ∃ outcomes, runDispatch calls (fun _ => grid) = some outcomes ∧
      outcomes.map (·.1) = calls ∧ (∀ outcome ∈ outcomes, Agrees outcome.1 outcome.2) ∧
      creations outcomes ≤ if grid then 0 else 1 := by
  induction calls generalizing grid with
  | nil => exact ⟨[], rfl, rfl, by simp, Nat.zero_le _⟩
  | cons call calls ih =>
      obtain ⟨outcome, grid', hcall, hagrees, hkeep, hcreated⟩ :=
        alltoallvDispatch_agrees (h call List.mem_cons_self) grid
      obtain ⟨outcomes, hrun, hcalls, hall, hcount⟩ :=
        ih (fun other hother => h other (List.mem_cons_of_mem _ hother)) grid'
      refine ⟨⟨call, outcome⟩ :: outcomes, ?_, ?_, ?_, ?_⟩
      · rw [runDispatch, hcall]
        simp only [hrun, Option.map_some]
      · rw [List.map_cons, hcalls]
      · intro other hother
        rcases List.mem_cons.mp hother with rfl | hother
        · exact hagrees
        · exact hall other hother
      · have hhead : creations (⟨call, outcome⟩ :: outcomes) ≤
            creations outcomes + if (!grid && grid') then 1 else 0 := by
          rw [creations, List.countP_cons, ← creations]
          simp only [hcreated, exists_const_iff, decide_eq_true_eq]
          split_ifs with hcreates <;> simp_all
        cases grid with
        | true =>
            rw [hkeep rfl] at hcount hhead
            exact hhead.trans (by simpa using hcount)
        | false =>
            cases grid' with
            | true => exact hhead.trans (Nat.add_le_add_right hcount 1)
            | false => exact hhead.trans hcount

/-- In every sequence of calls all ranks take the same branch, create the grid in the
same call and at most once, and receive what the builtin exchange delivers. -/
theorem runDispatch_agrees (calls : List (DispatchCall p))
    (h : ∀ call ∈ calls, call.Admissible) :
    ∃ outcomes, runDispatch calls (fun _ => false) = some outcomes ∧
      outcomes.map (·.1) = calls ∧ (∀ outcome ∈ outcomes, Agrees outcome.1 outcome.2) ∧
      creations outcomes ≤ 1 :=
  runDispatch_agrees_from h false

/-- Two ranks that send three elements each. -/
def twoRanks : AlltoallvArguments 2 ℕ :=
  { sendBuf := fun rank => [10 * rank, 10 * rank + 1, 10 * rank + 2]
    sendCounts := fun _ => [1, 2]
    sendDispls := .omitted
    recvCounts := .omitted
    recvDispls := .omitted
    recvBufPolicy := .resizeToFit
    recvBuf := fun _ => [] }

def twoRanksCall (threshold : ℕ) : DispatchCall 2 :=
  { T := ℕ, inhabited := inferInstance, elementSize := 8,
    commVolumeThreshold := fun _ => threshold, args := twoRanks }

theorem twoRanksCall_admissible (threshold : ℕ) : (twoRanksCall threshold).Admissible where
  threshold _ _ := rfl
  length_sendCounts := (by decide : ∀ rank, (twoRanks.sendCounts rank).length = 2)
  nonneg := (by decide : ∀ rank, ∀ count ∈ twoRanks.sendCounts rank, 0 ≤ count)
  sendDispls := Parameter.computedInto_omitted _
  sendBuf := (by decide : ∀ rank, (twoRanks.sendCounts rank).sum ≤ (twoRanks.sendBuf rank).length)
  sendBuf_lt _ := (by decide : ∀ rank, (twoRanks.sendBuf rank).length < 2 ^ 31)
  sums := (⟨by decide, by decide, by decide +kernel⟩ : SumsFit twoRanks)
  receive :=
    { recvCounts := .inl (Parameter.computedInto_omitted _)
      recvDispls := Parameter.computedInto_omitted _
      recvBuf := nofun }

theorem runDispatch_agrees_twoRanks :
    ∃ outcomes, runDispatch [twoRanksCall 0, twoRanksCall 2000, twoRanksCall 2000]
      (fun _ => false) = some outcomes ∧ outcomes.length = 3 ∧ creations outcomes ≤ 1 := by
  obtain ⟨outcomes, hrun, hcalls, -, hcreations⟩ :=
    runDispatch_agrees [twoRanksCall 0, twoRanksCall 2000, twoRanksCall 2000] (by
      intro call hcall
      simp only [List.mem_cons, List.not_mem_nil, or_false] at hcall
      rcases hcall with rfl | rfl | rfl <;> exact twoRanksCall_admissible _)
  exact ⟨outcomes, hrun, by simpa using congrArg List.length hcalls, hcreations⟩

end Correctness

end MpiBindings.GridAlltoall
