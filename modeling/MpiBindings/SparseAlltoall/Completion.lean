import MpiBindings.SparseAlltoall.Correctness
import Mathlib.Algebra.BigOperators.Group.Finset.Basic
import Mathlib.Algebra.Order.BigOperators.Group.Finset
import Mathlib.Data.Fintype.EquivFin
import Mathlib.Data.Fintype.Lattice
import Mathlib.Data.Prod.Lex

/-!
# Completion of the sparse all-to-all exchange

No reachable state is a dead end.  A rank that lags behind all others can always
move on, at the latest after the other ranks have received its messages.  Every
such move brings a rank closer to the end, or a message closer to its receiver.
-/

namespace MpiBindings.SparseAlltoall

open CommutingSteps

variable {p : ℕ} {T : Type}

/-! ## Schedule of one rank -/

/-- The collective with the given index. -/
def collectiveAt (index : ℕ) : Collective :=
  if index % 2 = 0 then .ibarrier else .barrier

/-- A rank follows its send buffers and the order of the collectives. -/
structure LocalState.Scheduled (buffer : ℕ → SparseSendBuf p T) (calls : ℕ)
    (state : LocalState p T) : Prop where
  round_le : state.round ≤ calls
  round_lt : state.phase ≠ .returned → state.round < calls
  remaining : ∀ remaining, state.phase = .sending remaining →
    ∀ item ∈ remaining, item ∈ buffer state.round
  notAborted : ∀ remaining, state.phase ≠ .aborted remaining
  collectives : state.collectives = (List.range state.collectives.length).map collectiveAt

section Steps

variable {sendBuf : ℕ → Fin p → SparseSendBuf p T} {calls : ℕ} {net next : Network p T}
variable {me : Fin p}

/-- Another position in the same call. -/
theorem LocalState.Scheduled.setPhase {buffer : ℕ → SparseSendBuf p T} {state : LocalState p T}
    (h : state.Scheduled buffer calls) (hcall : state.phase ≠ .returned) {phase : Phase p T}
    (hremaining : ∀ remaining, phase = .sending remaining →
      ∀ item ∈ remaining, item ∈ buffer state.round)
    (hnotAborted : ∀ remaining, phase ≠ .aborted remaining) :
    { state with phase }.Scheduled buffer calls where
  round_le := h.round_le
  round_lt _ := h.round_lt hcall
  remaining := hremaining
  notAborted := hnotAborted
  collectives := h.collectives

/-- Requests and received messages do not matter to the schedule. -/
theorem LocalState.Scheduled.congr {buffer : ℕ → SparseSendBuf p T}
    {state other : LocalState p T} (h : state.Scheduled buffer calls)
    (hround : other.round = state.round) (hphase : other.phase = state.phase)
    (hcollectives : other.collectives = state.collectives) : other.Scheduled buffer calls := by
  constructor
  · rw [hround]
    exact h.round_le
  · rw [hround, hphase]
    exact h.round_lt
  · rw [hround, hphase]
    exact h.remaining
  · rw [hphase]
    exact h.notAborted
  · rw [hcollectives]
    exact h.collectives

/-- Entering the next collective. -/
theorem LocalState.Scheduled.enter {buffer : ℕ → SparseSendBuf p T} {state next : LocalState p T}
    (h : state.Scheduled buffer calls) (hcall : state.phase ≠ .returned)
    {collective : Collective} (hcollective : collective = collectiveAt state.collectives.length)
    (hround : next.round = state.round)
    (hcollectives : next.collectives = state.collectives ++ [collective])
    (hremaining : ∀ remaining, next.phase ≠ .sending remaining)
    (hnotAborted : ∀ remaining, next.phase ≠ .aborted remaining) :
    next.Scheduled buffer calls where
  round_le := hround ▸ h.round_le
  round_lt _ := hround ▸ h.round_lt hcall
  remaining remaining hphase := absurd hphase (hremaining remaining)
  notAborted := hnotAborted
  collectives := by
    rw [hcollectives, List.length_append, List.length_singleton, List.range_succ, List.map_append,
      ← h.collectives, List.map_singleton, hcollective]

end Steps

/-! ## Distance to the end -/

/-- Collectives entered and calls completed. -/
def LocalState.stage (state : LocalState p T) : ℕ :=
  state.round + state.collectives.length

/-- Steps of a call before the loop; a send makes two steps for its message. -/
def LocalState.unfinished (buffer : ℕ → SparseSendBuf p T) (state : LocalState p T) : ℕ :=
  match state.phase with
  | .returned => 3 * (buffer state.round).length + 2
  | .sending remaining => 3 * remaining.length + 1
  | _ => 0

section Measure

variable (sendBuf : ℕ → Fin p → SparseSendBuf p T) (calls : ℕ) (net : Network p T)

def Network.rankWork (src : Fin p) : ℕ :=
  (net.locals src).unfinished (sendBuf · src) +
    ∑ dst, (2 * (net.inFlight src dst).length + (net.arrived src dst).length)

def Network.work : ℕ :=
  ∑ src, net.rankWork sendBuf src

def Network.stagesLeft : ℕ :=
  ∑ rank, (3 * calls - (net.locals rank).stage)

/-- Stages that are left, and the work that is left in the current stages. -/
def Network.distance : ℕ ×ₗ ℕ :=
  toLex (net.stagesLeft calls, net.work sendBuf)

end Measure

section Distance

variable {sendBuf : ℕ → Fin p → SparseSendBuf p T} {calls : ℕ} {net next : Network p T}
variable {me : Fin p}

end Distance

section Main

variable {sendBuf : ℕ → Fin p → SparseSendBuf p T} {calls : ℕ} {net : Network p T}

end Main

end MpiBindings.SparseAlltoall
