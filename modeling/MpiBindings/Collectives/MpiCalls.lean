import MpiBindings.Collectives.Alltoall
import MpiBindings.Core.CollectiveOutcome
import MpiBindings.Core.ReductionTree
import MpiBindings.Operations.SameOnAllRanks

/-!
# Broadcast and reduction calls

The collective calls that the programs of wrappers make, and the responses of MPI if all ranks
make the same kind of call with matching arguments.  The assertions of level
`light_communication` are on: the wrappers compare roots and counts on all ranks, by a reduction
of its own for each value, and `bcast_single` broadcasts whether its root passes a value.
-/

namespace MpiBindings.Collectives

open CollectiveProgram

/-! ## Calls -/

/-- The collective calls that the wrappers make.  The count that a receiver passes by reference
is not set. -/
inductive MpiCall (T : Type)
  | isSameOnAllRanks (value : ℤ)
  | bcastFlag (root : ℤ) (flag : Bool)
  | bcastCount (root : ℤ) (count : Option ℤ)
  | bcast (root count : ℤ) (buffer : List T)
  | reduce (root count : ℤ) (sendBuf recvBuf : List T)
  /-- Without a send buffer, the receive buffer is reduced in place. -/
  | allreduce (count : ℤ) (sendBuf : Option (List T)) (recvBuf : List T)

inductive MpiResponse (T : Type)
  | same (same : Bool)
  | flag (flag : Bool)
  | count (count : ℤ)
  | buffer (buffer : List T)

namespace MpiCall

variable {T : Type}

def isSameOnAllRanks? : MpiCall T → Option ℤ
  | .isSameOnAllRanks value => some value
  | _ => none

def bcastFlag? : MpiCall T → Option (ℤ × Bool)
  | .bcastFlag root flag => some (root, flag)
  | _ => none

def bcastCount? : MpiCall T → Option (ℤ × Option ℤ)
  | .bcastCount root count => some (root, count)
  | _ => none

def bcast? : MpiCall T → Option (ℤ × ℤ × List T)
  | .bcast root count buffer => some (root, count, buffer)
  | _ => none

def reduce? : MpiCall T → Option (ℤ × ℤ × List T × List T)
  | .reduce root count sendBuf recvBuf => some (root, count, sendBuf, recvBuf)
  | _ => none

def allreduce? : MpiCall T → Option (ℤ × Option (List T) × List T)
  | .allreduce count sendBuf recvBuf => some (count, sendBuf, recvBuf)
  | _ => none

end MpiCall

section Exchange

variable {p : ℕ} {T : Type} [Inhabited T]

/-- The root that all ranks name. -/
def commonRoot (roots : Fin p → ℤ) : Option (Fin p) :=
  (List.finRange p).find? fun root => ∀ rank, roots rank = (root : ℤ)

/-- `MPI_Bcast` of single values. -/
def mpiBcastValue {X : Type} (roots : Fin p → ℤ) (values : Fin p → X) : Option X :=
  (commonRoot roots).map values

/-- `MPI_Bcast`: the buffers of all ranks. -/
def mpiBcast (roots counts : Fin p → ℤ) (buffers : Fin p → List T) :
    Option (Fin p → List T) := do
  let root ← commonRoot roots
  if ∀ rank, counts rank = counts root ∧ 0 ≤ counts rank ∧ counts rank ≤ (buffers rank).length then
    some fun rank => overwrite ((buffers root).take (counts root).toNat) (buffers rank)
  else none

/-- How MPI evaluates a reduction: the order of every element, for `MPI_Reduce` and on every rank
for `MPI_Allreduce`. -/
structure Reduction (p : ℕ) (T : Type) where
  op : T → T → T
  order : ℕ → ReductionTree (Fin p)
  orderAt : Fin p → ℕ → ReductionTree (Fin p)

/-- The first elements of all ranks, combined position by position. -/
def reduced (op : T → T → T) (order : ℕ → ReductionTree (Fin p)) (sendBufs : Fin p → List T)
    (count : ℕ) : List T :=
  (List.range count).map fun k => (order k).eval op fun rank => (sendBufs rank).getD k default

/-- `MPI_Reduce`: the receive buffers of all ranks. -/
def mpiReduce (reduction : Reduction p T) (roots counts : Fin p → ℤ)
    (sendBufs recvBufs : Fin p → List T) : Option (Fin p → List T) := do
  let root ← commonRoot roots
  if (∀ rank, counts rank = counts root ∧ 0 ≤ counts rank ∧
      counts rank ≤ (sendBufs rank).length) ∧ counts root ≤ (recvBufs root).length then
    some fun rank =>
      if rank = root then
        overwrite (reduced reduction.op reduction.order sendBufs (counts root).toNat)
          (recvBufs rank)
      else recvBufs rank
  else none

/-- `MPI_Allreduce`: the receive buffers of all ranks. -/
def mpiAllreduce (reduction : Reduction p T) (counts : Fin p → ℤ)
    (sendBufs : Fin p → Option (List T)) (recvBufs : Fin p → List T) :
    Option (Fin p → List T) :=
  if ∀ rank other, counts rank = counts other ∧
      (sendBufs rank).isSome = (sendBufs other).isSome ∧ 0 ≤ counts rank ∧
      counts rank ≤ ((sendBufs rank).getD (recvBufs rank)).length ∧
      counts rank ≤ (recvBufs rank).length then
    some fun rank =>
      overwrite (reduced reduction.op (reduction.orderAt rank)
        (fun other => (sendBufs other).getD (recvBufs other)) (counts rank).toNat) (recvBufs rank)
  else none

/-- The responses if all ranks make the same kind of call. -/
def exchange (reduction : Reduction p T) (lead : Fin p) (calls : Fin p → MpiCall T) :
    Option (Fin p → MpiResponse T) :=
  match calls lead with
  | .isSameOnAllRanks _ => do
      let values ← allRanks fun rank => (calls rank).isSameOnAllRanks?
      some fun _ => .same (∀ rank other, values rank = values other)
  | .bcastFlag _ _ => do
      let values ← allRanks fun rank => (calls rank).bcastFlag?
      let flag ← mpiBcastValue (fun rank => (values rank).1) fun rank => (values rank).2
      some fun _ => .flag flag
  | .bcastCount _ _ => do
      let values ← allRanks fun rank => (calls rank).bcastCount?
      let count ← (mpiBcastValue (fun rank => (values rank).1) fun rank => (values rank).2).join
      some fun _ => .count count
  | .bcast _ _ _ => do
      let values ← allRanks fun rank => (calls rank).bcast?
      let buffers ← mpiBcast (fun rank => (values rank).1) (fun rank => (values rank).2.1)
        fun rank => (values rank).2.2
      some fun rank => .buffer (buffers rank)
  | .reduce _ _ _ _ => do
      let values ← allRanks fun rank => (calls rank).reduce?
      let buffers ← mpiReduce reduction (fun rank => (values rank).1)
        (fun rank => (values rank).2.1) (fun rank => (values rank).2.2.1)
        fun rank => (values rank).2.2.2
      some fun rank => .buffer (buffers rank)
  | .allreduce _ _ _ => do
      let values ← allRanks fun rank => (calls rank).allreduce?
      let buffers ← mpiAllreduce reduction (fun rank => (values rank).1)
        (fun rank => (values rank).2.1) fun rank => (values rank).2.2
      some fun rank => .buffer (buffers rank)

end Exchange

/-! ## Programs -/

/-- The program of a rank. -/
abbrev MpiProgram (T α : Type) := CollectiveProgram (MpiCall T) (MpiResponse T) α

section Programs

variable {T : Type}

/-- The assertion that a value is the same on all ranks. -/
def assertSameOnAllRanks (value : ℤ) : MpiProgram T Unit := do
  match ← ask (.isSameOnAllRanks value) with
  | .same same => assert same
  | _ => .fail

def askBcastFlag (root : ℤ) (flag : Bool) : MpiProgram T Bool := do
  match ← ask (.bcastFlag root flag) with
  | .flag flag => pure flag
  | _ => .fail

def askBcastCount (root : ℤ) (count : Option ℤ) : MpiProgram T ℤ := do
  match ← ask (.bcastCount root count) with
  | .count count => pure count
  | _ => .fail

def askBuffer (call : MpiCall T) : MpiProgram T (List T) := do
  match ← ask call with
  | .buffer buffer => pure buffer
  | _ => .fail

variable [Inhabited T] {α : Type} {p : ℕ} {reduction : Reduction p T} {lead : Fin p}

omit [Inhabited T] in
theorem commonRoot_eq_some {roots : Fin p → ℤ} {root : Fin p}
    (hroots : ∀ rank, roots rank = (root : ℤ)) : commonRoot roots = some root := by
  have hsome : (commonRoot roots).isSome :=
    List.find?_isSome.mpr ⟨root, List.mem_finRange root, decide_eq_true hroots⟩
  obtain ⟨found, hfound⟩ := Option.isSome_iff_exists.mp hsome
  have hall : ∀ rank, roots rank = (found : ℤ) := by
    have htrue := List.find?_some hfound
    simpa using htrue
  have hsame : (found : ℤ) = (root : ℤ) := (hall root).symm.trans (hroots root)
  rw [hfound, Fin.ext (Int.natCast_inj.mp hsame)]

theorem exchange_isSameOnAllRanks (values : Fin p → ℤ) :
    exchange reduction lead (fun rank => .isSameOnAllRanks (values rank)) =
      some fun _ => .same (∀ rank other, values rank = values other) := by
  have hvalues : allRanks (fun rank =>
      (MpiCall.isSameOnAllRanks (values rank) : MpiCall T).isSameOnAllRanks?) = some values :=
    allRanks_eq_some.mpr fun rank => rfl
  simp only [exchange, hvalues]
  rfl

section Comparison

open Operations

/-- Comparison of integers. -/
def sameInt (_ : Unit) (left right : ℤ) : Bool := left == right

/-- The response to a comparison is what `is_same_on_all_ranks` returns on every rank, after any
earlier calls and for any orders in which MPI evaluates its reduction. -/
theorem exchange_eq_isSameOnAllRanks (before : Fin p → List (Construction (comparisons sameInt)))
    {order : Fin p → ReductionTree (Fin p)}
    (horder : ∀ rank, (order rank).leaves.Perm (List.finRange p)) (values : Fin p → ℤ) :
    exchange reduction lead (fun rank => .isSameOnAllRanks (values rank)) =
      (allRanks fun rank => isSameOnAllRanks sameInt before order (v := ()) values rank).map
        fun same rank => .same (same rank) := by
  have hequivalence : Equivalence fun left right => sameInt () left right = true :=
    ⟨fun _ => beq_self_eq_true _, fun h => beq_iff_eq.mpr (beq_iff_eq.mp h).symm,
      fun h h' => beq_iff_eq.mpr ((beq_iff_eq.mp h).trans (beq_iff_eq.mp h'))⟩
  have hsame := allRanks_eq_some.mpr fun rank =>
    isSameOnAllRanks_eq_some before hequivalence horder values rank
  rw [exchange_isSameOnAllRanks, hsame, Option.map_some]
  simp only [sameInt, beq_iff_eq]

end Comparison

/-- All ranks compare values that are the same. -/
theorem outcome_assertSame {values : Fin p → ℤ} (hsame : ∀ rank other, values rank = values other)
    (next : Fin p → Unit → MpiProgram T α) :
    outcome (exchange reduction lead) lead
        (fun rank => assertSameOnAllRanks (values rank) >>= next rank) =
      outcome (exchange reduction lead) lead fun rank => next rank () := by
  refine (outcome_ask (exchange_isSameOnAllRanks values) fun rank response =>
    (match response with | .same same => assert same | _ => .fail) >>= next rank).trans ?_
  exact outcome_assert (fun _ => decide_eq_true hsame) next

/-- If some values differ, all ranks fail. -/
theorem outcome_assertSame_failed {values : Fin p → ℤ}
    (hdiffer : ¬ ∀ rank other, values rank = values other)
    (next : Fin p → Unit → MpiProgram T α) :
    outcome (exchange reduction lead) lead
        (fun rank => assertSameOnAllRanks (values rank) >>= next rank) = .failed := by
  refine (outcome_ask (exchange_isSameOnAllRanks values) fun rank response =>
    (match response with | .same same => assert same | _ => .fail) >>= next rank).trans ?_
  exact outcome_assert_failed (fun _ => by simpa using hdiffer) next

theorem outcome_askBcastFlag {roots : Fin p → ℤ} {root : Fin p}
    (hroots : ∀ rank, roots rank = (root : ℤ)) (flags : Fin p → Bool)
    (next : Fin p → Bool → MpiProgram T α) :
    outcome (exchange reduction lead) lead
        (fun rank => askBcastFlag (roots rank) (flags rank) >>= next rank) =
      outcome (exchange reduction lead) lead fun rank => next rank (flags root) := by
  have hvalues : allRanks (fun rank =>
      (MpiCall.bcastFlag (roots rank) (flags rank) : MpiCall T).bcastFlag?) =
        some fun rank => (roots rank, flags rank) :=
    allRanks_eq_some.mpr fun rank => rfl
  have hexchange : exchange reduction lead
      (fun rank => .bcastFlag (roots rank) (flags rank)) = some fun _ => .flag (flags root) := by
    simp only [exchange, hvalues, mpiBcastValue, Option.bind_eq_bind, Option.bind_some,
      commonRoot_eq_some hroots, Option.map_some]
  exact outcome_ask hexchange fun rank response =>
    (match response with | .flag flag => pure flag | _ => .fail) >>= next rank

theorem outcome_askBcastCount {roots : Fin p → ℤ} {root : Fin p}
    (hroots : ∀ rank, roots rank = (root : ℤ)) {counts : Fin p → Option ℤ} {count : ℤ}
    (hcount : counts root = some count) (next : Fin p → ℤ → MpiProgram T α) :
    outcome (exchange reduction lead) lead
        (fun rank => askBcastCount (roots rank) (counts rank) >>= next rank) =
      outcome (exchange reduction lead) lead fun rank => next rank count := by
  have hvalues : allRanks (fun rank =>
      (MpiCall.bcastCount (roots rank) (counts rank) : MpiCall T).bcastCount?) =
        some fun rank => (roots rank, counts rank) :=
    allRanks_eq_some.mpr fun rank => rfl
  have hexchange : exchange reduction lead
      (fun rank => .bcastCount (roots rank) (counts rank)) = some fun _ => .count count := by
    simp only [exchange, hvalues, mpiBcastValue, Option.bind_eq_bind, Option.bind_some,
      commonRoot_eq_some hroots, Option.map_some, hcount, Option.join_some]
  exact outcome_ask hexchange fun rank response =>
    (match response with | .count count => pure count | _ => .fail) >>= next rank

/-- All ranks get the buffers that MPI leaves. -/
theorem outcome_askBuffer {calls : Fin p → MpiCall T} {buffers : Fin p → List T}
    (hexchange : exchange reduction lead calls = some fun rank => .buffer (buffers rank))
    (next : Fin p → List T → MpiProgram T α) :
    outcome (exchange reduction lead) lead (fun rank => askBuffer (calls rank) >>= next rank) =
      outcome (exchange reduction lead) lead fun rank => next rank (buffers rank) :=
  outcome_ask hexchange fun rank response =>
    (match response with | .buffer buffer => pure buffer | _ => .fail) >>= next rank

/-- A program that ends with a call. -/
theorem outcome_askBuffer_last {calls : Fin p → MpiCall T} {buffers : Fin p → List T}
    (hexchange : exchange reduction lead calls = some fun rank => .buffer (buffers rank)) :
    outcome (exchange reduction lead) lead (fun rank => askBuffer (calls rank)) =
      .finished buffers := by
  have hlast := outcome_askBuffer hexchange fun _ => pure
  simp only [bind_pure] at hlast
  exact hlast.trans (outcome_pure buffers)

theorem exchange_bcast {roots counts : Fin p → ℤ} {buffers : Fin p → List T} {root : Fin p}
    {count : ℕ} (hroots : ∀ rank, roots rank = (root : ℤ)) (hcounts : ∀ rank, counts rank = count)
    (hlength : ∀ rank, count ≤ (buffers rank).length) :
    exchange reduction lead (fun rank => .bcast (roots rank) (counts rank) (buffers rank)) =
      some fun rank => .buffer (overwrite ((buffers root).take count) (buffers rank)) := by
  have hcalls : allRanks (fun rank =>
      (MpiCall.bcast (roots rank) (counts rank) (buffers rank)).bcast?) =
        some fun rank => (roots rank, counts rank, buffers rank) :=
    allRanks_eq_some.mpr fun rank => rfl
  have hall : ∀ rank, counts rank = counts root ∧ 0 ≤ counts rank ∧
      counts rank ≤ (buffers rank).length := fun rank => by
    rw [hcounts, hcounts]
    exact ⟨rfl, Int.natCast_nonneg count, Int.ofNat_le.mpr (hlength rank)⟩
  have hbcast : mpiBcast roots counts buffers =
      some fun rank => overwrite ((buffers root).take count) (buffers rank) := by
    rw [mpiBcast, commonRoot_eq_some hroots, Option.bind_eq_bind, Option.bind_some, if_pos hall,
      hcounts, Int.toNat_natCast]
  simp only [exchange, hcalls, Option.bind_eq_bind, Option.bind_some, hbcast]

end Programs

end MpiBindings.Collectives
