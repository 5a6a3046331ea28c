import MpiBindings.Collectives.Flatten
import MpiBindings.Collectives.ReturnedCalls

/-!
# Exchange of nested buffers

Every rank flattens one buffer for each rank and passes the result to `alltoallv`, which
computes the receive side.  A call that returns has exchanged the nested buffers as they were,
also if their sizes add up to more than a machine integer holds.
-/

namespace MpiBindings.Collectives

open CountingSort

section Nested

variable {p : ℕ} {T : Type}

/-- `alltoallv` of the flattened nested buffers. -/
def alltoallvNested [Inhabited T] (nested : Fin p → List (List T)) :
    Option (Fin p → List T) := do
  let flattened ← allRanks fun rank => withFlattenedNested (nested rank) (nested rank).length
  let result ← alltoallv (.world p) (consecutiveArguments (fun rank => (flattened rank).sendBuf)
    (fun rank => (flattened rank).sendCounts) fun rank => (flattened rank).sendDispls)
  some result.recvBuf

theorem map_range {α : Type} (f : ℕ → α) :
    (List.range p).map f = (List.finRange p).map fun rank : Fin p => f (rank : ℕ) := by
  rw [← List.map_coe_finRange_eq_range, List.map_map]
  rfl

/-- The blocks that a rank puts one after the other in the order of the ranks. -/
def consecutive (block : Fin p → Fin p → List T) (rank : Fin p) : List (List T) :=
  (List.finRange p).map (block rank)

variable {block : Fin p → Fin p → List T}

theorem length_consecutive (rank : Fin p) : (consecutive block rank).length = p := by
  rw [consecutive, List.length_map, List.length_finRange]

theorem map_length_consecutive (rank : Fin p) :
    (consecutive block rank).map List.length = sentLengths (.world p) block rank := by
  rw [consecutive, List.map_map]
  rfl

variable [Inhabited T]

/-- The buffers of a rank are flattened to consecutive blocks. -/
theorem withFlattenedNested_consecutive {rank : Fin p}
    (hsent : (consecutive block rank).flatten.length < 2 ^ 31) :
    withFlattenedNested (consecutive block rank) (consecutive block rank).length =
      some { sendBuf := (consecutive block rank).flatten
             sendCounts := (sentLengths (.world p) block rank).map Nat.cast
             sendDispls := (prefixSums 0 (sentLengths (.world p) block rank)).map Nat.cast } := by
  have hget : ∀ receiver : Fin p,
      (consecutive block rank)[(receiver : ℕ)]?.getD [] = block rank receiver := fun receiver => by
    rw [consecutive, List.getElem?_map]
    simp
  rw [List.length_flatten] at hsent
  rw [length_consecutive, withFlattenedNested_eq_some (Fin.pos rank) (length_consecutive rank).le
    hsent]
  refine congrArg some (Flattened.ext ?_ ?_ ?_)
  · rw [inRankOrder, List.flatMap_def, map_range]
    simp only [hget]
    rfl
  · rw [inRankOrder, map_range]
    simp only [hget, sentLengths, List.map_map]
    rfl
  · simp only [inRankOrder, map_range, hget]
    rfl

/-- Nested buffers whose totals fit are exchanged. -/
theorem alltoallvNested_eq_some (hsent : ∀ rank, (consecutive block rank).flatten.length < 2 ^ 31)
    (hreceived : ∀ rank, (received (.world p) block rank).length < 2 ^ 31) :
    alltoallvNested (consecutive block) = some (received (.world p) block) := by
  have hflattened := allRanks_eq_some.mpr fun rank => withFlattenedNested_consecutive (hsent rank)
  obtain ⟨result, hresult, hrecvBuf⟩ := Option.map_eq_some_iff.mp
    (@alltoallv_consecutive _ (.world p) _ _ _ hsent hreceived)
  rw [alltoallvNested, hflattened, Option.bind_eq_bind, Option.bind_some]
  exact Option.bind_eq_some_iff.mpr ⟨result, hresult, congrArg some hrecvBuf⟩

/-- An exchange of nested buffers that returns delivers them: a total that wraps around
makes some rank copy or receive outside of its buffer. -/
theorem alltoallvNested_cases {result : Fin p → List T}
    (hresult : alltoallvNested (consecutive block) = some result) :
    result = received (.world p) block := by
  obtain ⟨flattened, hflattened, hcall⟩ := Option.bind_eq_some_iff.mp hresult
  have hsent : ∀ rank, (consecutive block rank).flatten.length < 2 ^ 31 := fun rank => by
    rw [List.length_flatten]
    exact sum_lt_of_withFlattenedNested (allRanks_eq_some.mp hflattened rank)
  rw [allRanks_eq_some.mpr fun rank => withFlattenedNested_consecutive (hsent rank)] at hflattened
  obtain rfl := Option.some.inj hflattened
  obtain ⟨output, houtput, -⟩ := Option.bind_eq_some_iff.mp hcall
  have hreceived := received_lt_of_alltoallv houtput
  rw [alltoallvNested_eq_some hsent hreceived] at hresult
  exact (Option.some.inj hresult).symm

end Nested

end MpiBindings.Collectives
