import MpiBindings.Core.ReductionTree
import MpiBindings.Collectives.Gather
import MpiBindings.Operations.BuiltinOperations
import Mathlib.Data.Fin.VecNotation

/-!
# The wrappers `scan` and `exscan`

`MPI_Scan` combines the elements of the ranks up to a rank, and `MPI_Exscan` those of
the ranks before it, in any order of evaluation.  `MPI_Exscan` leaves the buffer of rank
0 undefined; the wrapper fills it with the values of the caller, or with the identity of
a builtin operation.
-/

namespace MpiBindings.Collectives

open Operations

/-! ## Prefix reductions -/

section Mpi

variable {p : ℕ} {T : Type} [Inhabited T]

/-- Combine the elements of the ranks position by position, each position in an order of
its own. -/
def reduceElements (order : ℕ → ReductionTree (Fin p)) (op : T → T → T)
    (sendBuf : Fin p → List T) (count : ℕ) : List T :=
  (List.range count).map fun k => (order k).eval op fun rank => (sendBuf rank).getD k default

/-- How MPI evaluates a prefix reduction on every rank, and what `MPI_Exscan` leaves in
the buffer of rank 0. -/
structure PrefixReduction (p : ℕ) (T : Type) where
  order : Fin p → ℕ → ReductionTree (Fin p)
  leftover : ℕ → T

/-- A rank combines the elements of the ranks up to it. -/
def PrefixReduction.Inclusive (reduction : PrefixReduction p T) : Prop :=
  ∀ rank k, (reduction.order rank k).leaves.Perm
    ((List.finRange p).filter fun other => other ≤ rank)

/-- Every rank but rank 0 combines the elements of the ranks before it. -/
def PrefixReduction.Exclusive (reduction : PrefixReduction p T) : Prop :=
  ∀ rank : Fin p, rank.val ≠ 0 → ∀ k, (reduction.order rank k).leaves.Perm
    ((List.finRange p).filter fun other => other < rank)

/-- `MPI_Scan`: the receive buffers of all ranks. -/
def mpiScan (reduction : PrefixReduction p T) (op : T → T → T) (sendBuf recvBuf : Fin p → List T)
    (count : Fin p → ℕ) : Option (Fin p → List T) :=
  if ∀ rank, count rank ≤ (sendBuf rank).length ∧ count rank ≤ (recvBuf rank).length then
    some fun rank =>
      overwrite (reduceElements (reduction.order rank) op sendBuf (count rank)) (recvBuf rank)
  else none

/-- `MPI_Exscan`: the receive buffers of all ranks. -/
def mpiExscan (reduction : PrefixReduction p T) (op : T → T → T)
    (sendBuf recvBuf : Fin p → List T) (count : Fin p → ℕ) : Option (Fin p → List T) :=
  if ∀ rank, count rank ≤ (sendBuf rank).length ∧ count rank ≤ (recvBuf rank).length then
    some fun rank =>
      if rank.val = 0 then
        overwrite ((List.range (count rank)).map reduction.leftover) (recvBuf rank)
      else
        overwrite (reduceElements (reduction.order rank) op sendBuf (count rank)) (recvBuf rank)
  else none

end Mpi

/-! ## Wrappers -/

/-- An operation as the wrappers see it: the operation that MPI applies, and its identity
if it is builtin. -/
structure ScanOperation (T : Type) where
  op : T → T → T
  identity : Option T

/-- Arguments of `scan` and `exscan` on all ranks. -/
structure ScanArguments (p : ℕ) (T : Type) where
  sendBuf : Fin p → List T
  sendRecvCount : Fin p → Option ℤ
  recvBufPolicy : BufferResizePolicy
  recvBuf : Fin p → List T
  valuesOnRank0 : Option (List T)

section Wrappers

variable {p : ℕ} {T : Type} [Inhabited T]

/-- The number of elements: the same on all ranks and not negative. -/
def scanCount (args : ScanArguments p T) : Option (Fin p → ℕ) := do
  let counts ← allRanks fun rank =>
    sendCountOf (args.sendRecvCount rank) (args.sendBuf rank).length
  if (∀ rank other, counts rank = counts other) ∧ ∀ rank, 0 ≤ counts rank then
    some fun rank => (counts rank).toNat
  else none

/-- `scan`. -/
def scan (reduction : PrefixReduction p T) (operation : ScanOperation T)
    (args : ScanArguments p T) : Option (Fin p → List T) := do
  let counts ← scanCount args
  let recvBuf ← allRanks fun rank =>
    preparedRecvBuf args.recvBufPolicy (some (counts rank)) (args.recvBuf rank)
  mpiScan reduction operation.op args.sendBuf recvBuf counts

/-- The buffer of rank 0 after `MPI_Exscan`. -/
def fillRank0 (operation : ScanOperation T) (valuesOnRank0 : Option (List T)) (count : ℕ)
    (recvBuf : List T) : Option (List T) :=
  match valuesOnRank0 with
  | some [value] => some (overwrite (List.replicate count value) recvBuf)
  | some values => if values.length = count then some (overwrite values recvBuf) else none
  | none =>
      match operation.identity with
      | some identity => some (overwrite (List.replicate count identity) recvBuf)
      | none => some recvBuf

/-- `exscan`. -/
def exscan (reduction : PrefixReduction p T) (operation : ScanOperation T)
    (args : ScanArguments p T) : Option (Fin p → List T) :=
  if ∀ rank other, (args.sendBuf rank).length = (args.sendBuf other).length then do
    let counts ← scanCount args
    let recvBuf ← allRanks fun rank =>
      preparedRecvBuf args.recvBufPolicy (some (counts rank)) (args.recvBuf rank)
    let received ← mpiExscan reduction operation.op args.sendBuf recvBuf counts
    allRanks fun rank =>
      if rank.val = 0 then fillRank0 operation args.valuesOnRank0 (counts rank) (received rank)
      else some (received rank)
  else none

end Wrappers

/-! ## Results of builtin operations -/

section Builtin

variable {p : ℕ} {T : IntegerType} {op : BuiltinOperation}

/-- A builtin operation on an integer type. -/
def builtin (T : IntegerType) (op : BuiltinOperation) : ScanOperation T.Value where
  op := op.call T
  identity := some (op.identity T)

/-- A call that passes send buffers, an operation and possibly receive buffers. -/
def plainArguments (sendBuf : Fin p → List T.Value) (policy : BufferResizePolicy)
    (recvBuf : Fin p → List T.Value) : ScanArguments p T.Value where
  sendBuf := sendBuf
  sendRecvCount := fun _ => none
  recvBufPolicy := policy
  recvBuf := recvBuf
  valuesOnRank0 := none

variable {sendBuf : Fin p → List T.Value} {policy : BufferResizePolicy}
  {recvBuf : Fin p → List T.Value}

/-- The elements of all ranks at a position. -/
def elementsAt (sendBuf : Fin p → List T.Value) (k : ℕ) (rank : Fin p) : T.Value :=
  (sendBuf rank).getD k default

theorem eq_of_sendCountOf_none {sendSize : ℕ} {count : ℤ}
    (hcount : sendCountOf none sendSize = some count) : count = sendSize := by
  rw [sendCountOf, Option.ite_none_right_eq_some] at hcount
  exact (Option.some.inj hcount.2).symm

theorem scanCount_plain {counts : Fin p → ℕ}
    (hcounts : scanCount (plainArguments sendBuf policy recvBuf) = some counts) :
    counts = fun rank => (sendBuf rank).length := by
  obtain ⟨signed, hsigned, hcounts⟩ := Option.bind_eq_some_iff.mp hcounts
  rw [Option.ite_none_right_eq_some] at hcounts
  obtain rfl := Option.some.inj hcounts.2
  funext rank
  rw [eq_of_sendCountOf_none (allRanks_eq_some.mp hsigned rank), Int.toNat_natCast]
  rfl

theorem getElem?_reduceElements (order : ℕ → ReductionTree (Fin p)) {count k : ℕ}
    (hk : k < count) (rest : List T.Value) :
    (overwrite (reduceElements order (op.call T) sendBuf count) rest)[k]? =
      some ((order k).eval (op.call T) (elementsAt sendBuf k)) := by
  rw [overwrite, reduceElements, List.getElem?_append_left (by simpa using hk),
    List.getElem?_map, List.getElem?_range hk]
  rfl

/-- Every rank holds the combinations of the elements up to it. -/
theorem getElem?_scan {reduction : PrefixReduction p T.Value} {result : Fin p → List T.Value}
    (hresult : scan reduction (builtin T op) (plainArguments sendBuf policy recvBuf) =
      some result) (rank : Fin p) {k : ℕ} (hk : k < (sendBuf rank).length) :
    (result rank)[k]? =
      some ((reduction.order rank k).eval (op.call T) (elementsAt sendBuf k)) := by
  obtain ⟨counts, hcounts, hresult⟩ := Option.bind_eq_some_iff.mp hresult
  obtain ⟨prepared, -, hresult⟩ := Option.bind_eq_some_iff.mp hresult
  obtain rfl := scanCount_plain hcounts
  rw [mpiScan, Option.ite_none_right_eq_some] at hresult
  obtain rfl := Option.some.inj hresult.2
  exact getElem?_reduceElements _ hk _

/-- Every rank but rank 0 holds the combinations of the elements before it, and rank 0
holds the identity. -/
theorem getElem?_exscan {reduction : PrefixReduction p T.Value} {result : Fin p → List T.Value}
    (hresult : exscan reduction (builtin T op) (plainArguments sendBuf policy recvBuf) =
      some result) (rank : Fin p) {k : ℕ} (hk : k < (sendBuf rank).length) :
    (result rank)[k]? = some (if rank.val = 0 then op.identity T
      else (reduction.order rank k).eval (op.call T) (elementsAt sendBuf k)) := by
  rw [exscan, Option.ite_none_right_eq_some] at hresult
  obtain ⟨counts, hcounts, hresult⟩ := Option.bind_eq_some_iff.mp hresult.2
  obtain ⟨prepared, -, hresult⟩ := Option.bind_eq_some_iff.mp hresult
  obtain ⟨received, hreceived, hresult⟩ := Option.bind_eq_some_iff.mp hresult
  obtain rfl := scanCount_plain hcounts
  rw [mpiExscan, Option.ite_none_right_eq_some] at hreceived
  obtain rfl := Option.some.inj hreceived.2
  have hrank := allRanks_eq_some.mp hresult rank
  by_cases hzero : rank.val = 0
  · rw [if_pos hzero] at hrank ⊢
    rw [← Option.some.inj hrank, overwrite, List.getElem?_append_left (by simpa using hk),
      List.getElem?_replicate, if_pos hk]
  · rw [if_neg hzero] at hrank ⊢
    rw [← Option.some.inj hrank]
    dsimp only
    rw [if_neg hzero]
    exact getElem?_reduceElements _ hk _

theorem filter_le_perm (rank : Fin p) :
    ((List.finRange p).filter fun other => other ≤ rank).Perm
      (((List.finRange p).filter fun other => other < rank) ++ [rank]) := by
  rw [List.perm_ext_iff_of_nodup]
  · intro other
    simp [le_iff_lt_or_eq]
  · exact (List.nodup_finRange p).filter _
  · rw [List.nodup_append]
    refine ⟨(List.nodup_finRange p).filter _, List.nodup_singleton rank, ?_⟩
    intro other hother last hlast
    rw [List.mem_singleton.mp hlast]
    have hlt : other < rank := by simpa using hother
    exact ne_of_lt hlt

/-- The results of the two scans fit together: each inclusive result combines the
exclusive one with the own element. -/
def FitTogether (op : T.Value → T.Value → T.Value) (sendBuf inclusive exclusive :
    Fin p → List T.Value) : Prop :=
  ∀ (rank : Fin p) (k : ℕ) (element : T.Value), (sendBuf rank)[k]? = some element →
    ∃ before, (exclusive rank)[k]? = some before ∧
      (inclusive rank)[k]? = some (op before element)

theorem fitTogether_iff {inclusive exclusive : PrefixReduction p T.Value}
    (hinclusive : inclusive.Inclusive) (hexclusive : exclusive.Exclusive)
    {policy policy' : BufferResizePolicy} {recvBuf recvBuf' scanned exscanned :
      Fin p → List T.Value}
    (hscan : scan inclusive (builtin T op) (plainArguments sendBuf policy recvBuf) =
      some scanned)
    (hexscan : exscan exclusive (builtin T op) (plainArguments sendBuf policy' recvBuf') =
      some exscanned) :
    FitTogether (op.call T) sendBuf scanned exscanned ↔
      (op.IsLogical → ∀ rank : Fin p, rank.val = 0 → ∀ element ∈ sendBuf rank,
        element = 0 ∨ element = 1) := by
  have helement : ∀ {rank : Fin p} {k : ℕ} {element : T.Value}, (sendBuf rank)[k]? = some element →
      k < (sendBuf rank).length ∧ elementsAt sendBuf k rank = element := by
    intro rank k element hget
    refine ⟨(List.getElem?_eq_some_iff.mp hget).1, ?_⟩
    rw [elementsAt, List.getD_eq_getElem?_getD, hget]
    rfl
  -- rank 0 scans its own elements only
  have hfirst : ∀ {rank : Fin p} {k : ℕ} {element : T.Value}, rank.val = 0 →
      (sendBuf rank)[k]? = some element → (scanned rank)[k]? = some element := by
    intro rank k element hzero hget
    obtain ⟨hk, rfl⟩ := helement hget
    rw [getElem?_scan hscan rank hk]
    refine congrArg some (ReductionTree.eval_of_leaves_singleton (op.call T) _ ?_)
    refine (hinclusive rank k).trans ((filter_le_perm rank).trans ?_)
    rw [List.filter_eq_nil_iff.mpr fun other _ => by
      simp only [decide_eq_true_eq, Fin.lt_def]
      omega]
    exact List.Perm.refl _
  constructor
  · intro hfit hlogical rank hzero element hmem
    obtain ⟨k, hget⟩ := List.mem_iff_getElem?.mp hmem
    obtain ⟨before, hbefore, hafter⟩ := hfit rank k element hget
    rw [getElem?_exscan hexscan rank (helement hget).1, if_pos hzero] at hbefore
    rw [hfirst hzero hget] at hafter
    obtain rfl := Option.some.inj hbefore
    exact (BuiltinOperation.call_identity_eq_iff op element).mp
      (Option.some.inj hafter).symm hlogical
  · intro htruth rank k element hget
    obtain ⟨hk, helt⟩ := helement hget
    refine ⟨_, getElem?_exscan hexscan rank hk, ?_⟩
    by_cases hzero : rank.val = 0
    · rw [hfirst hzero hget, if_pos hzero]
      refine congrArg some ((BuiltinOperation.call_identity_eq_iff op element).mpr ?_).symm
      exact fun hlogical => htruth hlogical rank hzero element (List.mem_of_getElem? hget)
    · rw [getElem?_scan hscan rank hk, if_neg hzero]
      refine congrArg some ?_
      rw [← helt]
      apply ReductionTree.eval_of_leaves_perm
      calc (inclusive.order rank k).leaves
          |>.Perm ((List.finRange p).filter fun other => other ≤ rank) := hinclusive rank k
        _ |>.Perm (((List.finRange p).filter fun other => other < rank) ++ [rank]) :=
          filter_le_perm rank
        _ |>.Perm ((exclusive.order rank k).leaves ++ [rank]) :=
          ((hexclusive rank hzero k).symm).append_right [rank]

/-- Main theorem: for every order of the evaluations, the inclusive and the exclusive scan
fit together on all ranks exactly if the operation is not logical or rank 0 scans truth
values; and the declared identity is one of a value exactly under the same condition. -/
theorem scan_fits_exscan_iff {inclusive exclusive : PrefixReduction p T.Value}
    (hinclusive : inclusive.Inclusive) (hexclusive : exclusive.Exclusive)
    {policy policy' : BufferResizePolicy} {recvBuf recvBuf' scanned exscanned :
      Fin p → List T.Value}
    (hscan : scan inclusive (builtin T op) (plainArguments sendBuf policy recvBuf) =
      some scanned)
    (hexscan : exscan exclusive (builtin T op) (plainArguments sendBuf policy' recvBuf') =
      some exscanned) :
    (FitTogether (op.call T) sendBuf scanned exscanned ↔
      (op.IsLogical → ∀ rank : Fin p, rank.val = 0 → ∀ element ∈ sendBuf rank,
        element = 0 ∨ element = 1)) ∧
    ∀ value : T.Value,
      (op.call T (op.identity T) value = value ∧ op.call T value (op.identity T) = value) ↔
        (op.IsLogical → value = 0 ∨ value = 1) := by
  refine ⟨fitTogether_iff hinclusive hexclusive hscan hexscan, fun value => ?_⟩
  rw [BuiltinOperation.call_comm op value, and_self]
  exact BuiltinOperation.call_identity_eq_iff op value

/-- `int`. -/
def int32 : IntegerType := ⟨32, true, by decide⟩

/-- The element 5 of a single rank is no truth value. -/
theorem scan_exscan_logicalAnd :
    scan ⟨fun _ _ => .leaf 0, fun _ => 0⟩ (builtin int32 .logicalAnd)
        (plainArguments (fun _ : Fin 1 => [5]) .resizeToFit fun _ => []) = some (fun _ => [5]) ∧
    exscan ⟨fun _ _ => .leaf 0, fun _ => 0⟩ (builtin int32 .logicalAnd)
        (plainArguments (fun _ : Fin 1 => [5]) .resizeToFit fun _ => []) = some (fun _ => [1]) ∧
    ¬ FitTogether (BuiltinOperation.logicalAnd.call int32) (fun _ : Fin 1 => [5])
      (fun _ => [5]) (fun _ => [1]) := by
  refine ⟨by decide, by decide, ?_⟩
  intro hfit
  obtain ⟨before, hbefore, hafter⟩ := hfit 0 0 5 rfl
  obtain rfl := Option.some.inj hbefore
  exact absurd hafter (by decide)

/-- Two ranks that multiply. -/
theorem scan_fits_exscan_multiplies :
    (FitTogether (BuiltinOperation.multiplies.call int32) ![[3], [4]] ![[3], [12]] ![[1], [3]] ↔
      (BuiltinOperation.multiplies.IsLogical → ∀ rank : Fin 2, rank.val = 0 →
        ∀ element ∈ (![[3], [4]] : Fin 2 → List int32.Value) rank,
          element = 0 ∨ element = 1)) ∧
    ∀ value : int32.Value,
      (BuiltinOperation.multiplies.call int32
          (BuiltinOperation.multiplies.identity int32) value = value ∧
        BuiltinOperation.multiplies.call int32 value
          (BuiltinOperation.multiplies.identity int32) = value) ↔
        (BuiltinOperation.multiplies.IsLogical → value = 0 ∨ value = 1) := by
  let inclusive : Fin 2 → ReductionTree (Fin 2) := fun rank =>
    if rank = 0 then .leaf 0 else .node 1 (.leaf 1) (.leaf 0)
  have hinclusive : ∀ rank, (inclusive rank).leaves.Perm
      ((List.finRange 2).filter fun other => other ≤ rank) := by decide
  have hexclusive : ∀ rank : Fin 2, rank.val ≠ 0 → (ReductionTree.leaf (0 : Fin 2)).leaves.Perm
      ((List.finRange 2).filter fun other => other < rank) := by decide
  have hscan : scan ⟨fun rank _ => inclusive rank, fun _ => 0⟩ (builtin int32 .multiplies)
      (plainArguments ![[3], [4]] .resizeToFit fun _ => []) = some ![[3], [12]] := by decide
  have hexscan : exscan ⟨fun _ _ => .leaf 0, fun _ => 0⟩ (builtin int32 .multiplies)
      (plainArguments ![[3], [4]] .resizeToFit fun _ => []) = some ![[1], [3]] := by decide
  exact scan_fits_exscan_iff (fun rank _ => hinclusive rank)
    (fun rank hrank _ => hexclusive rank hrank) hscan hexscan

end Builtin

end MpiBindings.Collectives
