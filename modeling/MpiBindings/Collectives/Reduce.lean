import MpiBindings.Collectives.Bcast
import MpiBindings.Collectives.Gather

/-!
# The wrappers `reduce` and `allreduce`

For an associative operation, `allreduce` ends as a reduction to any root followed by a
broadcast, and it makes no difference whether the input buffer is the output buffer.
-/

namespace MpiBindings.Collectives

open CollectiveProgram

/-! ## Wrappers -/

/-- Arguments of `reduce` on one rank. -/
structure ReduceArguments (T : Type) where
  root : ℤ
  sendBuf : List T
  sendRecvCount : Option ℤ
  policy : BufferResizePolicy
  recvBuf : List T

/-- Arguments of `allreduce` on one rank. -/
structure AllreduceArguments (T : Type) where
  sendBuf : List T
  sendRecvCount : Option ℤ
  policy : BufferResizePolicy
  recvBuf : List T

section Wrappers

variable {p : ℕ} {T : Type}

/-- The count of the caller, or the size of the buffer. -/
def sendRecvCountOf (given : Option ℤ) (size : ℕ) : MpiProgram T ℤ :=
  match sendCountOf given size with
  | some count => pure count
  | none => .fail

/-- `allreduce_inplace`. -/
def allreduceInplace (sendRecvBuf : List T) (sendRecvCount : Option ℤ) :
    MpiProgram T (List T) := do
  let count ← sendRecvCountOf sendRecvCount sendRecvBuf.length
  assertSameOnAllRanks count
  assert (0 ≤ count ∧ count.toNat ≤ sendRecvBuf.length)
  askBuffer (.allreduce count none sendRecvBuf)

variable [Inhabited T]

/-- `reduce`. -/
def reduce (args : ReduceArguments T) (rank : Fin p) : MpiProgram T (List T) := do
  let count ← sendRecvCountOf args.sendRecvCount args.sendBuf.length
  assertSameOnAllRanks count
  assert (0 ≤ args.root ∧ args.root < p)
  assertSameOnAllRanks args.root
  let recvBuf := if (rank : ℤ) = args.root then
    args.policy.resizeIfRequested count.toNat default args.recvBuf else args.recvBuf
  assert ((rank : ℤ) = args.root → 0 ≤ count ∧ count.toNat ≤ recvBuf.length)
  askBuffer (.reduce args.root count args.sendBuf recvBuf)

/-- `reduce_single`. -/
def reduceSingle (root : ℤ) (value : T) (rank : Fin p) : MpiProgram T (Option T) :=
  if (rank : ℤ) = root then do
    let recvBuf ← reduce ⟨root, [value], none, .noResize, [default]⟩ rank
    pure recvBuf.head?
  else do
    let _ ← reduce ⟨root, [value], none, .resizeToFit, []⟩ rank
    pure none

/-- `allreduce` with a send buffer. -/
def allreduce (args : AllreduceArguments T) : MpiProgram T (List T) := do
  let count ← sendRecvCountOf args.sendRecvCount args.sendBuf.length
  assertSameOnAllRanks count
  let recvBuf := args.policy.resizeIfRequested count.toNat default args.recvBuf
  assert (0 ≤ count ∧ count.toNat ≤ recvBuf.length)
  askBuffer (.allreduce count (some args.sendBuf) recvBuf)

/-- `allreduce_single`. -/
def allreduceSingle (value : T) : MpiProgram T (Option T) := do
  let recvBuf ← allreduce ⟨[value], none, .noResize, [default]⟩
  pure recvBuf.head?

end Wrappers

/-! ## Reduced elements -/

section Reduced

variable {p : ℕ} {T : Type} [Inhabited T]

/-- Every order of evaluation covers all ranks, and those of an operation that is not
commutative keep their order. -/
structure Reduction.Ordered (reduction : Reduction p T) (commutative : Prop) : Prop where
  order : ∀ k, (reduction.order k).leaves.Perm (List.finRange p)
  orderAt : ∀ rank k, (reduction.orderAt rank k).leaves.Perm (List.finRange p)
  order_eq : ¬ commutative → ∀ k, (reduction.order k).leaves = List.finRange p
  orderAt_eq : ¬ commutative → ∀ rank k, (reduction.orderAt rank k).leaves = List.finRange p

/-- The combination of the elements of all ranks at a position, in the order of the ranks. -/
def combined (op : T → T → T) (sendBufs : Fin p → List T) (k : ℕ) : Option T :=
  ReductionTree.total op ((List.finRange p).map fun rank => (sendBufs rank).getD k default)

theorem eval_eq_combined {op : T → T → T} [Std.Associative op] {commutative : Prop}
    (hcommutative : commutative → Std.Commutative op) {tree : ReductionTree (Fin p)}
    (hperm : tree.leaves.Perm (List.finRange p))
    (heq : ¬ commutative → tree.leaves = List.finRange p) (sendBufs : Fin p → List T) (k : ℕ) :
    some (tree.eval op fun rank => (sendBufs rank).getD k default) = combined op sendBufs k := by
  rw [combined, ← ReductionTree.total_leaves]
  by_cases hcomm : commutative
  · have := hcommutative hcomm
    exact ReductionTree.total_perm op (hperm.map _)
  · rw [heq hcomm]

theorem getElem?_reduced {op : T → T → T} [Std.Associative op] {commutative : Prop}
    (hcommutative : commutative → Std.Commutative op) {order : ℕ → ReductionTree (Fin p)}
    (hperm : ∀ k, (order k).leaves.Perm (List.finRange p))
    (heq : ¬ commutative → ∀ k, (order k).leaves = List.finRange p)
    (sendBufs : Fin p → List T) (count k : ℕ) :
    (reduced op order sendBufs count)[k]? = if k < count then combined op sendBufs k else none := by
  rw [reduced, List.getElem?_map]
  split_ifs with hk
  · rw [List.getElem?_range hk, Option.map_some]
    exact eval_eq_combined hcommutative (hperm k) (fun hnot => heq hnot k) sendBufs k
  · rw [List.getElem?_eq_none (by simpa using hk), Option.map_none]

end Reduced

/-! ## Rules -/

section Rules

variable {p : ℕ} {T : Type}

theorem sendRecvCountOf_none {size : ℕ} (hsize : size < 2 ^ 31) :
    (sendRecvCountOf none size : MpiProgram T ℤ) = pure (size : ℤ) := by
  simp only [sendRecvCountOf, sendCountOf, if_pos hsize]

variable [Inhabited T] {reduction : Reduction p T} {lead root : Fin p}

theorem exchange_reduce {roots counts : Fin p → ℤ} {sendBufs recvBufs : Fin p → List T}
    {count : ℕ} (hroots : ∀ rank, roots rank = (root : ℤ)) (hcounts : ∀ rank, counts rank = count)
    (hsend : ∀ rank, count ≤ (sendBufs rank).length) (hrecv : count ≤ (recvBufs root).length) :
    exchange reduction lead
        (fun rank => .reduce (roots rank) (counts rank) (sendBufs rank) (recvBufs rank)) =
      some fun rank => .buffer (if rank = root then
        overwrite (reduced reduction.op reduction.order sendBufs count) (recvBufs rank)
      else recvBufs rank) := by
  have hcalls : allRanks (fun rank =>
      (MpiCall.reduce (roots rank) (counts rank) (sendBufs rank) (recvBufs rank)).reduce?) =
        some fun rank => (roots rank, counts rank, sendBufs rank, recvBufs rank) :=
    allRanks_eq_some.mpr fun rank => rfl
  have hall : (∀ rank, counts rank = counts root ∧ 0 ≤ counts rank ∧
      counts rank ≤ (sendBufs rank).length) ∧ counts root ≤ (recvBufs root).length := by
    refine ⟨fun rank => ?_, ?_⟩
    · rw [hcounts, hcounts]
      exact ⟨rfl, Int.natCast_nonneg count, Int.ofNat_le.mpr (hsend rank)⟩
    · rw [hcounts]
      exact Int.ofNat_le.mpr hrecv
  have hreduce : mpiReduce reduction roots counts sendBufs recvBufs =
      some fun rank => if rank = root then
        overwrite (reduced reduction.op reduction.order sendBufs count) (recvBufs rank)
      else recvBufs rank := by
    rw [mpiReduce, commonRoot_eq_some hroots, Option.bind_eq_bind, Option.bind_some, if_pos hall,
      hcounts, Int.toNat_natCast]
  simp only [exchange, hcalls, Option.bind_eq_bind, Option.bind_some, hreduce]

theorem exchange_allreduce {counts : Fin p → ℤ} {sendBufs : Fin p → Option (List T)}
    {recvBufs : Fin p → List T} {count : ℕ} (hcounts : ∀ rank, counts rank = count)
    (hinplace : ∀ rank other, (sendBufs rank).isSome = (sendBufs other).isSome)
    (hsend : ∀ rank, count ≤ ((sendBufs rank).getD (recvBufs rank)).length)
    (hrecv : ∀ rank, count ≤ (recvBufs rank).length) :
    exchange reduction lead
        (fun rank => .allreduce (counts rank) (sendBufs rank) (recvBufs rank)) =
      some fun rank => .buffer (overwrite (reduced reduction.op (reduction.orderAt rank)
        (fun other => (sendBufs other).getD (recvBufs other)) count) (recvBufs rank)) := by
  have hcalls : allRanks (fun rank =>
      (MpiCall.allreduce (counts rank) (sendBufs rank) (recvBufs rank)).allreduce?) =
        some fun rank => (counts rank, sendBufs rank, recvBufs rank) :=
    allRanks_eq_some.mpr fun rank => rfl
  have hall : ∀ rank other, counts rank = counts other ∧
      (sendBufs rank).isSome = (sendBufs other).isSome ∧ 0 ≤ counts rank ∧
      counts rank ≤ ((sendBufs rank).getD (recvBufs rank)).length ∧
      counts rank ≤ (recvBufs rank).length := fun rank other => by
    rw [hcounts, hcounts]
    exact ⟨rfl, hinplace rank other, Int.natCast_nonneg count, Int.ofNat_le.mpr (hsend rank),
      Int.ofNat_le.mpr (hrecv rank)⟩
  have hallreduce : mpiAllreduce reduction counts sendBufs recvBufs =
      some fun rank => overwrite (reduced reduction.op (reduction.orderAt rank)
        (fun other => (sendBufs other).getD (recvBufs other)) count) (recvBufs rank) := by
    rw [mpiAllreduce, if_pos hall]
    simp only [hcounts, Int.toNat_natCast]
  simp only [exchange, hcalls, Option.bind_eq_bind, Option.bind_some, hallreduce]

/-- The receive buffer of a rank before `MPI_Reduce`. -/
def ReduceArguments.prepared (args : ReduceArguments T) (count : ℕ) (rank : Fin p) : List T :=
  if (rank : ℤ) = args.root then args.policy.resizeIfRequested count default args.recvBuf
  else args.recvBuf

theorem reduce_eq {args : ReduceArguments T} (hnone : args.sendRecvCount = none)
    (hsize : args.sendBuf.length < 2 ^ 31) (rank : Fin p) :
    reduce args rank =
      assertSameOnAllRanks args.sendBuf.length >>= fun _ =>
        assert (0 ≤ args.root ∧ args.root < p) >>= fun _ =>
          assertSameOnAllRanks args.root >>= fun _ =>
            assert ((rank : ℤ) = args.root → 0 ≤ (args.sendBuf.length : ℤ) ∧
              args.sendBuf.length ≤ (args.prepared args.sendBuf.length rank).length) >>= fun _ =>
                askBuffer (.reduce args.root args.sendBuf.length args.sendBuf
                  (args.prepared args.sendBuf.length rank)) := by
  simp only [reduce, hnone, sendRecvCountOf_none hsize, pure_bind, Int.toNat_natCast]
  rfl

/-- The root gets the combined elements, and the buffers of the other ranks are kept. -/
theorem outcome_reduce {args : Fin p → ReduceArguments T} {count : ℕ}
    (hroots : ∀ rank, (args rank).root = (root : ℤ))
    (hnone : ∀ rank, (args rank).sendRecvCount = none)
    (hlength : ∀ rank, (args rank).sendBuf.length = count) (hsize : count < 2 ^ 31)
    (hroom : (args root).policy = .noResize → count ≤ (args root).recvBuf.length) :
    outcome (exchange reduction lead) lead (fun rank => reduce (args rank) rank) =
      .finished fun rank => if rank = root then
        overwrite (reduced reduction.op reduction.order (fun rank => (args rank).sendBuf) count)
          ((args rank).policy.resizeIfRequested count default (args rank).recvBuf)
      else (args rank).recvBuf := by
  have hisRoot : ∀ {rank : Fin p}, (rank : ℤ) = (args rank).root ↔ rank = root := by
    intro rank
    rw [hroots, Int.natCast_inj, Fin.ext_iff]
  have hvalid : ∀ rank, 0 ≤ (args rank).root ∧ (args rank).root < p := fun rank => by
    rw [hroots]
    have := root.isLt
    omega
  have hprepared : ∀ rank, (args rank).prepared count rank = if rank = root then
      (args rank).policy.resizeIfRequested count default (args rank).recvBuf
      else (args rank).recvBuf := fun rank => by
    rw [ReduceArguments.prepared]
    simp only [hisRoot]
  have hfits : ∀ rank : Fin p, (rank : ℤ) = (args rank).root →
      0 ≤ ((args rank).sendBuf.length : ℤ) ∧
      (args rank).sendBuf.length ≤
        ((args rank).prepared (args rank).sendBuf.length rank).length := fun rank hrank => by
    obtain rfl := hisRoot.mp hrank
    rw [hlength, hprepared, if_pos rfl]
    exact ⟨Int.natCast_nonneg count, BufferResizePolicy.le_length_resizeIfRequested hroom⟩
  have hsize' : ∀ rank, (args rank).sendBuf.length < 2 ^ 31 := fun rank => by rwa [hlength]
  have hexchange : exchange reduction lead (fun rank => .reduce (args rank).root
      (args rank).sendBuf.length (args rank).sendBuf
      ((args rank).prepared (args rank).sendBuf.length rank)) = _ :=
    exchange_reduce hroots (fun rank => congrArg Nat.cast (hlength rank))
      (fun rank => (hlength rank).ge) (hlength root ▸ (hfits root (hisRoot.mpr rfl)).2)
  rw [funext fun rank => reduce_eq (hnone rank) (hsize' rank) rank,
    outcome_assertSame fun rank other => by rw [hlength, hlength], outcome_assert hvalid,
    outcome_assertSame fun rank other => (hroots rank).trans (hroots other).symm,
    outcome_assert hfits]
  refine (outcome_askBuffer_last hexchange).trans
    (congrArg Outcome.finished (funext fun rank => ?_))
  rw [hlength, hprepared]
  split_ifs <;> rfl

/-- If the ranks contribute different numbers of elements, they fail. -/
theorem outcome_reduce_failed {args : Fin p → ReduceArguments T}
    (hnone : ∀ rank, (args rank).sendRecvCount = none)
    (hsize : ∀ rank, (args rank).sendBuf.length < 2 ^ 31)
    (hdiffer : ¬ ∀ rank other, (args rank).sendBuf.length = (args other).sendBuf.length) :
    outcome (exchange reduction lead) lead (fun rank => reduce (args rank) rank) = .failed := by
  rw [funext fun rank => reduce_eq (hnone rank) (hsize rank) rank]
  exact outcome_assertSame_failed
    (fun hsame => hdiffer fun rank other => Int.natCast_inj.mp (hsame rank other)) _

theorem allreduce_eq {args : AllreduceArguments T} (hnone : args.sendRecvCount = none)
    (hsize : args.sendBuf.length < 2 ^ 31) :
    allreduce args =
      assertSameOnAllRanks args.sendBuf.length >>= fun _ =>
        assert (0 ≤ (args.sendBuf.length : ℤ) ∧ args.sendBuf.length ≤
          (args.policy.resizeIfRequested args.sendBuf.length default args.recvBuf).length) >>=
            fun _ => askBuffer (.allreduce args.sendBuf.length (some args.sendBuf)
              (args.policy.resizeIfRequested args.sendBuf.length default args.recvBuf)) := by
  simp only [allreduce, hnone, sendRecvCountOf_none hsize, pure_bind, Int.toNat_natCast]

theorem outcome_allreduce {args : Fin p → AllreduceArguments T} {count : ℕ}
    (hnone : ∀ rank, (args rank).sendRecvCount = none)
    (hlength : ∀ rank, (args rank).sendBuf.length = count) (hsize : count < 2 ^ 31)
    (hroom : ∀ rank, (args rank).policy = .noResize → count ≤ (args rank).recvBuf.length) :
    outcome (exchange reduction lead) lead (fun rank => allreduce (args rank)) =
      .finished fun rank => overwrite
        (reduced reduction.op (reduction.orderAt rank) (fun other => (args other).sendBuf) count)
        ((args rank).policy.resizeIfRequested count default (args rank).recvBuf) := by
  have hsize' : ∀ rank, (args rank).sendBuf.length < 2 ^ 31 := fun rank => by rwa [hlength]
  have hfits : ∀ rank, (args rank).sendBuf.length ≤ ((args rank).policy.resizeIfRequested
      (args rank).sendBuf.length default (args rank).recvBuf).length := fun rank => by
    rw [hlength]
    exact BufferResizePolicy.le_length_resizeIfRequested (hroom rank)
  have hexchange : exchange reduction lead (fun rank => .allreduce (args rank).sendBuf.length
      (some (args rank).sendBuf) ((args rank).policy.resizeIfRequested
        (args rank).sendBuf.length default (args rank).recvBuf)) = _ :=
    exchange_allreduce (fun rank => congrArg Nat.cast (hlength rank)) (fun _ _ => rfl)
      (fun rank => (hlength rank).ge) fun rank => (hlength rank).ge.trans (hfits rank)
  rw [funext fun rank => allreduce_eq (hnone rank) (hsize' rank),
    outcome_assertSame fun rank other => by rw [hlength, hlength],
    outcome_assert fun rank => ⟨Int.natCast_nonneg _, hfits rank⟩]
  refine (outcome_askBuffer_last hexchange).trans
    (congrArg Outcome.finished (funext fun rank => ?_))
  rw [hlength]
  rfl

theorem outcome_allreduce_failed {args : Fin p → AllreduceArguments T}
    (hnone : ∀ rank, (args rank).sendRecvCount = none)
    (hsize : ∀ rank, (args rank).sendBuf.length < 2 ^ 31)
    (hdiffer : ¬ ∀ rank other, (args rank).sendBuf.length = (args other).sendBuf.length) :
    outcome (exchange reduction lead) lead (fun rank => allreduce (args rank)) = .failed := by
  rw [funext fun rank => allreduce_eq (hnone rank) (hsize rank)]
  exact outcome_assertSame_failed
    (fun hsame => hdiffer fun rank other => Int.natCast_inj.mp (hsame rank other)) _

omit [Inhabited T] in
theorem allreduceInplace_eq {sendRecvBuf : List T} (hsize : sendRecvBuf.length < 2 ^ 31) :
    allreduceInplace sendRecvBuf none =
      assertSameOnAllRanks sendRecvBuf.length >>= fun _ =>
        assert (0 ≤ (sendRecvBuf.length : ℤ) ∧ sendRecvBuf.length ≤ sendRecvBuf.length) >>= fun _ =>
          askBuffer (.allreduce sendRecvBuf.length none sendRecvBuf) := by
  simp only [allreduceInplace, sendRecvCountOf_none hsize, pure_bind, Int.toNat_natCast]

theorem outcome_allreduceInplace {sendRecvBuf : Fin p → List T} {count : ℕ}
    (hlength : ∀ rank, (sendRecvBuf rank).length = count) (hsize : count < 2 ^ 31) :
    outcome (exchange reduction lead) lead (fun rank => allreduceInplace (sendRecvBuf rank) none) =
      .finished fun rank =>
        reduced reduction.op (reduction.orderAt rank) sendRecvBuf count := by
  have hsize' : ∀ rank, (sendRecvBuf rank).length < 2 ^ 31 := fun rank => by rwa [hlength]
  have hexchange : exchange reduction lead
      (fun rank => .allreduce (sendRecvBuf rank).length none (sendRecvBuf rank)) = _ :=
    exchange_allreduce (fun rank => congrArg Nat.cast (hlength rank)) (fun _ _ => rfl)
      (fun rank => (hlength rank).ge) fun rank => (hlength rank).ge
  rw [funext fun rank => allreduceInplace_eq (hsize' rank),
    outcome_assertSame fun rank other => by rw [hlength, hlength],
    outcome_assert fun _ => ⟨Int.natCast_nonneg _, le_rfl⟩]
  refine (outcome_askBuffer_last hexchange).trans
    (congrArg Outcome.finished (funext fun rank => ?_))
  refine overwrite_eq ?_
  rw [hlength, reduced, List.length_map, List.length_range]

theorem outcome_allreduceInplace_failed {sendRecvBuf : Fin p → List T}
    (hsize : ∀ rank, (sendRecvBuf rank).length < 2 ^ 31)
    (hdiffer : ¬ ∀ rank other, (sendRecvBuf rank).length = (sendRecvBuf other).length) :
    outcome (exchange reduction lead) lead (fun rank => allreduceInplace (sendRecvBuf rank) none) =
      .failed := by
  rw [funext fun rank => allreduceInplace_eq (hsize rank)]
  exact outcome_assertSame_failed
    (fun hsame => hdiffer fun rank other => Int.natCast_inj.mp (hsame rank other)) _

end Rules

/-! ## Main result -/

section Main

variable {p : ℕ} {T : Type} [Inhabited T] {reduction : Reduction p T} {lead : Fin p}

/-- A reduction to a root and a broadcast of its result. -/
def reduceThenBcast (root : ℤ) (sendBuf recvBuf : List T) (rank : Fin p) :
    MpiProgram T (List T) := do
  let recvBuf ← reduce ⟨root, sendBuf, none, .resizeToFit, recvBuf⟩ rank
  let result ← bcast ⟨root, some ⟨recvBuf, .resizeToFit, true⟩, none⟩ rank
  pure result.recvBuf

theorem outcome_reduceThenBcast {sendBuf recvBuf : Fin p → List T} (root : Fin p) {count : ℕ}
    (hlength : ∀ rank, (sendBuf rank).length = count) (hsize : count < 2 ^ 31) :
    outcome (exchange reduction lead) lead
        (fun rank => reduceThenBcast root (sendBuf rank) (recvBuf rank) rank) =
      .finished fun _ => reduced reduction.op reduction.order sendBuf count := by
  let reduceArgs (rank : Fin p) : ReduceArguments T :=
    ⟨root, sendBuf rank, none, .resizeToFit, recvBuf rank⟩
  have hreduce : outcome (exchange reduction lead) lead
      (fun rank => reduce (reduceArgs rank) rank) = _ :=
    outcome_reduce (fun _ => rfl) (fun _ => rfl) hlength hsize fun hpolicy => by cases hpolicy
  have hresult : (reduced reduction.op reduction.order sendBuf count).length = count := by
    rw [reduced, List.length_map, List.length_range]
  let buffers (rank : Fin p) : List T :=
    if rank = root then
      overwrite (reduced reduction.op reduction.order sendBuf count)
        (resizeVector count default (recvBuf rank))
    else recvBuf rank
  have hroot : buffers root = reduced reduction.op reduction.order sendBuf count := by
    dsimp only [buffers]
    rw [if_pos rfl, overwrite_eq]
    rw [length_resizeVector, hresult]
  have hbcast : outcome (exchange reduction lead) lead
      (fun rank => bcast ⟨root, some ⟨buffers rank, .resizeToFit, true⟩, none⟩ rank) = _ :=
    outcome_bcast_fitted (by rwa [hroot, hresult])
  have hprograms : (fun rank => reduceThenBcast root (sendBuf rank) (recvBuf rank) rank) =
      fun rank => reduce (reduceArgs rank) rank >>= fun recvBuf =>
        bcast ⟨root, some ⟨recvBuf, .resizeToFit, true⟩, none⟩ rank >>= fun result =>
          pure result.recvBuf := rfl
  rw [hprograms, outcome_bind hreduce]
  refine (outcome_bind hbcast fun _ result => pure result.recvBuf).trans ((outcome_pure _).trans ?_)
  exact congrArg Outcome.finished (funext fun _ => hroot)

theorem outcome_reduceThenBcast_failed {sendBuf recvBuf : Fin p → List T} (root : Fin p)
    (hsize : ∀ rank, (sendBuf rank).length < 2 ^ 31)
    (hdiffer : ¬ ∀ rank other, (sendBuf rank).length = (sendBuf other).length) :
    outcome (exchange reduction lead) lead
        (fun rank => reduceThenBcast root (sendBuf rank) (recvBuf rank) rank) = .failed :=
  outcome_bind_failed (outcome_reduce_failed (fun _ => rfl) hsize hdiffer) _

/-- Every rank gets the combined values. -/
theorem outcome_allreduceSingle [Std.Associative reduction.op] {commutative : Prop}
    (hcommutative : commutative → Std.Commutative reduction.op)
    (hordered : reduction.Ordered commutative) (values : Fin p → T) :
    outcome (exchange reduction lead) lead (fun rank => allreduceSingle (values rank)) =
      .finished fun _ => ReductionTree.total reduction.op ((List.finRange p).map values) := by
  have hallreduce : outcome (exchange reduction lead) lead
      (fun rank => allreduce ⟨[values rank], none, .noResize, [default]⟩) = _ :=
    outcome_allreduce (fun _ => rfl) (fun _ => rfl) (Nat.one_lt_two_pow (by decide))
      fun _ _ => le_rfl
  have hprograms : (fun rank => allreduceSingle (values rank)) = fun rank =>
      allreduce ⟨[values rank], none, .noResize, [default]⟩ >>= fun recvBuf =>
        pure recvBuf.head? := rfl
  rw [hprograms, outcome_bind hallreduce]
  refine (outcome_pure _).trans (congrArg Outcome.finished (funext fun rank => ?_))
  exact eval_eq_combined hcommutative (hordered.orderAt rank 0)
    (fun hnot => hordered.orderAt_eq hnot rank 0) (fun other => [values other]) 0

theorem sums_ordered : (sums 0 1 2).Ordered True :=
  ⟨fun _ => (by decide : [0, 1, 2].Perm (List.finRange 3)),
    fun _ _ => (by decide : [0, 1, 2].Perm (List.finRange 3)),
    fun hnot => absurd trivial hnot, fun hnot => absurd trivial hnot⟩

/-- Only the root gets the combined value. -/
theorem outcome_reduceSingle [Std.Associative reduction.op] {commutative : Prop}
    (hcommutative : commutative → Std.Commutative reduction.op)
    (hordered : reduction.Ordered commutative) (root : Fin p) (values : Fin p → T) :
    outcome (exchange reduction lead) lead (fun rank => reduceSingle root (values rank) rank) =
      .finished fun rank => if rank = root then
        ReductionTree.total reduction.op ((List.finRange p).map values) else none := by
  let args (rank : Fin p) : ReduceArguments T :=
    if rank = root then ⟨root, [values rank], none, .noResize, [default]⟩
    else ⟨root, [values rank], none, .resizeToFit, []⟩
  have hargs : ∀ {rank}, (args rank).root = (root : ℤ) ∧ (args rank).sendBuf = [values rank] ∧
      (args rank).sendRecvCount = none := by
    intro rank
    dsimp only [args]
    split <;> exact ⟨rfl, rfl, rfl⟩
  have hroot : args root = ⟨root, [values root], none, .noResize, [default]⟩ := if_pos rfl
  have hreduce : outcome (exchange reduction lead) lead (fun rank => reduce (args rank) rank) = _ :=
    outcome_reduce (fun _ => hargs.1) (fun _ => hargs.2.2) (fun _ => by rw [hargs.2.1]; rfl)
      (Nat.one_lt_two_pow (by decide)) fun _ => by rw [hroot]; exact le_rfl
  have hprograms : (fun rank => reduceSingle root (values rank) rank) = fun rank =>
      reduce (args rank) rank >>= fun recvBuf =>
        pure (if rank = root then recvBuf.head? else none) := by
    funext rank
    have hiff : (rank : ℤ) = (root : ℤ) ↔ rank = root := by rw [Nat.cast_inj, Fin.ext_iff]
    dsimp only [reduceSingle, args]
    by_cases hrank : rank = root
    · simp only [if_pos hrank, if_pos (hiff.mpr hrank)]
    · simp only [if_neg hrank, if_neg (hiff.not.mpr hrank)]
  rw [hprograms, outcome_bind hreduce]
  refine (outcome_pure _).trans (congrArg Outcome.finished (funext fun rank => ?_))
  split_ifs with hrank
  · have hsendBuf : (fun rank => (args rank).sendBuf) = fun rank => [values rank] :=
      funext fun _ => hargs.2.1
    rw [hrank, hroot, hsendBuf]
    exact eval_eq_combined hcommutative (hordered.order 0) (fun hnot => hordered.order_eq hnot 0)
      (fun other => [values other]) 0
  · rfl

/-- A reduction of single values to a root and a broadcast of its result. -/
def reduceThenBcastSingle (root : ℤ) (value : T) (rank : Fin p) : MpiProgram T T := do
  let reduced ← reduceSingle root value rank
  bcastSingle ⟨root, reduced, true⟩ rank

/-- Where `allreduce_single` returns the combined value on all ranks, `reduce_single` returns it
on the root only, and a broadcast of the value that the root got returns it on all ranks. -/
theorem allreduceSingle_agrees [Std.Associative reduction.op] {commutative : Prop}
    (hcommutative : commutative → Std.Commutative reduction.op)
    (hordered : reduction.Ordered commutative) (root : Fin p) (values : Fin p → T) :
    ∃ value, ReductionTree.total reduction.op ((List.finRange p).map values) = some value ∧
      outcome (exchange reduction lead) lead (fun rank => allreduceSingle (values rank)) =
        .finished (fun _ => some value) ∧
      outcome (exchange reduction lead) lead
        (fun rank => reduceSingle root (values rank) rank) =
          .finished (fun rank => if rank = root then some value else none) ∧
      outcome (exchange reduction lead) lead
        (fun rank => reduceThenBcastSingle root (values rank) rank) =
          .finished fun _ => value := by
  obtain ⟨value, hvalue⟩ : ∃ value,
      ReductionTree.total reduction.op ((List.finRange p).map values) = some value :=
    ⟨_, (eval_eq_combined hcommutative (hordered.order 0) (fun hnot => hordered.order_eq hnot 0)
      (fun other => [values other]) 0).symm⟩
  have hreduce : outcome (exchange reduction lead) lead
      (fun rank => reduceSingle root (values rank) rank) =
        .finished fun rank => if rank = root then some value else none := by
    rw [← hvalue]
    exact outcome_reduceSingle hcommutative hordered root values
  refine ⟨value, hvalue, ?_, hreduce, ?_⟩
  · rw [← hvalue]
    exact outcome_allreduceSingle hcommutative hordered values
  · exact (outcome_bind hreduce fun rank reduced => bcastSingle ⟨root, reduced, true⟩ rank).trans
      (outcome_bcastSingle (fun _ => rfl) (fun _ _ _ => rfl) (if_pos rfl))

theorem allreduceSingle_agrees_three :
    ∃ value, ReductionTree.total (· + ·) ((List.finRange 3).map Fin.val) = some value ∧
      outcome (exchange (sums 0 1 2) 0) 0 (fun rank => allreduceSingle rank.val) =
        .finished (fun _ => some value) ∧
      outcome (exchange (sums 0 1 2) 0) 0
        (fun rank => reduceSingle (2 : Fin 3) rank.val rank) =
          .finished (fun rank => if rank = 2 then some value else none) ∧
      outcome (exchange (sums 0 1 2) 0) 0
        (fun rank => reduceThenBcastSingle (2 : Fin 3) rank.val rank) =
          .finished fun _ => value := by
  have hassoc : Std.Associative (sums 0 1 2).op := ⟨Nat.add_assoc⟩
  have hcomm : True → Std.Commutative (sums 0 1 2).op := fun _ => ⟨Nat.add_comm⟩
  exact allreduceSingle_agrees hcomm sums_ordered 2 Fin.val

/-- For an associative operation and any orders of evaluation, `allreduce`, `allreduce_inplace`
and a reduction to any root with a broadcast of its result end alike: with the combined elements
on all ranks, or with a failure of all ranks if they contribute different numbers of elements. -/
theorem allreduce_agrees [Std.Associative reduction.op] {commutative : Prop}
    (hcommutative : commutative → Std.Commutative reduction.op)
    (hordered : reduction.Ordered commutative) (root : Fin p) {sendBuf recvBuf : Fin p → List T}
    (hsize : ∀ rank, (sendBuf rank).length < 2 ^ 31) :
    ∃ ending : Outcome p (List T),
      outcome (exchange reduction lead) lead
        (fun rank => allreduce ⟨sendBuf rank, none, .resizeToFit, recvBuf rank⟩) = ending ∧
      outcome (exchange reduction lead) lead
        (fun rank => allreduceInplace (sendBuf rank) none) = ending ∧
      outcome (exchange reduction lead) lead
        (fun rank => reduceThenBcast root (sendBuf rank) (recvBuf rank) rank) = ending ∧
      if ∀ rank other, (sendBuf rank).length = (sendBuf other).length then
        ∃ result, (ending = .finished fun _ => result) ∧
          ∀ k, result[k]? =
            if k < (sendBuf root).length then combined reduction.op sendBuf k else none
      else ending = .failed := by
  by_cases hsame : ∀ rank other, (sendBuf rank).length = (sendBuf other).length
  · have hlength : ∀ rank, (sendBuf rank).length = (sendBuf root).length := fun rank =>
      hsame rank root
    have hresult := getElem?_reduced hcommutative hordered.order hordered.order_eq sendBuf
      (sendBuf root).length
    have hat : ∀ rank, reduced reduction.op (reduction.orderAt rank) sendBuf (sendBuf root).length =
        reduced reduction.op reduction.order sendBuf (sendBuf root).length := fun rank => by
      ext1 k
      rw [hresult, getElem?_reduced hcommutative (hordered.orderAt rank)
        fun hnot => hordered.orderAt_eq hnot rank]
    refine ⟨_, ?_, ?_, outcome_reduceThenBcast root hlength (hsize root), ?_⟩
    · refine (outcome_allreduce (fun _ => rfl) hlength (hsize root)
        fun _ hpolicy => by cases hpolicy).trans (congrArg Outcome.finished (funext fun rank => ?_))
      refine (overwrite_eq ?_).trans (hat rank)
      rw [BufferResizePolicy.resizeIfRequested, length_resizeVector, reduced, List.length_map,
        List.length_range]
    · exact (outcome_allreduceInplace hlength (hsize root)).trans
        (congrArg Outcome.finished (funext hat))
    · rw [if_pos hsame]
      exact ⟨_, rfl, hresult⟩
  · refine ⟨.failed, outcome_allreduce_failed (fun _ => rfl) hsize hsame,
      outcome_allreduceInplace_failed hsize hsame,
      outcome_reduceThenBcast_failed root hsize hsame, ?_⟩
    rw [if_neg hsame]

/-- Three ranks with two elements each. -/
def threeContributions : Fin 3 → List ℕ := ![[1, 10], [2, 20], [3, 30]]

theorem allreduce_agrees_three :
    ∃ ending : Outcome 3 (List ℕ),
      outcome (exchange (sums 0 1 2) 0) 0
        (fun rank => allreduce ⟨threeContributions rank, none, .resizeToFit, []⟩) = ending ∧
      outcome (exchange (sums 0 1 2) 0) 0
        (fun rank => allreduceInplace (threeContributions rank) none) = ending ∧
      outcome (exchange (sums 0 1 2) 0) 0
        (fun rank => reduceThenBcast (1 : Fin 3) (threeContributions rank) [] rank) = ending ∧
      if ∀ rank other, (threeContributions rank).length = (threeContributions other).length then
        ∃ result, (ending = .finished fun _ => result) ∧
          ∀ k, result[k]? =
            if k < (threeContributions 1).length then combined (· + ·) threeContributions k
            else none
      else ending = .failed := by
  have hassoc : Std.Associative (sums 0 1 2).op := ⟨Nat.add_assoc⟩
  have hcomm : True → Std.Commutative (sums 0 1 2).op := fun _ => ⟨Nat.add_comm⟩
  exact allreduce_agrees hcomm sums_ordered 1 (by decide)

end Main

end MpiBindings.Collectives
