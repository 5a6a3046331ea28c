import MpiBindings.Collectives.Reduce
import MpiBindings.Core.LeastElements

/-!
# Reduction to the least elements

Every rank contributes an array of `K` sorted elements, and a reduction merges two arrays into
one of the same size.  The merge drops elements, and it is neither associative nor commutative
on unsorted arrays; on sorted ones the root gets the `K` least elements of all ranks in any order
of evaluation.
-/

namespace MpiBindings.Applications

open Collectives CollectiveProgram LeastElements

/-! ## Merging -/

/-- `TopK`. -/
@[ext]
structure TopK (K : ℕ) (ValueType : Type) where
  elements : List ValueType
  length_eq : elements.length = K

namespace TopK

variable {K : ℕ} {ValueType : Type}

instance [Inhabited ValueType] : Inhabited (TopK K ValueType) :=
  ⟨⟨List.replicate K default, List.length_replicate⟩⟩

def Sorted [LinearOrder ValueType] (topK : TopK K ValueType) : Prop :=
  topK.elements.Pairwise (· ≤ ·)

variable [LinearOrder ValueType]

/-- The remaining outputs of the loop of `merge`; both positions are in range before the end. -/
def mergeLoop (lhs rhs : TopK K ValueType) :
    (remaining outputIdx lhsCurrent rhsCurrent : ℕ) → lhsCurrent + rhsCurrent = outputIdx →
      outputIdx + remaining = K → List ValueType
  | 0, _, _, _, _, _ => []
  | remaining + 1, outputIdx, lhsCurrent, rhsCurrent, hsum, hend =>
      have hlhs : lhsCurrent < lhs.elements.length := by
        rw [lhs.length_eq]
        omega
      have hrhs : rhsCurrent < rhs.elements.length := by
        rw [rhs.length_eq]
        omega
      if lhs.elements[lhsCurrent] < rhs.elements[rhsCurrent] then
        lhs.elements[lhsCurrent] ::
          mergeLoop lhs rhs remaining (outputIdx + 1) (lhsCurrent + 1) rhsCurrent (by omega)
            (by omega)
      else
        rhs.elements[rhsCurrent] ::
          mergeLoop lhs rhs remaining (outputIdx + 1) lhsCurrent (rhsCurrent + 1) (by omega)
            (by omega)

/-- The loop takes the first elements of the merge of what both arrays have left. -/
theorem mergeLoop_eq (lhs rhs : TopK K ValueType) (remaining outputIdx lhsCurrent rhsCurrent : ℕ)
    (hsum : lhsCurrent + rhsCurrent = outputIdx) (hend : outputIdx + remaining = K) :
    mergeLoop lhs rhs remaining outputIdx lhsCurrent rhsCurrent hsum hend =
      (mergeLt (lhs.elements.drop lhsCurrent) (rhs.elements.drop rhsCurrent)).take remaining := by
  induction remaining generalizing outputIdx lhsCurrent rhsCurrent with
  | zero => rfl
  | succ remaining ih =>
      have hlhs : lhsCurrent < lhs.elements.length := by
        rw [lhs.length_eq]
        omega
      have hrhs : rhsCurrent < rhs.elements.length := by
        rw [rhs.length_eq]
        omega
      rw [mergeLoop, List.drop_eq_getElem_cons hlhs, List.drop_eq_getElem_cons hrhs, mergeLt,
        List.cons_merge_cons]
      simp only [decide_eq_true_eq]
      split_ifs
      · rw [List.take_succ_cons, ih, List.drop_eq_getElem_cons hrhs, mergeLt]
      · rw [List.take_succ_cons, ih, List.drop_eq_getElem_cons hlhs, mergeLt]

theorem length_mergeLoop (lhs rhs : TopK K ValueType) :
    (mergeLoop lhs rhs K 0 0 0 rfl (Nat.zero_add K)).length = K := by
  rw [mergeLoop_eq, List.length_take, (mergeLt_perm _ _).length_eq, List.length_append,
    List.drop_zero, List.drop_zero, lhs.length_eq, rhs.length_eq]
  omega

/-- `merge`. -/
def merge (lhs rhs : TopK K ValueType) : TopK K ValueType :=
  ⟨mergeLoop lhs rhs K 0 0 0 rfl (Nat.zero_add K), length_mergeLoop lhs rhs⟩

theorem elements_merge (lhs rhs : TopK K ValueType) :
    (merge lhs rhs).elements = (mergeLt lhs.elements rhs.elements).take K :=
  mergeLoop_eq lhs rhs K 0 0 0 rfl (Nat.zero_add K)

end TopK

/-! ## Reductions -/

section Reductions

variable {p K : ℕ} {ValueType : Type} [LinearOrder ValueType] [Inhabited ValueType]

/-- The top-K reduction with the library; the root is rank 0. -/
def topK (localTopK : TopK K ValueType) (rank : Fin p) :
    MpiProgram (TopK K ValueType) (Option (TopK K ValueType)) := do
  let result ← reduce ⟨0, [localTopK], none, .resizeToFit, []⟩ rank
  pure (if (rank : ℤ) = 0 then result.head? else none)

/-- The top-K reduction with plain MPI. -/
def mpiTopK (localTopK globalTopK : TopK K ValueType) (rank : Fin p) :
    MpiProgram (TopK K ValueType) (Option (TopK K ValueType)) := do
  let result ← askBuffer (.reduce 0 1 [localTopK] [globalTopK])
  pure (if (rank : ℤ) = 0 then result.head? else none)

omit [Inhabited ValueType] in
/-- Every order of evaluation gives the least elements of the ranks that it covers. -/
theorem eval_merge (tree : ReductionTree (Fin p)) {input : Fin p → TopK K ValueType}
    (hsorted : ∀ rank, (input rank).Sorted) :
    (tree.eval TopK.merge input).elements =
      least K (tree.leaves.flatMap fun rank => (input rank).elements) := by
  refine ReductionTree.eval_invariant (P := fun leaves (result : TopK K ValueType) =>
    result.elements = least K (leaves.flatMap fun rank => (input rank).elements)) ?_ ?_ tree
  · intro rank
    rw [List.flatMap_singleton]
    exact (least_of_pairwise (hsorted rank) (input rank).length_eq.le).symm
  · intro left right lhs rhs hlhs hrhs
    rw [TopK.elements_merge, hlhs, hrhs, List.flatMap_append, least_append]

/-- The `K` least elements of all ranks. -/
def globalTopK (input : Fin p → TopK K ValueType) : List ValueType :=
  least K ((List.finRange p).flatMap fun rank => (input rank).elements)

omit [LinearOrder ValueType] in
/-- The only element of every rank is reduced. -/
theorem reduced_singletons (op : TopK K ValueType → TopK K ValueType → TopK K ValueType)
    (order : ℕ → ReductionTree (Fin p)) (input : Fin p → TopK K ValueType) :
    reduced op order (fun rank => [input rank]) 1 = [(order 0).eval op input] := rfl

/-- With sorted inputs and any order of evaluation, both reductions end on all ranks; the root
gets the `K` least elements of all ranks in their order, and the others get nothing. -/
theorem topK_reduction {order : ℕ → ReductionTree (Fin p)}
    {orderAt : Fin p → ℕ → ReductionTree (Fin p)} {lead root : Fin p} (hroot : root.val = 0)
    (horder : ∀ k, (order k).leaves.Perm (List.finRange p))
    {input : Fin p → TopK K ValueType} (hsorted : ∀ rank, (input rank).Sorted)
    (uninitialized : Fin p → TopK K ValueType) :
    ∃ top : TopK K ValueType, top.elements = globalTopK input ∧
      outcome (exchange ⟨TopK.merge, order, orderAt⟩ lead) lead
          (fun rank => topK (input rank) rank) =
        .finished (fun rank => if rank = root then some top else none) ∧
      outcome (exchange ⟨TopK.merge, order, orderAt⟩ lead) lead
          (fun rank => mpiTopK (input rank) (uninitialized rank) rank) =
        .finished fun rank => if rank = root then some top else none := by
  have hroots : ∀ _ : Fin p, (0 : ℤ) = (root : ℤ) := fun _ => by rw [hroot, Nat.cast_zero]
  have hisRoot : ∀ rank : Fin p, (rank : ℤ) = 0 ↔ rank = root := fun rank => by
    rw [hroots rank, Int.natCast_inj, Fin.ext_iff]
  refine ⟨(order 0).eval TopK.merge input, ?_, ?_, ?_⟩
  · rw [eval_merge (order 0) hsorted, globalTopK]
    exact least_perm ((horder 0).flatMap_right _) K
  · have hreduce : outcome (exchange ⟨TopK.merge, order, orderAt⟩ lead) lead
        (fun rank => reduce ⟨0, [input rank], none, .resizeToFit, []⟩ rank) = _ :=
      outcome_reduce hroots (fun _ => rfl) (fun _ => List.length_singleton) (by decide)
        fun hpolicy => by cases hpolicy
    refine (outcome_bind hreduce fun rank result => pure
      (if (rank : ℤ) = 0 then result.head? else none)).trans ((outcome_pure _).trans ?_)
    refine congrArg Outcome.finished (funext fun rank => ?_)
    simp only [hisRoot, reduced_singletons]
    split_ifs <;> rfl
  · have hexchange : exchange ⟨TopK.merge, order, orderAt⟩ lead
        (fun rank => .reduce 0 1 [input rank] [uninitialized rank]) = _ :=
      exchange_reduce hroots (fun _ => Nat.cast_one.symm) (fun _ => le_rfl) le_rfl
    refine (outcome_askBuffer hexchange fun rank result => pure
      (if (rank : ℤ) = 0 then result.head? else none)).trans ((outcome_pure _).trans ?_)
    refine congrArg Outcome.finished (funext fun rank => ?_)
    simp only [hisRoot, reduced_singletons]
    split_ifs <;> rfl

/-- Three sorted inputs. -/
def threeInputs : Fin 3 → TopK 2 ℕ := ![⟨[4, 9], rfl⟩, ⟨[1, 7], rfl⟩, ⟨[3, 5], rfl⟩]

/-- The last rank is combined first. -/
theorem topK_reduction_three :
    let lastFirst : ReductionTree (Fin 3) := .node 0 (.leaf 2) (.node 1 (.leaf 0) (.leaf 1))
    ∃ top : TopK 2 ℕ, top.elements = globalTopK threeInputs ∧
      outcome (exchange ⟨TopK.merge, fun _ => lastFirst, fun _ _ => lastFirst⟩ 0) 0
          (fun rank => topK (threeInputs rank) rank) =
        .finished (fun rank => if rank = 0 then some top else none) ∧
      outcome (exchange ⟨TopK.merge, fun _ => lastFirst, fun _ _ => lastFirst⟩ 0) 0
          (fun rank => mpiTopK (threeInputs rank) default rank) =
        .finished fun rank => if rank = 0 then some top else none := by
  intro lastFirst
  have hsorted : ∀ rank, (threeInputs rank).Sorted := by
    intro rank
    fin_cases rank <;> simp [threeInputs, TopK.Sorted]
  have horder : ∀ _ : ℕ, lastFirst.leaves.Perm (List.finRange 3) :=
    fun _ => (by decide : [2, 0, 1].Perm (List.finRange 3))
  exact topK_reduction rfl horder hsorted fun _ => default

end Reductions

end MpiBindings.Applications
