import MpiBindings.Core.ReductionTree
import MpiBindings.Operations.CustomOperations
import Mathlib.Data.Fin.VecNotation
import Mathlib.Data.List.FinRange

/-!
# Comparison of a value on all ranks

`is_same_on_all_ranks` reduces pairs of a value and a flag with a closure that is
declared commutative.  The closure keeps the value of its first operand, so it is
neither commutative nor associative on the pairs; the flag is nevertheless the same for
every order in which MPI evaluates the reduction.
-/

namespace MpiBindings.Operations

/-- The value of a rank, and whether only equal values were seen in the reduction. -/
structure ValueEqual (Value : Type) where
  value : Value
  equal : Bool
deriving DecidableEq, Repr

namespace ValueEqual

variable {Value : Type}

/-- The closure of `is_same_on_all_ranks`. -/
def combine (eq : Value → Value → Bool) (a b : ValueEqual Value) : ValueEqual Value :=
  if a.equal && b.equal && eq a.value b.value then ⟨a.value, true⟩ else ⟨a.value, false⟩

@[simp]
theorem value_combine (eq : Value → Value → Bool) (a b : ValueEqual Value) :
    (combine eq a b).value = a.value := by
  unfold combine
  split_ifs <;> rfl

@[simp]
theorem equal_combine (eq : Value → Value → Bool) (a b : ValueEqual Value) :
    (combine eq a b).equal = (a.equal && b.equal && eq a.value b.value) := by
  unfold combine
  split_ifs with hequal
  · exact hequal.symm
  · exact (Bool.not_eq_true _ ▸ hequal).symm

end ValueEqual

section Reduction

variable {ι : Type} {Value : ι → Type}

/-- The closure types of all instantiations `is_same_on_all_ranks<Value>`; the closures
capture nothing. -/
def comparisons (eq : (v : ι) → Value v → Value v → Bool) : OperationTypes ι where
  T v := ValueEqual (Value v)
  Op _ := Unit
  call v _ := ValueEqual.combine (eq v)
  construct _ := none
  commutative _ := true

/-- A closure that captures nothing. -/
def closure (eq : (v : ι) → Value v → Value v → Bool) (v : ι) : (comparisons eq).Op v := ()

variable [DecidableEq ι] {p : ℕ} (eq : (v : ι) → Value v → Value v → Bool)

/-- A rank applies the function of its operation to single elements. -/
def applyAt (before : Fin p → List (Construction (comparisons eq))) (v : ι) (site : Fin p)
    (lhs rhs : ValueEqual (Value v)) : Option (ValueEqual (Value v)) :=
  let constructed := ReduceOperation.construct (constructAll .initial (before site)) v
    (closure eq v)
  (constructed.2.callback constructed.1.op [lhs] [rhs] 1).bind List.head?

/-- `is_same_on_all_ranks` after any earlier calls, with the order in which MPI evaluates
the reduction for each rank. -/
def isSameOnAllRanks (before : Fin p → List (Construction (comparisons eq)))
    (order : Fin p → ReductionTree (Fin p)) {v : ι} (value : Fin p → Value v) (rank : Fin p) :
    Option Bool :=
  ((order rank).evalAt (applyAt eq before v) fun rank => ⟨value rank, true⟩).map (·.equal)

variable {eq}

/-- Every rank applies the closure. -/
theorem applyAt_eq_some (before : Fin p → List (Construction (comparisons eq))) (v : ι)
    (site : Fin p) (lhs rhs : ValueEqual (Value v)) :
    applyAt eq before v site lhs rhs = some (ValueEqual.combine (eq v) lhs rhs) := by
  have hcallback := callback_eq (before site) [] v (closure eq v) [lhs] [rhs] 1
  simp only [constructAll, List.foldl_nil] at hcallback
  simp only [applyAt, constructAll]
  rw [hcallback, transform_eq _ _ _ (Nat.le_refl 1) (Nat.le_refl 1)]
  rfl

/-- All values of a list of ranks are equal. -/
def AllSame {V : Type} (eq : V → V → Bool) (value : Fin p → V) (ranks : List (Fin p)) : Prop :=
  ∀ left ∈ ranks, ∀ right ∈ ranks, eq (value left) (value right) = true

variable {V : Type} {eq' : V → V → Bool} {value : Fin p → V}

theorem allSame_append (hequivalence : Equivalence fun left right => eq' left right = true)
    {left right : List (Fin p)} {first second : Fin p} (hfirst : first ∈ left)
    (hsecond : second ∈ right) :
    AllSame eq' value (left ++ right) ↔ AllSame eq' value left ∧ AllSame eq' value right ∧
      eq' (value first) (value second) = true := by
  constructor
  · intro hsame
    refine ⟨?_, ?_, ?_⟩
    · intro i hi j hj
      exact hsame i (List.mem_append_left _ hi) j (List.mem_append_left _ hj)
    · intro i hi j hj
      exact hsame i (List.mem_append_right _ hi) j (List.mem_append_right _ hj)
    · exact hsame first (List.mem_append_left _ hfirst) second
        (List.mem_append_right _ hsecond)
  · rintro ⟨hleft, hright, hbetween⟩ i hi j hj
    -- every value equals the value of the first operand
    have hall : ∀ k ∈ left ++ right, eq' (value first) (value k) = true := by
      intro k hk
      rcases List.mem_append.mp hk with hk | hk
      · exact hleft first hfirst k hk
      · exact hequivalence.trans hbetween (hright second hsecond k hk)
    exact hequivalence.trans (hequivalence.symm (hall i hi)) (hall j hj)

/-- The flag tells whether all values of the leaves are equal, and the value is the one
of some leaf. -/
theorem eval_combine (hequivalence : Equivalence fun left right => eq' left right = true)
    (tree : ReductionTree (Fin p)) :
    ((tree.eval (ValueEqual.combine eq') fun rank => ⟨value rank, true⟩).equal = true ↔
      AllSame eq' value tree.leaves) ∧
    ∃ rank ∈ tree.leaves,
      (tree.eval (ValueEqual.combine eq') fun rank => ⟨value rank, true⟩).value = value rank := by
  refine ReductionTree.eval_invariant (P := fun (leaves : List (Fin p)) (result : ValueEqual V) =>
    (result.equal = true ↔ AllSame eq' value leaves) ∧
      ∃ rank ∈ leaves, result.value = value rank) ?_ ?_ tree
  · intro rank
    refine ⟨iff_of_true rfl ?_, rank, List.mem_singleton_self rank, rfl⟩
    intro left hleft right hright
    rw [List.mem_singleton.mp hleft, List.mem_singleton.mp hright]
    exact hequivalence.refl _
  · rintro left right lhs rhs ⟨hlhs, first, hfirst, hvalue⟩ ⟨hrhs, second, hsecond, hvalue'⟩
    refine ⟨?_, first, List.mem_append_left _ hfirst, ?_⟩
    · rw [ValueEqual.equal_combine, Bool.and_eq_true, Bool.and_eq_true, hlhs, hrhs, hvalue,
        hvalue', allSame_append hequivalence hfirst hsecond, and_assoc]
    · rw [ValueEqual.value_combine, hvalue]

/-- Every rank gets the comparison of the values of all ranks. -/
theorem isSameOnAllRanks_eq_some (before : Fin p → List (Construction (comparisons eq)))
    {v : ι} (hequivalence : Equivalence fun left right => eq v left right = true)
    {order : Fin p → ReductionTree (Fin p)}
    (horder : ∀ rank, (order rank).leaves.Perm (List.finRange p)) (value : Fin p → Value v)
    (rank : Fin p) :
    isSameOnAllRanks eq before order value rank =
      some (decide (∀ left right, eq v (value left) (value right) = true)) := by
  have hmem : ∀ other, other ∈ (order rank).leaves := fun other =>
    (horder rank).mem_iff.mpr (List.mem_finRange other)
  rw [isSameOnAllRanks, ReductionTree.evalAt_eq_some (applyAt_eq_some before v), Option.map_some,
    Option.some.injEq, Bool.eq_iff_iff, (eval_combine hequivalence (order rank)).1,
    decide_eq_true_iff]
  constructor
  · intro hsame left right
    exact hsame left (hmem left) right (hmem right)
  · intro hsame left _ right _
    exact hsame left right

/-- Main theorem: on every rank the result says whether the values of all ranks are
equal, for every order of the evaluation. -/
theorem isSameOnAllRanks_correct (before : Fin p → List (Construction (comparisons eq)))
    {v : ι} (hequivalence : Equivalence fun left right => eq v left right = true)
    {order : Fin p → ReductionTree (Fin p)}
    (horder : ∀ rank, (order rank).leaves.Perm (List.finRange p)) (value : Fin p → Value v)
    (rank : Fin p) :
    ∃ same, isSameOnAllRanks eq before order value rank = some same ∧
      (same = true ↔ ∀ left right, eq v (value left) (value right) = true) :=
  ⟨_, isSameOnAllRanks_eq_some before hequivalence horder value rank, decide_eq_true_iff⟩

/-- Three ranks, each with another order of the evaluation. -/
def threeOrders : Fin 3 → ReductionTree (Fin 3) :=
  ![.node 0 (.node 1 (.leaf 2) (.leaf 0)) (.leaf 1),
    .node 2 (.leaf 0) (.node 2 (.leaf 1) (.leaf 2)),
    .node 1 (.node 0 (.leaf 1) (.leaf 2)) (.leaf 0)]

theorem isSameOnAllRanks_correct_three :
    ∃ same, isSameOnAllRanks (v := ()) (fun _ (left right : ℕ) => left == right)
        (fun _ => [⟨(), ()⟩]) threeOrders ![5, 5, 7] 0 = some same ∧
      (same = true ↔ ∀ left right : Fin 3,
        ((![5, 5, 7] : Fin 3 → ℕ) left == ![5, 5, 7] right) = true) :=
  isSameOnAllRanks_correct (v := ()) (fun _ => [⟨(), ()⟩])
    ⟨fun _ => beq_self_eq_true _, fun h => beq_iff_eq.mpr (beq_iff_eq.mp h).symm,
      fun h h' => beq_iff_eq.mpr ((beq_iff_eq.mp h).trans (beq_iff_eq.mp h'))⟩
    (by decide : ∀ rank, (threeOrders rank).leaves.Perm (List.finRange 3)) ![5, 5, 7] 0

end Reduction

end MpiBindings.Operations
