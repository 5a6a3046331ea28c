import Mathlib.Data.List.Perm.Basic
import Mathlib.Data.Option.Basic

/-!
# Reduction trees

A reduction combines the values of some indices by a binary operation.  The order of
the evaluation is a binary tree: the leaves are the indices, and every inner node is
one application of the operation, carried out at a site.  An invariant that relates a
result to the leaves it covers holds of every evaluation; for an associative and
commutative operation all trees over the same leaves give the same result.
-/

namespace MpiBindings

/-- An order of evaluation: leaves, and applications at sites. -/
inductive ReductionTree (ι : Type*)
  | leaf (index : ι)
  | node (site : ι) (left right : ReductionTree ι)
deriving DecidableEq, Repr

namespace ReductionTree

variable {ι α : Type*}

/-- The indices that a tree covers, in the order of its leaves. -/
def leaves : ReductionTree ι → List ι
  | leaf index => [index]
  | node _ left right => left.leaves ++ right.leaves

/-- The result of an operation. -/
def eval (op : α → α → α) (value : ι → α) : ReductionTree ι → α
  | leaf index => value index
  | node _ left right => op (left.eval op value) (right.eval op value)

/-- The result of applications that depend on the site and can fail. -/
def evalAt (apply : ι → α → α → Option α) (value : ι → α) : ReductionTree ι → Option α
  | leaf index => some (value index)
  | node site left right => do
      let lhs ← left.evalAt apply value
      let rhs ← right.evalAt apply value
      apply site lhs rhs

/-- Where all sites apply one operation, only the operation matters. -/
theorem evalAt_eq_some {apply : ι → α → α → Option α} {op : α → α → α}
    (happly : ∀ site lhs rhs, apply site lhs rhs = some (op lhs rhs)) (value : ι → α)
    (tree : ReductionTree ι) : tree.evalAt apply value = some (tree.eval op value) := by
  induction tree with
  | leaf index => rfl
  | node site left right ihLeft ihRight =>
      rw [evalAt, ihLeft, ihRight]
      exact happly _ _ _

/-- The invariant rule: what holds of single values and is kept by the operation holds of
every result and the leaves it covers. -/
theorem eval_invariant {op : α → α → α} {value : ι → α} {P : List ι → α → Prop}
    (hleaf : ∀ index, P [index] (value index))
    (hnode : ∀ {left right lhs rhs}, P left lhs → P right rhs → P (left ++ right) (op lhs rhs))
    (tree : ReductionTree ι) : P tree.leaves (tree.eval op value) := by
  induction tree with
  | leaf index => exact hleaf index
  | node site left right ihLeft ihRight => exact hnode ihLeft ihRight

/-! ## Associative and commutative operations -/

section Total

variable (op : α → α → α)

/-- Combination of a list of values; nothing for the empty list. -/
def total (values : List α) : Option α :=
  values.foldr (fun value rest => Option.merge op (some value) rest) none

theorem total_cons (value : α) (values : List α) :
    total op (value :: values) = Option.merge op (some value) (total op values) := rfl

variable [Std.Associative op]

theorem total_append (left right : List α) :
    total op (left ++ right) = Option.merge op (total op left) (total op right) := by
  induction left with
  | nil => exact Option.merge_none_left.symm
  | cons value left ih =>
      rw [List.cons_append, total_cons, total_cons, ih, (Option.associative_merge op).assoc]

/-- Every tree over the leaves in their order gives the combination of their values. -/
theorem total_leaves (value : ι → α) (tree : ReductionTree ι) :
    total op (tree.leaves.map value) = some (tree.eval op value) := by
  induction tree with
  | leaf index => rfl
  | node site left right ihLeft ihRight =>
      rw [leaves, List.map_append, total_append, ihLeft, ihRight]
      rfl

variable [Std.Commutative op]

theorem total_perm {left right : List α} (hperm : left.Perm right) :
    total op left = total op right := by
  induction hperm with
  | nil => rfl
  | cons value _ ih =>
      rw [total_cons, total_cons, ih]
  | swap first second rest =>
      have hassoc := (Option.associative_merge op).assoc
      simp only [total_cons]
      rw [← hassoc, ← hassoc, (Option.commutative_merge op).comm (some second)]
  | trans _ _ ihLeft ihRight => rw [ihLeft, ihRight]

theorem eval_of_leaves_singleton (value : ι → α) {tree : ReductionTree ι} {index : ι}
    (hperm : tree.leaves.Perm [index]) : tree.eval op value = value index := by
  have htotal := total_perm op (hperm.map value)
  rw [total_leaves] at htotal
  exact Option.some.inj htotal

/-- A tree over the leaves of another one and one further index. -/
theorem eval_of_leaves_perm (value : ι → α) {tree rest : ReductionTree ι} {index : ι}
    (hperm : tree.leaves.Perm (rest.leaves ++ [index])) :
    tree.eval op value = op (rest.eval op value) (value index) := by
  have htotal := total_perm op (hperm.map value)
  rw [total_leaves, List.map_append, total_append, total_leaves] at htotal
  exact Option.some.inj htotal

end Total

end ReductionTree

end MpiBindings
