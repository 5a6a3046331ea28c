import Mathlib.Data.List.Sort

/-!
# The least elements of a list

The `k` least elements of a list are the first ones of its sorted order.  Those of an appended
list are the first ones of the merge of the two parts' least elements, so they can be computed
part by part.
-/

namespace MpiBindings.LeastElements

variable {α : Type*} [LinearOrder α]

/-- The `k` least elements, in their order. -/
def least (k : ℕ) (items : List α) : List α :=
  (items.mergeSort fun left right => left ≤ right).take k

/-- The merge that takes the head of the second list unless the first one is less. -/
def mergeLt (left right : List α) : List α :=
  left.merge right fun a b => a < b

theorem pairwise_mergeSort (items : List α) :
    (items.mergeSort fun left right => left ≤ right).Pairwise (· ≤ ·) := by
  refine (List.pairwise_mergeSort (fun a b c hab hbc => ?_) (fun a b => ?_) items).imp
    fun hle => of_decide_eq_true hle
  · exact decide_eq_true ((of_decide_eq_true hab).trans (of_decide_eq_true hbc))
  · simpa using le_total a b

theorem mergeLt_perm (left right : List α) : (mergeLt left right).Perm (left ++ right) :=
  List.merge_perm_append _

theorem pairwise_mergeLt {left right : List α} (hleft : left.Pairwise (· ≤ ·))
    (hright : right.Pairwise (· ≤ ·)) : (mergeLt left right).Pairwise (· ≤ ·) := by
  induction left generalizing right with
  | nil =>
      rw [mergeLt, List.nil_merge]
      exact hright
  | cons a left ihLeft =>
      obtain ⟨ha, hleft'⟩ := List.pairwise_cons.mp hleft
      induction right with
      | nil =>
          rw [mergeLt, List.merge_right]
          exact hleft
      | cons b right ihRight =>
          obtain ⟨hb, hright'⟩ := List.pairwise_cons.mp hright
          rw [mergeLt, List.cons_merge_cons]
          split_ifs with hlt
          · have hab : a < b := of_decide_eq_true hlt
            refine List.pairwise_cons.mpr ⟨fun c hc => ?_, ihLeft hleft' hright⟩
            rcases List.mem_append.mp ((mergeLt_perm left (b :: right)).mem_iff.mp hc) with hc | hc
            · exact ha c hc
            · rcases List.mem_cons.mp hc with rfl | hc
              · exact hab.le
              · exact hab.le.trans (hb c hc)
          · have hba : b ≤ a := le_of_not_gt fun hab => hlt (decide_eq_true hab)
            refine List.pairwise_cons.mpr ⟨fun c hc => ?_, ihRight hright'⟩
            rcases List.mem_append.mp ((mergeLt_perm (a :: left) right).mem_iff.mp hc) with hc | hc
            · rcases List.mem_cons.mp hc with rfl | hc
              · exact hba
              · exact hba.trans (ha c hc)
            · exact hb c hc

/-- The first elements of a merge come from the first elements of both lists. -/
theorem take_mergeLt {k i j : ℕ} (hi : k ≤ i) (hj : k ≤ j) (left right : List α) :
    (mergeLt left right).take k = (mergeLt (left.take i) (right.take j)).take k := by
  induction k generalizing i j left right with
  | zero => rfl
  | succ k ih =>
      cases left with
      | nil =>
          rw [List.take_nil, mergeLt, mergeLt, List.nil_merge, List.nil_merge, List.take_take,
            Nat.min_eq_left hj]
      | cons a left =>
          cases right with
          | nil =>
              rw [List.take_nil, mergeLt, mergeLt, List.merge_right, List.merge_right,
                List.take_take, Nat.min_eq_left hi]
          | cons b right =>
              obtain ⟨i, rfl⟩ := Nat.exists_eq_succ_of_ne_zero (Nat.ne_zero_of_lt hi)
              obtain ⟨j, rfl⟩ := Nat.exists_eq_succ_of_ne_zero (Nat.ne_zero_of_lt hj)
              have hi' := Nat.succ_le_succ_iff.mp hi
              have hj' := Nat.succ_le_succ_iff.mp hj
              rw [List.take_succ_cons, List.take_succ_cons, mergeLt, mergeLt, List.cons_merge_cons,
                List.cons_merge_cons]
              split_ifs
              · rw [List.take_succ_cons, List.take_succ_cons]
                exact congrArg (a :: ·) (ih hi' (Nat.le_of_succ_le hj) left (b :: right))
              · rw [List.take_succ_cons, List.take_succ_cons]
                exact congrArg (b :: ·) (ih (Nat.le_of_succ_le hi) hj' (a :: left) right)

theorem mergeSort_append (left right : List α) :
    (left ++ right).mergeSort (fun a b => a ≤ b) =
      mergeLt (left.mergeSort fun a b => a ≤ b) (right.mergeSort fun a b => a ≤ b) := by
  have hperm : ((left ++ right).mergeSort fun a b => a ≤ b).Perm
      (mergeLt (left.mergeSort fun a b => a ≤ b) (right.mergeSort fun a b => a ≤ b)) :=
    calc ((left ++ right).mergeSort fun a b => a ≤ b)
      |>.Perm (left ++ right) := List.mergeSort_perm _ _
    _ |>.Perm ((left.mergeSort fun a b => a ≤ b) ++ right.mergeSort fun a b => a ≤ b) :=
        (List.mergeSort_perm left _).symm.append (List.mergeSort_perm right _).symm
    _ |>.Perm (mergeLt _ _) := (mergeLt_perm _ _).symm
  exact hperm.eq_of_pairwise (fun a b _ _ hab hba => le_antisymm hab hba)
    (pairwise_mergeSort _)
    (pairwise_mergeLt (pairwise_mergeSort left) (pairwise_mergeSort right))

/-- The least elements can be computed part by part. -/
theorem least_append (k : ℕ) (left right : List α) :
    least k (left ++ right) = (mergeLt (least k left) (least k right)).take k := by
  rw [least, mergeSort_append, take_mergeLt le_rfl le_rfl]
  rfl

theorem least_perm {left right : List α} (hperm : left.Perm right) (k : ℕ) :
    least k left = least k right := by
  have hsorted : (left.mergeSort fun a b => a ≤ b) = right.mergeSort fun a b => a ≤ b :=
    ((List.mergeSort_perm left _).trans
      (hperm.trans (List.mergeSort_perm right _).symm)).eq_of_pairwise
      (fun a b _ _ hab hba => le_antisymm hab hba) (pairwise_mergeSort left)
      (pairwise_mergeSort right)
  rw [least, least, hsorted]

/-- A sorted list is its own least elements. -/
theorem least_of_pairwise {k : ℕ} {items : List α} (hsorted : items.Pairwise (· ≤ ·))
    (hlength : items.length ≤ k) : least k items = items := by
  have hself : (items.mergeSort fun a b => a ≤ b) = items :=
    List.mergeSort_of_pairwise (hsorted.imp fun hle => decide_eq_true hle)
  rw [least, hself, List.take_of_length_le hlength]

end MpiBindings.LeastElements
