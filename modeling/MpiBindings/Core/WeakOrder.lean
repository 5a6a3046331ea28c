import Mathlib.Data.List.Basic
import Mathlib.Order.Defs.Unbundled
import Mathlib.Order.RelClasses

/-!
# Sorted lists of a strict weak order

Elements that a strict weak order does not distinguish may appear in any order
in a sorted list.  Two sorted permutations of one list agree up to this
equivalence at every position, and a search for the first greater element
splits a sorted list.
-/

namespace MpiBindings.WeakOrder

variable {α : Type*} {lt : α → α → Prop} [IsStrictWeakOrder α lt]

theorem lt_of_lt_of_not_lt {a b c : α} (hab : lt a b) (hcb : ¬ lt c b) : lt a c := by
  by_contra hac
  have hbc : ¬ lt b c := fun hbc => hac (IsTrans.trans a b c hab hbc)
  have hca : ¬ lt c a := fun hca => hcb (IsTrans.trans c a b hca hab)
  exact (IsStrictWeakOrder.incomp_trans a c b ⟨hac, hca⟩ ⟨hcb, hbc⟩).1 hab

/-- No element is less than one before it. -/
def SortedBy (lt : α → α → Prop) (list : List α) : Prop :=
  list.Pairwise fun a b => ¬ lt b a

omit [IsStrictWeakOrder α lt] in
theorem sortedBy_of_getElem? {list : List α}
    (h : ∀ (i j : ℕ) (a b : α), i < j → list[i]? = some a → list[j]? = some b → ¬ lt b a) :
    SortedBy lt list := by
  rw [SortedBy, List.pairwise_iff_getElem]
  intro i j hi hj hlt
  exact h i j _ _ hlt (List.getElem?_eq_getElem hi) (List.getElem?_eq_getElem hj)

theorem SortedBy.not_lt_of_le {list : List α} (h : SortedBy lt list) {i j : ℕ} {a b : α}
    (hle : i ≤ j) (ha : list[i]? = some a) (hb : list[j]? = some b) : ¬ lt b a := by
  obtain ⟨hi, rfl⟩ := List.getElem?_eq_some_iff.mp ha
  obtain ⟨hj, rfl⟩ := List.getElem?_eq_some_iff.mp hb
  obtain rfl | hlt := Nat.eq_or_lt_of_le hle
  · exact Std.Irrefl.irrefl _
  · exact List.pairwise_iff_getElem.mp h i j hi hj hlt

/-- Sorted permutations of one list are equivalent at every position. -/
theorem SortedBy.not_lt_of_perm {list list' : List α} (hsorted : SortedBy lt list)
    (hsorted' : SortedBy lt list') (hperm : list.Perm list') {i : ℕ} {a b : α}
    (ha : list[i]? = some a) (hb : list'[i]? = some b) : ¬ lt a b := by
  classical
  intro hlt
  have hi : i < list.length := (List.getElem?_eq_some_iff.mp ha).1
  -- count the elements greater than `a` in both lists
  have hbefore : (list.take (i + 1)).countP (lt a ·) = 0 := by
    rw [List.countP_eq_zero]
    intro c hc
    obtain ⟨j, hj⟩ := List.mem_iff_getElem?.mp hc
    rw [List.getElem?_take] at hj
    split_ifs at hj with hle
    simpa using hsorted.not_lt_of_le (Nat.lt_succ_iff.mp hle) hj ha
  have hafter : (list'.drop i).countP (lt a ·) = (list'.drop i).length := by
    rw [List.countP_eq_length]
    intro c hc
    obtain ⟨j, hj⟩ := List.mem_iff_getElem?.mp hc
    rw [List.getElem?_drop] at hj
    simpa using lt_of_lt_of_not_lt hlt
      (hsorted'.not_lt_of_le (Nat.le_add_right i j) hb hj)
  have hupper : list.countP (lt a ·) ≤ list.length - (i + 1) := by
    rw [← List.take_append_drop (i + 1) list, List.countP_append, hbefore, Nat.zero_add,
      List.take_append_drop]
    exact List.countP_le_length.trans_eq List.length_drop
  have hlower : list'.length - i ≤ list'.countP (lt a ·) := by
    rw [← List.length_drop, ← hafter]
    exact (List.drop_sublist i list').countP_le
  rw [hperm.countP_eq] at hupper
  rw [← hperm.length_eq] at hlower
  omega

section Search

variable [DecidableRel lt]

/-- After the first element greater than a value, all elements are greater. -/
theorem SortedBy.lt_of_mem_dropWhile {list : List α} (h : SortedBy lt list) {value a : α}
    (ha : a ∈ list.dropWhile fun element => ¬ lt value element) : lt value a := by
  induction list with
  | nil => simp at ha
  | cons head list ih =>
      obtain ⟨hhead, htail⟩ := List.pairwise_cons.mp h
      by_cases hlt : lt value head
      · rw [List.dropWhile_cons_of_neg (by simpa using hlt), List.mem_cons] at ha
        obtain rfl | ha := ha
        · exact hlt
        · exact lt_of_lt_of_not_lt hlt (hhead a ha)
      · rw [List.dropWhile_cons_of_pos (by simpa using hlt)] at ha
        exact ih htail ha

omit [IsStrictWeakOrder α lt] in
theorem not_lt_of_lt_takeWhile {list : List α} {value a : α} {i : ℕ}
    (hi : i < (list.takeWhile fun element => ¬ lt value element).length)
    (ha : list[i]? = some a) : ¬ lt value a := by
  have hget := (List.takeWhile_prefix fun element => decide (¬ lt value element)).getElem hi
  obtain ⟨hlength, rfl⟩ := List.getElem?_eq_some_iff.mp ha
  have hmem := List.getElem_mem hi
  rw [hget] at hmem
  simpa using List.all_eq_true.mp List.all_takeWhile _ hmem

omit [IsStrictWeakOrder α lt] in
theorem lt_of_takeWhile {list : List α} {value a : α}
    (ha : list[(list.takeWhile fun element => ¬ lt value element).length]? = some a) :
    lt value a := by
  induction list with
  | nil => simp at ha
  | cons head list ih =>
      by_cases hlt : lt value head
      · rw [List.takeWhile_cons_of_neg (by simpa using hlt)] at ha
        obtain rfl := Option.some.inj ha
        exact hlt
      · rw [List.takeWhile_cons_of_pos (by simpa using hlt)] at ha
        exact ih ha

end Search

end MpiBindings.WeakOrder
