import Mathlib.Algebra.Order.Ring.Nat
import Mathlib.Algebra.Ring.Parity
import Mathlib.Data.Nat.Bitwise
import Mathlib.Data.Nat.Factorization.Basic
import Mathlib.Data.Nat.Log
import Mathlib.Tactic.Ring

/-!
# The index tree of the reproducible reduction

Element `i > 0` is the root of the subtree of all indices from `i` up to the
next multiple of twice its lowest set bit; its parent is `i` with that bit
cleared.  The functions below are the bit tricks of the source on `size_t`
values; the theorems describe them through the decomposition of an index into a
power of two and an odd number.
-/

namespace MpiBindings.ReproducibleReduce

/-- `tree_parent`: clear the least significant set bit.  Only called for
`i ≠ 0`. -/
def treeParent (i : ℕ) : ℕ := i &&& (i - 1)

/-- `tree_subtree_size`: number of indices in the subtree of index `i`. -/
def treeSubtreeSize (i : ℕ) : ℕ :=
  let largestChildIndex := i ||| (i - 1)
  largestChildIndex + 1 - i

theorem treeSubtreeSize_pos (i : ℕ) : 0 < treeSubtreeSize i := by
  have hle : i ≤ i ||| (i - 1) := Nat.left_le_or
  simp only [treeSubtreeSize]
  omega

/-- The loop of `tree_rank_intersecting_elements` from `index` on; `none` when
its assertion fails. -/
def intersectingElementsFrom (regionBegin regionEnd index : ℕ) : Option (List ℕ) :=
  if index < regionEnd then
    if index > 0 ∧ ¬ treeParent index < regionBegin then none
    else (intersectingElementsFrom regionBegin regionEnd
      (index + treeSubtreeSize index)).map (index :: ·)
  else some []
termination_by regionEnd - index
decreasing_by
  have := treeSubtreeSize_pos index
  omega

/-- `tree_rank_intersecting_elements`: indices of the results that a rank has to
communicate to other ranks. -/
def treeRankIntersectingElements (regionBegin regionEnd : ℕ) : Option (List ℕ) :=
  let regionSize := regionEnd - regionBegin
  if regionBegin = 0 ∨ regionSize = 0 then some []
  else intersectingElementsFrom regionBegin regionEnd regionBegin

/-- `log2l`: logarithm to base 2, rounded down. -/
def log2l (value : ℕ) : ℕ :=
  let i := value >>> 1
  if i = 0 then 0 else log2l i + 1
termination_by value
decreasing_by
  simp only [Nat.shiftRight_eq_div_pow] at *
  omega

/-- `subtree_height`: number of passes that reduce the subtree of `index`.  Only
called for `index ≠ 0`. -/
def subtreeHeight (index : ℕ) : ℕ := log2l (treeSubtreeSize index)

/-- `tree_height`: number of passes that reduce a whole array. -/
def treeHeight (globalSize : ℕ) : ℕ :=
  if globalSize = 0 then 0
  else
    let result := log2l globalSize
    if globalSize > 1 <<< result then result + 1 else result

/-! ## Indices as a power of two times an odd number -/

theorem exists_eq_pow_mul_odd {i : ℕ} (hi : 0 < i) :
    ∃ height half, i = 2 ^ height * (2 * half + 1) := by
  obtain ⟨height, odd, ⟨half, rfl⟩, rfl⟩ :=
    Nat.exists_eq_two_pow_mul_odd (Nat.pos_iff_ne_zero.mp hi)
  exact ⟨height, half, rfl⟩

section Decomposition

variable (height half : ℕ)

theorem index_eq_or :
    2 ^ height * (2 * half + 1) = 2 ^ (height + 1) * half ||| 2 ^ height := by
  rw [← Nat.two_pow_add_eq_or_of_lt (Nat.pow_lt_pow_right (by omega) (by omega))]
  ring

theorem index_pred_eq_or :
    2 ^ height * (2 * half + 1) - 1 = 2 ^ (height + 1) * half ||| (2 ^ height - 1) := by
  have hpos : 0 < 2 ^ height := Nat.two_pow_pos height
  have hlt : 2 ^ height - 1 < 2 ^ (height + 1) := by
    rw [pow_succ]
    omega
  rw [← Nat.two_pow_add_eq_or_of_lt hlt, ← Nat.add_sub_assoc (by omega)]
  congr 1
  ring

theorem treeParent_pow_mul_odd :
    treeParent (2 ^ height * (2 * half + 1)) = 2 ^ (height + 1) * half := by
  rw [treeParent, index_pred_eq_or, index_eq_or, ← Nat.or_and_distrib_left,
    Nat.two_pow_and, Nat.testBit_two_pow_sub_one]
  simp

theorem treeSubtreeSize_pow_mul_odd :
    treeSubtreeSize (2 ^ height * (2 * half + 1)) = 2 ^ height := by
  have hpos : 0 < 2 ^ height := Nat.two_pow_pos height
  have hlargest : (2 ^ height * (2 * half + 1)) |||
      (2 ^ height * (2 * half + 1) - 1) =
        2 ^ height * (2 * half + 1) + (2 ^ height - 1) := by
    have hones : 2 ^ height ||| (2 ^ height - 1) = 2 ^ height + (2 ^ height - 1) := by
      simpa using (Nat.two_pow_add_eq_or_of_lt (i := height) (b := 2 ^ height - 1)
        (by omega) 1).symm
    have hlt : 2 ^ height + (2 ^ height - 1) < 2 ^ (height + 1) := by
      rw [pow_succ]
      omega
    rw [index_pred_eq_or]
    nth_rewrite 1 [index_eq_or]
    rw [Nat.or_assoc, Nat.or_comm (2 ^ height), Nat.or_assoc, ← Nat.or_assoc, Nat.or_self,
      Nat.or_comm (2 ^ height - 1), hones, ← Nat.two_pow_add_eq_or_of_lt hlt]
    ring
  simp only [treeSubtreeSize, hlargest]
  omega

end Decomposition

theorem log2l_eq_log (value : ℕ) : log2l value = Nat.log 2 value := by
  induction value using log2l.induct with
  | case1 value i hi =>
      rw [log2l, if_pos hi, Nat.log_of_lt]
      simp only [i, Nat.shiftRight_eq_div_pow] at hi
      omega
  | case2 value i hi ih =>
      have hhalf : i = value / 2 := by simp [i, Nat.shiftRight_eq_div_pow]
      have htwo : 2 ≤ value := by omega
      rw [log2l, if_neg hi, ih, hhalf, ← Nat.log_of_one_lt_of_le (by omega) htwo]

@[simp]
theorem log2l_two_pow (height : ℕ) : log2l (2 ^ height) = height := by
  rw [log2l_eq_log, Nat.log_pow (by omega)]

theorem subtreeHeight_pow_mul_odd (height half : ℕ) :
    subtreeHeight (2 ^ height * (2 * half + 1)) = height := by
  rw [subtreeHeight, treeSubtreeSize_pow_mul_odd, log2l_two_pow]

/-- `tree_height` is the logarithm rounded up. -/
theorem treeHeight_eq_clog (globalSize : ℕ) :
    treeHeight globalSize = Nat.clog 2 globalSize := by
  by_cases hzero : globalSize = 0
  · simp [treeHeight, hzero]
  have hlower : 2 ^ Nat.log 2 globalSize ≤ globalSize := Nat.pow_log_le_self 2 hzero
  have hupper : globalSize < 2 ^ (Nat.log 2 globalSize + 1) :=
    Nat.lt_pow_succ_log_self (by omega) globalSize
  simp only [treeHeight, if_neg hzero, log2l_eq_log, Nat.one_shiftLeft]
  split
  · rename_i habove
    refine le_antisymm ?_ ((Nat.clog_le_iff_le_pow (by omega)).mpr hupper.le)
    rw [Nat.succ_le_iff, ← not_le, Nat.clog_le_iff_le_pow (by omega)]
    omega
  · rename_i hnotAbove
    have heq : globalSize = 2 ^ Nat.log 2 globalSize := by omega
    conv_rhs => rw [heq, Nat.clog_pow _ _ (by omega)]

/-! ## Subtrees are nested or disjoint -/

section Subtrees

variable {i j : ℕ}

theorem treeParent_add_treeSubtreeSize (hi : 0 < i) :
    treeParent i + treeSubtreeSize i = i := by
  obtain ⟨height, half, rfl⟩ := exists_eq_pow_mul_odd hi
  rw [treeParent_pow_mul_odd, treeSubtreeSize_pow_mul_odd]
  ring

theorem treeParent_lt (hi : 0 < i) : treeParent i < i := by
  have hsum := treeParent_add_treeSubtreeSize hi
  have hpos := treeSubtreeSize_pos i
  omega

theorem treeSubtreeSize_eq_two_pow (hi : 0 < i) :
    treeSubtreeSize i = 2 ^ subtreeHeight i := by
  obtain ⟨height, half, rfl⟩ := exists_eq_pow_mul_odd hi
  rw [treeSubtreeSize_pow_mul_odd, subtreeHeight_pow_mul_odd]

theorem subtreeHeight_of_odd (hodd : i % 2 = 1) : subtreeHeight i = 0 := by
  obtain ⟨height, half, rfl⟩ := exists_eq_pow_mul_odd (show 0 < i by omega)
  cases height with
  | zero => exact subtreeHeight_pow_mul_odd 0 half
  | succ height =>
      rw [pow_succ, Nat.mul_assoc, Nat.mul_left_comm, Nat.mul_mod_right] at hodd
      omega

theorem two_pow_subtreeHeight_dvd (hi : 0 < i) : 2 ^ subtreeHeight i ∣ i := by
  obtain ⟨height, half, rfl⟩ := exists_eq_pow_mul_odd hi
  rw [subtreeHeight_pow_mul_odd]
  exact Dvd.intro _ rfl

/-- The parent of the next sibling subtree is not below the own parent. -/
theorem treeParent_next_le (hi : 0 < i) :
    treeParent (i + treeSubtreeSize i) ≤ treeParent i := by
  obtain ⟨height, half, rfl⟩ := exists_eq_pow_mul_odd hi
  have hnext : 2 ^ height * (2 * half + 1) + 2 ^ height = 2 ^ (height + 1) * (half + 1) := by
    ring
  have hpos : 0 < 2 ^ (height + 1) := Nat.two_pow_pos _
  rw [treeSubtreeSize_pow_mul_odd, treeParent_pow_mul_odd, hnext]
  obtain ⟨extra, rest, hrest⟩ := exists_eq_pow_mul_odd (show 0 < half + 1 by omega)
  rw [hrest, ← mul_assoc, ← pow_add, treeParent_pow_mul_odd]
  have hhalf : half + 1 = 2 ^ extra * (2 * rest + 1) := hrest
  have hextra : 0 < 2 ^ extra := Nat.two_pow_pos _
  calc 2 ^ (height + 1 + extra + 1) * rest
      = 2 ^ (height + 1) * (2 ^ extra * (2 * rest)) := by ring
    _ ≤ 2 ^ (height + 1) * half := by
        refine Nat.mul_le_mul_left _ ?_
        have : 2 ^ extra * (2 * rest + 1) = 2 ^ extra * (2 * rest) + 2 ^ extra := by ring
        omega

/-- Every index strictly inside a subtree has its own subtree and its parent in
there. -/
theorem subtree_nested (hi : 0 < i) (hlower : i < j) (hupper : j < i + treeSubtreeSize i) :
    i ≤ treeParent j ∧ j + treeSubtreeSize j ≤ i + treeSubtreeSize i := by
  obtain ⟨offset, rfl⟩ := Nat.exists_eq_add_of_lt hlower
  obtain ⟨height, half, rfl⟩ := exists_eq_pow_mul_odd hi
  obtain ⟨small, rest, hoffset⟩ := exists_eq_pow_mul_odd (show 0 < offset + 1 by omega)
  rw [treeSubtreeSize_pow_mul_odd] at hupper ⊢
  rw [Nat.add_assoc, hoffset] at hupper ⊢
  have hsmall : small < height := by
    rw [← Nat.pow_lt_pow_iff_right (a := 2) (by omega)]
    have hle : 2 ^ small ≤ 2 ^ small * (2 * rest + 1) :=
      Nat.le_mul_of_pos_right _ (by omega)
    omega
  obtain ⟨gap, rfl⟩ := Nat.exists_eq_add_of_lt hsmall
  have hsplit : 2 ^ (small + gap + 1) * (2 * half + 1) + 2 ^ small * (2 * rest + 1) =
      2 ^ small * (2 * (2 ^ gap * (2 * half + 1) + rest) + 1) := by ring
  have hpow : 2 ^ (small + gap + 1) = 2 ^ small * (2 * 2 ^ gap) := by ring
  have hrest : 2 * rest + 1 < 2 * 2 ^ gap := by
    rw [hpow] at hupper
    exact Nat.lt_of_mul_lt_mul_left (a := 2 ^ small) (by omega)
  rw [hsplit, treeParent_pow_mul_odd, treeSubtreeSize_pow_mul_odd]
  constructor
  · calc 2 ^ (small + gap + 1) * (2 * half + 1)
        = 2 ^ (small + 1) * (2 ^ gap * (2 * half + 1)) := by ring
      _ ≤ 2 ^ (small + 1) * (2 ^ gap * (2 * half + 1) + rest) :=
          Nat.mul_le_mul_left _ (Nat.le_add_right _ _)
  · calc 2 ^ small * (2 * (2 ^ gap * (2 * half + 1) + rest) + 1) + 2 ^ small
        = 2 ^ (small + gap + 1) * (2 * half + 1) + 2 ^ small * (2 * rest + 2) := by ring
      _ ≤ 2 ^ (small + gap + 1) * (2 * half + 1) + 2 ^ (small + gap + 1) := by
          rw [hpow]
          exact Nat.add_le_add_left (Nat.mul_le_mul_left _ (by omega)) _

/-- An index lies strictly inside the subtree of its parent. -/
theorem lt_treeParent_add_size (hi : 0 < i) (hparent : 0 < treeParent i) :
    i < treeParent i + treeSubtreeSize (treeParent i) := by
  obtain ⟨height, half, rfl⟩ := exists_eq_pow_mul_odd hi
  rw [treeParent_pow_mul_odd] at hparent ⊢
  obtain ⟨extra, rest, rfl⟩ := exists_eq_pow_mul_odd (Nat.pos_of_mul_pos_left hparent)
  have hmul : 2 ^ (height + 1) * (2 ^ extra * (2 * rest + 1)) =
      2 ^ (height + 1 + extra) * (2 * rest + 1) := by ring
  rw [hmul, treeSubtreeSize_pow_mul_odd]
  have hlt : 2 ^ height < 2 ^ (height + 1 + extra) :=
    Nat.pow_lt_pow_right (by omega) (by omega)
  calc 2 ^ height * (2 * (2 ^ extra * (2 * rest + 1)) + 1)
      = 2 ^ (height + 1 + extra) * (2 * rest + 1) + 2 ^ height := by ring
    _ < 2 ^ (height + 1 + extra) * (2 * rest + 1) + 2 ^ (height + 1 + extra) := by omega

end Subtrees
end MpiBindings.ReproducibleReduce
