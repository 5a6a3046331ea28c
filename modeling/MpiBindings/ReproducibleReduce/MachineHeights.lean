import MpiBindings.ReproducibleReduce.MachineIndices

/-!
# Heights on machine words

`log2l`, `subtree_height` and `tree_height` on 64-bit words.  A shift by the width of
the word or more is undefined in the source and fails here, and so do the assertions;
the loop of `log2l` is run with fuel.
-/

namespace MpiBindings.ReproducibleReduce

/-- Why a call has no result. -/
inductive Failure where
  | assertionFailed
  | undefinedShift
  | running
deriving DecidableEq

/-- `value << amount` on `size_t`. -/
def shiftLeft (value : UInt64) (amount : UInt32) : Except Failure UInt64 :=
  if amount < 64 then .ok (value <<< amount.toUInt64) else .error .undefinedShift

/-- `value >> amount` on `size_t`. -/
def shiftRight (value : UInt64) (amount : UInt32) : Except Failure UInt64 :=
  if amount < 64 then .ok (value >>> amount.toUInt64) else .error .undefinedShift

/-- `tree_parent` with its assertion. -/
def treeParentChecked (i : UInt64) : Except Failure UInt64 :=
  if i ≠ 0 then .ok (treeParentWord i) else .error .assertionFailed

/-- `tree_parent`, the given number of times. -/
def treeAncestor : (generations : ℕ) → (i : UInt64) → Except Failure UInt64
  | 0, i => .ok i
  | generations + 1, i => do
      let parent ← treeParentChecked i
      treeAncestor generations parent

/-- The loop of `log2l`. -/
def log2lLoop : (fuel : ℕ) → (i : UInt64) → (targetValue : UInt32) → Except Failure UInt32
  | 0, _, _ => .error .running
  | fuel + 1, i, targetValue => do
      let i ← shiftRight i 1
      if i ≠ 0 then log2lLoop fuel i (targetValue + 1) else .ok targetValue

/-- `log2l` on `size_t`. -/
def log2lWord (fuel : ℕ) (value : UInt64) : Except Failure UInt32 := log2lLoop fuel value 0

/-- `subtree_height` on `size_t`. -/
def subtreeHeightWord (fuel : ℕ) (index : UInt64) : Except Failure UInt64 :=
  if index ≠ 0 then do
    let height ← log2lWord fuel (treeSubtreeSizeWord index)
    .ok height.toUInt64
  else .error .assertionFailed

/-- `tree_height` on `size_t`. -/
def treeHeightWord (fuel : ℕ) (globalSize : UInt64) : Except Failure UInt64 :=
  if globalSize = 0 then .ok 0
  else do
    let result ← log2lWord fuel globalSize
    let power ← shiftLeft 1 result
    if globalSize > power then .ok (result + 1).toUInt64 else .ok result.toUInt64

/-! ## The loop of the logarithm -/

theorem log_lt_width (i : UInt64) : Nat.log 2 i.toNat < 64 :=
  Nat.log_lt_of_lt_pow' (by decide) i.toNat_lt

theorem shiftRight_one (i : UInt64) : shiftRight i 1 = .ok (i >>> 1) := rfl

theorem toNat_shiftRight_one (i : UInt64) : (i >>> 1).toNat = i.toNat / 2 := by
  rw [UInt64.toNat_shiftRight]
  exact Nat.shiftRight_one i.toNat

/-- Each round halves the value and counts one level of the logarithm. -/
theorem log2lLoop_eq (fuel : ℕ) (i : UInt64) (targetValue : UInt32) :
    log2lLoop fuel i targetValue =
      if Nat.log 2 i.toNat < fuel then .ok (targetValue + UInt32.ofNat (Nat.log 2 i.toNat))
      else .error .running := by
  induction fuel generalizing i targetValue with
  | zero => rw [log2lLoop, if_neg (Nat.not_lt_zero _)]
  | succ fuel ih =>
      have hhalf := toNat_shiftRight_one i
      rw [log2lLoop, shiftRight_one]
      change (if i >>> 1 ≠ 0 then log2lLoop fuel (i >>> 1) (targetValue + 1)
        else .ok targetValue) = _
      by_cases hzero : i >>> 1 = 0
      · have hlog : Nat.log 2 i.toNat = 0 := by
          rw [hzero, UInt64.toNat_zero] at hhalf
          exact Nat.log_of_lt (by omega)
        rw [if_neg (not_not.mpr hzero), hlog, if_pos fuel.succ_pos]
        exact congrArg Except.ok (UInt32.add_zero targetValue).symm
      · have htwo : 2 ≤ i.toNat := by
          rw [← UInt64.toNat_inj, hhalf, UInt64.toNat_zero] at hzero
          omega
        have hlog : Nat.log 2 i.toNat = Nat.log 2 (i.toNat / 2) + 1 :=
          Nat.log_of_one_lt_of_le (by decide) htwo
        rw [if_pos hzero, ih, hhalf, hlog]
        simp only [Nat.succ_lt_succ_iff]
        rw [UInt32.add_assoc, UInt32.ofNat_add, UInt32.add_comm 1]
        rfl

/-- `log2l` ends after one round more than the logarithm, which is its result. -/
theorem log2lWord_eq (fuel : ℕ) (value : UInt64) :
    log2lWord fuel value =
      if Nat.log 2 value.toNat < fuel then .ok (UInt32.ofNat (Nat.log 2 value.toNat))
      else .error .running := by
  rw [log2lWord, log2lLoop_eq, UInt32.zero_add]

/-- 64 rounds are enough for every word. -/
theorem log2lWord_of_le {fuel : ℕ} (hfuel : 64 ≤ fuel) (value : UInt64) :
    log2lWord fuel value = .ok (UInt32.ofNat (Nat.log 2 value.toNat)) := by
  rw [log2lWord_eq, if_pos ((log_lt_width value).trans_le hfuel)]

theorem toNat_ofNat_toUInt64 {height : ℕ} (hheight : height ≤ 64) :
    (UInt32.ofNat height).toUInt64.toNat = height :=
  UInt32.toNat_ofNat_of_lt' (hheight.trans_lt (by decide))

/-! ## Heights -/

/-- `1UL << result` is exact below the width of the word. -/
theorem shiftLeft_one {height : ℕ} (hheight : height < 64) :
    shiftLeft 1 (UInt32.ofNat height) = .ok (UInt64.ofNat (2 ^ height)) := by
  have hamount := toNat_ofNat_toUInt64 hheight.le
  have hpow : 2 ^ height < 2 ^ 64 := Nat.pow_lt_pow_right (by decide) hheight
  have hlt : UInt32.ofNat height < 64 := by
    rw [UInt32.lt_iff_toNat_lt]
    exact hamount.trans_lt hheight
  rw [shiftLeft, if_pos hlt]
  congr 1
  rw [← UInt64.toNat_inj, UInt64.toNat_shiftLeft, hamount, Nat.mod_eq_of_lt hheight,
    UInt64.toNat_one, Nat.one_shiftLeft, UInt64.toNat_ofNat']

variable {i : UInt64}

theorem subtreeHeightWord_eq (fuel : ℕ) (hi : 0 < i.toNat) :
    subtreeHeightWord fuel i =
      if subtreeHeight i.toNat < fuel then .ok (UInt32.ofNat (subtreeHeight i.toNat)).toUInt64
      else .error .running := by
  have hne : i ≠ 0 := fun hzero => by simp [hzero] at hi
  rw [subtreeHeightWord, if_pos hne, log2lWord_eq, toNat_treeSubtreeSizeWord hi, subtreeHeight,
    log2l_eq_log]
  split_ifs <;> rfl

/-- `tree_height` computes the logarithm rounded up; it adds one to the rounded down one
when the size is no power of two. -/
theorem treeHeightWord_eq (fuel : ℕ) {globalSize : UInt64} (hsize : 0 < globalSize.toNat) :
    treeHeightWord fuel globalSize =
      if Nat.log 2 globalSize.toNat < fuel then
        .ok (UInt32.ofNat (treeHeight globalSize.toNat)).toUInt64
      else .error .running := by
  have hne : globalSize ≠ 0 := fun hzero => by simp [hzero] at hsize
  have hlog := log_lt_width globalSize
  rw [treeHeightWord, if_neg hne, log2lWord_eq, treeHeight, if_neg hsize.ne', log2l_eq_log]
  by_cases hfuel : Nat.log 2 globalSize.toNat < fuel
  · have hpow : (UInt64.ofNat (2 ^ Nat.log 2 globalSize.toNat)).toNat =
        2 ^ Nat.log 2 globalSize.toNat :=
      UInt64.toNat_ofNat_of_lt' (Nat.pow_lt_pow_right (by decide) hlog)
    rw [if_pos hfuel, if_pos hfuel]
    change (shiftLeft 1 (UInt32.ofNat (Nat.log 2 globalSize.toNat)) >>= fun power =>
      if globalSize > power then Except.ok _ else Except.ok _) = _
    rw [shiftLeft_one hlog]
    change (if globalSize > UInt64.ofNat (2 ^ Nat.log 2 globalSize.toNat) then _ else _) = _
    simp only [gt_iff_lt, UInt64.lt_iff_toNat_lt, hpow, Nat.one_shiftLeft]
    split_ifs
    · rw [UInt32.ofNat_add]
      rfl
    · rfl
  · rw [if_neg hfuel, if_neg hfuel]
    rfl

/-! ## The lowest set bit and the ancestors -/

/-- Up to the height of its subtree an index has one set bit, at the height itself. -/
theorem testBit_subtreeHeight {index : ℕ} (hindex : 0 < index) (bit : ℕ)
    (hbit : bit ≤ subtreeHeight index) :
    index.testBit bit = decide (bit = subtreeHeight index) := by
  obtain ⟨height, half, rfl⟩ := exists_eq_pow_mul_odd hindex
  rw [subtreeHeight_pow_mul_odd] at hbit ⊢
  rw [Nat.testBit_two_pow_mul]
  rcases Nat.lt_or_eq_of_le hbit with hlt | rfl
  · rw [decide_eq_false (not_le.mpr hlt), decide_eq_false hlt.ne, Bool.false_and]
  · simp

theorem subtreeHeight_lt_width (hi : 0 < i.toNat) : subtreeHeight i.toNat < 64 := by
  have hle : 2 ^ subtreeHeight i.toNat ≤ i.toNat := by
    rw [← treeSubtreeSize_eq_two_pow hi]
    exact treeSubtreeSize_le hi
  exact (Nat.pow_lt_pow_iff_right (by decide)).mp (hle.trans_lt i.toNat_lt)

theorem toNat_sub_treeSubtreeSizeWord (hi : 0 < i.toNat) :
    (i - treeSubtreeSizeWord i).toNat = treeParent i.toNat := by
  have hle : treeSubtreeSizeWord i ≤ i := by
    rw [UInt64.le_iff_toNat_le, toNat_treeSubtreeSizeWord hi]
    exact treeSubtreeSize_le hi
  have hsum := treeParent_add_treeSubtreeSize hi
  rw [UInt64.toNat_sub_of_le _ _ hle, toNat_treeSubtreeSizeWord hi]
  omega

theorem treeParentChecked_eq (hi : 0 < i.toNat) :
    treeParentChecked i = .ok (i - treeSubtreeSizeWord i) := by
  have hne : i ≠ 0 := fun hzero => by simp [hzero] at hi
  rw [treeParentChecked, if_pos hne]
  congr 1
  rw [← UInt64.toNat_inj, toNat_treeParentWord hi, toNat_sub_treeSubtreeSizeWord hi]

/-- Every index descends from the root. -/
theorem exists_treeAncestor_eq_zero (i : UInt64) :
    ∃ generations, treeAncestor generations i = .ok 0 := by
  induction hindex : i.toNat using Nat.strong_induction_on generalizing i with
  | h index ih =>
      rcases Nat.eq_zero_or_pos i.toNat with hzero | hi
      · exact ⟨0, congrArg Except.ok (UInt64.toNat_inj.mp hzero)⟩
      · have hlt : (i - treeSubtreeSizeWord i).toNat < index := by
          rw [toNat_sub_treeSubtreeSizeWord hi, ← hindex]
          exact treeParent_lt hi
        obtain ⟨generations, hroot⟩ := ih _ hlt _ rfl
        refine ⟨generations + 1, ?_⟩
        rw [treeAncestor, treeParentChecked_eq hi]
        exact hroot

/-! ## The arithmetic is exact -/

/-- The size of the subtree of `i` is the lowest set bit of `i`, at the position that
`subtree_height` computes, and the parents of `i` lead down to the root. -/
structure ExactIndex (i : UInt64) : Prop where
  size : ∃ height : UInt64,
    (∀ fuel ≥ 64, subtreeHeightWord fuel i = .ok height) ∧
      (treeSubtreeSizeWord i).toNat = 2 ^ height.toNat ∧
      (∀ bit ≤ height.toNat, i.toNat.testBit bit = decide (bit = height.toNat))
  parent : treeParentChecked i = .ok (i - treeSubtreeSizeWord i)
  parent_lt : i - treeSubtreeSizeWord i < i
  root : ∃ generations, treeAncestor generations i = .ok 0
  shifts : ∀ fuel, subtreeHeightWord fuel i ≠ .error .undefinedShift

/-- The loop of `log2l` ends with the logarithm of `n` rounded down, and `tree_height`
with the one rounded up. -/
structure ExactSize (n : UInt64) : Prop where
  logarithm : ∃ logarithm : UInt32, (∀ fuel ≥ 64, log2lWord fuel n = .ok logarithm) ∧
    2 ^ logarithm.toNat ≤ n.toNat ∧ n.toNat < 2 ^ (logarithm.toNat + 1)
  height : ∃ height : UInt64, (∀ fuel ≥ 64, treeHeightWord fuel n = .ok height) ∧
    IsLeast {h | n.toNat ≤ 2 ^ h} height.toNat
  shifts : ∀ fuel, log2lWord fuel n ≠ .error .undefinedShift ∧
    treeHeightWord fuel n ≠ .error .undefinedShift

theorem exactIndex (hi : 0 < i.toNat) : ExactIndex i where
  size := by
    have hheight := subtreeHeight_lt_width hi
    refine ⟨(UInt32.ofNat (subtreeHeight i.toNat)).toUInt64, fun fuel hfuel => ?_, ?_, ?_⟩
    · rw [subtreeHeightWord_eq fuel hi, if_pos (hheight.trans_le hfuel)]
    · rw [toNat_treeSubtreeSizeWord hi, toNat_ofNat_toUInt64 hheight.le,
        treeSubtreeSize_eq_two_pow hi]
    · rw [toNat_ofNat_toUInt64 hheight.le]
      exact testBit_subtreeHeight hi
  parent := treeParentChecked_eq hi
  parent_lt := by
    rw [UInt64.lt_iff_toNat_lt, toNat_sub_treeSubtreeSizeWord hi]
    exact treeParent_lt hi
  root := exists_treeAncestor_eq_zero i
  shifts fuel := by
    rw [subtreeHeightWord_eq fuel hi]
    split_ifs <;> simp

theorem exactSize {n : UInt64} (hn : 0 < n.toNat) : ExactSize n where
  logarithm := by
    refine ⟨_, fun fuel hfuel => log2lWord_of_le hfuel n, ?_⟩
    rw [UInt32.toNat_ofNat_of_lt' ((log_lt_width n).trans (by decide))]
    exact ⟨Nat.pow_log_le_self 2 hn.ne', Nat.lt_pow_succ_log_self (by decide) _⟩
  height := by
    have hheight : treeHeight n.toNat ≤ 64 := by
      rw [treeHeight_eq_clog]
      exact Nat.clog_le_of_le_pow n.toNat_lt.le
    refine ⟨(UInt32.ofNat (treeHeight n.toNat)).toUInt64, fun fuel hfuel => ?_, ?_⟩
    · rw [treeHeightWord_eq fuel hn, if_pos ((log_lt_width n).trans_le hfuel)]
    · rw [toNat_ofNat_toUInt64 hheight, treeHeight_eq_clog]
      exact ⟨Nat.le_pow_clog (by decide) _, fun h hle => Nat.clog_le_of_le_pow hle⟩
  shifts fuel := by
    rw [log2lWord_eq, treeHeightWord_eq fuel hn]
    split_ifs <;> simp

/-- The bit arithmetic of the index tree is exact for all 64-bit indices and sizes. -/
theorem indexTreeWords_exact :
    (∀ i : UInt64, i > 0 → ExactIndex i) ∧ (∀ n : UInt64, n ≥ 1 → ExactSize n) :=
  ⟨fun _ hi => exactIndex (UInt64.lt_iff_toNat_lt.mp hi),
    fun _ hn => exactSize (UInt64.le_iff_toNat_le.mp hn)⟩

/-- The height above `2 ^ 63` elements needs no shift by 64. -/
example : treeHeightWord 64 (2 ^ 63 + 1) = .ok 64 := by
  decide +kernel

end MpiBindings.ReproducibleReduce
