import MpiBindings.Operations.BuiltinOperations
import Mathlib.Algebra.Order.Ring.Int
import Mathlib.Data.BitVec
import Mathlib.Tactic.Positivity
import Mathlib.Tactic.Ring

/-!
# Conversions between integer types

A conversion keeps the integer modulo the size of the target type, so it is exact for the
integers that the target type can represent.
-/

namespace MpiBindings.Operations.IntegerType

variable {T source target : IntegerType}

/-- The value of a type that is congruent to an integer. -/
def ofInt (T : IntegerType) (n : ℤ) : T.Value := BitVec.ofInt T.width n

/-- `static_cast<To>(value)`. -/
def convert (target : IntegerType) (value : source.Value) : target.Value :=
  target.ofInt (source.toInt value)

/-- `operator<=`. -/
def le (T : IntegerType) (lhs rhs : T.Value) : Bool :=
  if T.signed then lhs.sle rhs else lhs.ule rhs

theorem le_iff (lhs rhs : T.Value) : T.le lhs rhs = true ↔ T.toInt lhs ≤ T.toInt rhs := by
  rw [le, toInt, toInt]
  split_ifs
  · exact BitVec.sle_iff_toInt_le
  · rw [BitVec.ule_eq_decide, decide_eq_true_eq, Nat.cast_le]

/-! ## Limits -/

theorem toInt_lowest (T : IntegerType) :
    T.toInt T.lowest = if T.signed then -2 ^ (T.width - 1) else 0 := by
  rw [toInt, lowest]
  split_ifs
  · exact BitVec.toInt_intMin_of_pos T.width_pos
  · rfl

theorem toInt_max (T : IntegerType) :
    T.toInt T.max = if T.signed then 2 ^ (T.width - 1) - 1 else 2 ^ T.width - 1 := by
  rw [toInt, max]
  split_ifs
  · exact BitVec.toInt_intMax
  · rw [BitVec.toNat_allOnes, Nat.cast_sub Nat.one_le_two_pow, Nat.cast_pow]
    rfl

theorem toInt_lowest_nonpos (T : IntegerType) : T.toInt T.lowest ≤ 0 := by
  rw [toInt_lowest]
  split_ifs
  · exact neg_nonpos_of_nonneg (by positivity)
  · exact le_rfl

theorem toInt_max_nonneg (T : IntegerType) : 0 ≤ T.toInt T.max := by
  rw [toInt_max]
  split_ifs <;> exact Int.sub_nonneg_of_le (one_le_pow₀ (by decide))

theorem toInt_lowest_of_unsigned (hunsigned : T.signed = false) : T.toInt T.lowest = 0 := by
  rw [toInt_lowest, hunsigned]
  rfl

/-- Of two types with the same signedness the wider one has the wider range. -/
theorem toInt_max_le_max (hsigned : source.signed = target.signed)
    (hwidth : source.width ≤ target.width) :
    source.toInt source.max ≤ target.toInt target.max := by
  rw [toInt_max, toInt_max, hsigned]
  split_ifs
  · exact sub_le_sub_right (pow_le_pow_right₀ (by decide) (Nat.sub_le_sub_right hwidth 1)) 1
  · exact sub_le_sub_right (pow_le_pow_right₀ (by decide) hwidth) 1

theorem toInt_lowest_le_lowest (hsigned : source.signed = target.signed)
    (hwidth : source.width ≤ target.width) :
    target.toInt target.lowest ≤ source.toInt source.lowest := by
  rw [toInt_lowest, toInt_lowest, hsigned]
  split_ifs
  · exact neg_le_neg (pow_le_pow_right₀ (by decide) (Nat.sub_le_sub_right hwidth 1))
  · exact le_rfl

/-- The greatest integer of a type is one of the unsigned types that are as wide. -/
theorem toInt_max_le_of_unsigned (hunsigned : target.signed = false)
    (hwidth : source.width ≤ target.width) :
    source.toInt source.max ≤ target.toInt target.max := by
  cases hsource : source.signed
  · exact toInt_max_le_max (hsource.trans hunsigned.symm) hwidth
  · rw [toInt_max, toInt_max, hsource, hunsigned]
    exact sub_le_sub_right
      (pow_le_pow_right₀ (by decide) (le_trans (Nat.sub_le source.width 1) hwidth)) 1

/-! ## Exact conversions -/

/-- Integers between the limits of a type are represented. -/
theorem toInt_ofInt {n : ℤ} (hlowest : T.toInt T.lowest ≤ n) (hmax : n ≤ T.toInt T.max) :
    T.toInt (T.ofInt n) = n := by
  rw [toInt_lowest] at hlowest
  rw [toInt_max] at hmax
  rw [toInt, ofInt]
  split_ifs at hlowest hmax ⊢
  · exact BitVec.toInt_ofInt_eq_self T.width_pos hlowest (Int.lt_of_le_sub_one hmax)
  · have hlt : n < ((2 ^ T.width : ℕ) : ℤ) := by
      push_cast
      exact Int.lt_of_le_sub_one hmax
    rw [BitVec.toNat_ofInt, Int.emod_eq_of_lt hlowest hlt, Int.toNat_of_nonneg hlowest]

@[simp]
theorem toInt_zero (T : IntegerType) : T.toInt (T.ofInt 0) = 0 :=
  toInt_ofInt T.toInt_lowest_nonpos T.toInt_max_nonneg

/-- A conversion is exact for integers between the limits of the target type. -/
theorem toInt_convert {value : source.Value}
    (hlowest : target.toInt target.lowest ≤ source.toInt value)
    (hmax : source.toInt value ≤ target.toInt target.max) :
    target.toInt (convert target value) = source.toInt value :=
  toInt_ofInt hlowest hmax

/-- A conversion that was exact is undone by the conversion back. -/
theorem convert_convert {value : source.Value}
    (hexact : target.toInt (convert target value) = source.toInt value) :
    convert source (convert target value) = value := by
  apply toInt_injective
  rw [convert, hexact]
  exact toInt_ofInt (toInt_lowest_le value) (toInt_le_max value)

/-- Values that are converted exactly to a common type are compared there. -/
theorem le_convert_iff {common : IntegerType} {lhs : source.Value} {rhs : target.Value}
    (hlhs : common.toInt (convert common lhs) = source.toInt lhs)
    (hrhs : common.toInt (convert common rhs) = target.toInt rhs) :
    common.le (convert common lhs) (convert common rhs) = true ↔
      source.toInt lhs ≤ target.toInt rhs := by
  rw [le_iff, hlhs, hrhs]

end MpiBindings.Operations.IntegerType
