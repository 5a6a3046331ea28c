import MpiBindings.Integers.Conversions

/-!
# Checking casts

`in_range` compares a value with the limits of the target type after a conversion of
both to `intmax_t` or `uintmax_t`.  The checking casts convert a value that is in range.
-/

namespace MpiBindings.Integers

open Operations Operations.IntegerType

/-- Width of `intmax_t` and `uintmax_t`. -/
def intmaxWidth : ℕ := 64

/-- Integer types that pass the static assertions of `in_range`. -/
structure IntegralType extends IntegerType where
  width_le : width ≤ intmaxWidth

def intmaxT : IntegralType := ⟨⟨intmaxWidth, true, by decide⟩, le_rfl⟩

def uintmaxT : IntegralType := ⟨⟨intmaxWidth, false, by decide⟩, le_rfl⟩

variable {source : IntegralType}

/-- `static_cast<intmax_t>(value)`. -/
def toIntmaxT (value : source.Value) : intmaxT.Value := convert intmaxT.toIntegerType value

/-- `static_cast<uintmax_t>(value)`. -/
def toUintmaxT (value : source.Value) : uintmaxT.Value := convert uintmaxT.toIntegerType value

/-- `in_range<To>(value)`. -/
def inRange (target : IntegralType) (value : source.Value) : Bool :=
  match source.signed, target.signed with
  | false, false => uintmaxT.le (toUintmaxT value) (toUintmaxT target.max)
  | true, true =>
      intmaxT.le (toIntmaxT target.lowest) (toIntmaxT value) &&
        intmaxT.le (toIntmaxT value) (toIntmaxT target.max)
  | true, false =>
      if source.lt value (source.ofInt 0) then false
      else uintmaxT.le (toUintmaxT value) (toUintmaxT target.max)
  | false, true => uintmaxT.le (toUintmaxT value) (toUintmaxT target.max)

/-- `asserting_cast<To>(value)`; there is no result when the assertion fails. -/
def assertingCast (target : IntegralType) (value : source.Value) : Option target.Value :=
  if inRange target value then some (convert target.toIntegerType value) else none

/-- The `std::range_error` of a value: its text is the value followed by `message`. -/
structure RangeError (source : IntegralType) where
  value : source.Value
  message : String

/-- `throwing_cast<To>(value)`. -/
def throwingCast (target : IntegralType) (value : source.Value) :
    Except (RangeError source) target.Value :=
  if inRange target value then .ok (convert target.toIntegerType value)
  else .error ⟨value, " is not representable by the target type."⟩

/-! ## Range -/

/-- The non-negative values of every type are converted to `uintmax_t` exactly. -/
theorem toInt_toUintmaxT {value : source.Value} (hnonneg : 0 ≤ source.toInt value) :
    uintmaxT.toInt (toUintmaxT value) = source.toInt value := by
  apply toInt_convert
  · exact hnonneg
  · exact le_trans (toInt_le_max value) (toInt_max_le_of_unsigned rfl source.width_le)

/-- All values of a signed type are converted to `intmax_t` exactly. -/
theorem toInt_toIntmaxT (hsigned : source.signed = true) (value : source.Value) :
    intmaxT.toInt (toIntmaxT value) = source.toInt value := by
  apply toInt_convert
  · exact le_trans (toInt_lowest_le_lowest hsigned source.width_le) (toInt_lowest_le value)
  · exact le_trans (toInt_le_max value) (toInt_max_le_max hsigned source.width_le)

/-- The comparison in `uintmax_t` with the greatest value of the target type. -/
theorem le_toUintmaxT_iff {target : IntegralType} {value : source.Value}
    (hnonneg : 0 ≤ source.toInt value) :
    uintmaxT.le (toUintmaxT value) (toUintmaxT target.max) = true ↔
      source.toInt value ≤ target.toInt target.max :=
  le_convert_iff (toInt_toUintmaxT hnonneg) (toInt_toUintmaxT target.toInt_max_nonneg)

/-- `in_range` decides whether the target type represents the integer. -/
theorem inRange_iff (target : IntegralType) (value : source.Value) :
    inRange target value = true ↔
      target.toInt target.lowest ≤ source.toInt value ∧
        source.toInt value ≤ target.toInt target.max := by
  have hlowest := toInt_lowest_le value
  rw [inRange]
  split
  case h_1 hsource htarget =>
    -- Both limits from below are zero.
    rw [toInt_lowest_of_unsigned hsource] at hlowest
    rw [toInt_lowest_of_unsigned htarget, le_toUintmaxT_iff hlowest]
    exact (and_iff_right hlowest).symm
  case h_2 hsource htarget =>
    rw [Bool.and_eq_true, toIntmaxT, toIntmaxT, toIntmaxT,
      le_convert_iff (toInt_toIntmaxT htarget _) (toInt_toIntmaxT hsource _),
      le_convert_iff (toInt_toIntmaxT hsource _) (toInt_toIntmaxT htarget _)]
  case h_3 hsource htarget =>
    rw [toInt_lowest_of_unsigned htarget]
    by_cases hneg : source.lt value (source.ofInt 0) = true
    · rw [if_pos hneg]
      rw [lt_iff, toInt_zero] at hneg
      exact ⟨fun hfalse => absurd hfalse Bool.false_ne_true,
        fun hin => absurd hin.1 (not_le.mpr hneg)⟩
    · rw [if_neg hneg]
      rw [lt_iff, toInt_zero, not_lt] at hneg
      rw [le_toUintmaxT_iff hneg]
      exact (and_iff_right hneg).symm
  case h_4 hsource htarget =>
    -- The least value of a signed type lies below every unsigned value.
    rw [toInt_lowest_of_unsigned hsource] at hlowest
    rw [le_toUintmaxT_iff hlowest]
    exact (and_iff_right (le_trans target.toInt_lowest_nonpos hlowest)).symm

/-! ## Casts -/

section Casts

variable {target : IntegralType} {value : source.Value}

/-- A value in range is converted to the same integer, and back to itself. -/
theorem convert_of_inRange (hrange : inRange target value = true) :
    target.toInt (convert target.toIntegerType value) = source.toInt value ∧
      convert source.toIntegerType (convert target.toIntegerType value) = value := by
  obtain ⟨hlowest, hmax⟩ := (inRange_iff target value).mp hrange
  have hexact := toInt_convert hlowest hmax
  exact ⟨hexact, convert_convert hexact⟩

theorem assertingCast_eq_some_iff {result : target.Value} :
    assertingCast target value = some result ↔
      inRange target value = true ∧ convert target.toIntegerType value = result := by
  rw [assertingCast, Option.ite_none_right_eq_some, Option.some_inj]

theorem throwingCast_eq_ok_iff {result : target.Value} :
    throwingCast target value = .ok result ↔
      inRange target value = true ∧ convert target.toIntegerType value = result := by
  rw [throwingCast]
  by_cases hrange : inRange target value = true
  · rw [if_pos hrange, Except.ok.injEq, and_iff_right hrange]
  · rw [if_neg hrange]
    exact ⟨nofun, fun hok => absurd hok.1 hrange⟩

end Casts

/-- `in_range` decides representability, and the casts that it lets pass are exact:
the result denotes the same integer, and the cast back gives the value. -/
theorem checkingCasts_exact (target : IntegralType) (value : source.Value) :
    (inRange target value = true ↔
        target.toInt target.lowest ≤ source.toInt value ∧
          source.toInt value ≤ target.toInt target.max) ∧
      (∀ result : target.Value,
        assertingCast target value = some result ∨ throwingCast target value = .ok result →
          target.toInt result = source.toInt value ∧
            convert source.toIntegerType result = value) := by
  refine ⟨inRange_iff target value, fun result hpassed => ?_⟩
  rw [assertingCast_eq_some_iff, throwingCast_eq_ok_iff, or_self] at hpassed
  obtain ⟨hrange, rfl⟩ := hpassed
  exact convert_of_inRange hrange

/-- `in_range<int8_t>` of `uint8_t` values, as the tests check it. -/
example :
    let uint8 : IntegralType := ⟨⟨8, false, by decide⟩, by decide⟩
    let int8 : IntegralType := ⟨⟨8, true, by decide⟩, by decide⟩
    inRange int8 (uint8.ofInt 10) = true ∧ inRange int8 (uint8.ofInt 200) = false := by
  decide

end MpiBindings.Integers
