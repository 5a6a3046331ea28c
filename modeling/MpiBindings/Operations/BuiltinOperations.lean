import Mathlib.Order.Lattice
import Mathlib.Order.MinMax
import Mathlib.Data.Int.Order.Basic

/-!
# Builtin reduction operations on integer types

For an integer type all ten operations are builtin, and `mpi_operation_traits` declares
an identity for each of them.  The operations are associative and commutative.  The
declared values are identities of the arithmetic, the bitwise and the order operations;
the logical operations return truth values, so they have no identity among all integers.
-/

namespace MpiBindings.Operations

/-! ## Integer types -/

/-- An integer type: its number of bits and whether it is signed. -/
structure IntegerType where
  width : ℕ
  signed : Bool
  width_pos : 0 < width
deriving DecidableEq

namespace IntegerType

variable (T : IntegerType)

abbrev Value := BitVec T.width

/-- The number that a value stands for. -/
def toInt (value : T.Value) : ℤ :=
  if T.signed then value.toInt else (value.toNat : ℤ)

/-- `operator<`. -/
def lt (lhs rhs : T.Value) : Bool :=
  if T.signed then lhs.slt rhs else lhs.ult rhs

/-- `std::numeric_limits<T>::lowest()`. -/
def lowest : T.Value := if T.signed then BitVec.intMin T.width else 0

/-- `std::numeric_limits<T>::max()`. -/
def max : T.Value := if T.signed then BitVec.intMax T.width else BitVec.allOnes T.width

/-- Conversion of a truth value. -/
def ofBool (value : Bool) : T.Value := if value then 1 else 0

/-- Conversion to a truth value. -/
def toBool (value : T.Value) : Bool := decide (value ≠ 0)

variable {T}

theorem toInt_injective : Function.Injective T.toInt := by
  intro left right hsame
  unfold toInt at hsame
  split_ifs at hsame
  · exact BitVec.toInt_inj.mp hsame
  · exact BitVec.eq_of_toNat_eq (Int.ofNat_inj.mp hsame)

theorem lt_iff (lhs rhs : T.Value) : T.lt lhs rhs = true ↔ T.toInt lhs < T.toInt rhs := by
  unfold lt toInt
  split_ifs
  · exact BitVec.slt_iff_toInt_lt
  · rw [BitVec.ult_iff_toNat_lt, Int.ofNat_lt]

theorem toInt_lowest_le (value : T.Value) : T.toInt T.lowest ≤ T.toInt value := by
  unfold toInt lowest
  split_ifs
  · exact BitVec.toInt_intMin_le value
  · simp

theorem toInt_le_max (value : T.Value) : T.toInt value ≤ T.toInt T.max := by
  unfold toInt max
  split_ifs
  · rw [BitVec.toInt_intMax]
    have hlt := BitVec.toInt_lt (x := value)
    omega
  · have hlt := value.isLt
    rw [BitVec.toNat_allOnes]
    omega

theorem one_ne_zero : (1 : T.Value) ≠ 0 := by
  intro hsame
  have hnat := congrArg BitVec.toNat hsame
  have hpos := T.width_pos
  simp [Nat.mod_eq_of_lt (Nat.one_lt_two_pow (Nat.pos_iff_ne_zero.mp hpos))] at hnat

@[simp]
theorem toBool_ofBool (value : Bool) : T.toBool (T.ofBool value) = value := by
  cases value with
  | false => exact decide_eq_false (not_not_intro rfl)
  | true => exact decide_eq_true one_ne_zero

/-- Conversion to a truth value and back keeps the two truth values. -/
theorem ofBool_toBool_eq_iff (value : T.Value) :
    T.ofBool (T.toBool value) = value ↔ value = 0 ∨ value = 1 := by
  constructor
  · intro hvalue
    rw [← hvalue]
    cases T.toBool value with
    | false => exact Or.inl rfl
    | true => exact Or.inr rfl
  · rintro (rfl | rfl)
    · exact congrArg T.ofBool (toBool_ofBool false)
    · exact congrArg T.ofBool (toBool_ofBool true)

end IntegerType

/-! ## Operations -/

/-- The builtin operations. -/
inductive BuiltinOperation
  | max
  | min
  | plus
  | multiplies
  | logicalAnd
  | logicalOr
  | logicalXor
  | bitAnd
  | bitOr
  | bitXor
deriving DecidableEq, Repr

namespace BuiltinOperation

variable (T : IntegerType)

/-- The function objects of the operations. -/
def call : BuiltinOperation → T.Value → T.Value → T.Value
  | max, lhs, rhs => if T.lt lhs rhs then rhs else lhs
  | min, lhs, rhs => if T.lt rhs lhs then rhs else lhs
  | plus, lhs, rhs => lhs + rhs
  | multiplies, lhs, rhs => lhs * rhs
  | logicalAnd, lhs, rhs => T.ofBool (T.toBool lhs && T.toBool rhs)
  | logicalOr, lhs, rhs => T.ofBool (T.toBool lhs || T.toBool rhs)
  | logicalXor, lhs, rhs =>
      T.ofBool ((T.toBool lhs && !T.toBool rhs) || (!T.toBool lhs && T.toBool rhs))
  | bitAnd, lhs, rhs => lhs &&& rhs
  | bitOr, lhs, rhs => lhs ||| rhs
  | bitXor, lhs, rhs => lhs ^^^ rhs

/-- `mpi_operation_traits<Op, T>::identity`. -/
def identity : BuiltinOperation → T.Value
  | max => T.lowest
  | min => T.max
  | plus => 0
  | multiplies => 1
  | logicalAnd => T.ofBool true
  | logicalOr => T.ofBool false
  | logicalXor => T.ofBool false
  | bitAnd => ~~~0
  | bitOr => 0
  | bitXor => 0

/-- The operations that return truth values. -/
def IsLogical : BuiltinOperation → Prop
  | logicalAnd | logicalOr | logicalXor => True
  | _ => False

instance (op : BuiltinOperation) : Decidable op.IsLogical := by
  cases op <;> unfold IsLogical <;> infer_instance

variable {T}

theorem toInt_call_max (lhs rhs : T.Value) :
    T.toInt (max.call T lhs rhs) = Max.max (T.toInt lhs) (T.toInt rhs) := by
  simp only [call, IntegerType.lt_iff]
  split_ifs <;> omega

theorem toInt_call_min (lhs rhs : T.Value) :
    T.toInt (min.call T lhs rhs) = Min.min (T.toInt lhs) (T.toInt rhs) := by
  simp only [call, IntegerType.lt_iff]
  split_ifs <;> omega

theorem call_comm (op : BuiltinOperation) (lhs rhs : T.Value) :
    op.call T lhs rhs = op.call T rhs lhs := by
  cases op with
  | max =>
      apply IntegerType.toInt_injective
      rw [toInt_call_max, toInt_call_max, max_comm]
  | min =>
      apply IntegerType.toInt_injective
      rw [toInt_call_min, toInt_call_min, min_comm]
  | plus => exact BitVec.add_comm lhs rhs
  | multiplies => exact BitVec.mul_comm lhs rhs
  | logicalAnd => exact congrArg T.ofBool (Bool.and_comm _ _)
  | logicalOr => exact congrArg T.ofBool (Bool.or_comm _ _)
  | logicalXor =>
      refine congrArg T.ofBool ?_
      rw [Bool.or_comm, Bool.and_comm, Bool.and_comm (T.toBool lhs)]
  | bitAnd => exact BitVec.and_comm lhs rhs
  | bitOr => exact BitVec.or_comm lhs rhs
  | bitXor => exact BitVec.xor_comm lhs rhs

theorem call_assoc (op : BuiltinOperation) (a b c : T.Value) :
    op.call T (op.call T a b) c = op.call T a (op.call T b c) := by
  cases op with
  | max =>
      apply IntegerType.toInt_injective
      simp only [toInt_call_max, max_assoc]
  | min =>
      apply IntegerType.toInt_injective
      simp only [toInt_call_min, min_assoc]
  | plus => exact BitVec.add_assoc a b c
  | multiplies => exact BitVec.mul_assoc a b c
  | logicalAnd | logicalOr | logicalXor =>
      simp only [call, IntegerType.toBool_ofBool]
      cases T.toBool a <;> cases T.toBool b <;> cases T.toBool c <;> rfl
  | bitAnd => exact BitVec.and_assoc a b c
  | bitOr => exact BitVec.or_assoc a b c
  | bitXor => exact BitVec.xor_assoc a b c

instance (op : BuiltinOperation) : Std.Associative (op.call T) := ⟨call_assoc op⟩

instance (op : BuiltinOperation) : Std.Commutative (op.call T) := ⟨call_comm op⟩

/-- The declared identity keeps a value exactly if the operation is not logical or the
value is a truth value. -/
theorem call_identity_eq_iff (op : BuiltinOperation) (value : T.Value) :
    op.call T (op.identity T) value = value ↔ (op.IsLogical → value = 0 ∨ value = 1) := by
  cases op with
  | max =>
      refine iff_of_true ?_ fun h => h.elim
      apply IntegerType.toInt_injective
      rw [toInt_call_max]
      exact max_eq_right (IntegerType.toInt_lowest_le value)
  | min =>
      refine iff_of_true ?_ fun h => h.elim
      apply IntegerType.toInt_injective
      rw [toInt_call_min]
      exact min_eq_right (IntegerType.toInt_le_max value)
  | plus => exact iff_of_true (BitVec.zero_add value) fun h => h.elim
  | multiplies => exact iff_of_true (BitVec.one_mul value) fun h => h.elim
  | logicalAnd | logicalOr | logicalXor =>
      rw [← IntegerType.ofBool_toBool_eq_iff]
      simp [call, identity, IsLogical]
  | bitAnd => exact iff_of_true (by simp [call, identity]) fun h => h.elim
  | bitOr => exact iff_of_true (BitVec.zero_or ..) fun h => h.elim
  | bitXor => exact iff_of_true (BitVec.zero_xor ..) fun h => h.elim

end BuiltinOperation

end MpiBindings.Operations
