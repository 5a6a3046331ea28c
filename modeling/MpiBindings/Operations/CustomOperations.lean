import Mathlib.Data.List.Basic
import Mathlib.Logic.Function.Basic

/-!
# Custom reduction operations

MPI calls a function pointer that has no context.  A functor type gets a function
that constructs a functor of its own, and a closure type gets a function that reads
a variable which the first construction for this type has set.  The callback of an
operation is that operation only if these stand-ins behave like it.
-/

namespace MpiBindings.Operations

/-! ## Operations -/

/-- The instantiations `ReduceOperation<T, Op, Commutative>` of a program for custom
operations. -/
structure OperationTypes (ι : Type) where
  T : ι → Type
  Op : ι → Type
  call : (i : ι) → Op i → T i → T i → T i
  /-- The value of `Op{}`, if the type is default constructible. -/
  construct : (i : ι) → Option (Op i)
  commutative : ι → Bool

/-- The functions that the library registers: `UserOperationWrapper::execute` and the
function of the constructor for closures. -/
inductive FunctionPtr (ι : Type)
  | execute (i : ι)
  | lambda (i : ι)
deriving DecidableEq

def FunctionPtr.instantiation {ι : Type} : FunctionPtr ι → ι
  | .execute i => i
  | .lambda i => i

structure MpiOperation (ι : Type) where
  function : FunctionPtr ι
  commute : Bool

/-- The operations that MPI knows by their handles, and the variables `func`. -/
structure Process {ι : Type} (types : OperationTypes ι) where
  mpiOps : List (Option (MpiOperation ι))
  func : (i : ι) → Option (types.Op i)

structure UserOperationWrapper {ι : Type} (types : OperationTypes ι) (i : ι) where
  operation : types.Op i
  mpiOp : ℕ

structure UserOperationPtrWrapper where
  noOp : Bool
  mpiOp : Option ℕ

inductive ReduceOperation {ι : Type} (types : OperationTypes ι) (i : ι)
  | functor (operation : UserOperationWrapper types i)
  | lambda (op : types.Op i) (operation : UserOperationPtrWrapper)

variable {ι : Type} {types : OperationTypes ι} {i : ι}

namespace Process

def initial : Process types where
  mpiOps := []
  func _ := none

/-- `MPI_Op_create`. -/
def opCreate (process : Process types) (operation : MpiOperation ι) : ℕ × Process types :=
  (process.mpiOps.length, { process with mpiOps := process.mpiOps ++ [some operation] })

/-- `MPI_Op_free`. -/
def opFree (process : Process types) (mpiOp : ℕ) : Process types :=
  { process with mpiOps := process.mpiOps.set mpiOp none }

/-- A static variable of a function is initialized when its definition is reached first. -/
def initFunc [DecidableEq ι] (process : Process types) (i : ι) (op : types.Op i) :
    Process types :=
  match process.func i with
  | some _ => process
  | none => { process with func := Function.update process.func i (some op) }

end Process

namespace UserOperationPtrWrapper

def empty : UserOperationPtrWrapper := ⟨true, none⟩

def construct (process : Process types) (operation : MpiOperation ι) :
    UserOperationPtrWrapper × Process types :=
  let (mpiOp, process) := process.opCreate operation
  (⟨false, some mpiOp⟩, process)

/-- The target and the source after a move assignment. -/
def moveAssign (_this other : UserOperationPtrWrapper) :
    UserOperationPtrWrapper × UserOperationPtrWrapper :=
  (⟨other.noOp, other.mpiOp⟩, { other with noOp := true })

def destroy (this : UserOperationPtrWrapper) (process : Process types) : Process types :=
  match this.noOp, this.mpiOp with
  | false, some mpiOp => process.opFree mpiOp
  | _, _ => process

end UserOperationPtrWrapper

namespace ReduceOperation

/-- The constructor for functor types. -/
def constructFunctor (process : Process types) (i : ι) (op : types.Op i) :
    ReduceOperation types i × Process types :=
  let (mpiOp, process) := process.opCreate ⟨.execute i, types.commutative i⟩
  (.functor ⟨op, mpiOp⟩, process)

/-- The constructor for closure types. -/
def constructLambda [DecidableEq ι] (process : Process types) (i : ι) (op : types.Op i) :
    ReduceOperation types i × Process types :=
  let operation := UserOperationPtrWrapper.empty
  let process := process.initFunc i op
  let (temporary, process) :=
    UserOperationPtrWrapper.construct process ⟨.lambda i, types.commutative i⟩
  let (operation, temporary) := operation.moveAssign temporary
  (.lambda op operation, temporary.destroy process)

/-- The specialization for closures is chosen if the type is not default constructible. -/
def construct [DecidableEq ι] (process : Process types) (i : ι) (op : types.Op i) :
    ReduceOperation types i × Process types :=
  match types.construct i with
  | some _ => constructFunctor process i op
  | none => constructLambda process i op

/-- `operator()`. -/
def call : ReduceOperation types i → types.T i → types.T i → types.T i
  | .functor operation => types.call i operation.operation
  | .lambda op _ => types.call i op

def op : ReduceOperation types i → Option ℕ
  | .functor operation => some operation.mpiOp
  | .lambda _ operation => operation.mpiOp

end ReduceOperation

/-- An object that is passed to a constructor. -/
abbrev Construction (types : OperationTypes ι) := (i : ι) × types.Op i

def constructAll [DecidableEq ι] (process : Process types)
    (constructions : List (Construction types)) : Process types :=
  constructions.foldl (fun process construction =>
    (ReduceOperation.construct process construction.1 construction.2).2) process

/-! ## Callbacks -/

/-- `std::transform` on the first elements of two arrays, in place of the second. -/
def transform {T : Type} (invec inoutvec : List T) (len : ℕ) (op : T → T → T) :
    Option (List T) :=
  (List.range len).foldlM (fun inoutvec i =>
    match invec[i]?, inoutvec[i]? with
    | some lhs, some rhs => some (inoutvec.set i (op lhs rhs))
    | _, _ => none) inoutvec

/-- The functor that a registered function applies. -/
def FunctionPtr.functor (process : Process types) :
    (function : FunctionPtr ι) → Option (types.Op function.instantiation)
  | .execute i => types.construct i
  | .lambda i => process.func i

def FunctionPtr.run (process : Process types) (function : FunctionPtr ι)
    (invec inoutvec : List (types.T function.instantiation)) (len : ℕ) :
    Option (List (types.T function.instantiation)) :=
  (function.functor process).bind fun op =>
    transform invec inoutvec len (types.call function.instantiation op)

/-- MPI calls the function of an operation on arrays of the given type. -/
def Process.callback [DecidableEq ι] (process : Process types) (mpiOp : Option ℕ)
    (invec inoutvec : List (types.T i)) (len : ℕ) : Option (List (types.T i)) :=
  match mpiOp.bind fun mpiOp => process.mpiOps[mpiOp]? with
  | some (some operation) =>
      if hi : operation.function.instantiation = i then
        hi ▸ operation.function.run process (hi ▸ invec) (hi ▸ inoutvec) len
      else none
  | _ => none

/-- The first elements are combined and the others are kept. -/
theorem transform_eq {T : Type} (op : T → T → T) (invec inoutvec : List T) {len : ℕ}
    (hin : len ≤ invec.length) (hinout : len ≤ inoutvec.length) :
    transform invec inoutvec len op =
      some (List.zipWith op (invec.take len) (inoutvec.take len) ++ inoutvec.drop len) := by
  induction len with
  | zero => rfl
  | succ len ih =>
      have hlhs : invec[len]? = some invec[len] := List.getElem?_eq_getElem hin
      have hlength : (List.zipWith op (invec.take len) (inoutvec.take len)).length = len := by
        rw [List.length_zipWith, List.length_take, List.length_take]
        omega
      have hdrop : inoutvec.drop len = inoutvec[len] :: inoutvec.drop (len + 1) :=
        List.drop_eq_getElem_cons hinout
      have ih := ih (Nat.le_of_succ_le hin) (Nat.le_of_succ_le hinout)
      rw [transform] at ih ⊢
      rw [List.range_succ, List.foldlM_append, ih, Option.bind_eq_bind, Option.bind_some,
        List.foldlM_cons, hlhs, List.getElem?_append_right (Nat.le_of_eq hlength), hlength,
        Nat.sub_self, hdrop, List.getElem?_cons_zero]
      simp only [Option.bind_eq_bind, Option.bind_some, List.foldlM_nil]
      rw [List.set_append_right _ _ (Nat.le_of_eq hlength), hlength, Nat.sub_self,
        List.set_cons_zero, List.take_succ_eq_append_getElem hin,
        List.take_succ_eq_append_getElem hinout, List.zipWith_append (by
          rw [List.length_take, List.length_take]
          omega), List.append_assoc]
      rfl

/-! ## Constructions -/

section Constructions

variable [DecidableEq ι]

/-- The first object that was passed for a type. -/
def firstConstructed (constructions : List (Construction types)) (i : ι) :
    Option (types.Op i) :=
  constructions.findSome? fun construction =>
    if hi : construction.1 = i then some (hi ▸ construction.2) else none

theorem firstConstructed_concat (constructions : List (Construction types)) (i : ι)
    (op : types.Op i) :
    firstConstructed (constructions ++ [⟨i, op⟩]) i =
      some ((firstConstructed constructions i).getD op) := by
  rw [firstConstructed, List.findSome?_append]
  change (firstConstructed constructions i).or _ = _
  cases firstConstructed constructions i <;> simp

theorem firstConstructed_concat_of_ne (constructions : List (Construction types)) {i j : ι}
    (hne : j ≠ i) (op : types.Op j) :
    firstConstructed (constructions ++ [⟨j, op⟩]) i = firstConstructed constructions i := by
  rw [firstConstructed, List.findSome?_append]
  change (firstConstructed constructions i).or _ = _
  cases firstConstructed constructions i <;> simp [hne]

/-- The function that the constructor for a type registers. -/
def OperationTypes.function (types : OperationTypes ι) (i : ι) : FunctionPtr ι :=
  match types.construct i with
  | some _ => .execute i
  | none => .lambda i

theorem mpiOps_initFunc (process : Process types) (op : types.Op i) :
    (process.initFunc i op).mpiOps = process.mpiOps := by
  rw [Process.initFunc]
  cases process.func i <;> rfl

/-- A construction creates one operation. -/
theorem mpiOps_construct (process : Process types) (op : types.Op i) :
    (ReduceOperation.construct process i op).2.mpiOps =
      process.mpiOps ++ [some ⟨types.function i, types.commutative i⟩] := by
  rw [ReduceOperation.construct, OperationTypes.function]
  cases types.construct i with
  | some functor => rfl
  | none =>
      change (process.initFunc i op).mpiOps ++ _ = _
      rw [mpiOps_initFunc]

theorem op_construct (process : Process types) (op : types.Op i) :
    (ReduceOperation.construct process i op).1.op = some process.mpiOps.length := by
  rw [ReduceOperation.construct]
  cases types.construct i with
  | some functor => rfl
  | none =>
      change some (process.initFunc i op).mpiOps.length = _
      rw [mpiOps_initFunc]

theorem call_construct (process : Process types) (op : types.Op i) :
    (ReduceOperation.construct process i op).1.call = types.call i op := by
  rw [ReduceOperation.construct]
  cases types.construct i <;> rfl

/-- The variables of closure types hold the objects that were passed first. -/
def Process.FirstObjects (process : Process types)
    (constructions : List (Construction types)) : Prop :=
  ∀ i, types.construct i = none → process.func i = firstConstructed constructions i

theorem func_initFunc (process : Process types) (op : types.Op i) :
    (process.initFunc i op).func i = some ((process.func i).getD op) := by
  rw [Process.initFunc]
  cases hfunc : process.func i with
  | some func => exact hfunc
  | none => exact Function.update_self ..

theorem func_initFunc_of_ne (process : Process types) (op : types.Op i) {j : ι} (hne : j ≠ i) :
    (process.initFunc i op).func j = process.func j := by
  rw [Process.initFunc]
  cases process.func i with
  | some func => rfl
  | none => exact Function.update_of_ne hne ..

theorem Process.FirstObjects.construct {process : Process types}
    {constructions : List (Construction types)} (h : process.FirstObjects constructions)
    (construction : Construction types) :
    (ReduceOperation.construct process construction.1 construction.2).2.FirstObjects
      (constructions ++ [construction]) := by
  obtain ⟨j, op⟩ := construction
  intro i hi
  obtain rfl | hne := eq_or_ne i j
  · rw [firstConstructed_concat, ← h i hi]
    simp only [ReduceOperation.construct, hi]
    exact func_initFunc process op
  · rw [firstConstructed_concat_of_ne _ hne.symm, ← h i hi, ReduceOperation.construct]
    cases types.construct j with
    | some functor => rfl
    | none => exact func_initFunc_of_ne process op hne

theorem Process.FirstObjects.constructAll {process : Process types}
    {before : List (Construction types)} (h : process.FirstObjects before)
    (constructions : List (Construction types)) :
    (constructAll process constructions).FirstObjects (before ++ constructions) := by
  induction constructions generalizing process before with
  | nil => rwa [List.append_nil]
  | cons construction constructions ih =>
      have hnext := ih (h.construct construction)
      rwa [List.append_assoc, List.singleton_append] at hnext

/-- Operations that exist are kept. -/
theorem mpiOps_constructAll (process : Process types)
    (constructions : List (Construction types)) :
    process.mpiOps <+: (constructAll process constructions).mpiOps := by
  induction constructions generalizing process with
  | nil => exact List.prefix_rfl
  | cons construction constructions ih =>
      refine List.IsPrefix.trans ?_ (ih _)
      rw [mpiOps_construct]
      exact List.prefix_append _ _

theorem firstObjects_initial : (Process.initial : Process types).FirstObjects [] :=
  fun _ _ => rfl

/-! ## Main result -/

/-- The functor that the callback of an operation applies: a functor of its own for a
functor type, the object that was passed first for a closure type. -/
def standIn (before : List (Construction types)) (i : ι) (op : types.Op i) : types.Op i :=
  match types.construct i with
  | some functor => functor
  | none => (firstConstructed before i).getD op

theorem callback_of_mpiOp {process : Process types} {mpiOp : ℕ} {commute : Bool}
    (function : FunctionPtr ι)
    (hmpiOp : process.mpiOps[mpiOp]? = some (some ⟨function, commute⟩))
    (invec inoutvec : List (types.T function.instantiation)) (len : ℕ) :
    process.callback (some mpiOp) invec inoutvec len =
      function.run process invec inoutvec len := by
  simp only [Process.callback, Option.bind_some, hmpiOp, dif_pos]

/-- The callback of an operation at any later time. -/
theorem callback_eq (before after : List (Construction types)) (i : ι) (op : types.Op i)
    (invec inoutvec : List (types.T i)) (len : ℕ) :
    let (operation, process) := ReduceOperation.construct (constructAll .initial before) i op
    (constructAll process after).callback operation.op invec inoutvec len =
      transform invec inoutvec len (types.call i (standIn before i op)) := by
  have hfirst := ((firstObjects_initial.constructAll before).construct ⟨i, op⟩).constructAll after
  rw [List.nil_append] at hfirst
  have hcreated := mpiOps_construct (constructAll .initial before) op
  have hop := op_construct (constructAll .initial before) op
  have hkept := mpiOps_constructAll
    (ReduceOperation.construct (constructAll .initial before) i op).2 after
  generalize ReduceOperation.construct (constructAll .initial before) i op = constructed
    at hfirst hcreated hop hkept
  obtain ⟨operation, process⟩ := constructed
  have hmpiOp : (constructAll process after).mpiOps[
      (constructAll Process.initial before).mpiOps.length]? =
        some (some ⟨types.function i, types.commutative i⟩) := by
    obtain ⟨later, hlater⟩ := hkept
    rw [← hlater, hcreated, List.append_assoc, List.getElem?_append_right (Nat.le_refl _),
      Nat.sub_self]
    rfl
  simp only [hop]
  cases hconstruct : types.construct i with
  | some functor =>
      have hfunction : types.function i = .execute i := by
        rw [OperationTypes.function, hconstruct]
      rw [hfunction] at hmpiOp
      refine (callback_of_mpiOp (.execute i) hmpiOp invec inoutvec len).trans ?_
      simp only [FunctionPtr.run, FunctionPtr.functor, hconstruct, standIn]
      rfl
  | none =>
      have hfunction : types.function i = .lambda i := by
        rw [OperationTypes.function, hconstruct]
      rw [hfunction] at hmpiOp
      refine (callback_of_mpiOp (.lambda i) hmpiOp invec inoutvec len).trans ?_
      have hfunc : (constructAll process after).func i =
          some ((firstConstructed before i).getD op) := by
        rw [hfirst i hconstruct, firstConstructed, List.findSome?_append]
        change (firstConstructed (before ++ [⟨i, op⟩]) i).or _ = _
        rw [firstConstructed_concat, Option.some_or]
      simp only [FunctionPtr.run, FunctionPtr.functor, hfunc, standIn, hconstruct]
      rfl

/-- The callback combines the elements of the arrays by the operation. -/
def Process.CallbackIsOperation (process : Process types)
    (operation : ReduceOperation types i) : Prop :=
  ∀ (invec inoutvec : List (types.T i)) (len : ℕ),
    len ≤ invec.length → len ≤ inoutvec.length →
      process.callback operation.op invec inoutvec len =
        some (List.zipWith operation.call (invec.take len) (inoutvec.take len) ++
          inoutvec.drop len)

/-- Main theorem: after any other constructions, earlier or later, the callback of an
operation is that operation exactly if its stand-in behaves like the object that was
passed. -/
theorem callbackIsOperation_iff (before after : List (Construction types)) (i : ι)
    (op : types.Op i) :
    let (operation, process) := ReduceOperation.construct (constructAll .initial before) i op
    operation.call = types.call i op ∧
      ((constructAll process after).CallbackIsOperation operation ↔
        ∀ lhs rhs, types.call i (standIn before i op) lhs rhs = types.call i op lhs rhs) := by
  have hcall := call_construct (constructAll .initial before) op
  have hcallback := callback_eq before after i op
  generalize ReduceOperation.construct (constructAll .initial before) i op = constructed
    at hcall hcallback
  obtain ⟨operation, process⟩ := constructed
  refine ⟨hcall, fun h lhs rhs => ?_, fun h invec inoutvec len hin hinout => ?_⟩
  · have hone := h [lhs] [rhs] 1 (Nat.le_refl 1) (Nat.le_refl 1)
    rw [hcallback, hcall, transform_eq _ _ _ (Nat.le_refl 1) (Nat.le_refl 1)] at hone
    simpa using hone
  · have hsame : types.call i (standIn before i op) = types.call i op :=
      funext fun lhs => funext fun rhs => h lhs rhs
    rw [hcallback, hsame, hcall, transform_eq _ _ _ hin hinout]

end Constructions

/-- A functor type and a closure type of addition with an offset. -/
inductive OffsetAddition
  | functor
  | closure
deriving DecidableEq

def offsetAdditions : OperationTypes OffsetAddition where
  T _ := ℕ
  Op _ := ℕ
  call _ offset lhs rhs := lhs + rhs + offset
  construct
    | .functor => some 0
    | .closure => none
  commutative _ := true

/-- The callbacks of a functor with an offset and of a second closure lose the offset. -/
theorem callback_loses_offset :
    (let constructed := ReduceOperation.construct
        (Process.initial : Process offsetAdditions) .functor (1 : ℕ);
      ¬ constructed.2.CallbackIsOperation constructed.1) ∧
    (let constructed := ReduceOperation.construct
        (constructAll (Process.initial : Process offsetAdditions) [⟨.closure, (0 : ℕ)⟩])
        .closure (1 : ℕ);
      ¬ constructed.2.CallbackIsOperation constructed.1) :=
  ⟨fun h => absurd (a := some [(0 : ℕ)] = some [1])
      (h [(0 : ℕ)] [(0 : ℕ)] 1 (Nat.le_refl 1) (Nat.le_refl 1)) (by decide),
    fun h => absurd (a := some [(0 : ℕ)] = some [1])
      (h [(0 : ℕ)] [(0 : ℕ)] 1 (Nat.le_refl 1) (Nat.le_refl 1)) (by decide)⟩

end MpiBindings.Operations
