import MpiBindings.Core.SessionTrace
import Mathlib.Logic.Function.Basic

/-!
# Life of the MPI environment

Environment objects initialize and finalize MPI, depending on their mode.  All of them share
one list of MPI types that are freed when MPI is finalized.  Scoped types free themselves.
The program may also call MPI directly.

An operation fails when an assertion of the library fails or when the program breaks a rule
that the library leaves to it.  What the library does on its own is never checked here: it
only extends the trace of MPI calls.
-/

namespace MpiBindings.Environments

open Session

/-- An MPI type; `MPI_DATATYPE_NULL` is no type. -/
abbrev Datatype := ℕ

inductive InitMPIMode
  | initFinalize
  | noInitFinalize
  | initFinalizeIfNecessary
deriving DecidableEq, Repr

/-- `Environment`. -/
structure Environment where
  mode : InitMPIMode
  finalize : Bool
deriving DecidableEq, Repr

/-- The condition in the destructor. -/
def Environment.finalizes (environment : Environment) : Bool :=
  environment.mode = .initFinalize ∨
    environment.mode = .initFinalizeIfNecessary ∧ environment.finalize

/-- Objects by their names, the types that the library knows, and the trace of MPI calls.  `K`
are the C++ types that have to be committed. -/
structure EnvState (K : Type) where
  calls : List (SessionCall Datatype)
  environments : ℕ → Option Environment
  /-- `internal::registered_mpi_types`. -/
  registeredMpiTypes : List (Option Datatype)
  /-- The static variables of `mpi_datatype`. -/
  staticTypes : K → Option Datatype
  /-- Objects are numbered in the order of their construction. -/
  scopedDatatypes : ℕ → Option (Option Datatype)
  nextScoped : ℕ
  nextType : Datatype
  /-- Types that were registered at any time. -/
  everRegistered : List Datatype
  /-- Whether registered types were freed at any time. -/
  freedRegistered : Bool

namespace EnvState

variable {K : Type}

def start : EnvState K := ⟨[], fun _ => none, [], fun _ => none, fun _ => none, 0, 0, [], false⟩

def call (state : EnvState K) (call : SessionCall Datatype) : EnvState K :=
  { state with calls := call :: state.calls }

/-- Store an environment, or end its life. -/
def store (state : EnvState K) (name : ℕ) (environment : Option Environment) : EnvState K :=
  { state with environments := Function.update state.environments name environment }

def storeScoped (state : EnvState K) (name : ℕ) (object : Option (Option Datatype)) :
    EnvState K :=
  { state with scopedDatatypes := Function.update state.scopedDatatypes name object }

/-! ## Functions of the environment -/

def initialized (state : EnvState K) : Bool := .init ∈ state.calls

def finalized (state : EnvState K) : Bool := .finalize ∈ state.calls

def init (state : EnvState K) : EnvState K :=
  if state.initialized then state else state.call .init

/-- `init_unchecked`; the assertion fails after `MPI_Init`. -/
def initUnchecked (state : EnvState K) : Option (EnvState K) :=
  if state.initialized then none else some (state.call .init)

def registerMpiType (state : EnvState K) (type : Option Datatype) : EnvState K :=
  { state with
    registeredMpiTypes := state.registeredMpiTypes ++ [type]
    everRegistered := type.toList ++ state.everRegistered }

def freeRegisteredMpiTypes (state : EnvState K) : EnvState K :=
  { state with
    calls := freeAll (state.registeredMpiTypes.filterMap id) state.calls
    registeredMpiTypes := []
    freedRegistered := true }

/-- `finalize`; the assertion fails after `MPI_Finalize`. -/
def finalize (state : EnvState K) : Option (EnvState K) :=
  if state.finalized then none else some (state.freeRegisteredMpiTypes.call .finalize)

/-- The constructors, with and without the arguments of the program. -/
def construct (state : EnvState K) (mode : InitMPIMode) : EnvState K × Environment :=
  match mode with
  | .initFinalize => (state.init, ⟨mode, false⟩)
  | .noInitFinalize => (state, ⟨mode, false⟩)
  | .initFinalizeIfNecessary =>
      if state.initialized then (state, ⟨mode, false⟩) else (state.init, ⟨mode, true⟩)

/-- The destructor. -/
def destruct (state : EnvState K) (environment : Environment) : EnvState K :=
  if environment.finalizes then
    if state.finalized then state else state.freeRegisteredMpiTypes.call .finalize
  else state

/-! ## Types of the library -/

/-- `MPI_Type_contiguous` and the like. -/
def createType (state : EnvState K) : EnvState K × Datatype :=
  ({ state.call (.create state.nextType) with nextType := state.nextType + 1 }, state.nextType)

def constructAndCommitType (state : EnvState K) : EnvState K × Datatype :=
  let (state, type) := state.createType
  ((state.call (.commit type)).registerMpiType type, type)

/-- `mpi_datatype` for a type that has to be committed. -/
def mpiDatatype [DecidableEq K] (state : EnvState K) (key : K) : EnvState K × Datatype :=
  match state.staticTypes key with
  | some type => (state, type)
  | none =>
      let (state, type) := state.constructAndCommitType
      ({ state with staticTypes := Function.update state.staticTypes key type }, type)

/-- Store a scoped type as a new object. -/
def newScoped (state : EnvState K) (type : Option Datatype) : EnvState K :=
  { state.storeScoped state.nextScoped (some type) with nextScoped := state.nextScoped + 1 }

/-- The constructor of `ScopedDatatype` from a type. -/
def scopedConstruct (state : EnvState K) : Option Datatype → EnvState K
  | some type => (state.call (.commit type)).newScoped (some type)
  | none => state.newScoped none

/-- The move constructor of `ScopedDatatype`. -/
def scopedMove (state : EnvState K) (other : ℕ) (type : Option Datatype) : EnvState K :=
  (state.storeScoped other (some none)).newScoped type

/-- The destructor of `ScopedDatatype`. -/
def scopedDestruct (state : EnvState K) (name : ℕ) : Option Datatype → EnvState K
  | some type => (state.call (.free type)).storeScoped name none
  | none => state.storeScoped name none

/-! ## Rules for the program -/

/-- The library will free the type. -/
def Held (state : EnvState K) (type : Datatype) : Prop :=
  some type ∈ state.registeredMpiTypes ∨
    ∃ name < state.nextScoped, state.scopedDatatypes name = some (some type)

/-- A type that the program may free or hand over to the library. -/
def Owned (state : EnvState K) (type : Datatype) : Prop :=
  Active state.calls ∧ Alive type state.calls ∧ ¬ state.Held type

instance (state : EnvState K) (type : Datatype) : Decidable (state.Held type) :=
  inferInstanceAs (Decidable (_ ∨ _))

instance (state : EnvState K) (type : Datatype) : Decidable (state.Owned type) :=
  inferInstanceAs (Decidable (_ ∧ _))

end EnvState

/-! ## Runs -/

/-- What a program may do; the first four are calls of MPI by the program itself. -/
inductive EnvOp (K : Type)
  | mpiInit
  | mpiFinalize
  | mpiCreateType
  | mpiFreeType (type : Datatype)
  | construct (name : ℕ) (mode : InitMPIMode)
  /-- The copy constructor, which the class has by default. -/
  | copy (name other : ℕ)
  /-- The copy assignment, which the class has by default. -/
  | assign (name other : ℕ)
  | destruct (name : ℕ)
  | init
  | initUnchecked
  | finalize
  | registerMpiType (type : Option Datatype)
  | commit (type : Datatype)
  | free (type : Datatype)
  | commitAndRegister (type : Datatype)
  | freeRegisteredMpiTypes
  | mpiDatatype (key : K)
  /-- A communication with elements of a C++ type. -/
  | communicate (key : K)
  | scopedConstruct (type : Option Datatype)
  | scopedMove (other : ℕ)
  | scopedAssign (name other : ℕ)
  | scopedDestruct (name : ℕ)
deriving DecidableEq

/-- Operations that may initialize MPI. -/
def EnvOp.initializes {K : Type} : EnvOp K → Bool
  | .mpiInit | .init | .initUnchecked | .construct _ _ => true
  | _ => false

/-- Operations on environment objects. -/
def EnvOp.changesEnvironments {K : Type} : EnvOp K → Bool
  | .construct _ _ | .copy _ _ | .assign _ _ | .destruct _ => true
  | _ => false

section Runs

variable {K : Type} [DecidableEq K]

open EnvState

/-- One operation, if the program may do it and no assertion fails. -/
def envStep (state : EnvState K) : EnvOp K → Option (EnvState K)
  | .mpiInit => if .init ∉ state.calls then some (state.call .init) else none
  | .mpiFinalize => if Active state.calls then some (state.call .finalize) else none
  | .mpiCreateType => if Active state.calls then some state.createType.1 else none
  | .mpiFreeType type | .free type =>
      if state.Owned type then some (state.call (.free type)) else none
  | .construct name mode =>
      if state.environments name = none then
        some ((state.construct mode).1.store name (some (state.construct mode).2))
      else none
  | .copy name other =>
      if state.environments name = none then
        (state.environments other).map fun environment => state.store name (some environment)
      else none
  | .assign name other => do
      let environment ← state.environments name
      let source ← state.environments other
      if environment.mode = source.mode then some (state.store name (some source)) else none
  | .destruct name =>
      (state.environments name).map fun environment =>
        (state.destruct environment).store name none
  | .init => some state.init
  | .initUnchecked => state.initUnchecked
  | .finalize => if .init ∈ state.calls then state.finalize else none
  | .registerMpiType none => some (state.registerMpiType none)
  | .registerMpiType (some type) =>
      if state.Owned type then some (state.registerMpiType (some type)) else none
  | .commit type =>
      if Active state.calls ∧ Alive type state.calls then some (state.call (.commit type))
      else none
  | .commitAndRegister type =>
      if state.Owned type then
        some ((state.call (.commit type)).registerMpiType (some type))
      else none
  | .freeRegisteredMpiTypes =>
      if Active state.calls then some state.freeRegisteredMpiTypes else none
  | .mpiDatatype key =>
      if Active state.calls then some (state.mpiDatatype key).1 else none
  | .communicate key =>
      -- the types of the library must not have been freed by the program
      if Active state.calls ∧ state.freedRegistered = false then
        some ((state.mpiDatatype key).1.call (.use (state.mpiDatatype key).2))
      else none
  | .scopedConstruct none => some (state.scopedConstruct none)
  | .scopedConstruct (some type) =>
      if state.Owned type then some (state.scopedConstruct (some type)) else none
  | .scopedMove other => (state.scopedDatatypes other).map (state.scopedMove other)
  | .scopedAssign name other => do
      let type ← state.scopedDatatypes name
      let source ← state.scopedDatatypes other
      some ((state.storeScoped name (some source)).storeScoped other (some type))
  | .scopedDestruct name => do
      let type ← state.scopedDatatypes name
      if type = none ∨ Active state.calls then some (state.scopedDestruct name type) else none

def envRun : List (EnvOp K) → EnvState K → Option (EnvState K)
  | [], state => some state
  | op :: ops, state => (envStep state op).bind (envRun ops)

end Runs

end MpiBindings.Environments
