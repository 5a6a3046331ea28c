import MpiBindings.Core.CommutingSteps
import MpiBindings.Core.HandleLedger

/-!
# Handles of communicators

`Communicator` objects own MPI communicators or borrow them.  A ledger records which
handles the class acquired, gave back through `disown_mpi_communicator` and freed.
-/

namespace MpiBindings.CommunicatorObjects

open HandleLedger

/-- An MPI communicator; every new communicator is a new handle. -/
abbrev CommHandle := ℕ

def mpiCommWorld : CommHandle := 0

/-- What MPI answers about its communicators. -/
structure MpiInfo where
  commRank : CommHandle → ℕ
  commSize : CommHandle → ℕ

/-- `Communicator`; `MPI_COMM_NULL` is no handle. -/
structure Communicator where
  rank : ℕ
  size : ℕ
  comm : Option CommHandle
  root : ℕ
  defaultTag : ℤ
  ownsMpiComm : Bool

/-- The handle that the destructor frees. -/
def Communicator.ownedHandle (communicator : Communicator) : Option CommHandle :=
  if communicator.ownsMpiComm then communicator.comm else none

/-- `root(int)`; an invalid root throws. -/
def Communicator.setRoot (communicator : Communicator) (newRoot : ℤ) : Option Communicator :=
  if 0 ≤ newRoot ∧ newRoot < communicator.size then
    some { communicator with root := newRoot.toNat }
  else none

/-- Live objects by their name, the communicators that MPI created, and the ledger. -/
structure CommState where
  objects : ℕ → Option Communicator
  nextHandle : CommHandle
  log : List (HandleEvent CommHandle)

namespace CommState

def start (nextHandle : CommHandle) : CommState := ⟨fun _ => none, nextHandle, []⟩

def Valid (state : CommState) (handle : CommHandle) : Prop :=
  handle < state.nextHandle ∧ handle ∉ freedHandles state.log

instance (state : CommState) (handle : CommHandle) : Decidable (state.Valid handle) :=
  inferInstanceAs (Decidable (_ ∧ _))

/-- Store an object, or end its life. -/
def store (state : CommState) (name : ℕ) (object : Option Communicator) : CommState :=
  { state with objects := Function.update state.objects name object }

def record (state : CommState) (event : HandleEvent CommHandle) : CommState :=
  { state with log := event :: state.log }

/-- The handles that live objects own. -/
def owned (state : CommState) (name : ℕ) : Option CommHandle :=
  (state.objects name).bind Communicator.ownedHandle

end CommState

/-! ## Operations -/

section Operations

variable (mpi : MpiInfo)

/-- The constructor from an MPI communicator; it fails on `MPI_COMM_NULL`, on a
communicator that MPI does not know, on ownership of `MPI_COMM_WORLD` and on an invalid
root. -/
def construct (state : CommState) (name : ℕ) (comm : Option CommHandle) (root : ℤ)
    (takeOwnership : Bool) : Option CommState :=
  match state.objects name, comm with
  | none, some handle =>
      if ¬ state.Valid handle ∨ takeOwnership ∧ handle = mpiCommWorld then none
      else
        let object : Communicator :=
          { rank := mpi.commRank handle, size := mpi.commSize handle, comm := some handle,
            root := 0, defaultTag := 0, ownsMpiComm := takeOwnership }
        (object.setRoot root).map fun object =>
          let state := state.store name (some object)
          if takeOwnership then state.record (.acquired handle) else state
  | _, _ => none

/-- A new communicator from an MPI call on an existing one. -/
def newComm (state : CommState) (comm : Option CommHandle) : Option (CommHandle × CommState) :=
  match comm with
  | some handle =>
      if state.Valid handle then
        some (state.nextHandle, { state with nextHandle := state.nextHandle + 1 })
      else none
  | none => none

/-- The copy constructor. -/
def copyConstruct (state : CommState) (name other : ℕ) : Option CommState :=
  match state.objects name, state.objects other with
  | none, some source =>
      (newComm state source.comm).map fun dup =>
        (dup.2.store name
          (some { source with comm := some dup.1, ownsMpiComm := true })).record (.acquired dup.1)
  | _, _ => none

/-- The move constructor. -/
def moveConstruct (state : CommState) (name other : ℕ) : Option CommState :=
  match state.objects name, state.objects other with
  | none, some source =>
      some ((state.store name (some source)).store other
        (some { source with comm := none, ownsMpiComm := false }))
  | _, _ => none

/-- The destructor. -/
def destroy (state : CommState) (name : ℕ) : Option CommState :=
  match state.objects name with
  | some object =>
      let state := state.store name none
      if object.ownsMpiComm then
        match object.comm with
        | some handle => some (state.record (.freed handle))
        | none => none
      else some state
  | none => none

/-- `swap`: all members change places. -/
def swap (state : CommState) (name other : ℕ) : Option CommState :=
  match state.objects name, state.objects other with
  | some object, some otherObject =>
      some ((state.store name (some otherObject)).store other (some object))
  | _, _ => none

/-- Move assignment. -/
def moveAssign (state : CommState) (name other : ℕ) : Option CommState := swap state name other

/-- Copy assignment, with the temporary object of its body. -/
def copyAssign (state : CommState) (name other tmp : ℕ) : Option CommState :=
  (copyConstruct state tmp other).bind fun state =>
    (swap state name tmp).bind fun state => destroy state tmp

/-- `disown_mpi_communicator`. -/
def disown (state : CommState) (name : ℕ) : Option CommState :=
  match state.objects name with
  | some object =>
      let state := state.store name (some { object with ownsMpiComm := false })
      match object.ownedHandle with
      | some handle => some (state.record (.released handle))
      | none => some state
  | none => none

/-- `split` and `split_by_type`; MPI creates no communicator for an undefined color. -/
def split (state : CommState) (name other : ℕ) (color : Option ℕ) : Option CommState :=
  match state.objects other with
  | some source =>
      match color with
      | some _ =>
          (newComm state source.comm).bind fun new => construct mpi new.2 name (some new.1) 0 true
      | none => none
  | none => none

end Operations

/-- What a client does with communicators.  It also gets communicators from MPI directly. -/
inductive CommOperation
  | createHandle
  | construct (name : ℕ) (comm : Option CommHandle) (root : ℤ) (takeOwnership : Bool)
  | copyConstruct (name other : ℕ)
  | moveConstruct (name other : ℕ)
  | copyAssign (name other tmp : ℕ)
  | moveAssign (name other : ℕ)
  | swap (name other : ℕ)
  | split (name other : ℕ) (color : Option ℕ)
  | disown (name : ℕ)
  | destroy (name : ℕ)

def performComm (mpi : MpiInfo) (state : CommState) : CommOperation → Option CommState
  | .createHandle => some { state with nextHandle := state.nextHandle + 1 }
  | .construct name comm root takeOwnership => construct mpi state name comm root takeOwnership
  | .copyConstruct name other => copyConstruct state name other
  | .moveConstruct name other => moveConstruct state name other
  | .copyAssign name other tmp => copyAssign state name other tmp
  | .moveAssign name other => moveAssign state name other
  | .swap name other => swap state name other
  | .split name other color => split mpi state name other color
  | .disown name => disown state name
  | .destroy name => destroy state name

/-- A client hands no communicator to an owning constructor that the class has acquired
already and that was not disowned since. -/
def handsOver (state : CommState) : CommOperation → Bool
  | .construct _ (some handle) _ true => ¬ InHands handle state.log
  | _ => true

def commStep (mpi : MpiInfo) (operation : CommOperation) (state : CommState) : Option CommState :=
  if handsOver state operation then performComm mpi state operation else none

/-! ## Invariant -/

structure CommInvariant (state : CommState) : Prop where
  balanced : Balanced state.owned state.log
  known : ∀ handle, InHands handle state.log → handle < state.nextHandle
  ownsComm : ∀ name object, state.objects name = some object → object.ownsMpiComm = true →
    ∃ handle, object.comm = some handle

namespace CommState

variable {state : CommState} {name other : ℕ}

theorem objects_store_self (object : Option Communicator) :
    (state.store name object).objects name = object := Function.update_self _ _ _

theorem objects_store_of_ne (object : Option Communicator) {index : ℕ} (hindex : index ≠ name) :
    (state.store name object).objects index = state.objects index :=
  Function.update_of_ne hindex _ _

@[simp]
theorem owned_store (object : Option Communicator) :
    (state.store name object).owned =
      Function.update state.owned name (object.bind Communicator.ownedHandle) := by
  funext index
  by_cases hindex : index = name
  · rw [hindex, Function.update_self, owned, objects_store_self]
  · rw [Function.update_of_ne hindex, owned, objects_store_of_ne object hindex, owned]

theorem owned_of_objects {object : Communicator} (hobject : state.objects name = some object) :
    state.owned name = object.ownedHandle := by
  rw [owned, hobject, Option.bind_some]

theorem owned_of_none (hobject : state.objects name = none) : state.owned name = none := by
  rw [owned, hobject, Option.bind_none]

theorem objects_store_iff {object : Option Communicator} {found : Communicator} {index : ℕ} :
    (state.store name object).objects index = some found ↔
      index = name ∧ object = some found ∨ index ≠ name ∧ state.objects index = some found := by
  by_cases hindex : index = name
  · rw [hindex, objects_store_self]
    simp
  · rw [objects_store_of_ne object hindex]
    simp [hindex]

end CommState

theorem Communicator.ownedHandle_of_not {object : Communicator}
    (howns : object.ownsMpiComm = false) : object.ownedHandle = none := by
  rw [ownedHandle, howns]
  rfl

namespace CommInvariant

variable {state : CommState} {name other : ℕ}

theorem start (nextHandle : CommHandle) : CommInvariant (.start nextHandle) where
  balanced := balanced_nil fun _ => rfl
  known _ hhands := hhands.elim
  ownsComm _ _ hobject := by cases hobject

variable (hinvariant : CommInvariant state)

include hinvariant

theorem createHandle : CommInvariant { state with nextHandle := state.nextHandle + 1 } where
  balanced := hinvariant.balanced
  known handle hhands := Nat.lt_succ_of_lt (hinvariant.known handle hhands)
  ownsComm := hinvariant.ownsComm

theorem ownsComm_store {object : Option Communicator}
    (hobject : ∀ found, object = some found → found.ownsMpiComm = true →
      ∃ handle, found.comm = some handle) :
    ∀ index found, (state.store name object).objects index = some found →
      found.ownsMpiComm = true → ∃ handle, found.comm = some handle := by
  intro index found hfound
  rcases CommState.objects_store_iff.mp hfound with ⟨-, heq⟩ | ⟨-, heq⟩
  · exact hobject found heq
  · exact hinvariant.ownsComm index found heq

/-- The object under a name changes without its ownership. -/
theorem store {object : Option Communicator}
    (hsame : object.bind Communicator.ownedHandle = state.owned name)
    (hobject : ∀ found, object = some found → found.ownsMpiComm = true →
      ∃ handle, found.comm = some handle) :
    CommInvariant (state.store name object) where
  balanced := by
    rw [CommState.owned_store, hsame, Function.update_eq_self]
    exact hinvariant.balanced
  known := hinvariant.known
  ownsComm := hinvariant.ownsComm_store hobject

/-- A new object acquires a communicator. -/
theorem acquire {object : Communicator} {handle : CommHandle}
    (hname : state.objects name = none) (hhands : ¬ InHands handle state.log)
    (hknown : handle < state.nextHandle) (hcomm : object.comm = some handle)
    (howns : object.ownsMpiComm = true) :
    CommInvariant ((state.store name (some object)).record (.acquired handle)) where
  balanced := by
    have howned : object.ownedHandle = some handle := by
      rw [Communicator.ownedHandle, howns, if_pos rfl, hcomm]
    have hacquire := hinvariant.balanced.acquire (CommState.owned_of_none hname) hhands
    rw [← howned] at hacquire
    exact (CommState.owned_store (some object)).symm ▸ hacquire
  known other hother := by
    rcases hother with rfl | hother
    · exact hknown
    · exact hinvariant.known other hother
  ownsComm := hinvariant.ownsComm_store fun found heq _ => by
    obtain rfl := Option.some.inj heq
    exact ⟨handle, hcomm⟩

/-- An object gives its communicator back or frees it. -/
theorem giveUp {object : Option Communicator} {handle : CommHandle}
    (howned : state.owned name = some handle)
    (hobject : object.bind Communicator.ownedHandle = none)
    (hcomm : ∀ found, object = some found → found.ownsMpiComm = true →
      ∃ handle, found.comm = some handle) :
    CommInvariant ((state.store name object).record (.released handle)) ∧
      CommInvariant ((state.store name object).record (.freed handle)) := by
  have howns : (state.store name object).owned = Function.update state.owned name none := by
    rw [CommState.owned_store, hobject]
  refine ⟨⟨?_, fun other hother => hinvariant.known other hother.2,
    hinvariant.ownsComm_store hcomm⟩, ⟨?_, fun other hother => hinvariant.known other hother,
    hinvariant.ownsComm_store hcomm⟩⟩
  · exact howns.symm ▸ hinvariant.balanced.release howned
  · exact howns.symm ▸ hinvariant.balanced.free howned

/-- Two names exchange what their objects own. -/
theorem exchange {object otherObject : Option Communicator}
    (hobject : object.bind Communicator.ownedHandle = state.owned other)
    (hother : otherObject.bind Communicator.ownedHandle = state.owned name)
    (hcomm : ∀ found, object = some found ∨ otherObject = some found →
      found.ownsMpiComm = true → ∃ handle, found.comm = some handle) :
    CommInvariant ((state.store name object).store other otherObject) where
  balanced := by
    have howned : ((state.store name object).store other otherObject).owned =
        fun index => state.owned (Equiv.swap name other index) := by
      rw [CommState.owned_store, CommState.owned_store, hobject, hother]
      funext index
      by_cases hright : index = other
      · rw [hright, Function.update_self, Equiv.swap_apply_right]
      · rw [Function.update_of_ne hright]
        by_cases hleft : index = name
        · rw [hleft, Function.update_self, Equiv.swap_apply_left]
        · rw [Function.update_of_ne hleft, Equiv.swap_apply_of_ne_of_ne hleft hright]
    rw [howned]
    exact hinvariant.balanced.permute (Equiv.swap name other)
  known := hinvariant.known
  ownsComm index found hfound := by
    rcases CommState.objects_store_iff.mp hfound with ⟨-, heq⟩ | ⟨-, hfound⟩
    · exact hcomm found (Or.inr heq)
    · rcases CommState.objects_store_iff.mp hfound with ⟨-, heq⟩ | ⟨-, heq⟩
      · exact hcomm found (Or.inl heq)
      · exact hinvariant.ownsComm index found heq

end CommInvariant

/-! ## What the operations do -/

section Effects

variable {mpi : MpiInfo} {state next : CommState} {name other : ℕ}

theorem setRoot_eq_some {object found : Communicator} {newRoot : ℤ}
    (hfound : object.setRoot newRoot = some found) :
    found.comm = object.comm ∧ found.ownsMpiComm = object.ownsMpiComm := by
  rw [Communicator.setRoot, Option.ite_none_right_eq_some] at hfound
  obtain ⟨-, heq⟩ := hfound
  obtain rfl := Option.some.inj heq
  exact ⟨rfl, rfl⟩

/-- A constructor that returns stores an object for a communicator that MPI knows. -/
theorem construct_eq_some {comm : Option CommHandle} {root : ℤ} {takeOwnership : Bool}
    (hnext : construct mpi state name comm root takeOwnership = some next) :
    state.objects name = none ∧ ∃ handle object, comm = some handle ∧ state.Valid handle ∧
      object.comm = some handle ∧ object.ownsMpiComm = takeOwnership ∧
      next = if takeOwnership then (state.store name (some object)).record (.acquired handle)
        else state.store name (some object) := by
  rw [construct.eq_def] at hnext
  split at hnext
  · rename_i handle hname
    rw [Option.ite_none_left_eq_some, not_or, not_not] at hnext
    obtain ⟨⟨hvalid, -⟩, hnext⟩ := hnext
    obtain ⟨object, hobject, rfl⟩ := Option.map_eq_some_iff.mp hnext
    obtain ⟨hcomm, howns⟩ := setRoot_eq_some hobject
    exact ⟨hname, handle, object, rfl, hvalid, hcomm, howns, rfl⟩
  · cases hnext

theorem newComm_eq_some {comm : Option CommHandle} {new : CommHandle × CommState}
    (hnew : newComm state comm = some new) :
    new = (state.nextHandle, { state with nextHandle := state.nextHandle + 1 }) := by
  rw [newComm.eq_def] at hnew
  split at hnew
  · exact (Option.some.inj (Option.ite_none_right_eq_some.mp hnew).2).symm
  · cases hnew

variable (hinvariant : CommInvariant state)

include hinvariant

/-- A communicator that MPI has just created is not in the hands of the class. -/
theorem not_inHands_nextHandle : ¬ InHands state.nextHandle state.log := fun hhands =>
  Nat.lt_irrefl _ (hinvariant.known _ hhands)

theorem construct_invariant {comm : Option CommHandle} {root : ℤ} {takeOwnership : Bool}
    (hhands : ∀ handle, comm = some handle → takeOwnership = true →
      ¬ InHands handle state.log)
    (hnext : construct mpi state name comm root takeOwnership = some next) :
    CommInvariant next := by
  obtain ⟨hname, handle, object, hcomm, hvalid, hobject, howns, rfl⟩ := construct_eq_some hnext
  cases takeOwnership with
  | true => exact hinvariant.acquire hname (hhands handle hcomm rfl) hvalid.1 hobject howns
  | false =>
      refine hinvariant.store ?_ fun found heq _ => ⟨handle, Option.some.inj heq ▸ hobject⟩
      rw [CommState.owned_of_none hname, Option.bind_some, Communicator.ownedHandle_of_not howns]

theorem copyConstruct_invariant (hnext : copyConstruct state name other = some next) :
    CommInvariant next := by
  rw [copyConstruct.eq_def] at hnext
  split at hnext
  · rename_i source hname hsource
    obtain ⟨dup, hdup, rfl⟩ := Option.map_eq_some_iff.mp hnext
    obtain rfl := newComm_eq_some hdup
    exact hinvariant.createHandle.acquire hname (not_inHands_nextHandle hinvariant)
      (Nat.lt_succ_self _) rfl rfl
  · cases hnext

theorem moveConstruct_invariant (hnext : moveConstruct state name other = some next) :
    CommInvariant next := by
  rw [moveConstruct.eq_def] at hnext
  split at hnext
  · rename_i source hname hsource
    obtain rfl := Option.some.inj hnext
    apply hinvariant.exchange
    · rw [CommState.owned_of_objects hsource, Option.bind_some]
    · rw [CommState.owned_of_none hname]
      rfl
    · rintro found (heq | heq) howns
      · exact hinvariant.ownsComm other found (hsource.trans heq) howns
      · obtain rfl := Option.some.inj heq
        cases howns
  · cases hnext

theorem swap_invariant (hnext : swap state name other = some next) : CommInvariant next := by
  rw [swap.eq_def] at hnext
  split at hnext
  · rename_i object otherObject hobject hother
    obtain rfl := Option.some.inj hnext
    apply hinvariant.exchange
    · rw [CommState.owned_of_objects hother, Option.bind_some]
    · rw [CommState.owned_of_objects hobject, Option.bind_some]
    · rintro found (heq | heq) howns
      · exact hinvariant.ownsComm other found (hother.trans heq) howns
      · exact hinvariant.ownsComm name found (hobject.trans heq) howns
  · cases hnext

/-- The destructor frees what the object owns. -/
theorem destroy_invariant (hnext : destroy state name = some next) : CommInvariant next := by
  rw [destroy.eq_def] at hnext
  split at hnext
  · rename_i object hobject
    have howned := CommState.owned_of_objects hobject
    have hgone : ∀ found : Communicator, none = some found → found.ownsMpiComm = true →
        ∃ handle, found.comm = some handle := nofun
    rw [Communicator.ownedHandle] at howned
    split at hnext
    · rename_i howns
      rw [if_pos howns] at howned
      split at hnext
      · rename_i handle hcomm
        obtain rfl := Option.some.inj hnext
        exact (hinvariant.giveUp (howned.trans hcomm) rfl hgone).2
      · cases hnext
    · rename_i howns
      rw [if_neg howns] at howned
      obtain rfl := Option.some.inj hnext
      exact hinvariant.store howned.symm hgone
  · cases hnext

theorem copyAssign_invariant {tmp : ℕ} (hnext : copyAssign state name other tmp = some next) :
    CommInvariant next := by
  obtain ⟨copied, hcopied, hnext⟩ := Option.bind_eq_some_iff.mp hnext
  obtain ⟨swapped, hswapped, hnext⟩ := Option.bind_eq_some_iff.mp hnext
  have hcopy := copyConstruct_invariant hinvariant hcopied
  exact destroy_invariant (swap_invariant hcopy hswapped) hnext

theorem disown_invariant (hnext : disown state name = some next) : CommInvariant next := by
  rw [disown.eq_def] at hnext
  split at hnext
  · rename_i object hobject
    have howned := CommState.owned_of_objects hobject
    have hcomm : ∀ found, some { object with ownsMpiComm := false } = some found →
        found.ownsMpiComm = true → ∃ handle, found.comm = some handle := by
      rintro found heq howns
      obtain rfl := Option.some.inj heq
      cases howns
    split at hnext
    · rename_i handle hhandle
      obtain rfl := Option.some.inj hnext
      exact (hinvariant.giveUp (howned.trans hhandle) rfl hcomm).1
    · rename_i hhandle
      obtain rfl := Option.some.inj hnext
      exact hinvariant.store (howned.trans hhandle).symm hcomm
  · cases hnext

theorem split_invariant {color : Option ℕ} (hnext : split mpi state name other color = some next) :
    CommInvariant next := by
  rw [split.eq_def] at hnext
  split at hnext
  · rename_i source hsource
    split at hnext
    · obtain ⟨new, hnew, hnext⟩ := Option.bind_eq_some_iff.mp hnext
      obtain rfl := newComm_eq_some hnew
      refine construct_invariant hinvariant.createHandle (fun handle heq _ => ?_) hnext
      obtain rfl := Option.some.inj heq
      exact not_inHands_nextHandle hinvariant
    · cases hnext
  · cases hnext

/-- Every operation of a client that hands over a communicator only once keeps the
invariant. -/
theorem commStep_invariant {operation : CommOperation}
    (hnext : commStep mpi operation state = some next) : CommInvariant next := by
  rw [commStep, Option.ite_none_right_eq_some] at hnext
  obtain ⟨hhands, hnext⟩ := hnext
  cases operation with
  | createHandle =>
      obtain rfl := Option.some.inj hnext
      exact hinvariant.createHandle
  | construct name comm root takeOwnership =>
      refine construct_invariant hinvariant (fun handle hcomm howns => ?_) hnext
      rw [hcomm, howns] at hhands
      exact of_decide_eq_true hhands
  | copyConstruct name other => exact copyConstruct_invariant hinvariant hnext
  | moveConstruct name other => exact moveConstruct_invariant hinvariant hnext
  | copyAssign name other tmp => exact copyAssign_invariant hinvariant hnext
  | moveAssign name other => exact swap_invariant hinvariant hnext
  | swap name other => exact swap_invariant hinvariant hnext
  | split name other color => exact split_invariant hinvariant hnext
  | disown name => exact disown_invariant hinvariant hnext
  | destroy name => exact destroy_invariant hinvariant hnext

end Effects

/-! ## Runs -/

/-- An owned communicator may be handed over again behind `disown_mpi_communicator`, as
`GridCommunicator` does with its split communicators. -/
theorem handsOver_of_disown {state next : CommState} {name fresh : ℕ} {handle : CommHandle}
    {root : ℤ} (howned : state.owned name = some handle) (hnext : disown state name = some next) :
    handsOver next (.construct fresh (some handle) root true) = true := by
  rw [disown.eq_def] at hnext
  split at hnext
  · rename_i object hobject
    rw [CommState.owned_of_objects hobject] at howned
    simp only [howned, Option.some_inj] at hnext
    obtain rfl := hnext
    exact decide_eq_true fun hhands => hhands.1 rfl
  · cases hnext

/-- The destructor of a live object never fails: what it frees is a communicator that MPI
knows. -/
theorem destroy_defined {state : CommState} (hinvariant : CommInvariant state) {name : ℕ}
    {object : Communicator} (hobject : state.objects name = some object) :
    (∃ next, destroy state name = some next) ∧
      ∀ handle, object.ownedHandle = some handle → state.Valid handle := by
  constructor
  · rw [destroy, hobject]
    by_cases howns : object.ownsMpiComm = true
    · obtain ⟨handle, hcomm⟩ := hinvariant.ownsComm name object hobject howns
      simp only [howns, if_true, hcomm]
      exact ⟨_, rfl⟩
    · simp only [howns]
      exact ⟨_, rfl⟩
  · intro handle hhandle
    have howned := (CommState.owned_of_objects hobject).trans hhandle
    have hhands := hinvariant.balanced.inHands howned
    exact ⟨hinvariant.known handle hhands, hinvariant.balanced.notFreed howned⟩

/-- In every state that a client reaches, communicators are freed exactly once and only by
their owner. -/
theorem communicatorHandles_freedOnce (mpi : MpiInfo) (nextHandle : CommHandle)
    (state : CommState)
    (hreach : CommutingSteps.Reachable (commStep mpi) (.start nextHandle) state) :
    FreedOnce state.owned state.log := by
  have hinvariant : CommInvariant state :=
    hreach.invariant (.start nextHandle) fun _ _ _ hinv hstep => commStep_invariant hinv hstep
  exact hinvariant.balanced.toFreedOnce

/-- Copies, a split communicator that is disowned and handed over again, assignments of an
owner to itself, and destructors. -/
def exampleOperations : List CommOperation :=
  [.construct 0 (some mpiCommWorld) 0 false, .copyConstruct 1 0, .split 2 0 (some 7), .disown 2,
    .construct 3 (some 2) 0 true, .moveAssign 1 3, .copyAssign 1 1 4, .moveAssign 1 1,
    .moveConstruct 5 1, .destroy 3, .destroy 2, .destroy 1, .destroy 0]

def exampleState : Option CommState :=
  CommutingSteps.run (commStep ⟨fun _ => 1, fun _ => 4⟩) exampleOperations (.start 1)

theorem communicatorHandles_freedOnce_example :
    ∃ state : CommState, exampleState = some state ∧ FreedOnce state.owned state.log := by
  have hsome : exampleState.isSome = true := by decide
  obtain ⟨state, hstate⟩ := Option.isSome_iff_exists.mp hsome
  exact ⟨state, hstate, communicatorHandles_freedOnce _ 1 state ⟨exampleOperations, hstate⟩⟩

/-- The communicator of the split is freed by the object that took it over, and the copy of
it is still owned. -/
example :
    exampleState.map (fun state => (freedHandles state.log, state.owned 5)) =
      some ([1, 2], some 3) := by
  decide

end MpiBindings.CommunicatorObjects
