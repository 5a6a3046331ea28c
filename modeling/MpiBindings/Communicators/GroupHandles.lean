import MpiBindings.Core.CommutingSteps
import MpiBindings.Core.HandleLedger

/-!
# Handles of groups

`Group` objects own MPI groups or borrow them.  Both move operations make their target an
owner whatever the source was, move assignment forgets the old group of its target, and
the set operations wrap a new group without owning it.
-/

namespace MpiBindings.Groups

open HandleLedger

/-- An MPI group; every new group is a new handle. -/
abbrev GroupHandle := ℕ

def mpiGroupEmpty : GroupHandle := 0

structure Group where
  group : GroupHandle
  ownsGroup : Bool

/-- The handle that the destructor frees. -/
def Group.ownedHandle (object : Group) : Option GroupHandle :=
  if object.ownsGroup then some object.group else none

/-- Live objects by their name, the groups that MPI created, and the ledger of the groups
that the class took over or obtained from MPI. -/
structure GroupState where
  objects : ℕ → Option Group
  nextHandle : GroupHandle
  log : List (HandleEvent GroupHandle)

namespace GroupState

/-- The empty group is predefined. -/
def start (others : ℕ) : GroupState := ⟨fun _ => none, others + 1, []⟩

def Valid (state : GroupState) (handle : GroupHandle) : Prop :=
  handle < state.nextHandle ∧ handle ∉ freedHandles state.log

instance (state : GroupState) (handle : GroupHandle) : Decidable (state.Valid handle) :=
  inferInstanceAs (Decidable (_ ∧ _))

/-- Store an object, or end its life. -/
def store (state : GroupState) (name : ℕ) (object : Option Group) : GroupState :=
  { state with objects := Function.update state.objects name object }

def modify (state : GroupState) (name : ℕ) (change : Group → Group) : GroupState :=
  state.store name ((state.objects name).map change)

def record (state : GroupState) (event : HandleEvent GroupHandle) : GroupState :=
  { state with log := event :: state.log }

/-- The handle that a live object holds, as its own or not. -/
def held (state : GroupState) (name : ℕ) : Option GroupHandle :=
  (state.objects name).map Group.group

/-- The handle that a live object owns. -/
def owned (state : GroupState) (name : ℕ) : Option GroupHandle :=
  (state.objects name).bind Group.ownedHandle

/-- The class has to free the handle some time. -/
def Pending (state : GroupState) (handle : GroupHandle) : Prop :=
  InHands handle state.log ∧ handle ∉ freedHandles state.log

end GroupState

/-! ## Operations -/

/-- The constructor from an existing MPI group. -/
def construct (state : GroupState) (name : ℕ) (group : GroupHandle) (owning : Bool) :
    Option GroupState :=
  match state.objects name with
  | none =>
      if group < state.nextHandle then
        let state := state.store name (some ⟨group, owning⟩)
        some (if owning then state.record (.acquired group) else state)
      else none
  | some _ => none

/-- A group that MPI creates for the class. -/
def newGroup (state : GroupState) : GroupState :=
  ({ state with nextHandle := state.nextHandle + 1 } : GroupState).record
    (.acquired state.nextHandle)

/-- The constructor from a communicator. -/
def constructFromComm (state : GroupState) (name : ℕ) : Option GroupState :=
  match state.objects name with
  | none => some ((newGroup state).store name (some ⟨state.nextHandle, true⟩))
  | some _ => none

/-- `Group::empty`. -/
def empty (state : GroupState) (name : ℕ) : Option GroupState :=
  construct state name mpiGroupEmpty false

/-- The move constructor. -/
def moveConstruct (state : GroupState) (name other : ℕ) : Option GroupState :=
  match state.objects name, state.objects other with
  | none, some source =>
      let state := state.modify other fun object => { object with ownsGroup := false }
      some (state.store name (some ⟨source.group, true⟩))
  | _, _ => none

/-- Move assignment. -/
def moveAssign (state : GroupState) (name other : ℕ) : Option GroupState :=
  match state.objects name, state.objects other with
  | some _, some source =>
      let state := state.modify name fun object => { object with group := source.group }
      let state := state.modify other fun object => { object with ownsGroup := false }
      some (state.modify name fun object => { object with ownsGroup := true })
  | _, _ => none

/-- The set operations: MPI answers with a new group, or with the empty group. -/
def setOperation (state : GroupState) (name left right : ℕ) (isEmpty : Bool) :
    Option GroupState :=
  match state.objects name, state.held left, state.held right with
  | none, some leftGroup, some rightGroup =>
      if state.Valid leftGroup ∧ state.Valid rightGroup then
        if isEmpty then some (state.store name (some ⟨mpiGroupEmpty, false⟩))
        else some ((newGroup state).store name (some ⟨state.nextHandle, false⟩))
      else none
  | _, _, _ => none

def difference := setOperation

def intersection := setOperation

def setUnion := setOperation

/-- The destructor. -/
def destroy (state : GroupState) (name : ℕ) : Option GroupState :=
  match state.objects name with
  | some object =>
      let state := state.store name none
      some (if object.ownsGroup then state.record (.freed object.group) else state)
  | none => none

/-- What a client does with groups.  It also gets groups from MPI directly. -/
inductive GroupOperation
  | createHandle
  | construct (name : ℕ) (group : GroupHandle) (owning : Bool)
  | constructFromComm (name : ℕ)
  | empty (name : ℕ)
  | moveConstruct (name other : ℕ)
  | moveAssign (name other : ℕ)
  | difference (name left right : ℕ) (isEmpty : Bool)
  | intersection (name left right : ℕ) (isEmpty : Bool)
  | setUnion (name left right : ℕ) (isEmpty : Bool)
  | destroy (name : ℕ)

def groupStep (operation : GroupOperation) (state : GroupState) : Option GroupState :=
  match operation with
  | .createHandle => some { state with nextHandle := state.nextHandle + 1 }
  | .construct name group owning => construct state name group owning
  | .constructFromComm name => constructFromComm state name
  | .empty name => empty state name
  | .moveConstruct name other => moveConstruct state name other
  | .moveAssign name other => moveAssign state name other
  | .difference name left right isEmpty => difference state name left right isEmpty
  | .intersection name left right isEmpty => intersection state name left right isEmpty
  | .setUnion name left right isEmpty => setUnion state name left right isEmpty
  | .destroy name => destroy state name

/-! ## What the handles should do, and when they do -/

/-- Groups are freed exactly when owned: no handle has two owners or is freed twice; what
the class neither took over nor obtained, and the empty group, is never freed; and what it
took over or obtained is freed once when no object holds it. -/
structure FreedWhenOwned (state : GroupState) : Prop where
  unique : ∀ i j handle, state.owned i = some handle → state.owned j = some handle → i = j
  freedOnce : (freedHandles state.log).Nodup
  foreign : ∀ handle, ¬ InHands handle state.log → handle ∉ freedHandles state.log
  predefined : mpiGroupEmpty ∉ freedHandles state.log
  kept : ∀ handle, InHands handle state.log → (∀ name, state.held name ≠ some handle) →
    (freedHandles state.log).count handle = 1

/-- The source of a move holds a group that the class has to free, and nobody besides the
two objects of the move owns it. -/
def MayOwn (state : GroupState) (name other : ℕ) : Prop :=
  ∀ handle, state.held other = some handle → state.Pending handle ∧
    ∀ index, index ≠ name → index ≠ other → state.owned index ≠ some handle

/-- Another object holds the group of the object if the class still has to free it. -/
def HeldElsewhere (state : GroupState) (name : ℕ) : Prop :=
  ∀ handle, state.held name = some handle → state.Pending handle →
    ∃ index, index ≠ name ∧ state.held index = some handle

/-- The condition on a step: an owning constructor gets a group that the class does not
have yet, a move takes over a group that the class has to free, and no group that still has
to be freed loses the last object that holds it. -/
def MeetsCondition (state : GroupState) : GroupOperation → Prop
  | .construct _ group true => ¬ InHands group state.log ∧ group ≠ mpiGroupEmpty
  | .moveConstruct name other => MayOwn state name other
  | .moveAssign name other =>
      MayOwn state name other ∧ (state.held name ≠ state.held other → HeldElsewhere state name)
  | .destroy name => state.owned name = none → HeldElsewhere state name
  | _ => True

/-- Runs whose steps all meet the condition. -/
inductive SoundRun : GroupState → Prop
  | start (others : ℕ) : SoundRun (.start others)
  | step {state next : GroupState} (operation : GroupOperation) (hrun : SoundRun state)
      (hcondition : MeetsCondition state operation)
      (hstep : groupStep operation state = some next) : SoundRun next

/-! ## Invariant -/

structure GroupInvariant (state : GroupState) : Prop where
  consistent : Consistent state.owned state.log
  held : ∀ handle, state.Pending handle → ∃ name, state.held name = some handle
  known : ∀ handle, InHands handle state.log → handle < state.nextHandle
  foreignEmpty : ¬ InHands mpiGroupEmpty state.log
  emptyKnown : mpiGroupEmpty < state.nextHandle

namespace GroupState

variable {state : GroupState} {name : ℕ}

theorem objects_store_self (object : Option Group) :
    (state.store name object).objects name = object := Function.update_self _ _ _

theorem objects_store_of_ne (object : Option Group) {index : ℕ} (hindex : index ≠ name) :
    (state.store name object).objects index = state.objects index :=
  Function.update_of_ne hindex _ _

theorem store_store (first second : Option Group) :
    (state.store name first).store name second = state.store name second :=
  congrArg (GroupState.mk · state.nextHandle state.log) (Function.update_idem _ _ _)

theorem store_store_of_ne {other : ℕ} (hne : other ≠ name) (first second : Option Group) :
    (state.store name first).store other second = (state.store other second).store name first :=
  congrArg (GroupState.mk · state.nextHandle state.log) (Function.update_comm hne.symm _ _ _)

theorem owned_store (object : Option Group) :
    (state.store name object).owned =
      Function.update state.owned name (object.bind Group.ownedHandle) := by
  funext index
  by_cases hindex : index = name
  · rw [hindex, Function.update_self, owned, objects_store_self]
  · rw [Function.update_of_ne hindex, owned, objects_store_of_ne object hindex, owned]

theorem held_store (object : Option Group) :
    (state.store name object).held = Function.update state.held name (object.map Group.group) := by
  funext index
  by_cases hindex : index = name
  · rw [hindex, Function.update_self, held, objects_store_self]
  · rw [Function.update_of_ne hindex, held, objects_store_of_ne object hindex, held]

theorem held_of_owned {handle : GroupHandle} (howned : state.owned name = some handle) :
    state.held name = some handle := by
  rw [owned, Option.bind_eq_some_iff] at howned
  obtain ⟨object, hobject, hhandle⟩ := howned
  rw [Group.ownedHandle, Option.ite_none_right_eq_some] at hhandle
  rw [held, hobject, Option.map_some, hhandle.2]

theorem held_of_objects {object : Group} (hobject : state.objects name = some object) :
    state.held name = some object.group := by
  rw [held, hobject, Option.map_some]

theorem owned_of_objects {object : Group} (hobject : state.objects name = some object) :
    state.owned name = object.ownedHandle := by
  rw [owned, hobject, Option.bind_some]

theorem owned_of_none (hobject : state.objects name = none) : state.owned name = none := by
  rw [owned, hobject, Option.bind_none]

theorem held_of_none (hobject : state.objects name = none) : state.held name = none := by
  rw [held, hobject, Option.map_none]

end GroupState

theorem Group.ownedHandle_false (group : GroupHandle) :
    Group.ownedHandle ⟨group, false⟩ = none := rfl

namespace GroupInvariant

variable {state : GroupState} {name other : ℕ} {handle : GroupHandle}

theorem start (others : ℕ) : GroupInvariant (.start others) where
  consistent := consistent_nil fun _ => rfl
  held _ hpending := hpending.1.elim
  known _ hhands := hhands.elim
  foreignEmpty hhands := hhands
  emptyKnown := Nat.succ_pos others

/-- The invariant gives the property of the handles. -/
theorem freedWhenOwned (hinvariant : GroupInvariant state) : FreedWhenOwned state where
  unique _ _ _ hi hj := hinvariant.consistent.unique hi hj
  freedOnce := hinvariant.consistent.freedOnce
  foreign _ hhands hfreed := hhands (hinvariant.consistent.freedInHands hfreed)
  predefined hfreed := hinvariant.foreignEmpty (hinvariant.consistent.freedInHands hfreed)
  kept handle hhands hheld := by
    apply List.count_eq_one_of_mem hinvariant.consistent.freedOnce
    by_contra hfreed
    obtain ⟨name, hname⟩ := hinvariant.held handle ⟨hhands, hfreed⟩
    exact hheld name hname

variable (hinvariant : GroupInvariant state)

include hinvariant

theorem createHandle : GroupInvariant { state with nextHandle := state.nextHandle + 1 } where
  consistent := hinvariant.consistent
  held := hinvariant.held
  known handle hhands := Nat.lt_succ_of_lt (hinvariant.known handle hhands)
  foreignEmpty := hinvariant.foreignEmpty
  emptyKnown := Nat.lt_succ_of_lt hinvariant.emptyKnown

/-- The object under a name changes; the group that it held does not get lost. -/
theorem store {object : Option Group}
    (hconsistent : Consistent (Function.update state.owned name (object.bind Group.ownedHandle))
      state.log)
    (hheld : ∀ handle, state.held name = some handle → state.Pending handle →
      object.map Group.group = some handle ∨
        ∃ index, index ≠ name ∧ state.held index = some handle) :
    GroupInvariant (state.store name object) where
  consistent := by
    rw [GroupState.owned_store]
    exact hconsistent
  held handle hpending := by
    rw [GroupState.held_store]
    have hother : ∀ index, index ≠ name → state.held index = some handle →
        ∃ index, Function.update state.held name (object.map Group.group) index = some handle :=
      fun index hindex hholds => ⟨index, by rw [Function.update_of_ne hindex, hholds]⟩
    obtain ⟨index, hholds⟩ := hinvariant.held handle hpending
    by_cases hindex : index = name
    · rcases hheld handle (hindex ▸ hholds) hpending with hobject | ⟨index, hne, hholds⟩
      · exact ⟨name, by rw [Function.update_self, hobject]⟩
      · exact hother index hne hholds
    · exact hother index hindex hholds
  known := hinvariant.known
  foreignEmpty := hinvariant.foreignEmpty
  emptyKnown := hinvariant.emptyKnown

/-- A new object borrows a group. -/
theorem borrow (hname : state.objects name = none) (group : GroupHandle) :
    GroupInvariant (state.store name (some ⟨group, false⟩)) := by
  apply hinvariant.store
  · rw [Option.bind_some, Group.ownedHandle_false, ← GroupState.owned_of_none hname,
      Function.update_eq_self]
    exact hinvariant.consistent
  · intro handle hholds
    rw [GroupState.held_of_none hname] at hholds
    cases hholds

/-- A new object gets a group that the class takes over or obtains, as its own or not. -/
theorem obtain (hname : state.objects name = none) (hhands : ¬ InHands handle state.log)
    (hempty : handle ≠ mpiGroupEmpty) (hknown : handle < state.nextHandle) (owning : Bool) :
    GroupInvariant ((state.store name (some ⟨handle, owning⟩)).record (.acquired handle)) where
  consistent := by
    change Consistent (state.store name (some ⟨handle, owning⟩)).owned _
    rw [GroupState.owned_store, Option.bind_some]
    have hacquired := hinvariant.consistent.acquired handle
    cases owning with
    | true =>
        exact hacquired.take (Or.inl rfl)
          (fun hfreed => hhands (hinvariant.consistent.freedInHands hfreed))
          fun index _ howned => hhands (hinvariant.consistent.inHands howned)
    | false => exact hacquired.drop name
  held other hpending := by
    change ∃ index, (state.store name (some ⟨handle, owning⟩)).held index = some other
    rw [GroupState.held_store]
    rcases hpending with ⟨rfl | hother, hfreed⟩
    · exact ⟨name, Function.update_self _ _ _⟩
    · obtain ⟨index, hholds⟩ := hinvariant.held other ⟨hother, hfreed⟩
      refine ⟨index, ?_⟩
      rw [Function.update_of_ne, hholds]
      rintro rfl
      rw [GroupState.held_of_none hname] at hholds
      cases hholds
  known other hother := by
    rcases hother with rfl | hother
    · exact hknown
    · exact hinvariant.known other hother
  foreignEmpty hhandsEmpty := by
    rcases hhandsEmpty with heq | hhandsEmpty
    · exact hempty heq.symm
    · exact hinvariant.foreignEmpty hhandsEmpty
  emptyKnown := hinvariant.emptyKnown

/-- MPI creates a group for a new object. -/
theorem obtainNew (hname : state.objects name = none) (owning : Bool) :
    GroupInvariant ((newGroup state).store name (some ⟨state.nextHandle, owning⟩)) :=
  hinvariant.createHandle.obtain hname
    (fun hhands => Nat.lt_irrefl _ (hinvariant.known _ hhands))
    (Nat.ne_of_gt hinvariant.emptyKnown) (Nat.lt_succ_self _) owning

/-- An owner ends and frees its group. -/
theorem free (howned : state.owned name = some handle) :
    GroupInvariant ((state.store name none).record (.freed handle)) where
  consistent := by
    change Consistent (state.store name none).owned _
    rw [GroupState.owned_store]
    exact (hinvariant.consistent.drop name).freed (hinvariant.consistent.ne_of_drop howned)
      (hinvariant.consistent.inHands howned) (hinvariant.consistent.notFreed howned)
  held other hpending := by
    change ∃ index, (state.store name none).held index = some other
    obtain ⟨hhands, hfreed⟩ := hpending
    rw [GroupState.record, freedHandles, List.mem_cons, not_or] at hfreed
    obtain ⟨index, hholds⟩ := hinvariant.held other ⟨hhands, hfreed.2⟩
    rw [GroupState.held_store]
    refine ⟨index, ?_⟩
    rw [Function.update_of_ne, hholds]
    rintro rfl
    rw [GroupState.held_of_owned howned] at hholds
    exact hfreed.1 (Option.some.inj hholds).symm
  known other hother := hinvariant.known other hother
  foreignEmpty hhands := hinvariant.foreignEmpty hhands
  emptyKnown := hinvariant.emptyKnown

end GroupInvariant

/-! ## Steps that meet the condition -/

section Steps

variable {state next : GroupState} {name other : ℕ}

/-- Move assignment makes its target the owner of the group of the source, also for an
object that is assigned to itself. -/
theorem moveAssign_eq_some (hnext : moveAssign state name other = some next) :
    ∃ handle, state.held other = some handle ∧
      next = (state.store other (some ⟨handle, false⟩)).store name (some ⟨handle, true⟩) := by
  rw [moveAssign.eq_def] at hnext
  split at hnext
  · rename_i target source htarget hsource
    obtain rfl := Option.some.inj hnext
    refine ⟨source.group, GroupState.held_of_objects hsource, ?_⟩
    have hname : state.modify name (fun object => { object with group := source.group }) =
        state.store name (some { target with group := source.group }) := by
      rw [GroupState.modify, htarget, Option.map_some]
    rw [hname, GroupState.modify, GroupState.modify]
    by_cases heq : other = name
    · rw [heq, GroupState.objects_store_self, GroupState.objects_store_self,
        GroupState.store_store, GroupState.store_store, GroupState.store_store]
      rfl
    · rw [GroupState.objects_store_of_ne _ heq, hsource,
        GroupState.objects_store_of_ne _ (Ne.symm heq), GroupState.objects_store_self,
        GroupState.store_store_of_ne heq, GroupState.store_store]
      rfl
  · cases hnext

variable (hinvariant : GroupInvariant state)

include hinvariant

theorem construct_invariant {group : GroupHandle} {owning : Bool}
    (hcondition : owning = true → ¬ InHands group state.log ∧ group ≠ mpiGroupEmpty)
    (hnext : construct state name group owning = some next) : GroupInvariant next := by
  rw [construct.eq_def] at hnext
  split at hnext
  · rename_i hname
    rw [Option.ite_none_right_eq_some] at hnext
    obtain ⟨hknown, hnext⟩ := hnext
    obtain rfl := Option.some.inj hnext
    cases owning with
    | true =>
        obtain ⟨hhands, hempty⟩ := hcondition rfl
        exact hinvariant.obtain hname hhands hempty hknown true
    | false => exact hinvariant.borrow hname group
  · cases hnext

theorem constructFromComm_invariant (hnext : constructFromComm state name = some next) :
    GroupInvariant next := by
  rw [constructFromComm.eq_def] at hnext
  split at hnext
  · rename_i hname
    obtain rfl := Option.some.inj hnext
    exact hinvariant.obtainNew hname true
  · cases hnext

theorem setOperation_invariant {left right : ℕ} {isEmpty : Bool}
    (hnext : setOperation state name left right isEmpty = some next) : GroupInvariant next := by
  rw [setOperation.eq_def] at hnext
  split at hnext
  · rename_i hname _ _
    rw [Option.ite_none_right_eq_some] at hnext
    obtain ⟨-, hnext⟩ := hnext
    cases isEmpty with
    | true =>
        obtain rfl := Option.some.inj hnext
        exact hinvariant.borrow hname mpiGroupEmpty
    | false =>
        obtain rfl := Option.some.inj hnext
        exact hinvariant.obtainNew hname false
  · cases hnext

theorem moveConstruct_invariant (hcondition : MayOwn state name other)
    (hnext : moveConstruct state name other = some next) : GroupInvariant next := by
  rw [moveConstruct.eq_def] at hnext
  split at hnext
  · rename_i source hname hsource
    obtain rfl := Option.some.inj hnext
    have hne : name ≠ other := by
      rintro rfl
      exact absurd (hname.symm.trans hsource) (Option.some_ne_none _).symm
    obtain ⟨hpending, hothers⟩ := hcondition source.group (GroupState.held_of_objects hsource)
    -- The source stops to own its group, then the new object takes it.
    have hdropped : GroupInvariant (state.store other (some ⟨source.group, false⟩)) := by
      refine hinvariant.store (hinvariant.consistent.drop other) fun handle hholds _ => Or.inl ?_
      rw [← hholds, GroupState.held_of_objects hsource]
      rfl
    have hmodify : state.modify other (fun object => { object with ownsGroup := false }) =
        state.store other (some ⟨source.group, false⟩) := by
      rw [GroupState.modify, hsource]
      rfl
    rw [hmodify]
    apply hdropped.store
    · refine hdropped.consistent.take hpending.1 hpending.2 fun index hindex howned => ?_
      rw [GroupState.owned_store] at howned
      obtain ⟨hindexOther, howned⟩ := owned_drop_iff.mp howned
      exact hothers index hindex hindexOther howned
    · intro handle hholds
      rw [GroupState.held_of_none ((GroupState.objects_store_of_ne _ hne).trans hname)] at hholds
      cases hholds
  · cases hnext

theorem moveAssign_invariant (hcondition : MayOwn state name other)
    (helsewhere : state.held name ≠ state.held other → HeldElsewhere state name)
    (hnext : moveAssign state name other = some next) : GroupInvariant next := by
  obtain ⟨handle, hholds, rfl⟩ := moveAssign_eq_some hnext
  obtain ⟨hpending, hothers⟩ := hcondition handle hholds
  have hdropped : GroupInvariant (state.store other (some ⟨handle, false⟩)) := by
    refine hinvariant.store (hinvariant.consistent.drop other) fun _ hother _ => Or.inl ?_
    exact hholds.symm.trans hother
  have hheld : (state.store other (some ⟨handle, false⟩)).held = state.held := by
    rw [GroupState.held_store, Option.map_some, ← hholds, Function.update_eq_self]
  apply hdropped.store
  · refine hdropped.consistent.take hpending.1 hpending.2 fun index hindex howned => ?_
    rw [GroupState.owned_store] at howned
    obtain ⟨hindexOther, howned⟩ := owned_drop_iff.mp howned
    exact hothers index hindex hindexOther howned
  · intro old hold hpendingOld
    rw [hheld] at hold ⊢
    by_cases hsame : state.held name = state.held other
    · exact Or.inl (hholds.symm.trans (hsame.symm.trans hold))
    · exact Or.inr (helsewhere hsame old hold hpendingOld)

theorem destroy_invariant (hcondition : state.owned name = none → HeldElsewhere state name)
    (hnext : destroy state name = some next) : GroupInvariant next := by
  rw [destroy.eq_def] at hnext
  split at hnext
  · rename_i object hobject
    have howned := GroupState.owned_of_objects hobject
    rw [Group.ownedHandle] at howned
    obtain rfl := Option.some.inj hnext
    by_cases howns : object.ownsGroup = true
    · rw [if_pos howns] at howned ⊢
      exact hinvariant.free howned
    · rw [if_neg howns] at howned ⊢
      refine hinvariant.store ?_ fun handle hholds hpending =>
        Or.inr (hcondition howned handle hholds hpending)
      rw [Option.bind_none, ← howned, Function.update_eq_self]
      exact hinvariant.consistent
  · cases hnext

/-- A step that meets the condition keeps the invariant. -/
theorem groupStep_invariant {operation : GroupOperation}
    (hcondition : MeetsCondition state operation) (hnext : groupStep operation state = some next) :
    GroupInvariant next := by
  cases operation with
  | createHandle =>
      obtain rfl := Option.some.inj hnext
      exact hinvariant.createHandle
  | construct name group owning =>
      refine construct_invariant hinvariant (fun howning => ?_) hnext
      rw [howning] at hcondition
      exact hcondition
  | constructFromComm name => exact constructFromComm_invariant hinvariant hnext
  | empty name =>
      have hempty : construct state name mpiGroupEmpty false = some next := hnext
      refine construct_invariant hinvariant ?_ hempty
      exact nofun
  | moveConstruct name other => exact moveConstruct_invariant hinvariant hcondition hnext
  | moveAssign name other =>
      exact moveAssign_invariant hinvariant hcondition.1 hcondition.2 hnext
  | difference name left right isEmpty => exact setOperation_invariant hinvariant hnext
  | intersection name left right isEmpty => exact setOperation_invariant hinvariant hnext
  | setUnion name left right isEmpty => exact setOperation_invariant hinvariant hnext
  | destroy name => exact destroy_invariant hinvariant hcondition hnext

end Steps

/-- In every run whose steps all meet the condition, groups are freed exactly when owned. -/
theorem groups_freedWhenOwned (state : GroupState) (hrun : SoundRun state) :
    FreedWhenOwned state := by
  have hinvariant : GroupInvariant state := by
    induction hrun with
    | start others => exact .start others
    | step operation hrun hcondition hstep ih => exact groupStep_invariant ih hcondition hstep
  exact hinvariant.freedWhenOwned

def runGroups (operations : List GroupOperation) : Option GroupState :=
  CommutingSteps.run groupStep operations (.start 1)

/-- The group of a communicator is moved to another object, which frees it. -/
theorem groups_freedWhenOwned_example :
    ∃ state, runGroups [.constructFromComm 0, .moveConstruct 1 0, .destroy 1] = some state ∧
      FreedWhenOwned state := by
  refine ⟨_, rfl, groups_freedWhenOwned _ (.step (.destroy 1) (.step (.moveConstruct 1 0)
    (.step (.constructFromComm 0) (.start 1) trivial rfl) ?_ rfl) ?_ rfl)⟩
  · intro handle hholds
    obtain rfl : 2 = handle := Option.some.inj hholds
    refine ⟨⟨by decide, by decide⟩, fun index _ hindex => ?_⟩
    cases index with
    | zero => exact absurd rfl hindex
    | succ index => exact (Option.some_ne_none 2).symm
  · intro hnone
    exact absurd hnone (Option.some_ne_none 2)

/-! ## Runs that miss the condition -/

/-- A borrowed group is moved and freed by its new object. -/
def moveBorrowed : List GroupOperation := [.construct 0 1 false, .moveConstruct 1 0, .destroy 1]

/-- The empty group is moved and freed. -/
def moveEmpty : List GroupOperation := [.empty 0, .moveConstruct 1 0, .destroy 1]

/-- An object that was moved from is moved again. -/
def moveTwice : List GroupOperation :=
  [.constructFromComm 0, .moveConstruct 1 0, .moveConstruct 2 0]

/-- Move assignment to an owner. -/
def assignOwner : List GroupOperation :=
  [.constructFromComm 0, .constructFromComm 1, .moveAssign 0 1]

/-- The result of a set operation is destroyed. -/
def dropDifference : List GroupOperation :=
  [.constructFromComm 0, .constructFromComm 1, .difference 2 0 1 false, .destroy 2]

/-- Moves free foreign groups and make two owners; move assignment and the set operations
leave groups that are never freed. -/
theorem freedWhenOwned_fails :
    (∃ state, runGroups moveBorrowed = some state ∧ ¬ FreedWhenOwned state) ∧
      (∃ state, runGroups moveEmpty = some state ∧ ¬ FreedWhenOwned state) ∧
      (∃ state, runGroups moveTwice = some state ∧ ¬ FreedWhenOwned state) ∧
      (∃ state, runGroups assignOwner = some state ∧ ¬ FreedWhenOwned state) ∧
      (∃ state, runGroups dropDifference = some state ∧ ¬ FreedWhenOwned state) := by
  refine ⟨⟨_, rfl, fun hfreed => ?_⟩, ⟨_, rfl, fun hfreed => ?_⟩, ⟨_, rfl, fun hfreed => ?_⟩,
    ⟨_, rfl, fun hfreed => ?_⟩, ⟨_, rfl, fun hfreed => ?_⟩⟩
  · exact hfreed.foreign 1 (by decide) (by decide)
  · exact hfreed.predefined (by decide)
  · exact absurd (hfreed.unique 1 2 2 (by decide) (by decide)) (by decide)
  · refine absurd (hfreed.kept 2 (by decide) ?_) (by decide)
    rintro (_ | _ | name)
    · decide
    · decide
    · exact (Option.some_ne_none 2).symm
  · refine absurd (hfreed.kept 4 (by decide) ?_) (by decide)
    rintro (_ | _ | _ | name)
    · decide
    · decide
    · decide
    · exact (Option.some_ne_none 4).symm

end MpiBindings.Groups
