import MpiBindings.Environment.Lifecycle
import Mathlib.Logic.Equiv.Basic

/-!
# Correctness of the life of the environment

A type that the library will free is held by exactly one of its owners: the list of registered
types or a scoped type.  As long as MPI is active such a type is alive, so freeing it is
allowed.
-/

namespace MpiBindings.Environments

open Session EnvState

variable {K : Type}

/-! ## The invariant -/

section Invariant

/-- What holds between two operations. -/
structure Sound (state : EnvState K) : Prop where
  legal : Legal state.calls
  created_lt : ∀ {type}, .create type ∈ state.calls → type < state.nextType
  responsible : ∀ {name environment}, state.environments name = some environment →
    environment.finalizes → .init ∈ state.calls
  scoped_lt : ∀ {name type}, state.scopedDatatypes name = some type → name < state.nextScoped
  registeredOnce : (state.registeredMpiTypes.filterMap id).Nodup
  scopedOnce : ∀ {m n type}, state.scopedDatatypes m = some (some type) →
    state.scopedDatatypes n = some (some type) → m = n
  apart : ∀ {name type}, some type ∈ state.registeredMpiTypes →
    state.scopedDatatypes name ≠ some (some type)
  heldAlive : ∀ {type}, .finalize ∉ state.calls → state.Held type → Alive type state.calls
  staticCommitted : ∀ {key type}, state.staticTypes key = some type →
    .create type ∈ state.calls ∧ .commit type ∈ state.calls
  staticRegistered : ∀ {key type}, state.staticTypes key = some type →
    .finalize ∉ state.calls → state.freedRegistered = false →
      some type ∈ state.registeredMpiTypes
  staticOnce : ∀ {key other type}, state.staticTypes key = some type →
    state.staticTypes other = some type → key = other
  settled : ∀ {type}, type ∈ state.everRegistered →
    some type ∈ state.registeredMpiTypes ∨ .free type ∈ state.calls

theorem sound_start : Sound (start : EnvState K) where
  legal := trivial
  created_lt := nofun
  responsible := nofun
  scoped_lt := nofun
  registeredOnce := List.nodup_nil
  scopedOnce := nofun
  apart := nofun
  heldAlive := by simp [start, Held]
  staticCommitted := nofun
  staticRegistered := nofun
  staticOnce := nofun
  settled := nofun

end Invariant

/-! ## Calls of MPI -/

section Calls

variable {state : EnvState K} (hsound : Sound state)

include hsound

/-- An allowed call that frees nothing that the library will free. -/
theorem Sound.call {call : SessionCall Datatype} (hallowed : Allowed state.calls call)
    (hcreate : ∀ type, call ≠ .create type)
    (hfree : ∀ type, call = .free type → ¬ state.Held type) : Sound (state.call call) :=
  { hsound with
    legal := ⟨hallowed, hsound.legal⟩
    created_lt := fun {type} hmem =>
      hsound.created_lt ((List.mem_cons.mp hmem).resolve_left (hcreate type).symm)
    responsible := fun hname hfinalizes =>
      List.mem_cons_of_mem _ (hsound.responsible hname hfinalizes)
    heldAlive := fun {type} hfinalize hheld => by
      have halive := hsound.heldAlive (fun hmem => hfinalize (List.mem_cons_of_mem _ hmem)) hheld
      refine ⟨List.mem_cons_of_mem _ halive.1, fun hmem => ?_⟩
      rcases List.mem_cons.mp hmem with heq | hmem
      · exact hfree type heq.symm hheld
      · exact halive.2 hmem
    staticCommitted := fun hstatic =>
      (hsound.staticCommitted hstatic).imp (List.mem_cons_of_mem _) (List.mem_cons_of_mem _)
    staticRegistered := fun hstatic hfinalize =>
      hsound.staticRegistered hstatic fun hmem => hfinalize (List.mem_cons_of_mem _ hmem)
    settled := fun hever => (hsound.settled hever).imp_right (List.mem_cons_of_mem _) }

theorem Sound.mpiInit (hinit : .init ∉ state.calls) : Sound (state.call .init) :=
  hsound.call hinit nofun nofun

theorem Sound.mpiFinalize (hactive : Active state.calls) : Sound (state.call .finalize) :=
  hsound.call hactive nofun nofun

theorem Sound.commit {type : Datatype} (hactive : Active state.calls)
    (halive : Alive type state.calls) : Sound (state.call (.commit type)) :=
  hsound.call ⟨hactive, halive⟩ nofun nofun

theorem Sound.free {type : Datatype} (howned : state.Owned type) :
    Sound (state.call (.free type)) :=
  hsound.call ⟨howned.1, howned.2.1⟩ nofun fun _ heq => SessionCall.free.inj heq ▸ howned.2.2

theorem Sound.init : Sound state.init := by
  rw [EnvState.init]
  split
  next => exact hsound
  next hinit => exact hsound.mpiInit (by simpa [initialized] using hinit)

/-- A new type is a new handle. -/
theorem Sound.createType (hactive : Active state.calls) : Sound state.createType.1 :=
  { hsound with
    legal := ⟨⟨hactive, fun hmem => Nat.lt_irrefl _ (hsound.created_lt hmem)⟩, hsound.legal⟩
    created_lt := fun {type} hmem => by
      rcases List.mem_cons.mp hmem with heq | hmem
      · exact SessionCall.create.inj heq ▸ Nat.lt_succ_self _
      · exact Nat.lt_succ_of_lt (hsound.created_lt hmem)
    responsible := fun hname hfinalizes =>
      List.mem_cons_of_mem _ (hsound.responsible hname hfinalizes)
    heldAlive := fun {type} hfinalize hheld => by
      have halive := hsound.heldAlive (fun hmem => hfinalize (List.mem_cons_of_mem _ hmem)) hheld
      refine ⟨List.mem_cons_of_mem _ halive.1, ?_⟩
      simpa [EnvState.createType, EnvState.call] using halive.2
    staticCommitted := fun hstatic =>
      (hsound.staticCommitted hstatic).imp (List.mem_cons_of_mem _) (List.mem_cons_of_mem _)
    staticRegistered := fun hstatic hfinalize =>
      hsound.staticRegistered hstatic fun hmem => hfinalize (List.mem_cons_of_mem _ hmem)
    settled := fun hever => (hsound.settled hever).imp_right (List.mem_cons_of_mem _) }

end Calls

/-! ## Registered types -/

/-- A committed type still belongs to the program. -/
theorem Owned.commit {state : EnvState K} {type : Datatype} (howned : state.Owned type) :
    (state.call (.commit type)).Owned type := by
  obtain ⟨hactive, halive, hheld⟩ := howned
  refine ⟨?_, ?_, hheld⟩
  · simpa [Active, EnvState.call] using hactive
  · simpa [Alive, EnvState.call] using halive

section Registered

variable {state : EnvState K} (hsound : Sound state)

include hsound

theorem Sound.registerNone : Sound (state.registerMpiType none) :=
  { hsound with
    registeredOnce := by simpa [registerMpiType] using hsound.registeredOnce
    apart := fun hmem => hsound.apart (by simpa [registerMpiType] using hmem)
    heldAlive := fun hfinalize hheld =>
      hsound.heldAlive hfinalize (by simpa [registerMpiType, Held] using hheld)
    staticRegistered := fun hstatic hfinalize hfreed =>
      List.mem_append_left _ (hsound.staticRegistered hstatic hfinalize hfreed)
    settled := fun hever => (hsound.settled hever).imp_left (List.mem_append_left _) }

theorem Sound.register {type : Datatype} (howned : state.Owned type) :
    Sound (state.registerMpiType (some type)) := by
  obtain ⟨-, halive, hheld⟩ := howned
  obtain ⟨hregistered, hscoped⟩ := not_or.mp hheld
  refine
    { hsound with
      registeredOnce := ?_, apart := ?_, heldAlive := ?_, staticRegistered := ?_, settled := ?_ }
  · rw [registerMpiType, List.filterMap_append]
    refine List.nodup_append.mpr ⟨hsound.registeredOnce, List.nodup_singleton _, ?_⟩
    intro other hother _ hmem heq
    obtain rfl := heq.trans (List.mem_singleton.mp hmem)
    exact hregistered (by simpa using hother)
  · intro name other hother hname
    rcases List.mem_append.mp hother with hother | hother
    · exact hsound.apart hother hname
    · obtain rfl := Option.some.inj (List.mem_singleton.mp hother)
      exact hscoped ⟨name, hsound.scoped_lt hname, hname⟩
  · intro other hfinalize hother
    rcases hother with hother | hother
    · rcases List.mem_append.mp hother with hother | hother
      · exact hsound.heldAlive hfinalize (Or.inl hother)
      · obtain rfl := Option.some.inj (List.mem_singleton.mp hother)
        exact halive
    · exact hsound.heldAlive hfinalize (Or.inr hother)
  · exact fun hstatic hfinalize hfreed =>
      List.mem_append_left _ (hsound.staticRegistered hstatic hfinalize hfreed)
  · intro other hever
    rcases List.mem_cons.mp hever with rfl | hever
    · exact Or.inl (List.mem_append_right _ List.mem_cons_self)
    · exact (hsound.settled hever).imp_left (List.mem_append_left _)

/-- The registered types are alive and distinct, so all of them can be freed. -/
theorem Sound.freeRegisteredMpiTypes (hactive : Active state.calls) :
    Sound state.freeRegisteredMpiTypes where
  legal := legal_freeAll hsound.legal hactive hsound.registeredOnce fun type hmem =>
    hsound.heldAlive hactive.2 (Or.inl (by simpa using hmem))
  created_lt hmem := hsound.created_lt (by simpa [EnvState.freeRegisteredMpiTypes, mem_freeAll]
    using hmem)
  responsible hname hfinalizes :=
    mem_freeAll.mpr (Or.inr (hsound.responsible hname hfinalizes))
  scoped_lt := hsound.scoped_lt
  registeredOnce := List.nodup_nil
  scopedOnce := hsound.scopedOnce
  apart := nofun
  heldAlive {type} hfinalize hheld := by
    obtain ⟨name, hlt, hname⟩ := hheld.resolve_left List.not_mem_nil
    have halive := hsound.heldAlive hactive.2 (Or.inr ⟨name, hlt, hname⟩)
    refine ⟨mem_freeAll.mpr (Or.inr halive.1), fun hmem => ?_⟩
    rcases mem_freeAll.mp hmem with ⟨other, hother, heq⟩ | hmem
    · obtain rfl := SessionCall.free.inj heq
      exact hsound.apart (by simpa using hother) hname
    · exact halive.2 hmem
  staticCommitted hstatic :=
    (hsound.staticCommitted hstatic).imp (fun hmem => mem_freeAll.mpr (Or.inr hmem))
      fun hmem => mem_freeAll.mpr (Or.inr hmem)
  staticRegistered _ _ hfreed := by cases hfreed
  staticOnce := hsound.staticOnce
  settled {type} hever := by
    refine Or.inr (mem_freeAll.mpr ?_)
    refine (hsound.settled hever).imp_left fun hmem => ⟨type, ?_, rfl⟩
    simpa using hmem

theorem Sound.finalize (hactive : Active state.calls) :
    Sound (state.freeRegisteredMpiTypes.call .finalize) :=
  (hsound.freeRegisteredMpiTypes hactive).mpiFinalize (active_freeAll.mpr hactive)

end Registered

/-! ## Static types -/

section Static

variable [DecidableEq K] {state : EnvState K} (hsound : Sound state)

include hsound

omit [DecidableEq K] in
/-- A new type belongs to nobody yet. -/
theorem Sound.owned_createType (hactive : Active state.calls) :
    state.createType.1.Owned state.nextType := by
  have hnew : .create state.nextType ∉ state.calls := fun hmem =>
    Nat.lt_irrefl _ (hsound.created_lt hmem)
  refine ⟨?_, ⟨List.mem_cons_self, fun hfree => ?_⟩, fun hheld => ?_⟩
  · simpa [Active, EnvState.createType, EnvState.call] using hactive
  · rcases List.mem_cons.mp hfree with heq | hfree
    · cases heq
    · exact hnew (hsound.legal.create_mem hfree)
  · exact hnew (hsound.heldAlive hactive.2 hheld).1

omit [DecidableEq K] in
theorem Sound.constructAndCommitType (hactive : Active state.calls) :
    Sound state.constructAndCommitType.1 := by
  have howned := hsound.owned_createType hactive
  exact ((hsound.createType hactive).commit howned.1 howned.2.1).register (Owned.commit howned)

theorem Sound.mpiDatatype (hactive : Active state.calls) (key : K) :
    Sound (state.mpiDatatype key).1 := by
  rw [EnvState.mpiDatatype]
  split
  next => exact hsound
  next hnone =>
    have hnew : .create state.nextType ∉ state.calls := fun hmem =>
      Nat.lt_irrefl _ (hsound.created_lt hmem)
    have hcases : ∀ {other type},
        Function.update state.staticTypes key (some state.nextType) other = some type →
          other = key ∧ state.nextType = type ∨ state.staticTypes other = some type := by
      intro other type hother
      by_cases heq : other = key
      · rw [heq, Function.update_self] at hother
        exact Or.inl ⟨heq, Option.some.inj hother⟩
      · rw [Function.update_of_ne heq] at hother
        exact Or.inr hother
    have hconstructed := hsound.constructAndCommitType hactive
    refine
      { hconstructed with
        staticCommitted := fun {other type} hother => ?_
        staticRegistered := fun {other type} hother hfinalize hfreed => ?_
        staticOnce := fun {first second type} hfirst hsecond => ?_ }
    · rcases hcases hother with ⟨-, rfl⟩ | hother
      · exact ⟨List.mem_cons_of_mem _ List.mem_cons_self, List.mem_cons_self⟩
      · exact hconstructed.staticCommitted hother
    · rcases hcases hother with ⟨-, rfl⟩ | hother
      · exact List.mem_append_right _ List.mem_cons_self
      · exact hconstructed.staticRegistered hother hfinalize hfreed
    · rcases hcases hfirst with ⟨rfl, rfl⟩ | hfirstOld
      · rcases hcases hsecond with ⟨rfl, -⟩ | hsecondOld
        · rfl
        · exact absurd (hsound.staticCommitted hsecondOld).1 hnew
      · rcases hcases hsecond with ⟨rfl, rfl⟩ | hsecondOld
        · exact absurd (hsound.staticCommitted hfirstOld).1 hnew
        · exact hsound.staticOnce hfirstOld hsecondOld

omit hsound in
theorem mpiDatatype_static (state : EnvState K) (key : K) :
    (state.mpiDatatype key).1.staticTypes key = some (state.mpiDatatype key).2 := by
  rw [EnvState.mpiDatatype]
  split
  next hstatic => exact hstatic
  next => exact Function.update_self _ _ _

omit hsound in
theorem mpiDatatype_freedRegistered (key : K) :
    (state.mpiDatatype key).1.freedRegistered = state.freedRegistered := by
  rw [EnvState.mpiDatatype]
  split <;> rfl

omit hsound in
theorem mpiDatatype_active (key : K) :
    Active (state.mpiDatatype key).1.calls ↔ Active state.calls := by
  rw [EnvState.mpiDatatype]
  split
  next => rfl
  next => simp [Active, EnvState.constructAndCommitType, EnvState.createType, registerMpiType,
      EnvState.call]

/-- As long as the program frees no registered types, types can be used after they were looked
up. -/
theorem Sound.communicate (hactive : Active state.calls) (hfreed : state.freedRegistered = false)
    (key : K) : Sound ((state.mpiDatatype key).1.call (.use (state.mpiDatatype key).2)) := by
  have hlooked := hsound.mpiDatatype hactive key
  have hstatic := mpiDatatype_static state key
  have hstill := (mpiDatatype_active key).mpr hactive
  have hregistered := hlooked.staticRegistered hstatic hstill.2
    ((mpiDatatype_freedRegistered key).trans hfreed)
  exact hlooked.call ⟨hstill, hlooked.heldAlive hstill.2 (Or.inl hregistered),
    (hlooked.staticCommitted hstatic).2⟩ nofun nofun

end Static

/-! ## Scoped types -/

section Scoped

variable {state : EnvState K} (hsound : Sound state)

include hsound

/-- Scoped types may exchange, give up and take over types. -/
theorem Sound.withScoped {objects : ℕ → Option (Option Datatype)} {next : ℕ}
    (hlt : ∀ {name type}, objects name = some type → name < next)
    (honce : ∀ {m n type}, objects m = some (some type) → objects n = some (some type) → m = n)
    (hsource : ∀ {name type}, objects name = some (some type) →
      (∃ other, state.scopedDatatypes other = some (some type)) ∨ state.Owned type) :
    Sound { state with scopedDatatypes := objects, nextScoped := next } :=
  { hsound with
    scoped_lt := hlt
    scopedOnce := honce
    apart := fun hmem hname => by
      rcases hsource hname with ⟨other, hother⟩ | howned
      · exact hsound.apart hmem hother
      · exact howned.2.2 (Or.inl hmem)
    heldAlive := fun hfinalize hheld => by
      rcases hheld with hmem | ⟨name, -, hname⟩
      · exact hsound.heldAlive hfinalize (Or.inl hmem)
      · rcases hsource hname with ⟨other, hother⟩ | howned
        · exact hsound.heldAlive hfinalize (Or.inr ⟨other, hsound.scoped_lt hother, hother⟩)
        · exact howned.2.1 }

omit hsound in
theorem scoped_update {name m : ℕ} {object : Option (Option Datatype)} {type : Datatype}
    (hobject : object = none ∨ object = some none)
    (hm : Function.update state.scopedDatatypes name object m = some (some type)) :
    state.scopedDatatypes m = some (some type) := by
  by_cases heq : m = name
  · rw [heq, Function.update_self] at hm
    rcases hobject with rfl | rfl <;> cases hm
  · rwa [Function.update_of_ne heq] at hm

/-- An object gives up its type. -/
theorem Sound.dropScoped {name : ℕ} (object : Option (Option Datatype))
    (hlt : name < state.nextScoped) (hobject : object = none ∨ object = some none) :
    Sound (state.storeScoped name object) := by
  refine hsound.withScoped (fun {m type} hm => ?_) (fun hm hn => ?_) (fun hm => ?_)
  · by_cases heq : m = name
    · exact heq ▸ hlt
    · rw [Function.update_of_ne heq] at hm
      exact hsound.scoped_lt hm
  · exact hsound.scopedOnce (scoped_update hobject hm) (scoped_update hobject hn)
  · exact Or.inl ⟨_, scoped_update hobject hm⟩

/-- A new object takes over a type that no other object has. -/
theorem Sound.newScoped {type : Option Datatype}
    (hsource : ∀ handle, type = some handle → state.Owned handle) :
    Sound (state.newScoped type) := by
  have hcases : ∀ {m other},
      Function.update state.scopedDatatypes state.nextScoped (some type) m = some (some other) →
        m = state.nextScoped ∧ type = some other ∨
          state.scopedDatatypes m = some (some other) := by
    intro m other hm
    by_cases heq : m = state.nextScoped
    · rw [heq, Function.update_self] at hm
      exact Or.inl ⟨heq, Option.some.inj hm⟩
    · rw [Function.update_of_ne heq] at hm
      exact Or.inr hm
  have hother : ∀ {m other}, type = some other →
      state.scopedDatatypes m ≠ some (some other) := fun {m other} htype hm =>
    (hsource other htype).2.2 (Or.inr ⟨m, hsound.scoped_lt hm, hm⟩)
  refine hsound.withScoped (fun {m other} hm => ?_) (fun {m n other} hm hn => ?_)
    (fun {m other} hm => ?_)
  · by_cases heq : m = state.nextScoped
    · exact heq ▸ Nat.lt_succ_self _
    · exact Nat.lt_succ_of_lt (hsound.scoped_lt ((Function.update_of_ne heq _ _).symm.trans hm))
  · rcases hcases hm with ⟨rfl, htype⟩ | hmOld
    · rcases hcases hn with ⟨rfl, -⟩ | hnOld
      · rfl
      · exact absurd hnOld (hother htype)
    · rcases hcases hn with ⟨rfl, htype⟩ | hnOld
      · exact absurd hmOld (hother htype)
      · exact hsound.scopedOnce hmOld hnOld
  · rcases hcases hm with ⟨-, htype⟩ | hmOld
    · exact Or.inr (hsource other htype)
    · exact Or.inl ⟨m, hmOld⟩

theorem Sound.scopedConstruct {type : Option Datatype}
    (howned : ∀ handle, type = some handle → state.Owned handle) :
    Sound (state.scopedConstruct type) := by
  cases type with
  | none => exact hsound.newScoped nofun
  | some type =>
      have htype := howned type rfl
      refine (hsound.commit htype.1 htype.2.1).newScoped fun handle hhandle => ?_
      obtain rfl := Option.some.inj hhandle
      exact Owned.commit htype

/-- Objects exchange their types. -/
theorem Sound.swapScoped {m n : ℕ} (hm : m < state.nextScoped) (hn : n < state.nextScoped) :
    Sound { state with scopedDatatypes := state.scopedDatatypes ∘ Equiv.swap m n } := by
  refine hsound.withScoped (fun {name type} hname => ?_)
    (fun hfirst hsecond => (Equiv.swap m n).injective (hsound.scopedOnce hfirst hsecond))
    fun {name type} hname => Or.inl ⟨_, hname⟩
  by_cases hleft : name = m
  · exact hleft ▸ hm
  · by_cases hright : name = n
    · exact hright ▸ hn
    · rw [Function.comp_apply, Equiv.swap_apply_of_ne_of_ne hleft hright] at hname
      exact hsound.scoped_lt hname

theorem Sound.scopedAssign {name other : ℕ} {type source : Option Datatype}
    (hname : state.scopedDatatypes name = some type)
    (hother : state.scopedDatatypes other = some source) :
    Sound ((state.storeScoped name (some source)).storeScoped other (some type)) := by
  have hswap := hsound.swapScoped (hsound.scoped_lt hother) (hsound.scoped_lt hname)
  rw [Equiv.comp_swap_eq_update, hname, hother] at hswap
  exact hswap

/-- A move is an exchange with a new object. -/
theorem Sound.scopedMove {other : ℕ} {type : Option Datatype}
    (hother : state.scopedDatatypes other = some type) : Sound (state.scopedMove other type) := by
  have hlt := hsound.scoped_lt hother
  have hne : other ≠ state.nextScoped := Nat.ne_of_lt hlt
  have hempty : Sound (state.newScoped none) := hsound.newScoped nofun
  have hswap := hempty.swapScoped (m := other) (n := state.nextScoped)
    (Nat.lt_succ_of_lt hlt) (Nat.lt_succ_self _)
  have hobjects : (state.newScoped none).scopedDatatypes ∘ Equiv.swap other state.nextScoped =
      (state.scopedMove other type).scopedDatatypes :=
    calc (state.newScoped none).scopedDatatypes ∘ Equiv.swap other state.nextScoped
        = Function.update (Function.update (state.newScoped none).scopedDatatypes
            state.nextScoped (some type)) other (some none) := by
          rw [Equiv.comp_swap_eq_update]
          simp [EnvState.newScoped, storeScoped, Function.update_of_ne hne, hother]
      _ = Function.update (Function.update state.scopedDatatypes state.nextScoped (some type))
            other (some none) := by
          simp [EnvState.newScoped, storeScoped]
      _ = (state.scopedMove other type).scopedDatatypes := Function.update_comm hne.symm _ _ _
  rw [hobjects] at hswap
  exact hswap

theorem Sound.scopedDestruct {name : ℕ} {type : Option Datatype}
    (hname : state.scopedDatatypes name = some type)
    (hactive : type = none ∨ Active state.calls) : Sound (state.scopedDestruct name type) := by
  have hlt := hsound.scoped_lt hname
  cases type with
  | none => exact hsound.dropScoped none hlt (Or.inl rfl)
  | some type =>
      have hactive := hactive.resolve_left (Option.some_ne_none _)
      have halive := hsound.heldAlive hactive.2 (Or.inr ⟨name, hlt, hname⟩)
      -- the object gives up its type before the type is freed
      have hdropped := hsound.dropScoped none hlt (Or.inl rfl)
      refine hdropped.free ⟨hactive, halive, ?_⟩
      rintro (hmem | ⟨other, -, hother⟩)
      · exact hsound.apart hmem hname
      · have hsame := hsound.scopedOnce (scoped_update (Or.inl rfl) hother) hname
        simp only [hsame, storeScoped, Function.update_self] at hother
        cases hother

end Scoped

/-! ## Environments -/

section Environments

variable {state : EnvState K} (hsound : Sound state)

include hsound

theorem Sound.store {name : ℕ} {environment : Option Environment}
    (hresponsible : ∀ stored, environment = some stored → stored.finalizes →
      .init ∈ state.calls) : Sound (state.store name environment) :=
  { hsound with
    responsible := fun {other stored} hother hfinalizes => by
      by_cases heq : other = name
      · simp only [heq, EnvState.store, Function.update_self] at hother
        exact hresponsible stored hother hfinalizes
      · simp only [EnvState.store, Function.update_of_ne heq] at hother
        exact hsound.responsible hother hfinalizes }

omit hsound in
theorem init_mem_init (state : EnvState K) : .init ∈ state.init.calls := by
  rw [EnvState.init]
  split
  next hinit => simpa [initialized] using hinit
  next => exact List.mem_cons_self

theorem Sound.construct (name : ℕ) (mode : InitMPIMode) :
    Sound ((state.construct mode).1.store name (some (state.construct mode).2)) := by
  cases mode with
  | initFinalize => exact hsound.init.store fun _ _ _ => init_mem_init state
  | noInitFinalize =>
      refine hsound.store fun stored hstored hfinalizes => ?_
      obtain rfl := Option.some.inj hstored
      cases hfinalizes
  | initFinalizeIfNecessary =>
      rw [EnvState.construct]
      split
      next hinit => exact hsound.store fun _ _ _ => by simpa [initialized] using hinit
      next => exact hsound.init.store fun _ _ _ => init_mem_init state

theorem Sound.destruct {name : ℕ} {environment : Environment}
    (hname : state.environments name = some environment) : Sound (state.destruct environment) := by
  rw [EnvState.destruct]
  split
  next hfinalizes =>
    split
    next => exact hsound
    next hfinalized =>
      exact hsound.finalize ⟨hsound.responsible hname hfinalizes,
        by simpa [finalized] using hfinalized⟩
  next => exact hsound

end Environments

/-! ## Runs -/

section Runs

variable [DecidableEq K] {state state' : EnvState K}

theorem envStep_sound {op : EnvOp K} (hsound : Sound state)
    (hstep : envStep state op = some state') : Sound state' := by
  cases op with
  | mpiInit =>
      obtain ⟨hinit, heq⟩ := Option.ite_none_right_eq_some.mp hstep
      exact Option.some.inj heq ▸ hsound.mpiInit hinit
  | mpiFinalize =>
      obtain ⟨hactive, heq⟩ := Option.ite_none_right_eq_some.mp hstep
      exact Option.some.inj heq ▸ hsound.mpiFinalize hactive
  | mpiCreateType =>
      obtain ⟨hactive, heq⟩ := Option.ite_none_right_eq_some.mp hstep
      exact Option.some.inj heq ▸ hsound.createType hactive
  | mpiFreeType type =>
      obtain ⟨howned, heq⟩ := Option.ite_none_right_eq_some.mp hstep
      exact Option.some.inj heq ▸ hsound.free howned
  | construct name mode =>
      obtain ⟨-, heq⟩ := Option.ite_none_right_eq_some.mp hstep
      exact Option.some.inj heq ▸ hsound.construct name mode
  | copy name other =>
      obtain ⟨-, heq⟩ := Option.ite_none_right_eq_some.mp hstep
      obtain ⟨environment, hother, heq⟩ := Option.map_eq_some_iff.mp heq
      refine heq ▸ hsound.store fun stored hstored => ?_
      exact hsound.responsible (hother.trans hstored)
  | assign name other =>
      obtain ⟨environment, -, hstep⟩ := Option.bind_eq_some_iff.mp hstep
      obtain ⟨source, hother, hstep⟩ := Option.bind_eq_some_iff.mp hstep
      obtain ⟨-, heq⟩ := Option.ite_none_right_eq_some.mp hstep
      refine Option.some.inj heq ▸ hsound.store fun stored hstored => ?_
      exact hsound.responsible (hother.trans hstored)
  | destruct name =>
      obtain ⟨environment, hname, heq⟩ := Option.map_eq_some_iff.mp hstep
      exact heq ▸ (hsound.destruct hname).store nofun
  | init => exact Option.some.inj hstep ▸ hsound.init
  | initUnchecked =>
      obtain ⟨hinit, heq⟩ := Option.ite_none_left_eq_some.mp hstep
      exact Option.some.inj heq ▸ hsound.mpiInit (by simpa [initialized] using hinit)
  | finalize =>
      obtain ⟨hinit, hstep⟩ := Option.ite_none_right_eq_some.mp hstep
      obtain ⟨hfinalized, heq⟩ := Option.ite_none_left_eq_some.mp hstep
      exact Option.some.inj heq ▸ hsound.finalize ⟨hinit, by simpa [finalized] using hfinalized⟩
  | registerMpiType type =>
      cases type with
      | none => exact Option.some.inj hstep ▸ hsound.registerNone
      | some type =>
          obtain ⟨howned, heq⟩ := Option.ite_none_right_eq_some.mp hstep
          exact Option.some.inj heq ▸ hsound.register howned
  | commit type =>
      obtain ⟨⟨hactive, halive⟩, heq⟩ := Option.ite_none_right_eq_some.mp hstep
      exact Option.some.inj heq ▸ hsound.commit hactive halive
  | free type =>
      obtain ⟨howned, heq⟩ := Option.ite_none_right_eq_some.mp hstep
      exact Option.some.inj heq ▸ hsound.free howned
  | commitAndRegister type =>
      obtain ⟨howned, heq⟩ := Option.ite_none_right_eq_some.mp hstep
      exact Option.some.inj heq ▸ (hsound.commit howned.1 howned.2.1).register (Owned.commit howned)
  | freeRegisteredMpiTypes =>
      obtain ⟨hactive, heq⟩ := Option.ite_none_right_eq_some.mp hstep
      exact Option.some.inj heq ▸ hsound.freeRegisteredMpiTypes hactive
  | mpiDatatype key =>
      obtain ⟨hactive, heq⟩ := Option.ite_none_right_eq_some.mp hstep
      exact Option.some.inj heq ▸ hsound.mpiDatatype hactive key
  | communicate key =>
      obtain ⟨⟨hactive, hfreed⟩, heq⟩ := Option.ite_none_right_eq_some.mp hstep
      exact Option.some.inj heq ▸ hsound.communicate hactive hfreed key
  | scopedConstruct type =>
      cases type with
      | none => exact Option.some.inj hstep ▸ hsound.scopedConstruct nofun
      | some type =>
          obtain ⟨howned, heq⟩ := Option.ite_none_right_eq_some.mp hstep
          refine Option.some.inj heq ▸ hsound.scopedConstruct fun handle hhandle => ?_
          exact Option.some.inj hhandle ▸ howned
  | scopedMove other =>
      obtain ⟨type, hother, heq⟩ := Option.map_eq_some_iff.mp hstep
      exact heq ▸ hsound.scopedMove hother
  | scopedAssign name other =>
      obtain ⟨type, hname, hstep⟩ := Option.bind_eq_some_iff.mp hstep
      obtain ⟨source, hother, heq⟩ := Option.bind_eq_some_iff.mp hstep
      exact Option.some.inj heq ▸ hsound.scopedAssign hname hother
  | scopedDestruct name =>
      obtain ⟨type, hname, hstep⟩ := Option.bind_eq_some_iff.mp hstep
      obtain ⟨hactive, heq⟩ := Option.ite_none_right_eq_some.mp hstep
      exact Option.some.inj heq ▸ hsound.scopedDestruct hname hactive

end Runs

/-! ## Effects of the steps -/

section Effects

/-- What a step adds to the trace, and what it leaves as it was. -/
structure StepEffect (op : EnvOp K) (state state' : EnvState K) : Prop where
  calls : ∃ new, state'.calls = new ++ state.calls ∧ (.init ∈ new → op.initializes) ∧
    (.finalize ∈ new → op = .mpiFinalize ∨ ∀ type, some type ∉ state'.registeredMpiTypes)
  registered : ∀ {type}, some type ∈ state'.registeredMpiTypes →
    some type ∈ state.registeredMpiTypes ∨ .finalize ∉ state.calls
  environments : op.changesEnvironments ∨ state'.environments = state.environments
  static : ∀ {key type}, state.staticTypes key = some type → state'.staticTypes key = some type

variable {op : EnvOp K} {state middle state' : EnvState K}

theorem StepEffect.trans (hfirst : StepEffect op state middle)
    (hsecond : StepEffect op middle state') : StepEffect op state state' where
  calls := by
    obtain ⟨new, hnew, hinit, hfinalize⟩ := hfirst.calls
    obtain ⟨later, hlater, hinitLater, hfinalizeLater⟩ := hsecond.calls
    refine ⟨later ++ new, by rw [hlater, hnew, List.append_assoc], fun hmem => ?_, fun hmem => ?_⟩
    · exact (List.mem_append.mp hmem).elim hinitLater hinit
    · rcases List.mem_append.mp hmem with hmem | hmem
      · exact hfinalizeLater hmem
      · refine (hfinalize hmem).imp_right fun hempty type htype => ?_
        rcases hsecond.registered htype with htype | hnone
        · exact hempty type htype
        · exact hnone (hnew ▸ List.mem_append_left _ hmem)
  registered htype := by
    obtain ⟨new, hnew, -⟩ := hfirst.calls
    rcases hsecond.registered htype with htype | hnone
    · exact hfirst.registered htype
    · exact Or.inr fun hmem => hnone (hnew ▸ List.mem_append_right _ hmem)
  environments := by
    rcases hsecond.environments with hchanges | heq
    · exact Or.inl hchanges
    · exact hfirst.environments.imp_right heq.trans
  static hstatic := hsecond.static (hfirst.static hstatic)

/-- A step that leaves the trace and the types as they were. -/
theorem stepEffect_of_eq (hcalls : state'.calls = state.calls)
    (hregistered : state'.registeredMpiTypes = state.registeredMpiTypes)
    (henvironments : op.changesEnvironments ∨ state'.environments = state.environments)
    (hstatic : state'.staticTypes = state.staticTypes) : StepEffect op state state' where
  calls := ⟨[], hcalls, nofun, nofun⟩
  registered htype := Or.inl (hregistered ▸ htype)
  environments := henvironments
  static hkey := hstatic ▸ hkey

theorem stepEffect_call (call : SessionCall Datatype) (hinit : call = .init → op.initializes)
    (hfinalize : call = .finalize →
      op = .mpiFinalize ∨ ∀ type, some type ∉ state.registeredMpiTypes) :
    StepEffect op state (state.call call) where
  calls := ⟨[call], rfl, fun hmem => hinit (List.mem_singleton.mp hmem).symm,
    fun hmem => hfinalize (List.mem_singleton.mp hmem).symm⟩
  registered hmem := Or.inl hmem
  environments := Or.inr rfl
  static hstatic := hstatic

theorem stepEffect_init (hinit : op.initializes) : StepEffect op state state.init := by
  rw [EnvState.init]
  split
  next => exact stepEffect_of_eq rfl rfl (Or.inr rfl) rfl
  next => exact stepEffect_call _ (fun _ => hinit) nofun

theorem stepEffect_freeRegistered : StepEffect op state state.freeRegisteredMpiTypes where
  calls := by
    obtain ⟨new, hnew, hfree⟩ :=
      exists_freeAll (state.registeredMpiTypes.filterMap id) state.calls
    refine ⟨new, hnew, fun hmem => ?_, fun hmem => ?_⟩ <;>
      · obtain ⟨_, heq⟩ := hfree _ hmem
        cases heq
  registered := nofun
  environments := Or.inr rfl
  static hstatic := hstatic

/-- The library frees the registered types before it finalizes MPI. -/
theorem stepEffect_finalize :
    StepEffect op state (state.freeRegisteredMpiTypes.call .finalize) :=
  stepEffect_freeRegistered.trans (stepEffect_call _ nofun fun _ => Or.inr nofun)

theorem stepEffect_register {type : Option Datatype}
    (hactive : type ≠ none → .finalize ∉ state.calls) :
    StepEffect op state (state.registerMpiType type) where
  calls := ⟨[], rfl, nofun, nofun⟩
  registered {other} hmem := by
    rcases List.mem_append.mp hmem with hmem | hmem
    · exact Or.inl hmem
    · exact Or.inr (hactive (List.mem_singleton.mp hmem ▸ Option.some_ne_none other))
  environments := Or.inr rfl
  static hstatic := hstatic

theorem stepEffect_mpiDatatype [DecidableEq K] (hactive : Active state.calls) (key : K) :
    StepEffect op state (state.mpiDatatype key).1 := by
  rw [EnvState.mpiDatatype]
  split
  next => exact stepEffect_of_eq rfl rfl (Or.inr rfl) rfl
  next hnone =>
    have hcreate : StepEffect op state state.createType.1 :=
      (stepEffect_call (.create state.nextType) nofun nofun).trans
        (stepEffect_of_eq rfl rfl (Or.inr rfl) rfl)
    have hcommit : StepEffect op state state.constructAndCommitType.1 :=
      (hcreate.trans (stepEffect_call (.commit state.nextType) nofun nofun)).trans
        (stepEffect_register fun _ hmem => hactive.2 (by simpa [EnvState.createType, EnvState.call]
          using hmem))
    refine { hcommit with static := fun {other type} hother => ?_ }
    have hne : other ≠ key := fun heq => by
      rw [heq, hnone] at hother
      cases hother
    exact (Function.update_of_ne hne _ _).trans hother

theorem envStep_effect [DecidableEq K] (hstep : envStep state op = some state') :
    StepEffect op state state' := by
  cases op with
  | mpiInit =>
      obtain ⟨-, heq⟩ := Option.ite_none_right_eq_some.mp hstep
      exact Option.some.inj heq ▸ stepEffect_call _ (fun _ => rfl) nofun
  | mpiFinalize =>
      obtain ⟨-, heq⟩ := Option.ite_none_right_eq_some.mp hstep
      exact Option.some.inj heq ▸ stepEffect_call _ nofun fun _ => Or.inl rfl
  | mpiCreateType =>
      obtain ⟨-, heq⟩ := Option.ite_none_right_eq_some.mp hstep
      refine Option.some.inj heq ▸ (stepEffect_call (.create state.nextType) nofun
        nofun).trans (stepEffect_of_eq rfl rfl (Or.inr rfl) rfl)
  | mpiFreeType type | free type | commit type =>
      obtain ⟨-, heq⟩ := Option.ite_none_right_eq_some.mp hstep
      exact Option.some.inj heq ▸ stepEffect_call _ nofun nofun
  | construct name mode =>
      obtain ⟨-, heq⟩ := Option.ite_none_right_eq_some.mp hstep
      have hconstruct : StepEffect (.construct name mode) state (state.construct mode).1 := by
        cases mode with
        | initFinalize => exact stepEffect_init rfl
        | noInitFinalize => exact stepEffect_of_eq rfl rfl (Or.inr rfl) rfl
        | initFinalizeIfNecessary =>
            rw [EnvState.construct]
            split
            next => exact stepEffect_of_eq rfl rfl (Or.inr rfl) rfl
            next => exact stepEffect_init rfl
      exact Option.some.inj heq ▸ hconstruct.trans (stepEffect_of_eq rfl rfl (Or.inl rfl) rfl)
  | copy name other =>
      obtain ⟨-, heq⟩ := Option.ite_none_right_eq_some.mp hstep
      obtain ⟨environment, -, heq⟩ := Option.map_eq_some_iff.mp heq
      exact heq ▸ stepEffect_of_eq rfl rfl (Or.inl rfl) rfl
  | assign name other =>
      obtain ⟨environment, -, hstep⟩ := Option.bind_eq_some_iff.mp hstep
      obtain ⟨source, -, hstep⟩ := Option.bind_eq_some_iff.mp hstep
      obtain ⟨-, heq⟩ := Option.ite_none_right_eq_some.mp hstep
      exact Option.some.inj heq ▸ stepEffect_of_eq rfl rfl (Or.inl rfl) rfl
  | destruct name =>
      obtain ⟨environment, -, heq⟩ := Option.map_eq_some_iff.mp hstep
      have hdestruct : StepEffect (.destruct name) state (state.destruct environment) := by
        rw [EnvState.destruct]
        split
        next =>
          split
          next => exact stepEffect_of_eq rfl rfl (Or.inr rfl) rfl
          next => exact stepEffect_finalize
        next => exact stepEffect_of_eq rfl rfl (Or.inr rfl) rfl
      exact heq ▸ hdestruct.trans (stepEffect_of_eq rfl rfl (Or.inl rfl) rfl)
  | init => exact Option.some.inj hstep ▸ stepEffect_init rfl
  | initUnchecked =>
      obtain ⟨-, heq⟩ := Option.ite_none_left_eq_some.mp hstep
      exact Option.some.inj heq ▸ stepEffect_call _ (fun _ => rfl) nofun
  | finalize =>
      obtain ⟨-, hstep⟩ := Option.ite_none_right_eq_some.mp hstep
      obtain ⟨-, heq⟩ := Option.ite_none_left_eq_some.mp hstep
      exact Option.some.inj heq ▸ stepEffect_finalize
  | registerMpiType type =>
      cases type with
      | none => exact Option.some.inj hstep ▸ stepEffect_register (absurd rfl)
      | some type =>
          obtain ⟨howned, heq⟩ := Option.ite_none_right_eq_some.mp hstep
          exact Option.some.inj heq ▸ stepEffect_register fun _ => howned.1.2
  | commitAndRegister type =>
      obtain ⟨howned, heq⟩ := Option.ite_none_right_eq_some.mp hstep
      exact Option.some.inj heq ▸ (stepEffect_call (.commit type) nofun nofun).trans
        (stepEffect_register fun _ => (Owned.commit howned).1.2)
  | freeRegisteredMpiTypes =>
      obtain ⟨-, heq⟩ := Option.ite_none_right_eq_some.mp hstep
      exact Option.some.inj heq ▸ stepEffect_freeRegistered
  | mpiDatatype key =>
      obtain ⟨hactive, heq⟩ := Option.ite_none_right_eq_some.mp hstep
      exact Option.some.inj heq ▸ stepEffect_mpiDatatype hactive key
  | communicate key =>
      obtain ⟨⟨hactive, -⟩, heq⟩ := Option.ite_none_right_eq_some.mp hstep
      exact Option.some.inj heq ▸ (stepEffect_mpiDatatype hactive key).trans
        (stepEffect_call _ nofun nofun)
  | scopedConstruct type =>
      cases type with
      | none => exact Option.some.inj hstep ▸ stepEffect_of_eq rfl rfl (Or.inr rfl) rfl
      | some type =>
          obtain ⟨-, heq⟩ := Option.ite_none_right_eq_some.mp hstep
          exact Option.some.inj heq ▸ (stepEffect_call (.commit type) nofun nofun).trans
            (stepEffect_of_eq rfl rfl (Or.inr rfl) rfl)
  | scopedMove other =>
      obtain ⟨type, -, heq⟩ := Option.map_eq_some_iff.mp hstep
      exact heq ▸ stepEffect_of_eq rfl rfl (Or.inr rfl) rfl
  | scopedAssign name other =>
      obtain ⟨type, -, hstep⟩ := Option.bind_eq_some_iff.mp hstep
      obtain ⟨source, -, heq⟩ := Option.bind_eq_some_iff.mp hstep
      exact Option.some.inj heq ▸ stepEffect_of_eq rfl rfl (Or.inr rfl) rfl
  | scopedDestruct name =>
      obtain ⟨type, -, hstep⟩ := Option.bind_eq_some_iff.mp hstep
      obtain ⟨-, heq⟩ := Option.ite_none_right_eq_some.mp hstep
      cases type with
      | none => exact Option.some.inj heq ▸ stepEffect_of_eq rfl rfl (Or.inr rfl) rfl
      | some type =>
          exact Option.some.inj heq ▸ (stepEffect_call (.free type) nofun nofun).trans
            (stepEffect_of_eq rfl rfl (Or.inr rfl) rfl)

end Effects

/-! ## Main results -/

section Main

variable [DecidableEq K] {state state' : EnvState K} {ops : List (EnvOp K)}

/-- A property that all steps of a run keep holds after the run. -/
theorem envRun_keeps {P : EnvState K → Prop}
    (hkeeps : ∀ {state state' op}, op ∈ ops → P state → envStep state op = some state' → P state')
    (hstart : P state) (hrun : envRun ops state = some state') : P state' := by
  induction ops generalizing state with
  | nil => exact Option.some.inj hrun ▸ hstart
  | cons op ops ih =>
      obtain ⟨middle, hstep, hrest⟩ := Option.bind_eq_some_iff.mp hrun
      exact ih (fun hmem => hkeeps (List.mem_cons_of_mem _ hmem))
        (hkeeps List.mem_cons_self hstart hstep) hrest

theorem envRun_sound (hsound : Sound state) (hrun : envRun ops state = some state') :
    Sound state' :=
  envRun_keeps (fun _ => envStep_sound) hsound hrun

/-- Nothing is registered after the end of MPI. -/
def Emptied (state : EnvState K) : Prop :=
  .finalize ∈ state.calls → ∀ type, some type ∉ state.registeredMpiTypes

omit [DecidableEq K] in
theorem StepEffect.emptied {op : EnvOp K} (heffect : StepEffect op state state')
    (hop : op ≠ .mpiFinalize) (hemptied : Emptied state) : Emptied state' := by
  intro hfinalize type htype
  obtain ⟨new, hnew, -, hempty⟩ := heffect.calls
  rcases List.mem_append.mp (hnew ▸ hfinalize) with hmem | hmem
  · exact (hempty hmem).resolve_left hop type htype
  · rcases heffect.registered htype with htype | hnone
    · exact hemptied hmem type htype
    · exact hnone hmem

/-- As long as MPI is not finalized there is an environment that will do it. -/
def Attended (state : EnvState K) : Prop :=
  .init ∈ state.calls → .finalize ∈ state.calls ∨
    ∃ name environment, state.environments name = some environment ∧ environment.finalizes

/-- Programs that initialize MPI only by constructing environments, and that do not overwrite
environments. -/
def EnvOp.leavesInit : EnvOp K → Bool
  | .mpiInit | .init | .initUnchecked | .assign _ _ => false
  | _ => true

omit [DecidableEq K] in
theorem StepEffect.attended {op : EnvOp K} (heffect : StepEffect op state state')
    (hinit : ¬ op.initializes) (hchanges : ¬ op.changesEnvironments)
    (hattended : Attended state) : Attended state' := by
  intro hmem
  obtain ⟨new, hnew, hinitNew, -⟩ := heffect.calls
  rw [hnew] at hmem ⊢
  rw [heffect.environments.resolve_left hchanges]
  have hbefore := (List.mem_append.mp hmem).resolve_left fun hnewInit => hinit (hinitNew hnewInit)
  exact (hattended hbefore).imp_left (List.mem_append_right _)

omit [DecidableEq K] in
/-- A new object takes no attention from others. -/
theorem attended_store {name : ℕ} (hname : state.environments name = none)
    (environment : Environment) (hattended : Attended state) :
    Attended (state.store name (some environment)) := by
  intro hinit
  refine (hattended hinit).imp_right fun ⟨other, attending, hother, hfinalizes⟩ => ?_
  have hne : other ≠ name := fun heq => by
    rw [heq, hname] at hother
    cases hother
  exact ⟨other, attending, (Function.update_of_ne hne _ _).trans hother, hfinalizes⟩

omit [DecidableEq K] in
theorem attended_construct {name : ℕ} (hname : state.environments name = none)
    (mode : InitMPIMode) (hattended : Attended state) :
    Attended ((state.construct mode).1.store name (some (state.construct mode).2)) := by
  cases mode with
  | initFinalize => exact fun _ => Or.inr ⟨name, _, Function.update_self _ _ _, rfl⟩
  | noInitFinalize => exact attended_store hname _ hattended
  | initFinalizeIfNecessary =>
      rw [EnvState.construct]
      split
      next => exact attended_store hname _ hattended
      next => exact fun _ => Or.inr ⟨name, _, Function.update_self _ _ _, rfl⟩

omit [DecidableEq K] in
/-- The destructor finalizes MPI if this is left to the object. -/
theorem attended_destruct {name : ℕ} {environment : Environment}
    (hname : state.environments name = some environment) (hattended : Attended state) :
    Attended ((state.destruct environment).store name none) := by
  rw [EnvState.destruct]
  split
  next hfinalizes =>
    refine fun _ => Or.inl ?_
    split
    next hfinalized => exact of_decide_eq_true hfinalized
    next => exact List.mem_cons_self
  next hfinalizes =>
    intro hinit
    refine (hattended hinit).imp_right fun ⟨other, attending, hother, hattending⟩ => ?_
    have hne : other ≠ name := fun heq => by
      rw [heq, hname] at hother
      exact hfinalizes (Option.some.inj hother ▸ hattending)
    exact ⟨other, attending, (Function.update_of_ne hne _ _).trans hother, hattending⟩

theorem envStep_attended {op : EnvOp K} (hop : op.leavesInit) (hattended : Attended state)
    (hstep : envStep state op = some state') : Attended state' := by
  have heffect := envStep_effect hstep
  cases op with
  | mpiInit | init | initUnchecked | assign => cases hop
  | construct name mode =>
      obtain ⟨hname, heq⟩ := Option.ite_none_right_eq_some.mp hstep
      exact Option.some.inj heq ▸ attended_construct hname mode hattended
  | copy name other =>
      obtain ⟨hname, heq⟩ := Option.ite_none_right_eq_some.mp hstep
      obtain ⟨environment, -, heq⟩ := Option.map_eq_some_iff.mp heq
      exact heq ▸ attended_store hname environment hattended
  | destruct name =>
      obtain ⟨environment, hname, heq⟩ := Option.map_eq_some_iff.mp hstep
      exact heq ▸ attended_destruct hname hattended
  | _ => exact heffect.attended nofun nofun hattended

/-- The first call of a run initializes MPI, and nothing follows the call that finalizes it. -/
theorem envRun_session {state : EnvState K} (hrun : envRun ops start = some state)
    (hne : state.calls ≠ []) :
    state.calls.getLast? = some .init ∧ state.calls.count .init = 1 ∧
      (.finalize ∈ state.calls →
        state.calls.head? = some .finalize ∧ state.calls.count .finalize = 1) := by
  have hlegal := (envRun_sound sound_start hrun).legal
  have hinit := List.count_pos_iff.mpr (hlegal.init_mem hne)
  refine ⟨hlegal.getLast?_eq_init hne, Nat.le_antisymm hlegal.count_init_le_one hinit, ?_⟩
  intro hfinalize
  have hcount := List.count_pos_iff.mpr hfinalize
  exact ⟨hlegal.head?_eq_finalize hfinalize,
    Nat.le_antisymm hlegal.count_finalize_le_one hcount⟩

/-- In every run of the program the library makes only MPI calls that are allowed: MPI is
initialized and finalized once, a type is freed once, and a type that is used for a
communication is committed and not freed.  `mpi_datatype` gives each C++ type one MPI type for
the rest of the run. -/
theorem envRun_legal {state : EnvState K} (hrun : envRun ops start = some state) :
    Legal state.calls ∧
      (∀ key other type, state.staticTypes key = some type →
        state.staticTypes other = some type → key = other) ∧
      ∀ later state', envRun later state = some state' → ∀ key type,
        state.staticTypes key = some type → state'.staticTypes key = some type := by
  have hsound := envRun_sound sound_start hrun
  refine ⟨hsound.legal, fun _ _ _ => hsound.staticOnce, fun later state' hlater key type => ?_⟩
  intro hstatic
  exact envRun_keeps (P := fun state => state.staticTypes key = some type)
    (fun _ hkey hstep => (envStep_effect hstep).static hkey) hstatic hlater

/-- A program with nested environments, a copy of the inner one, two C++ types and a scoped
type that is moved. -/
def nestedProgram : List (EnvOp Bool) :=
  [.construct 0 .initFinalizeIfNecessary, .construct 1 .initFinalizeIfNecessary, .copy 2 1,
    .communicate true, .mpiCreateType, .scopedConstruct (some 1), .communicate false,
    .scopedMove 0, .communicate true, .mpiCreateType, .registerMpiType (some 3),
    .scopedDestruct 0, .scopedDestruct 1, .destruct 2, .destruct 1, .destruct 0]

def nestedState : EnvState Bool := (envRun nestedProgram start).getD start

theorem envRun_legal_nested : Legal nestedState.calls ∧
    (∀ key other type, nestedState.staticTypes key = some type →
      nestedState.staticTypes other = some type → key = other) ∧
    ∀ later state', envRun later nestedState = some state' → ∀ key type,
      nestedState.staticTypes key = some type → state'.staticTypes key = some type :=
  envRun_legal (show envRun nestedProgram start = some nestedState from rfl)

/-- If MPI is finalized by the library only, every type that was registered is freed once.  If
moreover MPI is initialized by environments only and all of them have been destroyed, MPI is
finalized. -/
theorem envRun_closed {state : EnvState K} (hrun : envRun ops start = some state) :
    (.mpiFinalize ∉ ops → .finalize ∈ state.calls →
      ∀ type ∈ state.everRegistered, state.calls.count (.free type) = 1) ∧
    ((∀ op ∈ ops, op.leavesInit) → (∀ name, state.environments name = none) →
      .init ∈ state.calls → .finalize ∈ state.calls) := by
  have hsound := envRun_sound sound_start hrun
  constructor
  · intro hself hfinalize type htype
    have hemptied : Emptied state := envRun_keeps
      (fun hmem hempty hstep => (envStep_effect hstep).emptied
        (fun heq => hself (heq ▸ hmem)) hempty) (absurd · List.not_mem_nil) hrun
    have hfreed := (hsound.settled htype).resolve_left (hemptied hfinalize type)
    exact Nat.le_antisymm (hsound.legal.count_free_le_one type) (List.count_pos_iff.mpr hfreed)
  · intro hleaves hgone hinit
    have hattended : Attended state := envRun_keeps
      (fun hmem => envStep_attended (hleaves _ hmem)) (absurd · List.not_mem_nil) hrun
    refine (hattended hinit).resolve_right fun ⟨name, environment, hname, _⟩ => ?_
    rw [hgone name] at hname
    cases hname

/-- The types of the nested program are freed, and MPI is finalized by its outer environment. -/
theorem envRun_closed_nested :
    (∀ type ∈ [3, 2, 0], nestedState.calls.count (.free type) = 1) ∧
      .finalize ∈ nestedState.calls := by
  have hclosed := envRun_closed (show envRun nestedProgram start = some nestedState from rfl)
  have hgone : ∀ name, nestedState.environments name = none
    | 0 | 1 | 2 => rfl
    | _ + 3 => rfl
  have hfinalize := hclosed.2 (by decide) hgone (by decide)
  exact ⟨hclosed.1 (by decide) hfinalize, hfinalize⟩

end Main

end MpiBindings.Environments
