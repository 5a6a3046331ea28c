import Mathlib.Data.List.Nodup
import Mathlib.Logic.Equiv.Basic

/-!
# Ledgers of resource handles

A component acquires handles, releases some of them to its client again and frees the
others.  A ledger of these events is consistent with the owners of the handles when no
owner has a handle that it must not free, and balanced when every handle in the hands of
the component has one owner or was freed once.
-/

namespace MpiBindings

variable {H : Type}

inductive HandleEvent (H : Type)
  | acquired (handle : H)
  | released (handle : H)
  | freed (handle : H)
deriving DecidableEq

namespace HandleLedger

/-- The handle was acquired and not released since.  The latest event comes first. -/
def InHands (handle : H) : List (HandleEvent H) → Prop
  | [] => False
  | .acquired other :: log => handle = other ∨ InHands handle log
  | .released other :: log => handle ≠ other ∧ InHands handle log
  | .freed _ :: log => InHands handle log

instance decidableInHands [DecidableEq H] (handle : H) :
    (log : List (HandleEvent H)) → Decidable (InHands handle log)
  | [] => .isFalse id
  | .acquired other :: log =>
      have := decidableInHands handle log
      inferInstanceAs (Decidable (handle = other ∨ InHands handle log))
  | .released other :: log =>
      have := decidableInHands handle log
      inferInstanceAs (Decidable (handle ≠ other ∧ InHands handle log))
  | .freed _ :: log => decidableInHands handle log

def freedHandles : List (HandleEvent H) → List H
  | [] => []
  | .acquired _ :: log => freedHandles log
  | .released _ :: log => freedHandles log
  | .freed handle :: log => handle :: freedHandles log

/-- A handle that was acquired and never released is in the hands of the component. -/
theorem inHands_of_acquired {handle : H} {log : List (HandleEvent H)}
    (hacquired : .acquired handle ∈ log) (hreleased : .released handle ∉ log) :
    InHands handle log := by
  induction log with
  | nil => cases hacquired
  | cons event log ih =>
      rw [List.mem_cons, not_or] at hreleased
      rw [List.mem_cons] at hacquired
      cases event with
      | acquired other =>
          rcases hacquired with heq | hacquired
          · exact Or.inl (HandleEvent.acquired.inj heq)
          · exact Or.inr (ih hacquired hreleased.2)
      | released other =>
          rcases hacquired with heq | hacquired
          · cases heq
          · exact ⟨fun heq => hreleased.1 (congrArg _ heq), ih hacquired hreleased.2⟩
      | freed other =>
          rcases hacquired with heq | hacquired
          · cases heq
          · exact ih hacquired hreleased.2

variable {Owner : Type} {owned : Owner → Option H} {log : List (HandleEvent H)}

/-! ## Owners and the ledger -/

/-- Owners have handles of their own, which are in the hands of the component and were not
freed. -/
structure Consistent (owned : Owner → Option H) (log : List (HandleEvent H)) : Prop where
  unique : ∀ {i j handle}, owned i = some handle → owned j = some handle → i = j
  inHands : ∀ {i handle}, owned i = some handle → InHands handle log
  freedInHands : ∀ {handle}, handle ∈ freedHandles log → InHands handle log
  notFreed : ∀ {i handle}, owned i = some handle → handle ∉ freedHandles log
  freedOnce : (freedHandles log).Nodup

/-- Every handle in the hands of the component has one owner or was freed once. -/
structure Balanced (owned : Owner → Option H) (log : List (HandleEvent H)) : Prop extends
    Consistent owned log where
  settled : ∀ {handle}, InHands handle log →
    (∃ i, owned i = some handle) ∨ handle ∈ freedHandles log

theorem consistent_nil (hnone : ∀ i, owned i = none) : Consistent owned [] where
  unique hi := absurd ((hnone _).symm.trans hi) (Option.some_ne_none _).symm
  inHands hi := absurd ((hnone _).symm.trans hi) (Option.some_ne_none _).symm
  freedInHands hfreed := by cases hfreed
  notFreed hi := absurd ((hnone _).symm.trans hi) (Option.some_ne_none _).symm
  freedOnce := List.nodup_nil

theorem balanced_nil (hnone : ∀ i, owned i = none) : Balanced owned [] where
  toConsistent := consistent_nil hnone
  settled hhands := hhands.elim

theorem owned_drop_iff [DecidableEq Owner] {i j : Owner} {other : H} :
    Function.update owned i none j = some other ↔ j ≠ i ∧ owned j = some other := by
  by_cases hj : j = i
  · rw [hj, Function.update_self]
    simp
  · rw [Function.update_of_ne hj]
    simp [hj]

namespace Consistent

variable (hconsistent : Consistent owned log)

include hconsistent

/-- Owners may exchange their handles. -/
theorem permute (permutation : Equiv.Perm Owner) :
    Consistent (fun i => owned (permutation i)) log where
  unique hi hj := permutation.injective (hconsistent.unique hi hj)
  inHands hi := hconsistent.inHands hi
  freedInHands hfreed := hconsistent.freedInHands hfreed
  notFreed hi := hconsistent.notFreed hi
  freedOnce := hconsistent.freedOnce

variable {i : Owner} {handle : H}

theorem acquired (handle : H) : Consistent owned (.acquired handle :: log) where
  unique := hconsistent.unique
  inHands hi := Or.inr (hconsistent.inHands hi)
  freedInHands hfreed := Or.inr (hconsistent.freedInHands hfreed)
  notFreed := hconsistent.notFreed
  freedOnce := hconsistent.freedOnce

/-- A handle without owner is released. -/
theorem released (hunowned : ∀ i, owned i ≠ some handle) (hfreed : handle ∉ freedHandles log) :
    Consistent owned (.released handle :: log) where
  unique := hconsistent.unique
  inHands {i other} hi := by
    refine ⟨?_, hconsistent.inHands hi⟩
    rintro rfl
    exact hunowned i hi
  freedInHands {other} hother := by
    refine ⟨?_, hconsistent.freedInHands hother⟩
    rintro rfl
    exact hfreed hother
  notFreed := hconsistent.notFreed
  freedOnce := hconsistent.freedOnce

/-- A handle without owner is freed. -/
theorem freed (hunowned : ∀ i, owned i ≠ some handle) (hhands : InHands handle log)
    (hfreed : handle ∉ freedHandles log) : Consistent owned (.freed handle :: log) where
  unique := hconsistent.unique
  inHands hi := hconsistent.inHands hi
  freedInHands {other} hother := by
    rcases List.mem_cons.mp hother with rfl | hother
    · exact hhands
    · exact hconsistent.freedInHands hother
  notFreed {i other} hi := by
    rw [freedHandles, List.mem_cons, not_or]
    refine ⟨?_, hconsistent.notFreed hi⟩
    rintro rfl
    exact hunowned i hi
  freedOnce := List.nodup_cons.mpr ⟨hfreed, hconsistent.freedOnce⟩

variable [DecidableEq Owner]

/-- An owner loses its handle. -/
theorem drop (i : Owner) : Consistent (Function.update owned i none) log where
  unique hj hk := hconsistent.unique (owned_drop_iff.mp hj).2 (owned_drop_iff.mp hk).2
  inHands hj := hconsistent.inHands (owned_drop_iff.mp hj).2
  freedInHands := hconsistent.freedInHands
  notFreed hj := hconsistent.notFreed (owned_drop_iff.mp hj).2
  freedOnce := hconsistent.freedOnce

theorem ne_of_drop (howned : owned i = some handle) (j : Owner) :
    Function.update owned i none j ≠ some handle := fun hj => by
  obtain ⟨hne, hj⟩ := owned_drop_iff.mp hj
  exact hne (hconsistent.unique hj howned)

/-- An owner takes a handle that is in the hands of the component and has no other owner. -/
theorem take (hhands : InHands handle log) (hfreed : handle ∉ freedHandles log)
    (hothers : ∀ j, j ≠ i → owned j ≠ some handle) :
    Consistent (Function.update owned i (some handle)) log := by
  have howns : ∀ {j other}, Function.update owned i (some handle) j = some other →
      j = i ∧ handle = other ∨ j ≠ i ∧ owned j = some other := by
    intro j other hj
    by_cases hji : j = i
    · rw [hji, Function.update_self] at hj
      exact Or.inl ⟨hji, Option.some.inj hj⟩
    · rw [Function.update_of_ne hji] at hj
      exact Or.inr ⟨hji, hj⟩
  refine ⟨fun {j k other} hj hk => ?_, fun {j other} hj => ?_, hconsistent.freedInHands,
    fun {j other} hj => ?_, hconsistent.freedOnce⟩
  · rcases howns hj with ⟨hji, rfl⟩ | ⟨hji, hjOwned⟩
    · rcases howns hk with ⟨hki, -⟩ | ⟨hki, hkOwned⟩
      · exact hji.trans hki.symm
      · exact absurd hkOwned (hothers k hki)
    · rcases howns hk with ⟨-, rfl⟩ | ⟨-, hkOwned⟩
      · exact absurd hjOwned (hothers j hji)
      · exact hconsistent.unique hjOwned hkOwned
  · rcases howns hj with ⟨-, rfl⟩ | ⟨-, hjOwned⟩
    · exact hhands
    · exact hconsistent.inHands hjOwned
  · rcases howns hj with ⟨-, rfl⟩ | ⟨-, hjOwned⟩
    · exact hfreed
    · exact hconsistent.notFreed hjOwned

end Consistent

namespace Balanced

variable (hbalanced : Balanced owned log)

include hbalanced

theorem permute (permutation : Equiv.Perm Owner) :
    Balanced (fun i => owned (permutation i)) log where
  toConsistent := hbalanced.toConsistent.permute permutation
  settled hhands := (hbalanced.settled hhands).imp_left permutation.surjective.exists.mp

variable [DecidableEq Owner] {i : Owner} {handle : H}

/-- An owner without a handle acquires one that is not in the hands of the component. -/
theorem acquire (hnone : owned i = none) (hhands : ¬ InHands handle log) :
    Balanced (Function.update owned i (some handle)) (.acquired handle :: log) where
  toConsistent := (hbalanced.acquired handle).take (Or.inl rfl)
    (fun hfreed => hhands (hbalanced.freedInHands hfreed))
    fun j _ hj => hhands (hbalanced.inHands hj)
  settled {other} hother := by
    rcases hother with rfl | hother
    · exact Or.inl ⟨i, Function.update_self _ _ _⟩
    · refine (hbalanced.settled hother).imp_left fun ⟨j, hj⟩ => ⟨j, ?_⟩
      rw [Function.update_of_ne, hj]
      rintro rfl
      exact absurd (hnone.symm.trans hj) (Option.some_ne_none _).symm

/-- An owner releases its handle. -/
theorem release (howned : owned i = some handle) :
    Balanced (Function.update owned i none) (.released handle :: log) where
  toConsistent := (hbalanced.drop i).released (hbalanced.ne_of_drop howned)
    (hbalanced.notFreed howned)
  settled {other} hother := by
    refine (hbalanced.settled hother.2).imp_left fun ⟨j, hj⟩ => ⟨j, ?_⟩
    rw [Function.update_of_ne, hj]
    rintro rfl
    exact hother.1 (Option.some.inj (hj.symm.trans howned))

/-- An owner frees its handle. -/
theorem free (howned : owned i = some handle) :
    Balanced (Function.update owned i none) (.freed handle :: log) where
  toConsistent := (hbalanced.drop i).freed (hbalanced.ne_of_drop howned)
    (hbalanced.inHands howned) (hbalanced.notFreed howned)
  settled {other} hother := by
    rw [freedHandles, List.mem_cons]
    by_cases heq : other = handle
    · exact Or.inr (Or.inl heq)
    · refine (hbalanced.settled hother).imp (fun ⟨j, hj⟩ => ⟨j, ?_⟩) Or.inr
      rw [Function.update_of_ne, hj]
      rintro rfl
      exact heq (Option.some.inj (hj.symm.trans howned))

end Balanced

/-! ## What a balanced ledger says -/

/-- Handles are freed exactly once: no handle has two owners or is freed while it has one;
what was acquired and never released has one owner or was freed once; nothing else is
freed. -/
structure FreedOnce [DecidableEq H] (owned : Owner → Option H) (log : List (HandleEvent H)) :
    Prop where
  unique : ∀ i j handle, owned i = some handle → owned j = some handle → i = j
  notFreed : ∀ i handle, owned i = some handle → handle ∉ freedHandles log
  kept : ∀ handle, .acquired handle ∈ log → .released handle ∉ log →
    (∃! i, owned i = some handle) ∧ (freedHandles log).count handle = 0 ∨
      (¬ ∃ i, owned i = some handle) ∧ (freedHandles log).count handle = 1
  foreign : ∀ handle, ¬ InHands handle log → handle ∉ freedHandles log

theorem Balanced.toFreedOnce [DecidableEq H] (hbalanced : Balanced owned log) :
    FreedOnce owned log where
  unique _ _ _ hi hj := hbalanced.unique hi hj
  notFreed _ _ hi := hbalanced.notFreed hi
  kept handle hacquired hreleased := by
    rcases hbalanced.settled (inHands_of_acquired hacquired hreleased) with ⟨i, hi⟩ | hfreed
    · exact Or.inl ⟨⟨i, hi, fun j hj => hbalanced.unique hj hi⟩,
        List.count_eq_zero_of_not_mem (hbalanced.notFreed hi)⟩
    · refine Or.inr ⟨fun ⟨i, hi⟩ => hbalanced.notFreed hi hfreed, ?_⟩
      exact List.count_eq_one_of_mem hbalanced.freedOnce hfreed
  foreign _ hhands hfreed := hhands (hbalanced.freedInHands hfreed)

end HandleLedger

end MpiBindings
