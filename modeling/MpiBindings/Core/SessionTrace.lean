import Mathlib.Data.List.Nodup
import Mathlib.Data.List.Count

/-!
# Traces of a session

An interface is used in a session: it has to be initialized once before any other call and
finalized once after all of them.  Between these two calls, handles are created, committed,
used and freed.  A trace is legal when every call was allowed at its time; the latest call
comes first.
-/

namespace MpiBindings

inductive SessionCall (H : Type)
  | init
  | finalize
  | create (handle : H)
  | commit (handle : H)
  | use (handle : H)
  | free (handle : H)
deriving DecidableEq

namespace Session

variable {H : Type}

/-- The session has begun and has not ended. -/
def Active (calls : List (SessionCall H)) : Prop := .init ∈ calls ∧ .finalize ∉ calls

/-- The handle was created and not freed. -/
def Alive (handle : H) (calls : List (SessionCall H)) : Prop :=
  .create handle ∈ calls ∧ .free handle ∉ calls

instance [DecidableEq H] (calls : List (SessionCall H)) : Decidable (Active calls) :=
  inferInstanceAs (Decidable (_ ∧ _))

instance [DecidableEq H] (handle : H) (calls : List (SessionCall H)) :
    Decidable (Alive handle calls) :=
  inferInstanceAs (Decidable (_ ∧ _))

/-- Calls that are allowed after the given ones. -/
def Allowed (calls : List (SessionCall H)) : SessionCall H → Prop
  | .init => .init ∉ calls
  | .finalize => Active calls
  | .create handle => Active calls ∧ .create handle ∉ calls
  | .commit handle => Active calls ∧ Alive handle calls
  | .use handle => Active calls ∧ Alive handle calls ∧ .commit handle ∈ calls
  | .free handle => Active calls ∧ Alive handle calls

def Legal : List (SessionCall H) → Prop
  | [] => True
  | call :: calls => Allowed calls call ∧ Legal calls

/-! ## What a legal trace says -/

variable {calls : List (SessionCall H)} {call : SessionCall H} {handle : H}

/-- Only the first call is allowed outside a session. -/
theorem Allowed.active (hallowed : Allowed calls call) (hne : call ≠ .init) : Active calls := by
  cases call with
  | init => exact absurd rfl hne
  | finalize => exact hallowed
  | create => exact hallowed.1
  | commit => exact hallowed.1
  | use => exact hallowed.1
  | free => exact hallowed.1

theorem Legal.of_append {later : List (SessionCall H)} (hlegal : Legal (later ++ calls)) :
    Legal calls := by
  induction later with
  | nil => exact hlegal
  | cons _ later ih => exact ih hlegal.2

/-- Every call was allowed after the calls before it. -/
theorem Legal.allowed {later : List (SessionCall H)} (hlegal : Legal (later ++ call :: calls)) :
    Allowed calls call :=
  hlegal.of_append.1

theorem Legal.init_mem (hlegal : Legal calls) (hne : calls ≠ []) : .init ∈ calls := by
  cases calls with
  | nil => exact absurd rfl hne
  | cons call calls =>
      by_cases hinit : call = .init
      · exact hinit ▸ List.mem_cons_self
      · exact List.mem_cons_of_mem _ (hlegal.1.active hinit).1

/-- The session begins with the first call of the trace. -/
theorem Legal.getLast?_eq_init (hlegal : Legal calls) (hne : calls ≠ []) :
    calls.getLast? = some .init := by
  induction calls with
  | nil => exact absurd rfl hne
  | cons call calls ih =>
      cases calls with
      | nil =>
          by_cases hinit : call = .init
          · rw [hinit, List.getLast?_singleton]
          · exact absurd (hlegal.1.active hinit).1 List.not_mem_nil
      | cons next calls =>
          rw [List.getLast?_cons_cons]
          exact ih hlegal.2 (List.cons_ne_nil _ _)

/-- Nothing follows the end of the session. -/
theorem Legal.head?_eq_finalize (hlegal : Legal calls) (hfinalize : .finalize ∈ calls) :
    calls.head? = some .finalize := by
  cases calls with
  | nil => cases hfinalize
  | cons call calls =>
      rcases List.mem_cons.mp hfinalize with rfl | hmem
      · rfl
      · by_cases hinit : call = .init
        · subst hinit
          exact absurd (hlegal.2.init_mem (List.ne_nil_of_mem hmem)) hlegal.1
        · exact absurd hmem (hlegal.1.active hinit).2

/-- Only created handles are freed. -/
theorem Legal.create_mem (hlegal : Legal calls) (hfree : .free handle ∈ calls) :
    .create handle ∈ calls := by
  induction calls with
  | nil => cases hfree
  | cons call calls ih =>
      rcases List.mem_cons.mp hfree with rfl | hmem
      · exact List.mem_cons_of_mem _ hlegal.1.2.1
      · exact List.mem_cons_of_mem _ (ih hlegal.2 hmem)

/-- A call that is not allowed twice occurs at most once. -/
theorem Legal.count_le_one [DecidableEq H] (hlegal : Legal calls)
    (honce : ∀ before, call ∈ before → ¬ Allowed before call) : calls.count call ≤ 1 := by
  induction calls with
  | nil => exact Nat.zero_le 1
  | cons other calls ih =>
      by_cases heq : other = call
      · subst heq
        have hnotMem : other ∉ calls := fun hmem => honce calls hmem hlegal.1
        have hzero := List.count_eq_zero_of_not_mem hnotMem
        rw [List.count_cons_self]
        omega
      · rw [List.count_cons_of_ne heq]
        exact ih hlegal.2

theorem Legal.count_init_le_one [DecidableEq H] (hlegal : Legal calls) :
    calls.count .init ≤ 1 :=
  hlegal.count_le_one fun _ hmem hallowed => hallowed hmem

theorem Legal.count_finalize_le_one [DecidableEq H] (hlegal : Legal calls) :
    calls.count .finalize ≤ 1 :=
  hlegal.count_le_one fun _ hmem hallowed => hallowed.2 hmem

/-- A handle is freed at most once. -/
theorem Legal.count_free_le_one [DecidableEq H] (hlegal : Legal calls) (handle : H) :
    calls.count (.free handle) ≤ 1 :=
  hlegal.count_le_one fun _ hmem hallowed => hallowed.2.2 hmem

/-! ## Freeing several handles -/

/-- Free all handles, the first one first. -/
def freeAll : List H → List (SessionCall H) → List (SessionCall H)
  | [], calls => calls
  | handle :: handles, calls => freeAll handles (.free handle :: calls)

theorem mem_freeAll {handles : List H} :
    call ∈ freeAll handles calls ↔ (∃ handle ∈ handles, call = .free handle) ∨ call ∈ calls := by
  induction handles generalizing calls with
  | nil => simp [freeAll]
  | cons handle handles ih =>
      rw [freeAll, ih, List.mem_cons, List.exists_mem_cons_iff, or_left_comm, or_assoc]

theorem exists_freeAll (handles : List H) (calls : List (SessionCall H)) :
    ∃ new, freeAll handles calls = new ++ calls ∧ ∀ call ∈ new, ∃ handle, call = .free handle := by
  induction handles generalizing calls with
  | nil => exact ⟨[], rfl, nofun⟩
  | cons handle handles ih =>
      obtain ⟨new, hnew, hfree⟩ := ih (.free handle :: calls)
      refine ⟨new ++ [.free handle], by rw [freeAll, hnew, List.append_assoc]; rfl, ?_⟩
      intro call hcall
      rcases List.mem_append.mp hcall with hcall | hcall
      · exact hfree call hcall
      · exact ⟨handle, List.mem_singleton.mp hcall⟩

theorem active_freeAll {handles : List H} : Active (freeAll handles calls) ↔ Active calls := by
  simp [Active, mem_freeAll]

/-- Distinct handles that are alive can be freed. -/
theorem legal_freeAll {handles : List H} (hlegal : Legal calls) (hactive : Active calls)
    (hnodup : handles.Nodup) (halive : ∀ handle ∈ handles, Alive handle calls) :
    Legal (freeAll handles calls) := by
  induction handles generalizing calls with
  | nil => exact hlegal
  | cons handle handles ih =>
      rw [List.nodup_cons] at hnodup
      refine ih ⟨⟨hactive, halive handle List.mem_cons_self⟩, hlegal⟩ ?_ hnodup.2 ?_
      · simpa [Active] using hactive
      · intro other hother
        have hne : other ≠ handle := fun heq => hnodup.1 (heq ▸ hother)
        simpa [Alive, hne] using halive other (List.mem_cons_of_mem _ hother)

end Session

end MpiBindings
