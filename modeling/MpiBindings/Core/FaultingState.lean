import Mathlib.Tactic.Basic

/-!
# Programs with a state that may fault

A program transforms a state and returns a result or stops with a fault; the state
that it reached stays visible.  Weakest preconditions take one condition for each
of the two outcomes.
-/

namespace MpiBindings.FaultingState

/-- Programs over a state that may stop with a fault. -/
abbrev Faulting (Fault State α : Type) := ExceptT Fault (StateM State) α

section WeakestPreconditions

variable {Fault State α β : Type} {fails : Fault → State → Prop} {state : State}

/-- Weakest precondition: `post` holds where the program returns, `fails` where it
stops with a fault. -/
def wp (fails : Fault → State → Prop) (program : Faulting Fault State α)
    (post : α → State → Prop) (state : State) : Prop :=
  match program.run.run state with
  | (.ok result, after) => post result after
  | (.error fault, after) => fails fault after

theorem wp_pure {post : α → State → Prop} (result : α) :
    wp fails (pure result) post state ↔ post result state := Iff.rfl

theorem wp_throw {post : α → State → Prop} (fault : Fault) :
    wp fails (throw fault) post state ↔ fails fault state := Iff.rfl

theorem wp_bind {program : Faulting Fault State α} {next : α → Faulting Fault State β}
    {post : β → State → Prop} :
    wp fails (program >>= next) post state ↔
      wp fails program (fun result => wp fails (next result) post) state := by
  have hrun : (program >>= next).run.run state =
      match program.run.run state with
      | (.ok result, after) => (next result).run.run after
      | (.error fault, after) => (.error fault, after) := by
    simp only [ExceptT.run_bind, StateT.run_bind]
    rcases program.run.run state with ⟨_ | _, _⟩ <;> rfl
  simp only [wp, hrun]
  rcases program.run.run state with ⟨_ | _, _⟩ <;> rfl

theorem wp_mono {program : Faulting Fault State α} {post post' : α → State → Prop}
    {fails' : Fault → State → Prop} (hfails : ∀ fault after, fails fault after → fails' fault after)
    (hpost : ∀ result after, post result after → post' result after)
    (hwp : wp fails program post state) : wp fails' program post' state := by
  unfold wp at hwp ⊢
  split at hwp
  · exact hpost _ _ hwp
  · exact hfails _ _ hwp

/-- Both conditions may refer to the run that leads to them. -/
theorem wp_and_run {program : Faulting Fault State α} {post : α → State → Prop}
    (hwp : wp fails program post state) :
    wp (fun fault after => fails fault after ∧ program.run.run state = (.error fault, after))
      program (fun result after => post result after ∧ program.run.run state = (.ok result, after))
      state := by
  unfold wp at hwp ⊢
  split at hwp
  · rename_i result after hrun
    exact ⟨hwp, hrun⟩
  · rename_i fault after hrun
    exact ⟨hwp, hrun⟩

theorem run_bind_of_ok {program : Faulting Fault State α} {next : α → Faulting Fault State β}
    {result : α} {after : State} (hrun : program.run.run state = (.ok result, after)) :
    (program >>= next).run.run state = (next result).run.run after := by
  simp only [ExceptT.run_bind, StateT.run_bind, hrun]
  rfl

theorem wp_of_forall {program : Faulting Fault State α} {post : α → State → Prop}
    (hpost : ∀ result after, post result after) :
    wp (fun _ _ => True) program post state := by
  unfold wp
  split
  · exact hpost _ _
  · trivial

theorem not_wp_of_faults {program : Faulting Fault State α} {post : α → State → Prop}
    (hfaults : wp fails program (fun _ _ => False) state) :
    ¬ wp (fun _ _ => False) program post state := by
  unfold wp at hfaults ⊢
  split at hfaults
  · exact hfaults.elim
  · exact id

end WeakestPreconditions

end MpiBindings.FaultingState
