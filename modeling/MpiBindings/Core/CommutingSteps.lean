import Mathlib.Data.List.Basic
import Mathlib.Tactic.Common

/-!
# Systems whose agents commute

A system is a state and, for every agent, one deterministic step that may be
blocked.  When the enabled steps of two different agents commute, the schedule
does not matter: if one schedule drives the system into a terminal state, then
every schedule stays within the same number of steps and can be completed to
that terminal state.  Deadlock freedom, termination and the final value are
therefore settled by exhibiting a single run.
-/

namespace MpiBindings.CommutingSteps

universe u v

variable {Agent : Type u} {State : Type v}

/-- Execute the given schedule; the run is undefined once a chosen agent is
blocked. -/
def run (step : Agent → State → Option State) : List Agent → State → Option State
  | [], state => some state
  | agent :: schedule, state =>
      (step agent state).bind fun next => run step schedule next

/-- States that some schedule reaches. -/
def Reachable (step : Agent → State → Option State) (start state : State) : Prop :=
  ∃ schedule, run step schedule start = some state

/-- No agent can take a step. -/
def Terminal (step : Agent → State → Option State) (state : State) : Prop :=
  ∀ agent, step agent state = none

/-- Steps of two different agents can be exchanged. -/
def Commutes (step : Agent → State → Option State) : Prop :=
  ∀ (left right : Agent) (state leftNext rightNext : State), left ≠ right →
    step left state = some leftNext → step right state = some rightNext →
    ∃ joined, step right leftNext = some joined ∧ step left rightNext = some joined

variable {step : Agent → State → Option State}

@[simp]
theorem run_nil (state : State) : run step [] state = some state := rfl

theorem run_cons (agent : Agent) (schedule : List Agent) (state : State) :
    run step (agent :: schedule) state =
      (step agent state).bind fun next => run step schedule next := rfl

theorem run_cons_of_step {agent : Agent} {state next : State}
    (hstep : step agent state = some next) (schedule : List Agent) :
    run step (agent :: schedule) state = run step schedule next := by
  rw [run_cons, hstep, Option.bind_some]

theorem run_append (first second : List Agent) (state : State) :
    run step (first ++ second) state =
      (run step first state).bind fun next => run step second next := by
  induction first generalizing state with
  | nil => rfl
  | cons agent first ih =>
      rw [List.cons_append, run_cons, run_cons, Option.bind_assoc]
      congr 1
      funext next
      exact ih next

theorem run_append_of_run {first : List Agent} {state next : State}
    (hrun : run step first state = some next) (second : List Agent) :
    run step (first ++ second) state = run step second next := by
  rw [run_append, hrun, Option.bind_some]

theorem Reachable.refl (state : State) : Reachable step state state :=
  ⟨[], rfl⟩

theorem Reachable.trans {start middle state : State}
    (hfirst : Reachable step start middle)
    (hsecond : Reachable step middle state) : Reachable step start state := by
  obtain ⟨first, hfirst⟩ := hfirst
  obtain ⟨second, hsecond⟩ := hsecond
  exact ⟨first ++ second, by rw [run_append_of_run hfirst, hsecond]⟩

theorem Reachable.tail {start state next : State} {agent : Agent}
    (hreach : Reachable step start state)
    (hstep : step agent state = some next) : Reachable step start next :=
  hreach.trans ⟨[agent], by rw [run_cons_of_step hstep, run_nil]⟩

/-- Invariant rule: what holds at the start and is preserved by every step
holds in every reachable state. -/
theorem Reachable.invariant {start : State} {Inv : State → Prop}
    (hstart : Inv start)
    (hstep : ∀ agent state next, Inv state → step agent state = some next → Inv next)
    {state : State} (hreach : Reachable step start state) : Inv state := by
  obtain ⟨schedule, hrun⟩ := hreach
  induction schedule generalizing start with
  | nil =>
      rw [run_nil, Option.some.injEq] at hrun
      exact hrun ▸ hstart
  | cons agent schedule ih =>
      cases hnext : step agent start with
      | none => simp [run_cons, hnext] at hrun
      | some next =>
          rw [run_cons_of_step hnext] at hrun
          exact ih (hstep agent start next hstart hnext) hrun

/-- A step towards a terminal state that `schedule` reaches uses up exactly one
entry of that schedule. -/
theorem exists_shorter_of_step [DecidableEq Agent] (hcomm : Commutes step)
    {schedule : List Agent} {state final : State}
    (hrun : run step schedule state = some final) (hfinal : Terminal step final)
    {agent : Agent} {next : State} (hstep : step agent state = some next) :
    ∃ rest, run step rest next = some final ∧ rest.length + 1 = schedule.length := by
  induction schedule generalizing state next with
  | nil =>
      rw [run_nil, Option.some.injEq] at hrun
      subst hrun
      simp [hfinal agent] at hstep
  | cons other schedule ih =>
      cases hother : step other state with
      | none => simp [run_cons, hother] at hrun
      | some otherNext =>
          rw [run_cons_of_step hother] at hrun
          by_cases hagent : agent = other
          · subst hagent
            obtain rfl : next = otherNext := by simpa [hstep] using hother
            exact ⟨schedule, hrun, rfl⟩
          · obtain ⟨joined, hright, hleft⟩ :=
              hcomm agent other state next otherNext hagent hstep hother
            obtain ⟨rest, hrest, hlength⟩ := ih hrun hleft
            refine ⟨other :: rest, ?_, by simp [hlength]⟩
            rw [run_cons_of_step hright, hrest]

/-- If one schedule ends in a terminal state, every run can be completed to
that state and the two parts together are as long as the schedule. -/
theorem exists_completion [DecidableEq Agent] (hcomm : Commutes step)
    {schedule : List Agent} {start final : State}
    (hrun : run step schedule start = some final) (hfinal : Terminal step final)
    {taken : List Agent} {state : State} (htaken : run step taken start = some state) :
    ∃ rest, run step rest state = some final ∧
      taken.length + rest.length = schedule.length := by
  induction taken generalizing start schedule with
  | nil =>
      rw [run_nil, Option.some.injEq] at htaken
      subst htaken
      exact ⟨schedule, hrun, by simp⟩
  | cons agent taken ih =>
      cases hagent : step agent start with
      | none => simp [run_cons, hagent] at htaken
      | some next =>
          rw [run_cons_of_step hagent] at htaken
          obtain ⟨shorter, hshorter, hlength⟩ :=
            exists_shorter_of_step hcomm hrun hfinal hagent
          obtain ⟨rest, hrest, hrestLength⟩ := ih hshorter htaken
          refine ⟨rest, hrest, ?_⟩
          simp only [List.length_cons]
          omega

/-- Every reachable state leads to the terminal state of the exhibited run. -/
theorem reachable_final [DecidableEq Agent] (hcomm : Commutes step)
    {start final state : State} (hrun : Reachable step start final)
    (hfinal : Terminal step final) (hreach : Reachable step start state) :
    Reachable step state final := by
  obtain ⟨schedule, hrun⟩ := hrun
  obtain ⟨taken, htaken⟩ := hreach
  obtain ⟨rest, hrest, -⟩ := exists_completion hcomm hrun hfinal htaken
  exact ⟨rest, hrest⟩

/-- The terminal state is unique. -/
theorem terminal_unique [DecidableEq Agent] (hcomm : Commutes step)
    {start final state : State} (hrun : Reachable step start final)
    (hfinal : Terminal step final) (hreach : Reachable step start state)
    (hstate : Terminal step state) : state = final := by
  obtain ⟨rest, hrest⟩ := reachable_final hcomm hrun hfinal hreach
  cases rest with
  | nil => simpa using hrest
  | cons agent rest => simp [run_cons, hstate agent] at hrest

/-- Either the run is complete or some agent can still move. -/
theorem eq_final_or_exists_step [DecidableEq Agent] (hcomm : Commutes step)
    {start final state : State} (hrun : Reachable step start final)
    (hfinal : Terminal step final) (hreach : Reachable step start state) :
    state = final ∨ ∃ agent next, step agent state = some next := by
  by_cases hstate : Terminal step state
  · exact Or.inl (terminal_unique hcomm hrun hfinal hreach hstate)
  · refine Or.inr ?_
    simp only [Terminal, not_forall] at hstate
    obtain ⟨agent, hagent⟩ := hstate
    obtain ⟨next, hnext⟩ := Option.ne_none_iff_exists'.mp hagent
    exact ⟨agent, next, hnext⟩

/-- No schedule is longer than the exhibited one. -/
theorem exists_length_bound [DecidableEq Agent] (hcomm : Commutes step)
    {start final : State} (hrun : Reachable step start final)
    (hfinal : Terminal step final) :
    ∃ bound, ∀ taken state, run step taken start = some state → taken.length ≤ bound := by
  obtain ⟨schedule, hrun⟩ := hrun
  refine ⟨schedule.length, fun taken state htaken => ?_⟩
  obtain ⟨rest, -, hlength⟩ := exists_completion hcomm hrun hfinal htaken
  omega

end MpiBindings.CommutingSteps
