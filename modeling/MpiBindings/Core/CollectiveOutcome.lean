import MpiBindings.Core.CollectiveProgram

/-!
# Outcomes of collective programs

All ranks finish, all ranks fail at the same point, or some ranks are left in a call that the
others do not make.  The rules follow the programs from their first operation on: a call that all
ranks make, a condition that they check, or a first program followed by another one.
-/

namespace MpiBindings

open Collectives

namespace CollectiveProgram

variable {Request Response α β : Type} {p : ℕ}

/-- How a run of all ranks ends. -/
inductive Outcome (p : ℕ) (α : Type)
  | finished (results : Fin p → α)
  | failed
  | stuck

def isFail : CollectiveProgram Request Response α → Bool
  | .fail => true
  | _ => false

/-- Make a call. -/
def ask (request : Request) : CollectiveProgram Request Response Response :=
  .call request .done

/-- Go on only if the condition holds. -/
def assert (condition : Prop) [Decidable condition] :
    CollectiveProgram Request Response Unit :=
  if condition then .done () else .fail

variable (exchange : (Fin p → Request) → Option (Fin p → Response)) (lead : Fin p)

/-- Run all programs; the recursion follows the program of one rank. -/
def outcomeWith : CollectiveProgram Request Response α →
    (Fin p → CollectiveProgram Request Response α) → Outcome p α
  | .done _, programs =>
      match allRanks fun rank => (programs rank).result? with
      | some results => .finished results
      | none => .stuck
  | .fail, programs => if ∀ rank, (programs rank).isFail then .failed else .stuck
  | .call _ next, programs =>
      match allRanks fun rank => (programs rank).request? with
      | none => .stuck
      | some requests =>
          match exchange requests with
          | none => .stuck
          | some responses =>
              outcomeWith (next (responses lead)) fun rank =>
                (programs rank).resume (responses rank)

def outcome (programs : Fin p → CollectiveProgram Request Response α) : Outcome p α :=
  outcomeWith exchange lead (programs lead) programs

variable {exchange lead}

instance : LawfulMonad (CollectiveProgram Request Response) :=
  have hassoc : ∀ {α β γ : Type} (program : CollectiveProgram Request Response α)
      (first : α → CollectiveProgram Request Response β)
      (second : β → CollectiveProgram Request Response γ),
      (program.bind first).bind second = program.bind fun result => (first result).bind second := by
    intro α β γ program first second
    induction program with
    | done result => rfl
    | fail => rfl
    | call request next ih => exact congrArg (CollectiveProgram.call request) (funext ih)
  LawfulMonad.mk' _ (fun program => by
    induction program with
    | done result => rfl
    | fail => rfl
    | call request next ih => exact congrArg (CollectiveProgram.call request) (funext ih))
    (fun _ _ => rfl) hassoc

/-! ## Single operations -/

theorem outcome_pure (results : Fin p → α) :
    outcome exchange lead (fun rank => pure (results rank)) = .finished results := by
  have hresults : allRanks (fun rank =>
      (pure (results rank) : CollectiveProgram Request Response α).result?) = some results :=
    allRanks_eq_some.mpr fun rank => rfl
  simp only [outcome, pure, outcomeWith] at hresults ⊢
  rw [hresults]

theorem outcome_fail :
    outcome exchange lead (fun _ => (.fail : CollectiveProgram Request Response α)) = .failed :=
  if_pos fun _ => rfl

theorem outcome_ask {requests : Fin p → Request} {responses : Fin p → Response}
    (hexchange : exchange requests = some responses)
    (next : Fin p → Response → CollectiveProgram Request Response α) :
    outcome exchange lead (fun rank => ask (requests rank) >>= next rank) =
      outcome exchange lead fun rank => next rank (responses rank) := by
  have hrequests : allRanks (fun rank =>
      (CollectiveProgram.call (requests rank) (next rank)).request?) = some requests :=
    allRanks_eq_some.mpr fun rank => rfl
  change outcomeWith exchange lead (.call (requests lead) (next lead))
    (fun rank => .call (requests rank) (next rank)) = _
  rw [outcomeWith, hrequests]
  simp only [hexchange]
  rfl

/-- All ranks check conditions that hold. -/
theorem outcome_assert {condition : Fin p → Prop} [∀ rank, Decidable (condition rank)]
    (hcondition : ∀ rank, condition rank)
    (next : Fin p → Unit → CollectiveProgram Request Response α) :
    outcome exchange lead (fun rank => assert (condition rank) >>= next rank) =
      outcome exchange lead fun rank => next rank () := by
  have hnext : (fun rank => assert (condition rank) >>= next rank) = fun rank => next rank () := by
    funext rank
    rw [assert, if_pos (hcondition rank)]
    rfl
  rw [hnext]

/-- All ranks check conditions that do not hold. -/
theorem outcome_assert_failed {condition : Fin p → Prop} [∀ rank, Decidable (condition rank)]
    (hcondition : ∀ rank, ¬ condition rank)
    (next : Fin p → Unit → CollectiveProgram Request Response α) :
    outcome exchange lead (fun rank => assert (condition rank) >>= next rank) = .failed := by
  have hnext : (fun rank => assert (condition rank) >>= next rank) = fun _ => .fail := by
    funext rank
    rw [assert, if_neg (hcondition rank)]
    rfl
  rw [hnext, outcome_fail]

theorem isFail_eq_true {program : CollectiveProgram Request Response α} :
    program.isFail = true ↔ program = .fail := by
  cases program <;> simp [isFail]

/-! ## Sequences -/

theorem outcomeWith_call {request : Request}
    {next : Response → CollectiveProgram Request Response α}
    {programs : Fin p → CollectiveProgram Request Response α} {ending : Outcome p α}
    (hlead : programs lead = .call request next)
    (houtcome : outcomeWith exchange lead (.call request next) programs = ending)
    (hending : ending ≠ .stuck) :
    ∃ (requests : Fin p → Request) (responses : Fin p → Response)
        (resumes : Fin p → Response → CollectiveProgram Request Response α),
      exchange requests = some responses ∧
      (programs = fun rank => .call (requests rank) (resumes rank)) ∧ resumes lead = next ∧
      outcome exchange lead (fun rank => resumes rank (responses rank)) = ending := by
  rw [outcomeWith] at houtcome
  cases hrequests : allRanks fun rank => (programs rank).request? with
  | none =>
      rw [hrequests] at houtcome
      exact absurd houtcome.symm hending
  | some requests =>
      rw [hrequests] at houtcome
      cases hexchange : exchange requests with
      | none =>
          simp only [hexchange] at houtcome
          exact absurd houtcome.symm hending
      | some responses =>
          simp only [hexchange] at houtcome
          choose resumes hresumes using fun rank =>
            exists_call_of_request? (allRanks_eq_some.mp hrequests rank)
          have hnext : resumes lead = next := by
            have hsame := (hresumes lead).symm.trans hlead
            injection hsame
          have hprograms : programs = fun rank => .call (requests rank) (resumes rank) :=
            funext hresumes
          refine ⟨requests, responses, resumes, hexchange, hprograms, hnext, ?_⟩
          rw [hprograms] at houtcome
          rw [outcome, hnext]
          exact houtcome

/-- If all ranks finish a first program, they go on with its results. -/
theorem outcome_bind {programs : Fin p → CollectiveProgram Request Response α}
    {results : Fin p → α} (hfinished : outcome exchange lead programs = .finished results)
    (next : Fin p → α → CollectiveProgram Request Response β) :
    outcome exchange lead (fun rank => programs rank >>= next rank) =
      outcome exchange lead fun rank => next rank (results rank) := by
  generalize hlead : programs lead = program
  rw [outcome, hlead] at hfinished
  induction program generalizing programs with
  | done result =>
      rw [outcomeWith] at hfinished
      cases hresults : allRanks fun rank => (programs rank).result? with
      | none =>
          rw [hresults] at hfinished
          cases hfinished
      | some finished =>
          rw [hresults] at hfinished
          obtain rfl := Outcome.finished.inj hfinished
          have hdone : programs = fun rank => .done (finished rank) :=
            funext fun rank => result?_eq_some.mp (allRanks_eq_some.mp hresults rank)
          rw [hdone]
          rfl
  | fail =>
      rw [outcomeWith] at hfinished
      split_ifs at hfinished
  | call request next' ih =>
      obtain ⟨requests, responses, resumes, hexchange, rfl, hnext, hrest⟩ :=
        outcomeWith_call hlead hfinished fun hstuck => by cases hstuck
      rw [outcome, hnext] at hrest
      have hresume : outcome exchange lead
          (fun rank => resumes rank (responses rank) >>= next rank) =
          outcome exchange lead fun rank => next rank (results rank) :=
        ih (responses lead) hrest (congrFun hnext _)
      exact (outcome_ask hexchange fun rank response => resumes rank response >>= next rank).trans
        hresume

/-- If all ranks fail in a first program, they fail. -/
theorem outcome_bind_failed {programs : Fin p → CollectiveProgram Request Response α}
    (hfailed : outcome exchange lead programs = .failed)
    (next : Fin p → α → CollectiveProgram Request Response β) :
    outcome exchange lead (fun rank => programs rank >>= next rank) = .failed := by
  generalize hlead : programs lead = program
  rw [outcome, hlead] at hfailed
  induction program generalizing programs with
  | done result =>
      rw [outcomeWith] at hfailed
      cases hresults : allRanks fun rank => (programs rank).result? <;> rw [hresults] at hfailed <;>
        cases hfailed
  | fail =>
      rw [outcomeWith, ite_eq_left_iff] at hfailed
      have hall : ∀ rank, (programs rank).isFail = true := by
        by_contra hsome
        cases hfailed hsome
      have hprograms : programs = fun _ => .fail :=
        funext fun rank => isFail_eq_true.mp (hall rank)
      rw [hprograms]
      exact outcome_fail
  | call request next' ih =>
      obtain ⟨requests, responses, resumes, hexchange, rfl, hnext, hrest⟩ :=
        outcomeWith_call hlead hfailed fun hstuck => by cases hstuck
      rw [outcome, hnext] at hrest
      have hresume : outcome exchange lead
          (fun rank => resumes rank (responses rank) >>= next rank) =
          .failed :=
        ih (responses lead) hrest (congrFun hnext _)
      exact (outcome_ask hexchange fun rank response => resumes rank response >>= next rank).trans
        hresume

end CollectiveProgram

end MpiBindings
