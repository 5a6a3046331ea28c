import MpiBindings.Collectives.Communicator

/-!
# Programs of collective operations

The program of a rank is a sequence of collective operations, each with a
request and a response of that rank.  All ranks run in lockstep: an operation
takes the requests of all ranks and gives every rank its response.  The run fails
where ranks do not make matching calls.
-/

namespace MpiBindings

open Collectives

inductive CollectiveProgram (Request Response α : Type)
  | done (result : α)
  | call (request : Request) (next : Response → CollectiveProgram Request Response α)
  | fail

namespace CollectiveProgram

variable {Request Response α β : Type} {p : ℕ}

def bind (next : α → CollectiveProgram Request Response β) :
    CollectiveProgram Request Response α → CollectiveProgram Request Response β
  | .done result => next result
  | .call request resume => .call request fun response => (resume response).bind next
  | .fail => .fail

instance : Monad (CollectiveProgram Request Response) where
  pure := .done
  bind program next := program.bind next

def result? : CollectiveProgram Request Response α → Option α
  | .done result => some result
  | _ => none

def request? : CollectiveProgram Request Response α → Option Request
  | .call request _ => some request
  | _ => none

/-- The program after its operation. -/
def resume (response : Response) :
    CollectiveProgram Request Response α → CollectiveProgram Request Response α
  | .call _ next => next response
  | program => program

variable (exchange : (Fin p → Request) → Option (Fin p → Response))

/-- Run all programs; the recursion follows the program of one rank. -/
def runWith (lead : Fin p) : CollectiveProgram Request Response α →
    (Fin p → CollectiveProgram Request Response α) → Option (Fin p → α)
  | .done _, programs => allRanks fun rank => (programs rank).result?
  | .call _ next, programs =>
      match allRanks fun rank => (programs rank).request? with
      | none => none
      | some requests =>
          match exchange requests with
          | none => none
          | some responses =>
              runWith lead (next (responses lead)) fun rank =>
                (programs rank).resume (responses rank)
  | .fail, _ => none

def run (lead : Fin p) (programs : Fin p → CollectiveProgram Request Response α) :
    Option (Fin p → α) :=
  runWith exchange lead (programs lead) programs

variable {exchange} {lead : Fin p}

theorem run_done (results : Fin p → α) :
    run exchange lead (fun rank => .done (results rank)) = some results := by
  rw [run, runWith]
  exact allRanks_eq_some.mpr fun rank => rfl

theorem run_call {requests : Fin p → Request} {responses : Fin p → Response}
    (hexchange : exchange requests = some responses)
    (next : Fin p → Response → CollectiveProgram Request Response α) :
    run exchange lead (fun rank => .call (requests rank) (next rank)) =
      run exchange lead fun rank => next rank (responses rank) := by
  have hrequests : allRanks (fun rank =>
      (CollectiveProgram.call (requests rank) (next rank)).request?) = some requests :=
    allRanks_eq_some.mpr fun rank => rfl
  simp only [run, runWith, hrequests, hexchange]
  rfl

theorem result?_eq_some {program : CollectiveProgram Request Response α} {result : α} :
    program.result? = some result ↔ program = .done result := by
  cases program <;> simp [result?]

theorem exists_call_of_request? {program : CollectiveProgram Request Response α}
    {request : Request} (hrequest : program.request? = some request) :
    ∃ next, program = .call request next := by
  cases program with
  | call other next =>
      obtain rfl := Option.some.inj hrequest
      exact ⟨next, rfl⟩
  | done result => cases hrequest
  | fail => cases hrequest

/-- Sequencing: if all ranks finish a first program, they go on with the next. -/
theorem run_bind {programs : Fin p → CollectiveProgram Request Response α}
    {results : Fin p → α} (hrun : run exchange lead programs = some results)
    (next : Fin p → α → CollectiveProgram Request Response β) :
    run exchange lead (fun rank => (programs rank).bind (next rank)) =
      run exchange lead fun rank => next rank (results rank) := by
  generalize hlead : programs lead = program at hrun
  rw [run, hlead] at hrun
  induction program generalizing programs with
  | done result =>
      rw [runWith, allRanks_eq_some] at hrun
      have hdone : programs = fun rank => .done (results rank) :=
        funext fun rank => result?_eq_some.mp (hrun rank)
      simp only [hdone, bind]
  | call request resume ih =>
      rw [runWith] at hrun
      cases hrequests : allRanks fun rank => (programs rank).request? with
      | none => simp [hrequests] at hrun
      | some requests =>
          cases hexchange : exchange requests with
          | none => simp [hrequests, hexchange] at hrun
          | some responses =>
              simp only [hrequests, hexchange] at hrun
              choose resumes hresumes using fun rank =>
                exists_call_of_request? (allRanks_eq_some.mp hrequests rank)
              have hresume : resumes lead = resume := by
                have hsame := (hresumes lead).symm.trans hlead
                injection hsame
              simp only [hresumes, CollectiveProgram.resume] at hrun
              simp only [hresumes, bind]
              rw [run_call hexchange]
              exact ih (responses lead) hrun (by rw [hresume])
  | fail => cases hrun

end CollectiveProgram

end MpiBindings
