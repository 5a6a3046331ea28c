import MpiBindings.Core.MessagePassing
import Mathlib.Data.Fintype.Card
import Mathlib.Data.List.Sort

/-!
# Choreographies

A choreography is one global order of messages and broadcasts.  If the process
of every rank, taken alone, performs exactly its part of the choreography, then
the network cannot get stuck: the choreography itself is a run, and by
commutation every other run ends in the same state.

`Follows` is the program logic for one rank.  It is compositional, so the part
of the choreography that a program performs is computed along its structure.
-/

namespace MpiBindings.Choreography

open CommutingSteps MessagePassing

universe w

/-- One communication of the choreography. -/
inductive Event (Rank Msg Val : Type*) where
  | message (src dst : Rank) (msg : Msg)
  | broadcast (root : Rank) (value : Val)
  deriving DecidableEq

variable {Rank Msg Val : Type*} {α β : Type w}

/-- Ranks that take part in an event. -/
def Event.Involves (me : Rank) : Event Rank Msg Val → Prop
  | .message src dst _ => me = src ∨ me = dst
  | .broadcast _ _ => True

instance [DecidableEq Rank] (me : Rank) (event : Event Rank Msg Val) :
    Decidable (event.Involves me) := by
  cases event <;> unfold Event.Involves <;> infer_instance

/-- The part of a choreography that concerns rank `me`. -/
def project [DecidableEq Rank] (me : Rank) (trace : List (Event Rank Msg Val)) :
    List (Event Rank Msg Val) :=
  trace.filter fun event => decide (event.Involves me)

/-- `Follows me busy p trace result busy'`: rank `me` running `p` performs
exactly the events of `trace` and returns `result`.  The flags tell whether a
send has not been waited for before and afterwards. -/
inductive Follows (me : Rank) :
    Bool → Process Rank Msg Val α → List (Event Rank Msg Val) → α → Bool → Prop where
  | done {busy : Bool} (result : α) : Follows me busy (.done result) [] result busy
  | isend {dst : Rank} {msg : Msg} {next : Process Rank Msg Val α}
      {trace : List (Event Rank Msg Val)} {result : α} {busy : Bool} :
      Follows me true next trace result busy →
      Follows me false (.isend dst msg next) (.message me dst msg :: trace) result busy
  | wait {next : Process Rank Msg Val α} {trace : List (Event Rank Msg Val)}
      {result : α} {busy : Bool} :
      Follows me false next trace result busy →
      Follows me true (.wait next) trace result busy
  | recv {src : Rank} {msg : Msg} {next : Msg → Process Rank Msg Val α}
      {trace : List (Event Rank Msg Val)} {result : α} {busy : Bool} :
      Follows me false (next msg) trace result busy →
      Follows me false (.recv src next) (.message src me msg :: trace) result busy
  | bcast {root : Rank} {own value : Val} {next : Val → Process Rank Msg Val α}
      {trace : List (Event Rank Msg Val)} {result : α} {busy : Bool} :
      (me = root → own = value) →
      Follows me false (next value) trace result busy →
      Follows me false (.bcast root own next) (.broadcast root value :: trace) result busy

theorem Follows.bind {me : Rank} {busy busy' busy'' : Bool}
    {p : Process Rank Msg Val α} {f : α → Process Rank Msg Val β}
    {trace trace' : List (Event Rank Msg Val)} {middle : α} {result : β}
    (hfirst : Follows me busy p trace middle busy')
    (hsecond : Follows me busy' (f middle) trace' result busy'') :
    Follows me busy (p.bind f) (trace ++ trace') result busy'' := by
  induction hfirst with
  | done result => exact hsecond
  | isend _ ih => exact .isend (ih hsecond)
  | wait _ ih => exact .wait (ih hsecond)
  | recv _ ih => exact .recv (ih hsecond)
  | bcast hroot _ ih => exact .bcast hroot (ih hsecond)

section Inversion

variable {me src dst : Rank} {msg : Msg} {p : Process Rank Msg Val α}
variable {trace : List (Event Rank Msg Val)} {result : α}

theorem Follows.eq_done (hfollows : Follows me false p [] result false) :
    p = .done result := by
  cases hfollows
  rfl

/-- The sender of the next message posts it and then waits for it. -/
theorem Follows.eq_isend (hne : me ≠ dst)
    (hfollows : Follows me false p (.message me dst msg :: trace) result false) :
    ∃ next, p = .isend dst msg (.wait next) ∧ Follows me false next trace result false := by
  cases hfollows with
  | isend hnext =>
      cases hnext with
      | wait hnext => exact ⟨_, rfl, hnext⟩
  | recv => exact absurd rfl hne

/-- The receiver of the next message is about to receive from its sender. -/
theorem Follows.eq_recv (hne : src ≠ me)
    (hfollows : Follows me false p (.message src me msg :: trace) result false) :
    ∃ next, p = .recv src next ∧ Follows me false (next msg) trace result false := by
  cases hfollows with
  | isend => exact absurd rfl hne
  | recv hnext => exact ⟨_, rfl, hnext⟩

theorem Follows.eq_bcast {root : Rank} {value : Val}
    (hfollows : Follows me false p (.broadcast root value :: trace) result false) :
    ∃ own next, p = .bcast root own next ∧ (me = root → own = value) ∧
      Follows me false (next value) trace result false := by
  cases hfollows with
  | bcast hroot hnext => exact ⟨_, _, rfl, hroot, hnext⟩

end Inversion

/-- A rank that sends nothing has no outstanding send. -/
theorem Follows.not_busy {me : Rank} {busy busy' : Bool} {p : Process Rank Msg Val α}
    {trace : List (Event Rank Msg Val)} {result : α}
    (hfollows : Follows me busy p trace result busy') (hbusy : busy = false)
    (hsilent : ∀ dst msg, .message me dst msg ∉ trace) : busy' = false := by
  induction hfollows with
  | done result => exact hbusy
  | isend _ _ => exact absurd List.mem_cons_self (hsilent _ _)
  | wait _ _ => cases hbusy
  | recv _ ih => exact ih rfl fun dst msg hmem => hsilent dst msg (List.mem_cons_of_mem _ hmem)
  | bcast _ _ ih =>
      exact ih rfl fun dst msg hmem => hsilent dst msg (List.mem_cons_of_mem _ hmem)

section Projection

variable [DecidableEq Rank]

@[simp]
theorem project_nil (me : Rank) :
    project me ([] : List (Event Rank Msg Val)) = [] := rfl

theorem project_append (me : Rank) (first second : List (Event Rank Msg Val)) :
    project me (first ++ second) = project me first ++ project me second :=
  List.filter_append _ _

theorem project_flatten (me : Rank) (traces : List (List (Event Rank Msg Val))) :
    project me traces.flatten = (traces.map (project me)).flatten := by
  induction traces with
  | nil => rfl
  | cons trace traces ih =>
      rw [List.flatten_cons, project_append, ih, List.map_cons, List.flatten_cons]

@[simp]
theorem project_broadcast (me root : Rank) (value : Val)
    (trace : List (Event Rank Msg Val)) :
    project me (.broadcast root value :: trace) =
      .broadcast root value :: project me trace :=
  List.filter_cons_of_pos (decide_eq_true trivial)

theorem project_message_of_mem {me src dst : Rank} (hme : me = src ∨ me = dst)
    (msg : Msg) (trace : List (Event Rank Msg Val)) :
    project me (.message src dst msg :: trace) =
      .message src dst msg :: project me trace :=
  List.filter_cons_of_pos (decide_eq_true hme)

theorem project_message_of_not_mem {me src dst : Rank} (hsrc : me ≠ src)
    (hdst : me ≠ dst) (msg : Msg) (trace : List (Event Rank Msg Val)) :
    project me (.message src dst msg :: trace) = project me trace :=
  List.filter_cons_of_neg fun hmem =>
    (of_decide_eq_true hmem).elim hsrc hdst

end Projection

/-- No rank sends a message to itself. -/
def Proper (trace : List (Event Rank Msg Val)) : Prop :=
  ∀ src dst msg, .message src dst msg ∈ trace → src ≠ dst

theorem Proper.tail {event : Event Rank Msg Val} {trace : List (Event Rank Msg Val)}
    (hproper : Proper (event :: trace)) : Proper trace :=
  fun src dst msg hmem => hproper src dst msg (List.mem_cons_of_mem _ hmem)

/-- All ranks stand between two events of the choreography, `rounds` broadcasts
are over, and each rank still has to perform its part of `trace`. -/
structure Between [DecidableEq Rank] (trace : List (Event Rank Msg Val))
    (results : Rank → α) (rounds : ℕ) (net : Network Rank Msg Val α) : Prop where
  follows : ∀ me, Follows me false (net.locals me).process (project me trace)
    (results me) false
  idle : ∀ me, (net.locals me).request = none
  entered : ∀ me, (net.locals me).entered.length = rounds
  left : ∀ me, (net.locals me).left = rounds
  empty : ∀ src dst, net.channel src dst = []

section Runs

variable [DecidableEq Rank] [Fintype Rank] {policy : Policy Rank}
variable {trace : List (Event Rank Msg Val)} {results : Rank → α} {rounds : ℕ}

omit [Fintype Rank] in
theorem Between.done {net : Network Rank Msg Val α}
    (hnet : Between [] results rounds net) (me : Rank) :
    (net.locals me).process = .done (results me) :=
  (hnet.follows me).eq_done

variable (policy) in
theorem Between.message {src dst : Rank} {msg : Msg} {net : Network Rank Msg Val α}
    (hne : src ≠ dst)
    (hnet : Between (.message src dst msg :: trace) results rounds net) :
    ∃ next, Reachable (step policy) net next ∧ Between trace results rounds next := by
  obtain ⟨locals, channel⟩ := net
  obtain ⟨hfollows, hidle, hentered, hleft, hempty⟩ := hnet
  dsimp only at hfollows hidle hentered hleft hempty
  have hsender := hfollows src
  rw [project_message_of_mem (Or.inl rfl)] at hsender
  have hreceiver := hfollows dst
  rw [project_message_of_mem (Or.inr rfl)] at hreceiver
  obtain ⟨afterSend, hsenderProcess, hafterSend⟩ := hsender.eq_isend hne
  obtain ⟨afterRecv, hreceiverProcess, hafterRecv⟩ := hreceiver.eq_recv hne
  let sending := { locals src with
    process := .wait afterSend, request := some dst, sends := (locals src).sends + 1 }
  let sent := Function.update locals src sending
  let full := fun s d => if s = src ∧ d = dst then channel s d ++ [msg] else channel s d
  let received := Function.update sent dst { locals dst with process := afterRecv msg }
  let empty := fun s d => if s = src ∧ d = dst then (full s d).tail else full s d
  have hisend : step policy src ⟨locals, channel⟩ = some ⟨sent, full⟩ :=
    step_isend rfl hsenderProcess (hidle src)
  have hchannel : full src dst = [msg] := by simp [full, hempty]
  have hrecv : step policy dst ⟨sent, full⟩ = some ⟨received, empty⟩ :=
    step_recv (Function.update_of_ne hne.symm _ _) hreceiverProcess hchannel
  have hself : received src = sending := by
    simp only [received, sent, Function.update_of_ne hne, Function.update_self]
  have hwait : step policy src ⟨received, empty⟩ = some
      ⟨Function.update received src { sending with process := afterSend, request := none },
        empty⟩ :=
    step_wait hself rfl rfl (by simp [empty, hchannel])
  refine ⟨_, ((Reachable.refl _).tail hisend |>.tail hrecv).tail hwait, ?_⟩
  constructor
  · intro me
    dsimp only
    by_cases hsrc : me = src
    · subst hsrc
      simpa using hafterSend
    · rw [Function.update_of_ne hsrc]
      by_cases hdst : me = dst
      · subst hdst
        simpa [received] using hafterRecv
      · simp only [received, sent, Function.update_of_ne hdst, Function.update_of_ne hsrc]
        simpa [project_message_of_not_mem hsrc hdst] using hfollows me
  · intro me
    dsimp only
    grind
  · intro me
    dsimp only
    grind
  · intro me
    dsimp only
    grind
  · intro s d
    by_cases hsd : s = src ∧ d = dst <;> simp [empty, full, hsd, hempty]

variable (policy) in
theorem Between.broadcast {root : Rank} {value : Val} {net : Network Rank Msg Val α}
    (hnet : Between (.broadcast root value :: trace) results rounds net) :
    ∃ next, Reachable (step policy) net next ∧
      Between trace results (rounds + 1) next := by
  obtain ⟨locals, channel⟩ := net
  obtain ⟨hfollows, hidle, hentered, hleft, hempty⟩ := hnet
  dsimp only at hfollows hidle hentered hleft hempty
  have hprocess : ∀ me, ∃ own next, (locals me).process = .bcast root own next ∧
      (me = root → own = value) ∧
      Follows me false (next value) (project me trace) (results me) false := by
    intro me
    have hme := hfollows me
    rw [project_broadcast] at hme
    exact hme.eq_bcast
  choose own next hprocess hown hnext using hprocess
  have henter : Reachable (step policy) ⟨locals, channel⟩
      ⟨fun me => { locals me with entered := (locals me).entered ++ [own me] }, channel⟩ := by
    refine reachable_pointwise fun current me _ hme => ?_
    exact step_bcast_enter hme (hprocess me) (by rw [hentered, hleft])
  have hleave : Reachable (step policy)
      ⟨fun me => { locals me with entered := (locals me).entered ++ [own me] }, channel⟩
      ⟨fun me => { locals me with
        process := next me value, entered := (locals me).entered ++ [own me],
        left := (locals me).left + 1 }, channel⟩ := by
    refine reachable_pointwise fun current me hcurrent hme => ?_
    have hcontribution : ∀ other,
        (current other).entered = (locals other).entered ++ [own other] := by
      intro other
      obtain hother | hother := hcurrent other <;> rw [hother]
    refine step_bcast_leave hme (hprocess me) ?_ ?_ ?_
    · simp [hentered, hleft]
    · rw [hcontribution root, ← hown root rfl]
      simp [hleft, ← hentered root]
    · intro other
      simp [hcontribution other, hentered, hleft]
  refine ⟨_, henter.trans hleave, hnext, hidle, ?_, ?_, hempty⟩
  · intro me
    simp [hentered]
  · intro me
    simp [hleft]

variable (policy) in
/-- A choreography that all processes follow is a run of the network. -/
theorem Between.complete {net : Network Rank Msg Val α} (hproper : Proper trace)
    (hnet : Between trace results rounds net) :
    ∃ final rounds', Reachable (step policy) net final ∧ Between [] results rounds' final := by
  induction trace generalizing net rounds with
  | nil => exact ⟨net, rounds, Reachable.refl net, hnet⟩
  | cons event trace ih =>
      cases event with
      | message src dst msg =>
          obtain ⟨next, hreach, hnext⟩ :=
            hnet.message policy (hproper src dst msg (List.mem_cons_self))
          obtain ⟨final, rounds', hfinal, hdone⟩ := ih hproper.tail hnext
          exact ⟨final, rounds', hreach.trans hfinal, hdone⟩
      | broadcast root value =>
          obtain ⟨next, hreach, hnext⟩ := hnet.broadcast policy
          obtain ⟨final, rounds', hfinal, hdone⟩ := ih hproper.tail hnext
          exact ⟨final, rounds', hreach.trans hfinal, hdone⟩

/-! ## Consequences for every run -/

/-- Processes without further point-to-point communication. -/
inductive Quiet : Process Rank Msg Val α → Prop where
  | done (result : α) : Quiet (.done result)
  | bcast (root : Rank) (own : Val) {next : Val → Process Rank Msg Val α} :
      (∀ value, Quiet (next value)) → Quiet (.bcast root own next)

omit [DecidableEq Rank] in
/-- A rank that has returned or failed takes no more steps. -/
theorem action_eq_none {me : Rank} {net : Network Rank Msg Val α}
    (hprocess : (∃ result, (net.locals me).process = .done result) ∨
      (net.locals me).process = .fail) : action policy me net = none := by
  obtain ⟨result, hprocess⟩ | hprocess := hprocess <;> simp [action, hprocess]

theorem process_persists {me : Rank} {net final : Network Rank Msg Val α}
    (hreach : Reachable (step policy) net final) {p : Process Rank Msg Val α}
    (hp : (∃ result, p = .done result) ∨ p = .fail)
    (hprocess : (net.locals me).process = p) : (final.locals me).process = p := by
  let Inv := fun state : Network Rank Msg Val α => (state.locals me).process = p
  have hinv : Inv net := hprocess
  refine hreach.invariant hinv ?_
  intro other state next hstate hstep
  by_cases hother : me = other
  · subst hother
    rw [step, action_eq_none (hstate ▸ hp)] at hstep
    simp at hstep
  · simp only [step, Option.map_eq_some_iff] at hstep
    obtain ⟨act, -, rfl⟩ := hstep
    change ((perform other state act).locals me).process = p
    rw [perform_locals_of_ne hother]
    exact hstate

theorem step_of_quiet {me : Rank} {net next : Network Rank Msg Val α}
    (hquiet : ∀ rank, Quiet (net.locals rank).process)
    (hstep : step policy me net = some next) :
    (∀ rank, Quiet (next.locals rank).process) ∧ next.channel = net.channel := by
  simp only [step, Option.map_eq_some_iff] at hstep
  obtain ⟨act, hact, rfl⟩ := hstep
  have hquietAct : Quiet act.1.process ∧ act.2 = .none := by
    have hme := hquiet me
    cases hprocess : (net.locals me).process with
    | done result => simp [action, hprocess] at hact
    | fail => simp [action, hprocess] at hact
    | isend dst msg next => exact absurd (hprocess ▸ hme) (by rintro ⟨⟩)
    | wait next => exact absurd (hprocess ▸ hme) (by rintro ⟨⟩)
    | recv src next => exact absurd (hprocess ▸ hme) (by rintro ⟨⟩)
    | bcast root own next =>
        have hnext : ∀ value, Quiet (next value) := by
          rw [hprocess] at hme
          cases hme
          assumption
        simp only [action, hprocess] at hact
        split at hact
        · obtain rfl := Option.some.inj hact
          exact ⟨.bcast root own hnext, rfl⟩
        · split at hact
          · simp at hact
          · split at hact
            · obtain rfl := Option.some.inj hact
              exact ⟨hnext _, rfl⟩
            · simp at hact
  obtain ⟨hprocess, hop⟩ := hquietAct
  refine ⟨fun rank => ?_, by rw [perform, hop]; rfl⟩
  by_cases hrank : rank = me
  · subst hrank
    simpa [perform] using hprocess
  · rw [perform_locals_of_ne hrank]
    exact hquiet rank

/-- The processes follow a common choreography. -/
structure Realises (trace : List (Event Rank Msg Val))
    (processes : Rank → Process Rank Msg Val α) (results : Rank → α) : Prop where
  proper : Proper trace
  follows : ∀ me, Follows me false (processes me) (project me trace) (results me) false

/-- Whatever the interleaving, all ranks return, with results that satisfy
`post`. -/
structure AlwaysReturns (policy : Policy Rank) (processes : Rank → Process Rank Msg Val α)
    (post : Rank → α → Prop) : Prop where
  bounded : ∃ bound, ∀ schedule net,
    run (step policy) schedule (start processes) = some net → schedule.length ≤ bound
  progress : ∀ net, Reachable (step policy) (start processes) net →
    (∀ rank, ∃ result, (net.locals rank).process = .done result) ∨
      ∃ rank next, step policy rank net = some next
  post : ∀ net, Reachable (step policy) (start processes) net →
    ∀ rank result, (net.locals rank).process = .done result → post rank result

namespace Realises

variable {processes : Rank → Process Rank Msg Val α}

variable (policy) in
theorem exists_final (h : Realises trace processes results) :
    ∃ final, Reachable (step policy) (start processes) final ∧
      Terminal (step policy) final ∧
      (∀ me, (final.locals me).process = .done (results me)) ∧
      ∀ src dst, final.channel src dst = [] := by
  have hstart : Between trace results 0 (start processes) :=
    ⟨h.follows, fun _ => rfl, fun _ => rfl, fun _ => rfl, fun _ _ => rfl⟩
  obtain ⟨final, rounds, hreach, hfinal⟩ := hstart.complete policy h.proper
  refine ⟨final, hreach, fun me => ?_, hfinal.done, hfinal.empty⟩
  rw [step, action_eq_none (Or.inl ⟨_, hfinal.done me⟩), Option.map_none]

section Reachable

variable {net : Network Rank Msg Val α}

/-- Deadlock freedom: unless all ranks have returned, some rank can move. -/
theorem progress (h : Realises trace processes results)
    (hreach : Reachable (step policy) (start processes) net) :
    (∀ me, (net.locals me).process = .done (results me)) ∨
      ∃ me next, step policy me net = some next := by
  obtain ⟨final, hfinal, hterminal, hdone, -⟩ := h.exists_final policy
  obtain rfl | hstep :=
    eq_final_or_exists_step (step_commutes policy) hfinal hterminal hreach
  · exact Or.inl hdone
  · exact Or.inr hstep

/-- No assertion fails in any run. -/
theorem not_fail (h : Realises trace processes results)
    (hreach : Reachable (step policy) (start processes) net) (me : Rank) :
    (net.locals me).process ≠ .fail := by
  intro hfail
  obtain ⟨final, hfinal, hterminal, hdone, -⟩ := h.exists_final policy
  have hrest := reachable_final (step_commutes policy) hfinal hterminal hreach
  have hpersists := process_persists hrest (Or.inr rfl) hfail
  rw [hdone me] at hpersists
  cases hpersists

/-- Whatever the interleaving, a rank that returns has its result. -/
theorem result_eq (h : Realises trace processes results)
    (hreach : Reachable (step policy) (start processes) net) {me : Rank} {result : α}
    (hprocess : (net.locals me).process = .done result) : result = results me := by
  obtain ⟨final, hfinal, hterminal, hdone, -⟩ := h.exists_final policy
  have hrest := reachable_final (step_commutes policy) hfinal hterminal hreach
  have hpersists := process_persists hrest (Or.inl ⟨result, rfl⟩) hprocess
  rw [hdone me] at hpersists
  cases hpersists
  rfl

/-- Once no rank communicates any more, no message is in flight. -/
theorem channel_eq_nil (h : Realises trace processes results)
    (hreach : Reachable (step policy) (start processes) net)
    (hquiet : ∀ me, Quiet (net.locals me).process) (src dst : Rank) :
    net.channel src dst = [] := by
  obtain ⟨final, hfinal, hterminal, -, hempty⟩ := h.exists_final policy
  have hrest := reachable_final (step_commutes policy) hfinal hterminal hreach
  let Inv := fun state : Network Rank Msg Val α =>
    (∀ rank, Quiet (state.locals rank).process) ∧ state.channel = net.channel
  have hinv : Inv net := ⟨hquiet, rfl⟩
  have hchannel := hrest.invariant hinv
    (fun me state next hstate hstep =>
      ⟨(step_of_quiet hstate.1 hstep).1, (step_of_quiet hstate.1 hstep).2.trans hstate.2⟩)
  rw [← hchannel.2, hempty]

end Reachable

/-- All runs are finite, with a common bound on their length. -/
theorem exists_bound (h : Realises trace processes results) :
    ∃ bound, ∀ schedule net, run (step policy) schedule (start processes) = some net →
      schedule.length ≤ bound := by
  obtain ⟨final, hfinal, hterminal, -, -⟩ := h.exists_final policy
  exact exists_length_bound (step_commutes policy) hfinal hterminal

theorem alwaysReturns (h : Realises trace processes results) :
    AlwaysReturns policy processes fun rank result => result = results rank where
  bounded := h.exists_bound
  progress _ hreach :=
    (h.progress hreach).imp (fun hdone rank => ⟨_, hdone rank⟩) id
  post _ hreach _ _ hprocess := h.result_eq hreach hprocess

end Realises

theorem AlwaysReturns.mono {processes : Rank → Process Rank Msg Val α}
    {post post' : Rank → α → Prop} (h : AlwaysReturns policy processes post)
    (hpost : ∀ rank result, post rank result → post' rank result) :
    AlwaysReturns policy processes post' where
  bounded := h.bounded
  progress := h.progress
  post net hreach rank result hprocess := hpost _ _ (h.post net hreach rank result hprocess)

end Runs

/-! ## Choreographies from local traces -/

/-- If the events of every rank happen in the order of a common clock, and every
event is known to exactly the ranks that it involves, then the local traces are
the projections of one choreography. -/
theorem exists_trace_of_sorted [DecidableEq Rank] [Fintype Rank] {Key : Type*}
    [LinearOrder Key] (key : Event Rank Msg Val → Key)
    {localTrace : Rank → List (Event Rank Msg Val)}
    (hsorted : ∀ me, (localTrace me).Pairwise fun left right => key left < key right)
    (hmem : ∀ me event, event ∈ localTrace me ↔
      event.Involves me ∧ ∃ other, event ∈ localTrace other) :
    ∃ trace, (∀ me, project me trace = localTrace me) ∧
      ∀ event ∈ trace, ∃ me, event ∈ localTrace me := by
  classical
  let events := (Finset.univ.toList.flatMap localTrace).dedup
  let trace := events.mergeSort fun left right => decide (key left ≤ key right)
  have hperm : trace.Perm events := List.mergeSort_perm _ _
  have hevents : ∀ event, event ∈ trace ↔ ∃ me, event ∈ localTrace me := by
    intro event
    rw [hperm.mem_iff]
    simp [events]
  refine ⟨trace, fun me => ?_, fun event hevent => (hevents event).mp hevent⟩
  have hkeys : ((localTrace me).map key).Nodup := by
    rw [List.Nodup, List.pairwise_map]
    exact (hsorted me).imp fun hlt => hlt.ne
  have hproject : ∀ event, event ∈ project me trace ↔ event ∈ localTrace me := by
    intro event
    rw [project, List.mem_filter, decide_eq_true_eq, hevents, hmem me event]
    exact and_comm
  have hsame : (project me trace).Perm (localTrace me) := by
    refine (List.perm_ext_iff_of_nodup ?_ (List.Nodup.of_map key hkeys)).mpr hproject
    exact (hperm.nodup_iff.mpr (List.nodup_dedup _)).filter _
  have hprojected : (project me trace).Pairwise fun left right => key left ≤ key right := by
    refine List.Pairwise.filter _ ?_
    exact (List.pairwise_mergeSort
      (fun a b c hab hbc => by simpa using le_trans (by simpa using hab) (by simpa using hbc))
      (fun a b => by simpa using le_total (key a) (key b)) events).imp
        fun hle => of_decide_eq_true hle
  refine hsame.eq_of_pairwise ?_ hprojected ((hsorted me).imp fun hlt => hlt.le)
  intro left right hleft hright hle hge
  exact List.inj_on_of_nodup_map hkeys ((hproject left).mp hleft) hright (le_antisymm hle hge)

end MpiBindings.Choreography
