import MpiBindings.Core.CommutingSteps
import Mathlib.Data.Fintype.Basic
import Mathlib.Logic.Function.Basic

/-!
# Message passing processes

A process is the communication behaviour of one sequential program: every node
is one blocking call, its continuation is the rest of the program.  A network
runs one process for every rank.  Messages travel through one FIFO channel for
each ordered pair of ranks.

A non-blocking send is completed by `wait`.  MPI leaves open whether a send
completes before it is matched, and whether a rank may leave a broadcast before
all ranks have entered it.  Both choices are part of a `Policy`, so a statement
for every policy covers buffered, synchronous and mixed implementations.
-/

namespace MpiBindings.MessagePassing

open CommutingSteps

/-- Communication behaviour of a sequential program with result type `α`. -/
inductive Process (Rank Msg Val α : Type*) where
  | done (result : α)
  /-- A failed assertion or an access outside of a buffer. -/
  | fail
  | isend (dst : Rank) (msg : Msg) (next : Process Rank Msg Val α)
  | wait (next : Process Rank Msg Val α)
  | recv (src : Rank) (next : Msg → Process Rank Msg Val α)
  | bcast (root : Rank) (own : Val) (next : Val → Process Rank Msg Val α)

universe w

variable {Rank Msg Val : Type*} {α β : Type w}

namespace Process

/-- Sequential composition. -/
def bind : Process Rank Msg Val α → (α → Process Rank Msg Val β) →
    Process Rank Msg Val β
  | done result, f => f result
  | fail, _ => fail
  | isend dst msg next, f => isend dst msg (next.bind f)
  | wait next, f => wait (next.bind f)
  | recv src next, f => recv src fun msg => (next msg).bind f
  | bcast root own next, f => bcast root own fun value => (next value).bind f

instance : Monad (Process Rank Msg Val) where
  pure := done
  bind := bind

@[simp]
theorem pure_eq_done (result : α) :
    (pure result : Process Rank Msg Val α) = done result := rfl

@[simp]
theorem bind_eq (p : Process Rank Msg Val α) (f : α → Process Rank Msg Val β) :
    p >>= f = p.bind f := rfl

end Process

/-- Implementation choices that MPI leaves open. -/
structure Policy (Rank : Type*) where
  /-- Whether the given send of a rank, counted from zero, may complete before
  it is matched. -/
  eager : Rank → ℕ → Bool
  /-- Whether a rank leaves its given broadcast only after all ranks entered. -/
  synchronising : Rank → ℕ → Bool

/-- State of one rank. -/
structure LocalState (Rank Msg Val α : Type*) where
  process : Process Rank Msg Val α
  /-- Destination of the send that has not been waited for. -/
  request : Option Rank
  sends : ℕ
  /-- Contributions to the broadcasts entered so far. -/
  entered : List Val
  left : ℕ

/-- State of all ranks together with the messages in flight. -/
structure Network (Rank Msg Val α : Type*) where
  locals : Rank → LocalState Rank Msg Val α
  channel : Rank → Rank → List Msg

/-- Effect of one step on the channels. -/
inductive ChannelOp (Rank Msg : Type*) where
  | none
  | push (dst : Rank) (msg : Msg)
  | pop (src : Rank)

section Semantics

variable [DecidableEq Rank]

/-- Apply the effect of a step of rank `me`. -/
def ChannelOp.apply (me : Rank) (channel : Rank → Rank → List Msg) :
    ChannelOp Rank Msg → Rank → Rank → List Msg
  | .none => channel
  | .push dst msg => fun s d =>
      if s = me ∧ d = dst then channel s d ++ [msg] else channel s d
  | .pop src => fun s d =>
      if s = src ∧ d = me then (channel s d).tail else channel s d

variable [Fintype Rank]

/-- The next action of rank `me`: its new local state and the effect on the
channels, or nothing while the rank is blocked. -/
def action (policy : Policy Rank) (me : Rank) (net : Network Rank Msg Val α) :
    Option (LocalState Rank Msg Val α × ChannelOp Rank Msg) :=
  let self := net.locals me
  match self.process with
  | .done _ => none
  | .fail => none
  | .isend dst msg next =>
      match self.request with
      | some _ => some ({ self with process := .fail }, .none)
      | none =>
          some ({ self with
            process := next, request := some dst, sends := self.sends + 1 },
            .push dst msg)
  | .wait next =>
      match self.request with
      | none => some ({ self with process := .fail }, .none)
      | some dst =>
          if policy.eager me self.sends = true ∨ net.channel me dst = [] then
            some ({ self with process := next, request := none }, .none)
          else none
  | .recv src next =>
      match net.channel src me with
      | [] => none
      | msg :: _ => some ({ self with process := next msg }, .pop src)
  | .bcast root own next =>
      if self.entered.length = self.left then
        some ({ self with entered := self.entered ++ [own] }, .none)
      else
        match (net.locals root).entered[self.left]? with
        | none => none
        | some value =>
            if policy.synchronising me self.left = false ∨
                ∀ other, self.left < (net.locals other).entered.length then
              some ({ self with process := next value, left := self.left + 1 }, .none)
            else none

/-- Perform an action of rank `me`. -/
def perform (me : Rank) (net : Network Rank Msg Val α)
    (act : LocalState Rank Msg Val α × ChannelOp Rank Msg) :
    Network Rank Msg Val α where
  locals := Function.update net.locals me act.1
  channel := act.2.apply me net.channel

/-- One step of rank `me`. -/
def step (policy : Policy Rank) (me : Rank) (net : Network Rank Msg Val α) :
    Option (Network Rank Msg Val α) :=
  (action policy me net).map (perform me net)

/-- All ranks are about to start, nothing is in flight. -/
def start (processes : Rank → Process Rank Msg Val α) : Network Rank Msg Val α where
  locals me := ⟨processes me, none, 0, [], 0⟩
  channel _ _ := []

/-! ## Steps of different ranks commute -/

omit [Fintype Rank] in
theorem ChannelOp.apply_sender_of_ne {me other : Rank} (hne : me ≠ other)
    (channel : Rank → Rank → List Msg) (op : ChannelOp Rank Msg) (dst : Rank)
    (hempty : channel me dst = []) : op.apply other channel me dst = [] := by
  cases op with
  | none => exact hempty
  | push target msg => simp [ChannelOp.apply, hne, hempty]
  | pop src =>
      simp only [ChannelOp.apply]
      split <;> simp [hempty]

omit [Fintype Rank] in
theorem ChannelOp.apply_receiver_of_ne {me other : Rank} (hne : me ≠ other)
    (channel : Rank → Rank → List Msg) (op : ChannelOp Rank Msg) (src : Rank)
    {msg : Msg} {rest : List Msg} (hhead : channel src me = msg :: rest) :
    ∃ rest', op.apply other channel src me = msg :: rest' := by
  cases op with
  | none => exact ⟨rest, hhead⟩
  | push target sent =>
      simp only [ChannelOp.apply]
      split
      · exact ⟨rest ++ [sent], by simp [hhead]⟩
      · exact ⟨rest, hhead⟩
  | pop source => exact ⟨rest, by simp [ChannelOp.apply, hne, hhead]⟩

/-- The effect of `act` only relies on a message being there. -/
def ChannelOp.Enabled (me : Rank) (channel : Rank → Rank → List Msg) :
    ChannelOp Rank Msg → Prop
  | .pop src => channel src me ≠ []
  | _ => True

omit [Fintype Rank] in
theorem ChannelOp.apply_comm {left right : Rank} (hne : left ≠ right)
    (channel : Rank → Rank → List Msg) (leftOp rightOp : ChannelOp Rank Msg)
    (hleft : leftOp.Enabled left channel) (hright : rightOp.Enabled right channel) :
    rightOp.apply right (leftOp.apply left channel) =
      leftOp.apply left (rightOp.apply right channel) := by
  funext src dst
  cases leftOp with
  | none => rfl
  | push leftDst leftMsg =>
      cases rightOp with
      | none => rfl
      | push rightDst rightMsg =>
          simp only [ChannelOp.apply]
          split_ifs <;> grind
      | pop rightSrc =>
          simp only [ChannelOp.apply, ChannelOp.Enabled] at hright ⊢
          split_ifs <;> grind
  | pop leftSrc =>
      cases rightOp with
      | none => rfl
      | push rightDst rightMsg =>
          simp only [ChannelOp.apply, ChannelOp.Enabled] at hleft ⊢
          split_ifs <;> grind
      | pop rightSrc =>
          simp only [ChannelOp.apply]
          split_ifs <;> grind

omit [DecidableEq Rank] in
/-- An action of the model only removes a message that is there. -/
theorem action_enabled {policy : Policy Rank} {me : Rank} {net : Network Rank Msg Val α}
    {act : LocalState Rank Msg Val α × ChannelOp Rank Msg}
    (hact : action policy me net = some act) : act.2.Enabled me net.channel := by
  unfold action at hact
  grind [ChannelOp.Enabled]

omit [DecidableEq Rank] in
/-- Every rank only appends to its own list of broadcast contributions. -/
theorem action_entered {policy : Policy Rank} {me : Rank} {net : Network Rank Msg Val α}
    {act : LocalState Rank Msg Val α × ChannelOp Rank Msg}
    (hact : action policy me net = some act) :
    (net.locals me).entered <+: act.1.entered := by
  unfold action at hact
  grind

theorem getElem?_prefixed {γ : Type*} {xs ys : List γ} (hfront : xs <+: ys) {i : ℕ}
    {x : γ} (hx : xs[i]? = some x) : ys[i]? = some x := by
  obtain ⟨rest, rfl⟩ := hfront
  rw [List.getElem?_append_left (List.getElem?_eq_some_iff.mp hx).1, hx]

omit [Fintype Rank] in
theorem perform_locals_of_ne {me other : Rank} (hne : me ≠ other)
    (net : Network Rank Msg Val α)
    (act : LocalState Rank Msg Val α × ChannelOp Rank Msg) :
    (perform other net act).locals me = net.locals me :=
  Function.update_of_ne hne _ _

/-- Contributions to broadcasts are never taken back. -/
theorem entered_prefix_perform {policy : Policy Rank} {other : Rank}
    {net : Network Rank Msg Val α}
    {act : LocalState Rank Msg Val α × ChannelOp Rank Msg}
    (hact : action policy other net = some act) (me : Rank) :
    (net.locals me).entered <+: ((perform other net act).locals me).entered := by
  by_cases hme : me = other
  · subst hme
    simpa [perform] using action_entered hact
  · rw [perform_locals_of_ne hme]

/-- What a rank is about to do does not depend on the steps of other ranks. -/
theorem action_perform_of_ne {policy : Policy Rank} {me other : Rank} (hne : me ≠ other)
    {net : Network Rank Msg Val α}
    {act otherAct : LocalState Rank Msg Val α × ChannelOp Rank Msg}
    (hact : action policy me net = some act)
    (hother : action policy other net = some otherAct) :
    action policy me (perform other net otherAct) = some act := by
  have hlocals := perform_locals_of_ne hne net otherAct
  have hentered := entered_prefix_perform hother
  unfold action at hact ⊢
  rw [hlocals]
  cases hprocess : (net.locals me).process with
  | done result => simp [hprocess] at hact
  | fail => simp [hprocess] at hact
  | isend dst msg next => simpa [hprocess] using hact
  | wait next =>
      simp only [hprocess] at hact ⊢
      cases hrequest : (net.locals me).request with
      | none => simpa [hrequest] using hact
      | some dst =>
          simp only [hrequest] at hact ⊢
          split at hact
          · rename_i hready
            rw [if_pos]
            · exact hact
            · exact hready.imp id
                (ChannelOp.apply_sender_of_ne hne net.channel otherAct.2 dst)
          · simp at hact
  | recv src next =>
      simp only [hprocess] at hact ⊢
      cases hchannel : net.channel src me with
      | nil => simp [hchannel] at hact
      | cons msg rest =>
          obtain ⟨rest', hrest⟩ := ChannelOp.apply_receiver_of_ne hne net.channel
            otherAct.2 src hchannel
          simp only [hchannel] at hact
          simpa [perform, hrest] using hact
  | bcast root own next =>
      simp only [hprocess] at hact ⊢
      split at hact
      · rename_i houtside
        simpa [houtside] using hact
      · rename_i hinside
        rw [if_neg hinside]
        split at hact
        · simp at hact
        · rename_i value hvalue
          split at hact
          · rename_i hready
            rw [getElem?_prefixed (hentered root) hvalue]
            simp only
            rw [if_pos]
            · exact hact
            · exact hready.imp id fun hall rank =>
                (hall rank).trans_le (hentered rank).length_le
          · simp at hact

/-- The network is a system of commuting agents. -/
theorem step_commutes (policy : Policy Rank) :
    Commutes (step policy : Rank → Network Rank Msg Val α → Option _) := by
  intro left right net leftNext rightNext hne hleft hright
  simp only [step, Option.map_eq_some_iff] at hleft hright
  obtain ⟨leftAct, hleftAct, rfl⟩ := hleft
  obtain ⟨rightAct, hrightAct, rfl⟩ := hright
  refine ⟨perform right (perform left net leftAct) rightAct, ?_, ?_⟩
  · rw [step, action_perform_of_ne hne.symm hrightAct hleftAct, Option.map_some]
  · rw [step, action_perform_of_ne hne hleftAct hrightAct, Option.map_some]
    congr 1
    simp only [perform]
    congr 1
    · exact Function.update_comm hne.symm _ _ _
    · exact (ChannelOp.apply_comm hne net.channel leftAct.2 rightAct.2
        (action_enabled hleftAct) (action_enabled hrightAct)).symm

/-! ## Single steps -/

section SingleSteps

variable {policy : Policy Rank} {me : Rank} {locals : Rank → LocalState Rank Msg Val α}
variable {channel : Rank → Rank → List Msg} {self : LocalState Rank Msg Val α}

theorem step_isend {dst : Rank} {msg : Msg} {next : Process Rank Msg Val α}
    (hself : locals me = self) (hprocess : self.process = .isend dst msg next)
    (hrequest : self.request = none) :
    step policy me ⟨locals, channel⟩ = some
      { locals := Function.update locals me { self with
          process := next, request := some dst, sends := self.sends + 1 }
        channel := fun s d =>
          if s = me ∧ d = dst then channel s d ++ [msg] else channel s d } := by
  simp [step, action, perform, hself, hprocess, hrequest, ChannelOp.apply]

theorem step_wait {dst : Rank} {next : Process Rank Msg Val α}
    (hself : locals me = self) (hprocess : self.process = .wait next)
    (hrequest : self.request = some dst) (hmatched : channel me dst = []) :
    step policy me ⟨locals, channel⟩ = some
      { locals := Function.update locals me { self with process := next, request := none }
        channel := channel } := by
  simp [step, action, perform, hself, hprocess, hrequest, hmatched, ChannelOp.apply]

theorem step_recv {src : Rank} {msg : Msg} {rest : List Msg}
    {next : Msg → Process Rank Msg Val α}
    (hself : locals me = self) (hprocess : self.process = .recv src next)
    (hchannel : channel src me = msg :: rest) :
    step policy me ⟨locals, channel⟩ = some
      { locals := Function.update locals me { self with process := next msg }
        channel := fun s d =>
          if s = src ∧ d = me then (channel s d).tail else channel s d } := by
  simp [step, action, perform, hself, hprocess, hchannel, ChannelOp.apply]

theorem step_bcast_enter {root : Rank} {own : Val} {next : Val → Process Rank Msg Val α}
    (hself : locals me = self) (hprocess : self.process = .bcast root own next)
    (houtside : self.entered.length = self.left) :
    step policy me ⟨locals, channel⟩ = some
      { locals := Function.update locals me { self with entered := self.entered ++ [own] }
        channel := channel } := by
  simp [step, action, perform, hself, hprocess, houtside, ChannelOp.apply]

theorem step_bcast_leave {root : Rank} {own value : Val}
    {next : Val → Process Rank Msg Val α}
    (hself : locals me = self) (hprocess : self.process = .bcast root own next)
    (hinside : self.entered.length ≠ self.left)
    (hroot : (locals root).entered[self.left]? = some value)
    (hall : ∀ other, self.left < (locals other).entered.length) :
    step policy me ⟨locals, channel⟩ = some
      { locals := Function.update locals me
          { self with process := next value, left := self.left + 1 }
        channel := channel } := by
  simp only [step, action, hself, hprocess, if_neg hinside, hroot]
  rw [if_pos (Or.inr hall)]
  rfl

/-- If every rank has a step that only depends on the others through `before`
or `after`, all ranks can take theirs. -/
theorem reachable_pointwise {before after : Rank → LocalState Rank Msg Val α}
    (hstep : ∀ (locals : Rank → LocalState Rank Msg Val α) (me : Rank),
      (∀ other, locals other = before other ∨ locals other = after other) →
      locals me = before me →
      step policy me ⟨locals, channel⟩ =
        some ⟨Function.update locals me (after me), channel⟩) :
    Reachable (step policy) ⟨before, channel⟩ ⟨after, channel⟩ := by
  classical
  have hpartial : ∀ ranks : List Rank, ranks.Nodup →
      Reachable (step policy) ⟨before, channel⟩
        ⟨fun rank => if rank ∈ ranks then after rank else before rank, channel⟩ := by
    intro ranks hnodup
    induction ranks with
    | nil => simpa using Reachable.refl _
    | cons me ranks ih =>
        rw [List.nodup_cons] at hnodup
        have hnext := hstep (fun rank => if rank ∈ ranks then after rank else before rank) me
          (fun other => by by_cases hother : other ∈ ranks <;> simp [hother])
          (by simp [hnodup.1])
        have hupdate : Function.update
            (fun rank => if rank ∈ ranks then after rank else before rank) me (after me) =
              fun rank => if rank ∈ me :: ranks then after rank else before rank := by
          funext rank
          by_cases hrank : rank = me
          · subst hrank
            simp
          · simp [hrank]
        rw [hupdate] at hnext
        exact (ih hnodup.2).tail hnext
  simpa using hpartial Finset.univ.toList (Finset.nodup_toList _)

end SingleSteps

end Semantics

end MpiBindings.MessagePassing
