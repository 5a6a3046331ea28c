import MpiBindings.Core.ProcessResults
import MpiBindings.ReproducibleReduce.RelatedEffects
import MpiBindings.ReproducibleReduce.Sending
import MpiBindings.ReproducibleReduce.TreeReduction

/-!
# The log of the transfers

A reduction that also writes down its calls of `MessageBuffer::put` and
`MessageBuffer::get`.  Without the log it is the program of the rank, so it
communicates in the same way; and which results it gets does not depend on the
messages that arrive.
-/

namespace MpiBindings.ReproducibleReduce

open MessagePassing Choreography

/-- A call of the message buffer by a reduction. -/
inductive Transfer (p : ℕ) (T : Type) where
  | put (targetRank : Fin p) (index : ℕ) (value : T)
  | get (sourceRank : Fin p) (index : ℕ)

/-- Programs of a rank that write a log. -/
abbrev Logged (p : ℕ) (T α : Type) := StateT (List (Transfer p T)) (Program (Fin p) T) α

section Effects

variable {p : ℕ} {T : Type}

/-- A program that writes nothing to the log. -/
def Logged.lift {α : Type} (program : Program (Fin p) T α) : Logged p T α :=
  StateT.lift program

def Logged.record (transfer : Transfer p T) : Logged p T Unit :=
  modify (· ++ [transfer])

/-- The effects of a rank in the network, with a log. -/
def loggedEffects (p : ℕ) (T : Type) [Inhabited T] (sizeofEntry : ℕ+) :
    ReduceEffects p T (Logged p T) where
  fail fault := Logged.lift ((networkEffects p T sizeofEntry).fail fault)
  subtract minuend subtrahend :=
    Logged.lift ((networkEffects p T sizeofEntry).subtract minuend subtrahend)
  enterCall := Logged.lift (networkEffects p T sizeofEntry).enterCall
  readReduceBuffer x := Logged.lift ((networkEffects p T sizeofEntry).readReduceBuffer x)
  writeReduceBuffer x value :=
    Logged.lift ((networkEffects p T sizeofEntry).writeReduceBuffer x value)
  flush := Logged.lift (networkEffects p T sizeofEntry).flush
  wait := Logged.lift (networkEffects p T sizeofEntry).wait
  put targetRank index value := do
    Logged.record (.put targetRank index value)
    Logged.lift ((networkEffects p T sizeofEntry).put targetRank index value)
  get sourceRank index := do
    Logged.record (.get sourceRank index)
    Logged.lift ((networkEffects p T sizeofEntry).get sourceRank index)
  bcastSingle root own := Logged.lift ((networkEffects p T sizeofEntry).bcastSingle root own)

end Effects

/-! ## Without the log -/

section Erasure

variable {p : ℕ} {T α β : Type}

/-- The logged program is the plain one but for the log. -/
def Erases (logged : Logged p T α) (plain : Program (Fin p) T α) : Prop :=
  ∀ log state, (logged log state).map (fun result => (result.1.1, result.2)) = plain state

theorem Erases.pure (result : α) :
    Erases (Pure.pure result : Logged p T α) (Pure.pure result) := fun _ _ => rfl

theorem Erases.bind {logged : Logged p T α} {plain : Program (Fin p) T α}
    {next : α → Logged p T β} {next' : α → Program (Fin p) T β} (hfirst : Erases logged plain)
    (hnext : ∀ result, Erases (next result) (next' result)) :
    Erases (logged >>= next) (plain >>= next') := by
  intro log state
  change (Process.bind (logged log state) fun result =>
      next result.1.1 result.1.2 result.2).map _ =
    (plain state).bind fun result => next' result.1 result.2
  rw [Process.map_bind, ← hfirst log state, Process.bind_map]
  congr 1
  funext result
  exact hnext result.1.1 result.1.2 result.2

theorem Erases.lift (program : Program (Fin p) T α) : Erases (Logged.lift program) program := by
  intro log state
  change (Process.bind (program state) fun result =>
    .done ((result.1, log), result.2)).map _ = _
  rw [Process.map_bind]
  exact Process.bind_done (program state)

/-- Writing to the log in front of a program. -/
theorem Erases.record (transfer : Transfer p T) (program : Program (Fin p) T α) :
    Erases (Logged.record transfer >>= fun _ => Logged.lift program) program :=
  fun log state => Erases.lift program (log ++ [transfer]) state

variable [Inhabited T] {sizeofEntry : ℕ+}

theorem erases_effects :
    RelatedEffects Erases (loggedEffects p T sizeofEntry) (networkEffects p T sizeofEntry) where
  pure := Erases.pure
  bind := Erases.bind
  fail _ := Erases.lift _
  subtract _ _ := Erases.lift _
  enterCall := Erases.lift _
  readReduceBuffer _ := Erases.lift _
  writeReduceBuffer _ _ := Erases.lift _
  flush := Erases.lift _
  wait := Erases.lift _
  put _ _ _ := Erases.record _ _
  get _ _ := Erases.record _ _
  bcastSingle _ _ := Erases.lift _

end Erasure

/-! ## What is recorded -/

section Records

variable {p : ℕ} {T α β : Type}

/-- What a program records next to its result, whatever it receives. -/
def Records (program : Logged p T α) (post : α → List (Transfer p T) → Prop) : Prop :=
  ∀ log state, (program log state).Ensures fun result =>
    ∃ added, result.1.2 = log ++ added ∧ post result.1.1 added

theorem Records.pure {post : α → List (Transfer p T) → Prop} {result : α}
    (hpost : post result []) : Records (Pure.pure result) post :=
  fun log _ => ⟨[], (List.append_nil log).symm, hpost⟩

theorem Records.mono {program : Logged p T α} {post post' : α → List (Transfer p T) → Prop}
    (hrecords : Records program post)
    (hpost : ∀ result added, post result added → post' result added) : Records program post' := by
  intro log state
  refine (hrecords log state).mono fun result hresult => ?_
  obtain ⟨added, hlog, hadded⟩ := hresult
  exact ⟨added, hlog, hpost _ _ hadded⟩

theorem Records.bind {program : Logged p T α} {next : α → Logged p T β}
    {middle : α → List (Transfer p T) → Prop} {post : β → List (Transfer p T) → Prop}
    (hfirst : Records program middle)
    (hnext : ∀ result first, middle result first →
      Records (next result) fun final added => post final (first ++ added)) :
    Records (program >>= next) post := by
  intro log state
  refine (hfirst log state).bind fun result ⟨first, hlog, hmiddle⟩ => ?_
  refine (hnext result.1.1 first hmiddle result.1.2 result.2).mono fun final hfinal => ?_
  obtain ⟨added, hadded, hpost⟩ := hfinal
  exact ⟨first ++ added, by rw [hadded, hlog, List.append_assoc], hpost⟩

/-- A program that records nothing. -/
def Silent (program : Logged p T α) : Prop :=
  Records program fun _ added => added = []

theorem Records.bind_silent {program : Logged p T α} {next : α → Logged p T β}
    {post : β → List (Transfer p T) → Prop} (hfirst : Silent program)
    (hnext : ∀ result, Records (next result) post) : Records (program >>= next) post := by
  apply Records.bind hfirst
  intro result first hsilent
  rw [hsilent]
  exact hnext result

theorem silent_lift (program : Program (Fin p) T α) : Silent (Logged.lift program) := by
  intro log state
  have hany : (program state).Ensures fun _ => True :=
    Process.Ensures.of_forall (fun _ => trivial) _
  exact hany.bind fun _ _ => ⟨[], (List.append_nil log).symm, rfl⟩

theorem Records.record {transfer : Transfer p T} {program : Program (Fin p) T α}
    {post : α → List (Transfer p T) → Prop} (hpost : ∀ result, post result [transfer]) :
    Records (Logged.record transfer >>= fun _ => Logged.lift program) post := by
  intro log state
  refine (silent_lift program (log ++ [transfer]) state).mono fun result hresult => ?_
  obtain ⟨added, hlog, rfl⟩ := hresult
  exact ⟨[transfer], by rw [hlog, List.append_nil], hpost result.1.1⟩

theorem records_failed {post : α → List (Transfer p T) → Prop} :
    Records (Logged.lift Program.failed : Logged p T α) post := fun _ _ => trivial

/-! ## Requests of a call -/

variable [Inhabited T] {sizeofEntry : ℕ+}

omit [Inhabited T] in
theorem Logged.pure_bind (result : α) (next : α → Logged p T β) :
    (Pure.pure result : Logged p T α) >>= next = next result := rfl

theorem loggedEffects_subtract (minuend subtrahend : ℕ) :
    (loggedEffects p T sizeofEntry).subtract minuend subtrahend =
      pure (minuend - subtrahend) := rfl

theorem silent_assertThat (condition : Prop) [Decidable condition] :
    Silent ((loggedEffects p T sizeofEntry).assertThat condition) := by
  unfold ReduceEffects.assertThat
  split
  · exact Records.pure rfl
  · exact records_failed

theorem silent_ofOption (fault : ReduceFault) (value : Option α) :
    Silent ((loggedEffects p T sizeofEntry).ofOption fault value) := by
  cases value with
  | none => exact records_failed
  | some result => exact Records.pure rfl

theorem silent_readSource (source : SourceBuffer T) (x : ℕ) :
    Silent ((loggedEffects p T sizeofEntry).readSource source x) := by
  cases source with
  | sendBuffer elements => exact silent_ofOption _ _
  | reduceBuffer => exact silent_lift _

variable (comm : ReproducibleCommunicator) (op : T → T → T)

/-- Calls of `get` for the given indices. -/
def getsFor (comm : ReproducibleCommunicator) (indices : List ℕ) : List (Transfer p T) :=
  indices.filterMap fun index => (comm.rankOfIndex p index).map fun source => .get source index

omit [Inhabited T] in
theorem getsFor_append (front back : List ℕ) :
    (getsFor comm (front ++ back) : List (Transfer p T)) =
      getsFor comm front ++ getsFor comm back :=
  List.filterMap_append

theorem records_reducePairs (source : SourceBuffer T) {count w : ℕ} (hw : 2 * w ≤ count) :
    Records ((loggedEffects p T sizeofEntry).reducePairs op source count (2 * w) w)
      fun written added => written = count / 2 ∧ added = [] := by
  induction hrest : count / 2 - w generalizing w with
  | zero =>
      rw [ReduceEffects.reducePairs, if_neg (by omega)]
      exact Records.pure ⟨by omega, rfl⟩
  | succ rest ih =>
      rw [ReduceEffects.reducePairs, if_pos (by omega)]
      apply Records.bind_silent (silent_readSource source _)
      intro a
      apply Records.bind_silent (silent_readSource source _)
      intro b
      apply Records.bind_silent (silent_lift _)
      intro _
      exact ih (w := w + 1) (by omega) (by omega)

theorem records_reduceRemaining (maxX indexB : ℕ) (elementA : T) :
    Records ((loggedEffects p T sizeofEntry).reduceRemaining comm op maxX indexB elementA)
      fun _ added => added = getsFor comm (if indexB ≤ maxX then [indexB] else []) := by
  unfold ReduceEffects.reduceRemaining
  by_cases hends : indexB > maxX
  · rw [if_pos hends, if_neg (by omega)]
    exact Records.pure rfl
  · rw [if_neg hends, if_pos (by omega)]
    cases hrank : comm.rankOfIndex p indexB with
    | none => exact records_failed
    | some sourceRank =>
        have hgets : getsFor comm [indexB] = [Transfer.get (T := T) sourceRank indexB] := by
          simp [getsFor, hrank]
        have hget : Records ((loggedEffects p T sizeofEntry).get sourceRank indexB)
            fun _ added => added = [.get sourceRank indexB] := Records.record fun _ => rfl
        rw [ReduceEffects.ofOption, Logged.pure_bind]
        apply Records.bind hget
        intro elementB first hfirst
        exact Records.pure (by rw [hfirst, hgets, List.append_nil])

theorem records_reducePass (index maxX size level : ℕ) (source : SourceBuffer T) :
    Records ((loggedEffects p T sizeofEntry).reducePass comm op index maxX (level + 1) source
        (elementsAt size level))
      fun written added => written = elementsAt size (level + 1) ∧
        added = getsFor comm (request index maxX size level).toList := by
  unfold ReduceEffects.reducePass
  simp only [loggedEffects_subtract, Logged.pure_bind]
  apply Records.bind (records_reducePairs (w := 0) op source (by omega))
  rintro written added ⟨rfl, rfl⟩
  apply Records.bind_silent (silent_assertThat _)
  intro _
  rw [elementsAt_succ]
  obtain heven | hodd := Nat.mod_two_eq_zero_or_one (elementsAt size level)
  · rw [if_neg (by omega)]
    have hnone : request index maxX size level = none := by simp [request, heven]
    exact Records.pure ⟨by omega, by rw [hnone]; rfl⟩
  · have hrequest : (request index maxX size level).toList =
        if index + elementsAt size level * 2 ^ level ≤ maxX
          then [index + elementsAt size level * 2 ^ level] else [] := by
      unfold request
      split_ifs <;> simp_all
    rw [if_pos (by omega)]
    apply Records.bind_silent (silent_readSource source _)
    intro elementA
    rw [indexB_eq _ (show 0 < elementsAt size level by omega)]
    apply Records.bind (records_reduceRemaining comm op maxX _ elementA)
    rintro result added rfl
    apply Records.bind_silent (silent_lift _)
    intro _
    exact Records.pure ⟨by omega, by rw [hrequest]; simp⟩

theorem records_reducePasses (index maxX passes : ℕ) {size level count : ℕ}
    (source : SourceBuffer T) (hcount : count = elementsAt size level) :
    Records ((loggedEffects p T sizeofEntry).reducePasses comm op index maxX passes (level + 1)
        source count)
      fun _ added => added = getsFor comm (requestsFrom index maxX size level passes) := by
  induction passes generalizing level source count with
  | zero => exact Records.pure rfl
  | succ passes ih =>
      rw [hcount]
      apply Records.bind (records_reducePass comm op index maxX size level source)
      rintro written first ⟨hwritten, rfl⟩
      apply (ih .reduceBuffer hwritten).mono
      rintro _ added rfl
      rw [requestsFrom_succ, getsFor_append]

theorem loggedEffects_maxX (index : ℕ) :
    (loggedEffects p T sizeofEntry).maxX comm index = pure (comm.maxX index) := by
  unfold ReduceEffects.maxX ReproducibleCommunicator.maxX
  split <;> rfl

theorem loggedEffects_nLocalElements (index : ℕ) :
    (loggedEffects p T sizeofEntry).nLocalElements comm (comm.maxX index) index =
      pure (comm.nLocalElements index) := rfl

/-- A call gets the results that its index asks for, whatever they are. -/
theorem records_performReduceAt (buffer : List T) (index : ℕ) :
    Records ((loggedEffects p T sizeofEntry).performReduceAt comm op buffer index)
      fun _ added => added = getsFor comm (comm.requests index) := by
  unfold ReduceEffects.performReduceAt ReproducibleCommunicator.requests
  rw [Nat.and_one_is_mod]
  apply Records.bind_silent (silent_lift _)
  intro _
  by_cases hodd : index % 2 = 1
  · rw [if_pos hodd, if_pos hodd]
    exact silent_ofOption _ _
  · rw [if_neg hodd, if_neg hodd]
    rw [loggedEffects_maxX, Logged.pure_bind]
    apply Records.bind_silent (silent_assertThat _)
    intro _
    rw [loggedEffects_nLocalElements, Logged.pure_bind, loggedEffects_subtract, Logged.pure_bind]
    apply Records.bind (records_reducePasses comm op index _ _ _ (elementsAt_zero _).symm)
    rintro elementsInBuffer added rfl
    apply Records.bind_silent (silent_assertThat _)
    intro _
    apply (silent_lift _).mono
    rintro value _ rfl
    simp

end Records

/-! ## Runs with a log -/

section LogRuns

variable {p : ℕ} {T α β : Type} {me : Fin p} {state state' state'' : RankState (Fin p) T}
variable {trace trace' : List (Event (Fin p) (Message T) T)}
variable {added added' : List (Transfer p T)} {result : α}

/-- Rank `me` runs a logged program with the given trace and adds to the log. -/
def LogRuns (me : Fin p) (program : Logged p T α) (state : RankState (Fin p) T)
    (trace : List (Event (Fin p) (Message T) T)) (result : α) (added : List (Transfer p T))
    (state' : RankState (Fin p) T) : Prop :=
  ∀ log, Runs me (program log) state trace (result, log ++ added) state'

theorem LogRuns.pure (result : α) :
    LogRuns me (Pure.pure result : Logged p T α) state [] result [] state := by
  intro log
  rw [List.append_nil]
  exact Runs.pure (result, log)

theorem LogRuns.bind {program : Logged p T α} {next : α → Logged p T β} {final : β}
    (hfirst : LogRuns me program state trace result added state')
    (hsecond : LogRuns me (next result) state' trace' final added' state'') :
    LogRuns me (program >>= next) state (trace ++ trace') final (added ++ added') state'' := by
  intro log
  rw [← List.append_assoc]
  change Runs me (program log >>= fun before => next before.1 before.2) state _ _ _
  exact (hfirst log).bind (hsecond (log ++ added))

/-- Sequencing after a program that does not communicate. -/
theorem LogRuns.bind_silent {program : Logged p T α} {next : α → Logged p T β} {final : β}
    (hfirst : LogRuns me program state [] result [] state')
    (hsecond : LogRuns me (next result) state' trace final added state'') :
    LogRuns me (program >>= next) state trace final added state'' :=
  hfirst.bind hsecond

theorem LogRuns.ofOption [Inhabited T] {sizeofEntry : ℕ+} {fault : ReduceFault}
    {value : Option α} (result : α) (hvalue : value = some result) :
    LogRuns me ((loggedEffects p T sizeofEntry).ofOption fault value) state [] result []
      state := by
  rw [hvalue]
  exact LogRuns.pure result

theorem LogRuns.assertThat [Inhabited T] {sizeofEntry : ℕ+} {condition : Prop}
    [Decidable condition] (hholds : condition) :
    LogRuns me ((loggedEffects p T sizeofEntry).assertThat condition) state [] () [] state := by
  unfold ReduceEffects.assertThat
  rw [if_pos hholds]
  exact LogRuns.pure ()

theorem LogRuns.lift {program : Program (Fin p) T α}
    (hruns : Runs me program state trace result state') :
    LogRuns me (Logged.lift program) state trace result [] state' := by
  intro log
  rw [List.append_nil]
  exact hruns.bind_last (Runs.pure (result, log))

theorem LogRuns.record {transfer : Transfer p T} {program : Program (Fin p) T α}
    (hruns : Runs me program state trace result state') :
    LogRuns me (Logged.record transfer >>= fun _ => Logged.lift program) state trace result
      [transfer] state' := by
  intro log
  have hrest := LogRuns.lift hruns (log ++ [transfer])
  rw [List.append_nil] at hrest
  exact hrest

/-- An optional first statement followed by the rest of the program. -/
theorem LogRuns.optional {condition : Prop} [Decidable condition]
    {program : Logged p T Unit} {next : Unit → Logged p T α}
    (hruns : LogRuns me ((if condition then program else Pure.pure ()) >>= next) state trace
      result added state') :
    LogRuns me (if condition then program >>= next else next ()) state trace result added
      state' := by
  by_cases hcondition : condition
  · simpa only [if_pos hcondition] using hruns
  · rw [if_neg hcondition] at hruns ⊢
    exact hruns

theorem LogRuns.optional_lift {condition : Prop} [Decidable condition]
    {program : Program (Fin p) T Unit}
    (hruns : Runs me (if condition then program else Pure.pure ()) state trace () state') :
    LogRuns me (if condition then Logged.lift program else Pure.pure ()) state trace () []
      state' := by
  by_cases hcondition : condition
  · rw [if_pos hcondition] at hruns ⊢
    exact LogRuns.lift hruns
  · rw [if_neg hcondition] at hruns ⊢
    exact LogRuns.lift hruns

/-- The run of a program is one of its logged variant, which adds what it records. -/
theorem LogRuns.of_runs {logged : Logged p T α} {plain : Program (Fin p) T α}
    (herases : Erases logged plain) (hrecords : Records logged fun _ more => more = added)
    (hruns : Runs me plain state trace result state') :
    LogRuns me logged state trace result added state' := by
  intro log
  unfold Runs at hruns ⊢
  rw [← herases log state] at hruns
  obtain ⟨⟨⟨value, after⟩, final⟩, hsame, hfollows⟩ := hruns.of_map
  obtain ⟨more, hlog, rfl⟩ := hfollows.ensures (hrecords log state)
  dsimp only at hlog hsame
  obtain ⟨rfl, rfl⟩ := Prod.mk.inj hsame
  rw [← hlog]
  exact hfollows

/-- Without the log the same is communicated. -/
theorem LogRuns.erase {logged : Logged p T α} {plain : Program (Fin p) T α}
    (herases : Erases logged plain)
    (hruns : LogRuns me logged state trace result added state') :
    Runs me plain state trace result state' := by
  unfold Runs
  rw [← herases [] state]
  exact (hruns []).map _

end LogRuns

end MpiBindings.ReproducibleReduce
