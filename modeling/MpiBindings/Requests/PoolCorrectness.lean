import MpiBindings.Requests.RequestPool

/-!
# Every completion is reported once

Whatever mixture of waits and tests a client uses, each operation started through a pool is
either in exactly one slot of the pool or was reported exactly once, after MPI completed it
and with its own status.  The loop over `wait_any` visits every active request once.
-/

namespace MpiBindings.Requests

open Collectives

variable {σ : Type}

/-! ## Slots -/

/-- Replacing the request in a slot exchanges the operations of the two requests. -/
theorem reduceOption_set_perm {requests : List MpiRequest} {index : ℕ} {old : MpiRequest}
    (hold : requests[index]? = some old) (new : MpiRequest) :
    ((requests.set index new).reduceOption ++ old.toList).Perm
      (requests.reduceOption ++ new.toList) := by
  obtain ⟨hindex, rfl⟩ := List.getElem?_eq_some_iff.mp hold
  have hcons : ∀ request : MpiRequest, ((request :: requests.eraseIdx index).reduceOption).Perm
      ((requests.eraseIdx index).reduceOption ++ request.toList) := by
    intro request
    cases request with
    | none => simp
    | some operation => simpa using @List.perm_append_comm _ [operation]
  have hset : ((requests.set index new).reduceOption).Perm
      ((requests.eraseIdx index).reduceOption ++ new.toList) :=
    ((List.set_perm_cons_eraseIdx hindex new).filterMap id).trans (hcons new)
  have hall : (requests.reduceOption).Perm
      ((requests.eraseIdx index).reduceOption ++ requests[index].toList) :=
    ((List.getElem_cons_eraseIdx_perm hindex).symm.filterMap id).trans (hcons _)
  calc ((requests.set index new).reduceOption ++ requests[index].toList).Perm
        ((requests.eraseIdx index).reduceOption ++ new.toList ++ requests[index].toList) :=
          hset.append_right _
    List.Perm _ ((requests.eraseIdx index).reduceOption ++ requests[index].toList ++
        new.toList) := by
          rw [List.append_assoc, List.append_assoc]
          exact List.perm_append_comm.append_left _
    List.Perm _ (requests.reduceOption ++ new.toList) := hall.symm.append_right _

theorem filterMap_range_join (requests : List MpiRequest) :
    ((List.range requests.length).filterMap fun index => requests[index]?.join) =
      requests.reduceOption := by
  calc ((List.range requests.length).filterMap fun index => requests[index]?.join)
    _ = ((List.range requests.length).map fun index => requests[index]?.join).filterMap id := by
      rw [List.filterMap_map, Function.id_comp]
    _ = requests.reduceOption := by
      congr 1
      refine List.ext_getElem (by simp) fun index hleft hright => ?_
      rw [List.getElem_map, List.getElem_range, List.getElem?_eq_getElem hright]
      rfl

theorem map_fst_report (requests : List MpiRequest) (index : ℕ) (told : Option σ) :
    (report requests index told).toList.map Prod.fst = requests[index]?.join.toList := by
  rw [report]
  cases requests[index]?.join <;> rfl

theorem map_fst_reports (requests : List MpiRequest) (told : ℕ → Option σ) :
    ((List.range requests.length).filterMap fun index =>
        report requests index (told index)).map Prod.fst = requests.reduceOption := by
  rw [← filterMap_range_join, List.map_filterMap]
  congr 1
  funext index
  rw [report, Option.map_map]
  exact congrFun Option.map_id _

/-! ## Effects of a call -/

/-- What a call can do to the pool, with the reports it makes. -/
inductive PoolEffect (state : PoolState σ) : List (Operation × Option σ) → PoolState σ → Prop
  | idle : PoolEffect state [] state
  | grow (pool : RequestPool) (hpool : pool.requests = state.pool.requests ++ [none]) :
      PoolEffect state [] { state with pool }
  | start (index : ℕ) (hslot : state.pool.requests[index]? = some none) :
      PoolEffect state []
        { pool := state.pool.set index (some state.mpi.started)
          mpi := { state.mpi with started := state.mpi.started + 1 } }
  | complete (operation : Operation) (status : σ) (hstatus : state.mpi.status operation = none) :
      PoolEffect state []
        { state with mpi := { state.mpi with
            status := Function.update state.mpi.status operation (some status) } }
  | finish (index : ℕ) (request : MpiRequest) (status : σ)
      (hslot : state.pool.requests[index]? = some request)
      (hready : state.mpi.ready request = some status) :
      PoolEffect state (report state.pool.requests index (some status)).toList
        { state with pool := state.pool.set index none }
  | clear (values : List σ) (statuses : StatusesParam σ)
      (hready : state.mpi.readyAll state.pool.requests = some values)
      (htold : ∀ index < state.pool.requests.length,
        statuses.told index = none ∨ statuses.told index = values[index]?) :
      PoolEffect state
        ((List.range state.pool.requests.length).filterMap fun index =>
          report state.pool.requests index (statuses.told index))
        { state with pool := state.pool.clear }

namespace PoolState

variable {state next : PoolState σ}

theorem slot_of_deref {pooled : PooledRequest} {request : MpiRequest}
    (hderef : state.pool.deref pooled = some request) :
    state.pool.requests[pooled.index]? = some request := by
  rw [RequestPool.deref, Option.ite_none_right_eq_some] at hderef
  exact hderef.2

theorem finish_effect {pooled : PooledRequest} {status : σ}
    (hfinish : state.finish pooled = some (status, next)) :
    PoolEffect state (report state.pool.requests pooled.index (some status)).toList next := by
  obtain ⟨request, hderef, hfinish⟩ := Option.bind_eq_some_iff.mp hfinish
  obtain ⟨ready, hready, hfinish⟩ := Option.bind_eq_some_iff.mp hfinish
  obtain ⟨rfl, rfl⟩ := Prod.mk.inj (Option.some.inj hfinish)
  exact .finish pooled.index request ready (slot_of_deref hderef) hready

theorem readyAny_cases {mpi : MpiOperations σ} {requests : List MpiRequest} {choice : ℕ}
    {outcome : Option ℕ × σ} (hany : mpi.readyAny requests choice = some outcome) :
    requests.reduceOption = [] ∧ outcome = (none, mpi.emptyStatus) ∨
      ∃ operation status, requests[choice]? = some (some operation) ∧
        mpi.status operation = some status ∧ outcome = (some choice, status) := by
  rw [MpiOperations.readyAny] at hany
  split at hany
  next hnone =>
    exact Or.inl ⟨hnone, (Option.some.inj hany).symm⟩
  next =>
    split at hany
    next operation hslot =>
      obtain ⟨status, hstatus, rfl⟩ := Option.map_eq_some_iff.mp hany
      exact Or.inr ⟨operation, status, hslot, hstatus, rfl⟩
    next => cases hany

/-- The chosen request is finished; without an active request nothing is. -/
theorem finishAny_effect {choice : ℕ} {outcome : Option ℕ × σ}
    (hany : state.mpi.readyAny state.pool.requests choice = some outcome) :
    PoolEffect state
      (report state.pool.requests (state.finishAny outcome).1.1
        (some (state.finishAny outcome).1.2)).toList (state.finishAny outcome).2 := by
  rcases readyAny_cases hany with ⟨-, rfl⟩ | ⟨operation, status, hslot, hstatus, rfl⟩
  · have hend : report state.pool.requests state.pool.numRequests (some state.mpi.emptyStatus) =
        none := by
      rw [report, RequestPool.numRequests, List.getElem?_eq_none le_rfl]
      rfl
    rw [finishAny, hend]
    exact .idle
  · exact .finish choice (some operation) status hslot hstatus

theorem length_of_readyAll {mpi : MpiOperations σ} {requests : List MpiRequest} {values : List σ}
    (hready : mpi.readyAll requests = some values) : values.length = requests.length := by
  rw [MpiOperations.readyAll] at hready
  induction requests generalizing values with
  | nil =>
      rw [List.mapM_nil] at hready
      obtain rfl := Option.some.inj hready
      rfl
  | cons request requests ih =>
      rw [List.mapM_cons] at hready
      obtain ⟨value, -, hready⟩ := Option.bind_eq_some_iff.mp hready
      obtain ⟨rest, hrest, hready⟩ := Option.bind_eq_some_iff.mp hready
      obtain rfl := Option.some.inj hready
      rw [List.length_cons, List.length_cons, ih hrest]

theorem told_write (prepared : StatusesParam σ) (values : List σ) {index : ℕ}
    (hindex : index < values.length) :
    (prepared.write values).told index = none ∨
      (prepared.write values).told index = values[index]? := by
  cases prepared with
  | ignore => exact Or.inl rfl
  | buffer policy statuses => exact Or.inr (List.getElem?_append_left hindex)

theorem clear_effect {values : List σ} (prepared : StatusesParam σ)
    (hready : state.mpi.readyAll state.pool.requests = some values) :
    PoolEffect state
      ((List.range state.pool.requests.length).filterMap fun index =>
        report state.pool.requests index ((prepared.write values).told index))
      { state with pool := state.pool.clear } :=
  .clear values (prepared.write values) hready fun _ hindex =>
    told_write prepared values ((length_of_readyAll hready).symm ▸ hindex)

variable [Inhabited σ] {growth : VectorGrowth} {call : PoolCall σ} {reply : PoolReply σ}

/-- What a call does. -/
theorem perform_effect (hstep : state.perform growth call = some (next, reply)) :
    PoolEffect state (reports state.pool.requests call reply) next := by
  cases call with
  | getRequest =>
      obtain ⟨rfl, rfl⟩ := Prod.mk.inj (Option.some.inj hstep)
      refine .grow _ ?_
      rw [RequestPool.getRequest, RequestPool.emplaceBack]
      split <;> rfl
  | start pooled =>
      simp only [perform] at hstep
      split at hstep
      next hderef =>
        obtain ⟨rfl, rfl⟩ := Prod.mk.inj (Option.some.inj hstep)
        exact .start pooled.index (slot_of_deref hderef)
      next => cases hstep
  | complete operation status =>
      simp only [perform] at hstep
      rw [Option.ite_none_right_eq_some] at hstep
      obtain ⟨rfl, rfl⟩ := Prod.mk.inj (Option.some.inj hstep.2)
      exact .complete operation status hstep.1.2
  | wait pooled =>
      obtain ⟨⟨status, finished⟩, hfinish, heq⟩ := Option.map_eq_some_iff.mp hstep
      obtain ⟨rfl, rfl⟩ := Prod.mk.inj heq
      exact finish_effect hfinish
  | test pooled =>
      simp only [perform] at hstep
      split at hstep
      next finished _ hfinish =>
        obtain ⟨rfl, rfl⟩ := Prod.mk.inj (Option.some.inj hstep)
        exact finish_effect hfinish
      next =>
        obtain ⟨rfl, rfl⟩ := Prod.mk.inj (Option.some.inj hstep)
        exact .idle
      next => cases hstep
  | waitAll statuses =>
      simp only [perform, waitAll] at hstep
      split at hstep
      next =>
        obtain ⟨rfl, rfl⟩ := Prod.mk.inj (Option.some.inj hstep)
        exact .idle
      next prepared _ =>
        split at hstep
        next =>
          obtain ⟨values, hready, heq⟩ := Option.map_eq_some_iff.mp hstep
          obtain ⟨rfl, rfl⟩ := Prod.mk.inj heq
          exact clear_effect prepared hready
        next =>
          obtain ⟨rfl, rfl⟩ := Prod.mk.inj (Option.some.inj hstep)
          exact .idle
  | testAll statuses =>
      simp only [perform, testAll] at hstep
      split at hstep
      next =>
        obtain ⟨rfl, rfl⟩ := Prod.mk.inj (Option.some.inj hstep)
        exact .idle
      next prepared _ =>
        split at hstep
        next =>
          split at hstep
          next values hready =>
            obtain ⟨rfl, rfl⟩ := Prod.mk.inj (Option.some.inj hstep)
            exact clear_effect prepared hready
          next =>
            obtain ⟨rfl, rfl⟩ := Prod.mk.inj (Option.some.inj hstep)
            exact .idle
        next =>
          obtain ⟨rfl, rfl⟩ := Prod.mk.inj (Option.some.inj hstep)
          exact .idle
  | waitAny choice =>
      simp only [perform, waitAny] at hstep
      split at hstep
      next =>
        obtain ⟨outcome, hany, heq⟩ := Option.map_eq_some_iff.mp hstep
        obtain ⟨rfl, rfl⟩ := Prod.mk.inj heq
        exact finishAny_effect hany
      next =>
        obtain ⟨rfl, rfl⟩ := Prod.mk.inj (Option.some.inj hstep)
        exact .idle
  | testAny choice =>
      simp only [perform, testAny] at hstep
      split at hstep
      next =>
        split at hstep
        next =>
          obtain ⟨rfl, rfl⟩ := Prod.mk.inj (Option.some.inj hstep)
          exact .idle
        next =>
          obtain ⟨outcome, hany, heq⟩ := Option.map_eq_some_iff.mp hstep
          obtain ⟨rfl, rfl⟩ := Prod.mk.inj heq
          exact finishAny_effect hany
      next =>
        obtain ⟨rfl, rfl⟩ := Prod.mk.inj (Option.some.inj hstep)
        exact .idle

end PoolState

/-! ## Accounts -/

/-- Every started operation is in one slot or was reported once, and reports are true. -/
structure Accounted (reported : List (Operation × Option σ)) (state : PoolState σ) : Prop where
  once : (state.pool.requests.reduceOption ++ reported.map Prod.fst).Perm
    (List.range state.mpi.started)
  truthful : ∀ operation told, (operation, told) ∈ reported →
    ∃ status, state.mpi.status operation = some status ∧ (told = none ∨ told = some status)

theorem eq_of_report {requests : List MpiRequest} {index : ℕ} {told told' : Option σ}
    {operation : Operation} (hreport : report requests index told = some (operation, told')) :
    requests[index]? = some (some operation) ∧ told' = told := by
  obtain ⟨found, hslot, heq⟩ := Option.map_eq_some_iff.mp hreport
  obtain ⟨rfl, rfl⟩ := Prod.mk.inj heq
  exact ⟨Option.join_eq_some_iff.mp hslot, rfl⟩

namespace PoolEffect

variable {state next : PoolState σ} {news reported : List (Operation × Option σ)}

/-- A completed operation keeps its status. -/
theorem status_kept (heffect : PoolEffect state news next) {operation : Operation} {status : σ}
    (hstatus : state.mpi.status operation = some status) :
    next.mpi.status operation = some status := by
  cases heffect with
  | complete completed _ hnone =>
      have hne : operation ≠ completed := by
        rintro rfl
        cases hnone.symm.trans hstatus
      exact (Function.update_of_ne hne _ _).trans hstatus
  | idle | grow | start | finish | clear => exact hstatus

/-- What is reported is complete. -/
theorem truthful (heffect : PoolEffect state news next) {operation : Operation}
    {told : Option σ} (hnew : (operation, told) ∈ news) :
    ∃ status, state.mpi.status operation = some status ∧ (told = none ∨ told = some status) := by
  cases heffect with
  | idle | grow | start | complete => cases hnew
  | finish index request status hslot hready =>
      obtain ⟨hfound, rfl⟩ := eq_of_report (Option.mem_toList.mp hnew)
      obtain rfl := Option.some.inj (hslot.symm.trans hfound)
      exact ⟨status, hready, Or.inr rfl⟩
  | clear values statuses hready htold =>
      obtain ⟨index, hindex, hreport⟩ := List.mem_filterMap.mp hnew
      obtain ⟨hfound, rfl⟩ := eq_of_report hreport
      obtain ⟨status, hstatus, hvalue⟩ := exists_of_mapM hready hfound
      refine ⟨status, hstatus, ?_⟩
      rw [← hvalue]
      exact htold index (List.mem_range.mp hindex)

/-- What leaves the slots is what is reported. -/
theorem once (heffect : PoolEffect state news next) :
    ∃ started, next.mpi.started = state.mpi.started + started ∧
      (next.pool.requests.reduceOption ++ news.map Prod.fst).Perm
        (state.pool.requests.reduceOption ++ (List.range' state.mpi.started started)) := by
  cases heffect with
  | idle | complete => exact ⟨0, rfl, .refl _⟩
  | grow pool hpool =>
      refine ⟨0, rfl, ?_⟩
      dsimp only
      rw [hpool, List.reduceOption_append]
      simp
  | start index hslot =>
      refine ⟨1, rfl, ?_⟩
      simpa [RequestPool.set] using reduceOption_set_perm hslot (some state.mpi.started)
  | finish index request status hslot hready =>
      refine ⟨0, rfl, ?_⟩
      rw [map_fst_report, hslot]
      exact reduceOption_set_perm hslot none
  | clear values statuses hready htold =>
      refine ⟨0, rfl, ?_⟩
      rw [map_fst_reports]
      simp [RequestPool.clear]

theorem accounted (heffect : PoolEffect state news next) (h : Accounted reported state) :
    Accounted (reported ++ news) next where
  once := by
    obtain ⟨started, hstarted, hslots⟩ := heffect.once
    rw [List.map_append, hstarted, List.range_add]
    calc (next.pool.requests.reduceOption ++ (reported.map Prod.fst ++ news.map Prod.fst)).Perm
          (next.pool.requests.reduceOption ++ news.map Prod.fst ++ reported.map Prod.fst) := by
            rw [List.append_assoc]
            exact List.perm_append_comm.append_left _
      List.Perm _ (state.pool.requests.reduceOption ++
          List.range' state.mpi.started started ++ reported.map Prod.fst) :=
            hslots.append_right _
      List.Perm _ (state.pool.requests.reduceOption ++ reported.map Prod.fst ++
          List.range' state.mpi.started started) := by
            rw [List.append_assoc, List.append_assoc]
            exact List.perm_append_comm.append_left _
      List.Perm _ (List.range state.mpi.started ++ List.range' state.mpi.started started) :=
        h.once.append_right _
      _ = List.range state.mpi.started ++
          (List.range started).map (state.mpi.started + ·) := by
            rw [List.range'_eq_map_range]
  truthful operation told hmem := by
    rcases List.mem_append.mp hmem with hold | hnew
    · obtain ⟨status, hstatus, htold⟩ := h.truthful operation told hold
      exact ⟨status, heffect.status_kept hstatus, htold⟩
    · obtain ⟨status, hstatus, htold⟩ := heffect.truthful hnew
      exact ⟨status, heffect.status_kept hstatus, htold⟩

end PoolEffect

/-! ## Main results -/

/-- An empty pool, before any operation is started. -/
def PoolState.new (emptyStatus : σ) : PoolState σ :=
  ⟨.new, ⟨0, fun _ => none, emptyStatus⟩⟩

variable [Inhabited σ] {growth : VectorGrowth}

/-- In every run, each operation started through the pool is in exactly one slot or was reported
exactly once; it was complete when it was reported, and the status was its own. -/
theorem poolRun_accounted {emptyStatus : σ} {reported : List (Operation × Option σ)}
    {state : PoolState σ} (hrun : PoolRun growth (.new emptyStatus) reported state) :
    Accounted reported state := by
  induction hrun with
  | start => exact ⟨.refl _, fun _ _ hmem => absurd hmem List.not_mem_nil⟩
  | step _ hstep ih => exact (PoolState.perform_effect hstep).accounted ih

theorem PoolRun.step_of_eq {start state next : PoolState σ} {reported : List (Operation × Option σ)}
    (hrun : PoolRun growth start reported state) (call : PoolCall σ) {reply : PoolReply σ}
    (hstep : state.perform growth call = some (next, reply)) :
    PoolRun growth start (reported ++ reports state.pool.requests call reply) next :=
  .step hrun hstep

def doubling : VectorGrowth := ⟨fun capacity => 2 * capacity + 1, fun _ => by omega⟩

/-- Two operations: the second one is waited for first. -/
theorem poolRun_accounted_two :
    ∃ state, Accounted [(1, some 7), (0, some 5)] state ∧ state.pool.requests = [none, none] := by
  have hstart : PoolRun doubling (.new 0) [] (.new 0) := .start
  have hrun := hstart
    |>.step_of_eq .getRequest rfl
    |>.step_of_eq (.start ⟨0, 1⟩) rfl
    |>.step_of_eq .getRequest rfl
    |>.step_of_eq (.start ⟨1, 2⟩) rfl
    |>.step_of_eq (.complete 1 7) rfl
    |>.step_of_eq (.waitAny 1) rfl
    |>.step_of_eq (.complete 0 5) rfl
    |>.step_of_eq (.waitAll (.buffer .resizeToFit [])) rfl
  exact ⟨_, poolRun_accounted hrun, rfl⟩

/-! ## The loop over `wait_any` -/

/-- The slots of active requests. -/
def activeIndices (requests : List MpiRequest) : List ℕ :=
  (List.range requests.length).filter fun index => requests[index]?.join.isSome

/-- A loop that calls `wait_any` until it returns `index_end()`, with the indices that it has
returned, while MPI completes operations. -/
inductive WaitAnyLoop (growth : VectorGrowth) (start : PoolState σ) :
    List ℕ → PoolState σ → Prop
  | start : WaitAnyLoop growth start [] start
  | complete {visited : List ℕ} {state next : PoolState σ} {operation : Operation} {status : σ}
      (hloop : WaitAnyLoop growth start visited state)
      (hstep : state.perform growth (.complete operation status) = some (next, .done)) :
      WaitAnyLoop growth start visited next
  | waitAny {visited : List ℕ} {state next : PoolState σ} {choice index : ℕ} {status : σ}
      (hloop : WaitAnyLoop growth start visited state)
      (hstep : state.perform growth (.waitAny choice) = some (next, .waitedAny index status))
      (hindex : index ≠ state.pool.numRequests) :
      WaitAnyLoop growth start (visited ++ [index]) next

theorem mem_activeIndices {requests : List MpiRequest} {index : ℕ} :
    index ∈ activeIndices requests ↔
      ∃ operation, requests[index]? = some (some operation) := by
  rw [activeIndices, List.mem_filter, List.mem_range, Option.isSome_iff_exists]
  constructor
  · rintro ⟨-, operation, hslot⟩
    exact ⟨operation, Option.join_eq_some_iff.mp hslot⟩
  · rintro ⟨operation, hslot⟩
    exact ⟨(List.getElem?_eq_some_iff.mp hslot).1, operation, Option.join_eq_some_iff.mpr hslot⟩

theorem nodup_activeIndices (requests : List MpiRequest) : (activeIndices requests).Nodup :=
  List.nodup_range.filter _

theorem activeIndices_eq_nil_iff {requests : List MpiRequest} :
    activeIndices requests = [] ↔ requests.reduceOption = [] := by
  rw [List.eq_nil_iff_forall_not_mem, List.eq_nil_iff_forall_not_mem]
  constructor
  · intro hnone operation hmem
    obtain ⟨index, hslot⟩ := List.mem_iff_getElem?.mp (List.reduceOption_mem_iff.mp hmem)
    exact hnone index (mem_activeIndices.mpr ⟨operation, hslot⟩)
  · intro hnone index hmem
    obtain ⟨operation, hslot⟩ := mem_activeIndices.mp hmem
    exact hnone operation (List.reduceOption_mem_iff.mpr (List.mem_of_getElem? hslot))

/-- Finishing a request removes its slot from the active ones. -/
theorem activeIndices_set_none {requests : List MpiRequest} {index : ℕ} {operation : Operation}
    (hslot : requests[index]? = some (some operation)) :
    (index :: activeIndices (requests.set index none)).Perm (activeIndices requests) := by
  have hindex := (List.getElem?_eq_some_iff.mp hslot).1
  have hothers : ∀ other, other ∈ activeIndices (requests.set index none) ↔
      other ≠ index ∧ other ∈ activeIndices requests := by
    intro other
    rw [mem_activeIndices, mem_activeIndices]
    obtain rfl | hne := eq_or_ne other index
    · rw [List.getElem?_set_self hindex]
      simp
    · rw [List.getElem?_set_ne hne.symm]
      simp [hne]
  refine (List.perm_ext_iff_of_nodup ?_ (nodup_activeIndices requests)).mpr fun other => ?_
  · exact List.nodup_cons.mpr ⟨fun hmem => ((hothers index).mp hmem).1 rfl,
      nodup_activeIndices _⟩
  · rw [List.mem_cons, hothers]
    obtain rfl | hne := eq_or_ne other index
    · exact iff_of_true (Or.inl rfl) (mem_activeIndices.mpr ⟨operation, hslot⟩)
    · simp [hne]

section Loop

variable {start state next : PoolState σ} {visited : List ℕ}

/-- What `wait_any` returns. -/
theorem waitAny_cases {choice index : ℕ} {status : σ}
    (hstep : state.perform growth (.waitAny choice) = some (next, .waitedAny index status)) :
    activeIndices state.pool.requests = [] ∧ index = state.pool.numRequests ∧ next = state ∨
      ∃ operation, state.pool.requests[index]? = some (some operation) ∧
        state.mpi.status operation = some status ∧
        next = { state with pool := state.pool.set index none } := by
  simp only [PoolState.perform, PoolState.waitAny] at hstep
  split at hstep
  next =>
    obtain ⟨outcome, hany, heq⟩ := Option.map_eq_some_iff.mp hstep
    obtain ⟨rfl, hreply⟩ := Prod.mk.inj heq
    obtain ⟨rfl, rfl⟩ := PoolReply.waitedAny.inj hreply
    rcases PoolState.readyAny_cases hany with
      ⟨hnone, rfl⟩ | ⟨operation, status, hslot, hstatus, rfl⟩
    · exact Or.inl ⟨activeIndices_eq_nil_iff.mpr hnone, rfl, rfl⟩
    · exact Or.inr ⟨operation, hslot, hstatus, rfl⟩
  next => cases hstep

theorem requests_of_complete {operation : Operation} {status : σ} {reply : PoolReply σ}
    (hstep : state.perform growth (.complete operation status) = some (next, reply)) :
    next.pool = state.pool := by
  simp only [PoolState.perform] at hstep
  rw [Option.ite_none_right_eq_some] at hstep
  obtain ⟨rfl, -⟩ := Prod.mk.inj (Option.some.inj hstep.2)
  rfl

theorem WaitAnyLoop.visited_perm (hloop : WaitAnyLoop growth start visited state) :
    (visited ++ activeIndices state.pool.requests).Perm (activeIndices start.pool.requests) := by
  induction hloop with
  | start => exact .refl _
  | complete _ hstep ih =>
      rw [requests_of_complete hstep]
      exact ih
  | waitAny _ hstep hindex ih =>
      rcases waitAny_cases hstep with ⟨-, hend, -⟩ | ⟨operation, hslot, -, rfl⟩
      · exact absurd hend hindex
      · rw [List.append_assoc]
        exact ((activeIndices_set_none hslot).append_left _).trans ih

/-- `wait_any` can return as soon as some active request is complete, or none is active. -/
theorem exists_waitAny (hsize : state.pool.numRequests < 2 ^ 31)
    (hready : state.pool.requests.reduceOption = [] ∨
      ∃ operation ∈ state.pool.requests.reduceOption, (state.mpi.status operation).isSome) :
    ∃ choice next index status,
      state.perform growth (.waitAny choice) = some (next, .waitedAny index status) := by
  have houtcome : ∃ choice outcome,
      state.mpi.readyAny state.pool.requests choice = some outcome := by
    by_cases hnone : state.pool.requests.reduceOption = []
    · exact ⟨0, _, if_pos hnone⟩
    · obtain ⟨operation, hmem, hsome⟩ := hready.resolve_left hnone
      obtain ⟨choice, hslot⟩ := List.mem_iff_getElem?.mp (List.reduceOption_mem_iff.mp hmem)
      obtain ⟨status, hstatus⟩ := Option.isSome_iff_exists.mp hsome
      refine ⟨choice, (some choice, status), ?_⟩
      rw [MpiOperations.readyAny, if_neg hnone, hslot]
      simp only [hstatus, Option.map_some]
  obtain ⟨choice, outcome, houtcome⟩ := houtcome
  refine ⟨choice, (state.finishAny outcome).2, (state.finishAny outcome).1.1,
    (state.finishAny outcome).1.2, ?_⟩
  simp only [PoolState.perform, PoolState.waitAny, if_pos hsize, houtcome, Option.map_some]

/-- A loop over `wait_any` returns the index of every active request exactly once before it
returns `index_end()`, and it is never stuck while some active request is complete. -/
theorem waitAnyLoop_visits (hloop : WaitAnyLoop growth start visited state) :
    visited.Nodup ∧ (∀ index ∈ visited, index ∈ activeIndices start.pool.requests) ∧
      (∀ choice next status,
        state.perform growth (.waitAny choice) =
            some (next, .waitedAny state.pool.numRequests status) →
          visited.Perm (activeIndices start.pool.requests)) ∧
      (state.pool.numRequests < 2 ^ 31 →
        (state.pool.requests.reduceOption = [] ∨
          ∃ operation ∈ state.pool.requests.reduceOption,
            (state.mpi.status operation).isSome) →
        ∃ choice next index status,
          state.perform growth (.waitAny choice) = some (next, .waitedAny index status)) := by
  have hperm := hloop.visited_perm
  have hnodup := hperm.nodup_iff.mpr (nodup_activeIndices _)
  refine ⟨hnodup.of_append_left, fun index hindex => ?_, fun choice next status hstep => ?_,
    exists_waitAny⟩
  · exact hperm.mem_iff.mp (List.mem_append_left _ hindex)
  · rcases waitAny_cases hstep with ⟨hnone, -, -⟩ | ⟨operation, hslot, -, -⟩
    · rwa [hnone, List.append_nil] at hperm
    · exact absurd (List.getElem?_eq_some_iff.mp hslot).1 (lt_irrefl _)

/-- Three slots, of which the first and the last are active. -/
def threeSlots : PoolState ℕ :=
  ⟨⟨[some 0, none, some 1], 3, 1⟩, ⟨2, fun _ => none, 0⟩⟩

theorem waitAnyLoop_visits_threeSlots :
    ∃ state, WaitAnyLoop doubling threeSlots [2, 0] state ∧ [2, 0].Nodup ∧
      [2, 0].Perm (activeIndices threeSlots.pool.requests) := by
  have hfirst : WaitAnyLoop doubling threeSlots [2] _ :=
    .waitAny (.complete .start (show threeSlots.perform doubling (.complete 1 7) = _ from rfl))
      (show PoolState.perform _ _ (.waitAny 2) = some (_, .waitedAny 2 7) from rfl) (by decide)
  have hsecond : WaitAnyLoop doubling threeSlots ([2] ++ [0]) _ :=
    .waitAny (.complete hfirst (show PoolState.perform _ _ (.complete 0 5) = _ from rfl))
      (show PoolState.perform _ _ (.waitAny 0) = some (_, .waitedAny 0 5) from rfl) (by decide)
  obtain ⟨hnodup, -, hend, -⟩ := waitAnyLoop_visits hsecond
  exact ⟨_, hsecond, hnodup, hend 0 _ 0 rfl⟩

end Loop

end MpiBindings.Requests
