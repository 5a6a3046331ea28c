import MpiBindings.Measurements.TimerLog
import MpiBindings.Measurements.TimerPaths

/-!
# Timer trees refine timer logs

Labelled with the paths of its nodes, the records of a timer tree are those of the
log of the calls.  The timer checks its assertions, so a stop without an open
measurement has no effect.
-/

namespace MpiBindings.Measurements

open TimerTree

variable {D : Type}

/-! ## Records of the nodes -/

/-- The records of the nodes are those of the log. -/
structure Records [Add D] (tree : TimerTree D) (log : TimerLog D) (pathOf : ℕ → List String) :
    Prop where
  active : ∀ id < tree.allocated,
    (tree.node id).isActive = true ↔ pathOf id ≠ [] ∧ pathOf id <+: log.currentPath
  startpoint : ∀ id < tree.allocated, ∀ front key time, front ++ [(key, time)] <+: log.opened →
    pathOf id = front.map (·.1) ++ [key] → (tree.node id).startpoint = time
  completed : ∀ measurement ∈ log.completed, measurement.path ∈ log.started
  durations : ∀ id < tree.allocated, (tree.node id).durations = log.durations (pathOf id)
  modes : ∀ id < tree.allocated,
    (tree.node id).durationAggregationOperations = log.modes (pathOf id)

/-- A tree represents a log under the given labelling, and its cursor points to the given
node. -/
structure Invariant [Add D] (tree : TimerTree D) (log : TimerLog D)
    (pathOf : ℕ → List String) (current : ℕ) : Prop where
  shape : Shape tree log.started pathOf
  records : Records tree log pathOf
  currentNode : tree.currentNode = some current
  current_lt : current < tree.allocated
  pathOf_current : pathOf current = log.currentPath

section Records

variable {tree : TimerTree D} {log : TimerLog D} {pathOf : ℕ → List String} {current : ℕ}
variable {key : String}

theorem measurements_eq_nil {path : List String}
    (hcompleted : ∀ measurement ∈ log.completed, measurement.path ∈ log.started)
    (hpath : path ∉ log.started) : log.measurements path = [] := by
  rw [TimerLog.measurements, List.filter_eq_nil_iff]
  intro measurement hmem hsame
  exact hpath (by simpa using (of_decide_eq_true hsame) ▸ hcompleted measurement hmem)

variable [Inhabited D] [Add D]

theorem invariant_fromRoot :
    Invariant (fromRoot : TimerTree D) TimerLog.empty (fun _ => []) root where
  shape := shape_fromRoot
  records :=
    { active := fun _ _ => by simp [fromRoot, TimerTreeNode.construct]
      startpoint := fun _ _ front key time hopened => by
        simp [TimerLog.empty] at hopened
      completed := fun measurement hmem => absurd hmem List.not_mem_nil
      durations := fun _ _ => rfl
      modes := fun _ _ => rfl }
  currentNode := rfl
  current_lt := Nat.zero_lt_one
  pathOf_current := rfl

omit [Inhabited D] in
theorem Invariant.setRootParent (h : Invariant tree log pathOf current) (parent : Option ℕ) :
    Invariant (tree.update root fun node => { node with parentPtr := parent }) log pathOf
      current where
  shape := h.shape.setRootParent parent
  records := by
    have hnode : ∀ id,
        ((tree.update root fun node => { node with parentPtr := parent }).node id) =
          { tree.node id with
            parentPtr := if id = root then parent else (tree.node id).parentPtr } := by
      intro id
      obtain rfl | hne := eq_or_ne id root
      · simp [TimerTree.update]
      · simp [TimerTree.update, hne]
    refine
      { active := fun id hid => ?_
        startpoint := fun id hid front key time hopened hpath => ?_
        completed := h.records.completed
        durations := fun id hid => ?_
        modes := fun id hid => ?_ }
    · rw [hnode]
      exact h.records.active id hid
    · rw [hnode]
      exact h.records.startpoint id hid front key time hopened hpath
    · rw [hnode]
      exact h.records.durations id hid
    · rw [hnode]
      exact h.records.modes id hid
  currentNode := h.currentNode
  current_lt := h.current_lt
  pathOf_current := h.pathOf_current

/-- A new timer differs from a cleared one in the parent of the root. -/
theorem invariant_construct :
    Invariant (construct : TimerTree D) TimerLog.empty (fun _ => []) root :=
  invariant_fromRoot.setRootParent (some root)

/-- The log after the path of a new measurement was entered. -/
def TimerLog.enter (log : TimerLog D) (key : String) : TimerLog D :=
  { log with started := log.started ++ [log.currentPath ++ [key]] }

/-- A new child has no records yet. -/
theorem Records.insertChild (hshape : Shape tree log.started pathOf)
    (h : Records tree log pathOf) (hcurrent : current < tree.allocated)
    (hpathCurrent : pathOf current = log.currentPath)
    (hmissing : (tree.node current).childrenMap key = none) :
    Records (tree.insertChild current key) (log.enter key)
      (extendPaths tree pathOf (log.currentPath ++ [key])) := by
  have hnew := extendPaths_allocated tree pathOf (log.currentPath ++ [key])
  have hkept : ∀ id < tree.allocated,
      ((tree.insertChild current key).node id).isActive = (tree.node id).isActive ∧
      ((tree.insertChild current key).node id).startpoint = (tree.node id).startpoint ∧
      ((tree.insertChild current key).node id).durations = (tree.node id).durations ∧
      ((tree.insertChild current key).node id).durationAggregationOperations =
        (tree.node id).durationAggregationOperations := by
    intro id hid
    obtain rfl | hne := eq_or_ne id current
    · rw [insertChild_node_this hid]
      exact ⟨rfl, rfl, rfl, rfl⟩
    · rw [insertChild_node_of_ne hid hne]
      exact ⟨rfl, rfl, rfl, rfl⟩
  have hnotStarted := hshape.notMem_started hcurrent hmissing
  rw [hpathCurrent] at hnotStarted
  have hnone := measurements_eq_nil h.completed hnotStarted
  refine ⟨?_, ?_, ?_, ?_, ?_⟩
  · intro id hid
    obtain hid | rfl := Nat.lt_succ_iff_lt_or_eq.mp hid
    · rw [(hkept id hid).1, extendPaths_of_lt hid]
      exact h.active id hid
    · rw [insertChild_node_new, hnew]
      have hlonger : ¬ log.currentPath ++ [key] <+: log.currentPath := fun hfront => by
        have hle := hfront.length_le
        rw [List.length_append, List.length_singleton] at hle
        omega
      exact ⟨fun hactive => absurd hactive Bool.false_ne_true,
        fun hactive => absurd hactive.2 hlonger⟩
  · intro id hid front other time hopened hpath
    obtain hid | rfl := Nat.lt_succ_iff_lt_or_eq.mp hid
    · rw [extendPaths_of_lt hid] at hpath
      rw [(hkept id hid).2.1]
      exact h.startpoint id hid front other time hopened hpath
    · rw [hnew] at hpath
      have hlength := congrArg List.length hpath
      have hle := hopened.length_le
      simp [TimerLog.currentPath, TimerLog.enter] at hlength hle
      omega
  · intro measurement hmem
    exact List.mem_append_left _ (h.completed measurement hmem)
  · intro id hid
    obtain hid | rfl := Nat.lt_succ_iff_lt_or_eq.mp hid
    · rw [(hkept id hid).2.2.1, extendPaths_of_lt hid]
      exact h.durations id hid
    · rw [insertChild_node_new, hnew]
      exact (congrArg recordedDurations hnone).symm
  · intro id hid
    obtain hid | rfl := Nat.lt_succ_iff_lt_or_eq.mp hid
    · rw [(hkept id hid).2.2.2, extendPaths_of_lt hid]
      exact h.modes id hid
    · rw [insertChild_node_new, hnew, TimerLog.modes]
      have hnone' : (log.enter key).measurements (log.currentPath ++ [key]) = [] := hnone
      rw [hnone']
      rfl

/-- The node that a start finds or inserts. -/
theorem Invariant.findOrInsert (h : Invariant tree log pathOf current) (key : String) :
    ∃ pathOf', Shape (tree.findOrInsert current key).2 (log.enter key).started pathOf' ∧
      Records (tree.findOrInsert current key).2 (log.enter key) pathOf' ∧
      (tree.findOrInsert current key).1 < (tree.findOrInsert current key).2.allocated ∧
      pathOf' (tree.findOrInsert current key).1 = log.currentPath ++ [key] := by
  have hpathCurrent := h.pathOf_current
  rw [TimerTree.findOrInsert]
  cases hchild : (tree.node current).childrenMap key with
  | some child =>
      obtain ⟨hlt, hpath⟩ := (h.shape.childrenMap _ h.current_lt key child).mp hchild
      rw [hpathCurrent] at hpath
      have hstarted : log.currentPath ++ [key] ∈ log.started :=
        (h.shape.mem_started _).mpr ⟨by simp, child, hlt, hpath⟩
      exact ⟨pathOf, h.shape.restart _ hstarted,
        { h.records with
          completed := fun measurement hmem =>
            List.mem_append_left _ (h.records.completed measurement hmem) }, hlt, hpath⟩
  | none =>
      have hshape := h.shape.insertChild h.current_lt hchild
      rw [hpathCurrent] at hshape
      exact ⟨_, hshape, h.records.insertChild h.shape h.current_lt hpathCurrent hchild,
        Nat.lt_succ_self _, extendPaths_allocated ..⟩

/-! ### Calls -/

theorem Invariant.startImpl (h : Invariant tree log pathOf current) (key : String) (time : D) :
    ∃ pathOf' child,
      Invariant (tree.startImpl current key time) (log.start key time) pathOf' child := by
  obtain ⟨pathOf', hshape, hrecords, hchild, hpath⟩ := h.findOrInsert key
  rw [startImpl_eq]
  generalize tree.findOrInsert current key = found at hshape hrecords hchild hpath ⊢
  obtain ⟨child, next⟩ := found
  have hcurrentPath : (log.start key time).currentPath = log.currentPath ++ [key] := by
    simp [TimerLog.currentPath, TimerLog.start]
  have hne : ∀ id < next.allocated, id ≠ child → pathOf' id ≠ log.currentPath ++ [key] :=
    fun id hid hother hsame => hother (hshape.injective id hid child hchild
      (hsame.trans hpath.symm))
  refine ⟨pathOf', child, hshape.moveTo (sameLinks_started _ time) _,
    ⟨?_, ?_, hrecords.completed, ?_, ?_⟩, rfl, hchild, hpath.trans hcurrentPath.symm⟩
  · intro id hid
    rw [hcurrentPath, List.prefix_concat_iff]
    obtain rfl | hother := eq_or_ne id child
    · simp [hpath, startedNode]
    · simp only [moveTo_node, Function.update_of_ne hother, hne id hid hother, false_or]
      exact hrecords.active id hid
  · intro id hid front other start hopened hpathId
    simp only [TimerLog.start, List.prefix_concat_iff] at hopened
    obtain hopened | hopened := hopened
    · obtain ⟨rfl, hlast⟩ := List.append_inj' hopened rfl
      obtain ⟨rfl, rfl⟩ : other = key ∧ start = time := by simpa using hlast
      obtain rfl | hother := eq_or_ne id child
      · simp [startedNode]
      · exact absurd hpathId (hne id hid hother)
    · have hother : id ≠ child := by
        rintro rfl
        have hlength := congrArg List.length (hpath.symm.trans hpathId)
        have hle := hopened.length_le
        simp [TimerLog.currentPath] at hlength hle
        omega
      simp only [moveTo_node, Function.update_of_ne hother]
      exact hrecords.startpoint id hid front other start hopened hpathId
  · intro id hid
    obtain rfl | hother := eq_or_ne id child
    · simp only [moveTo_node, Function.update_self]
      exact hrecords.durations id hid
    · simp only [moveTo_node, Function.update_of_ne hother]
      exact hrecords.durations id hid
  · intro id hid
    obtain rfl | hother := eq_or_ne id child
    · simp only [moveTo_node, Function.update_self]
      exact hrecords.modes id hid
    · simp only [moveTo_node, Function.update_of_ne hother]
      exact hrecords.modes id hid

omit [Inhabited D] in
/-- A measurement is open exactly if the current node is active. -/
theorem Invariant.active_current (h : Invariant tree log pathOf current) :
    (tree.node current).isActive = true ↔ log.opened ≠ [] := by
  rw [h.records.active _ h.current_lt, h.pathOf_current, and_iff_left List.prefix_rfl,
    TimerLog.currentPath]
  exact not_congr List.map_eq_nil_iff

variable [Sub D]

omit [Add D] [Inhabited D] in
theorem TimerLog.stop_of_opened {front : List (String × D)} {key : String} {start : D}
    (hopened : log.opened = front ++ [(key, start)]) (localMode : LocalAggregationMode)
    (globalModes : List GlobalAggregationMode) (endpoint : D) :
    log.stop localMode globalModes endpoint =
      { log with
        opened := front
        completed := log.completed ++
          [⟨log.currentPath, endpoint - start, localMode, globalModes⟩] } := by
  rw [TimerLog.stop, hopened, List.getLast?_concat, List.dropLast_concat]

omit [Add D] [Inhabited D] in
theorem TimerLog.measurements_stop_of_opened {front : List (String × D)} {key : String}
    {start : D} (hopened : log.opened = front ++ [(key, start)])
    (localMode : LocalAggregationMode) (globalModes : List GlobalAggregationMode) (endpoint : D)
    (path : List String) :
    (log.stop localMode globalModes endpoint).measurements path = log.measurements path ++
      if log.currentPath = path then
        [⟨log.currentPath, endpoint - start, localMode, globalModes⟩] else [] := by
  rw [TimerLog.stop_of_opened hopened, TimerLog.measurements, TimerLog.measurements,
    List.filter_append]
  congr 1
  split_ifs with hsame <;> simp [hsame]

omit [Inhabited D] in
/-- The cursor goes back to the parent of the node that was stopped. -/
theorem Invariant.stop_of_opened (h : Invariant tree log pathOf current)
    {front : List (String × D)} {key : String} {start : D}
    (hopened : log.opened = front ++ [(key, start)]) (localMode : LocalAggregationMode)
    (globalModes : List GlobalAggregationMode) (endpoint : D) :
    ∃ parent,
      Invariant
        (tree.moveTo current (stoppedNode (tree.node current) localMode globalModes endpoint)
          (tree.node current).parentPtr)
        (log.stop localMode globalModes endpoint) pathOf parent := by
  have hcurrent := h.current_lt
  have hpath := h.pathOf_current
  have hcurrentPath : log.currentPath = front.map (·.1) ++ [key] := by
    rw [TimerLog.currentPath, hopened, List.map_append, List.map_singleton]
  have hstart : (tree.node current).startpoint = start :=
    h.records.startpoint _ hcurrent front key start (hopened ▸ List.prefix_rfl)
      (hpath.trans hcurrentPath)
  have hne : ∀ id < tree.allocated, id ≠ current → log.currentPath ≠ pathOf id :=
    fun id hid hother hsame => hother (h.shape.injective id hid _ hcurrent
      (hpath.trans hsame).symm)
  have hmeasurements :=
    TimerLog.measurements_stop_of_opened hopened localMode globalModes endpoint
  have hstop := TimerLog.stop_of_opened hopened localMode globalModes endpoint
  have hpathStop : (log.stop localMode globalModes endpoint).currentPath =
      front.map (·.1) := by
    rw [hstop]
    rfl
  obtain ⟨parent, hparent, hptr, hpathParent⟩ :=
    h.shape.parent current hcurrent (by simp [hpath, hcurrentPath])
  refine ⟨parent, ?_, ⟨?_, ?_, ?_, ?_, ?_⟩, hptr, hparent, ?_⟩
  · rw [hstop]
    exact h.shape.moveTo (sameLinks_stopped _ _ _ _) _
  · intro id hid
    rw [hpathStop]
    obtain rfl | hother := eq_or_ne id current
    · simp only [moveTo_node, Function.update_self, stoppedNode, Bool.false_eq_true, false_iff]
      rintro ⟨-, hfront⟩
      have hle := hfront.length_le
      rw [hpath, hcurrentPath, List.length_append, List.length_singleton] at hle
      omega
    · simp only [moveTo_node, Function.update_of_ne hother]
      rw [h.records.active id hid, hcurrentPath, List.prefix_concat_iff, ← hcurrentPath]
      have hdifferent : pathOf id ≠ log.currentPath := (hne id hid hother).symm
      simp only [hdifferent, false_or]
  · intro id hid before other time hfront hpathId
    rw [hstop] at hfront
    have hkept : (Function.update tree.node current
        (stoppedNode (tree.node current) localMode globalModes endpoint) id).startpoint =
          (tree.node id).startpoint := by
      obtain rfl | hother := eq_or_ne id current
      · rw [Function.update_self]
        rfl
      · rw [Function.update_of_ne hother]
    refine hkept.trans (h.records.startpoint id hid before other time ?_ hpathId)
    rw [hopened]
    exact hfront.trans (List.prefix_append _ _)
  · intro measurement hmem
    rw [hstop] at hmem ⊢
    obtain hmem | hmem := List.mem_append.mp hmem
    · exact h.records.completed measurement hmem
    · rw [List.mem_singleton.mp hmem]
      exact (h.shape.mem_started _).mpr ⟨by simp [hcurrentPath], _, hcurrent, hpath⟩
  · intro id hid
    rw [TimerLog.durations, hmeasurements]
    obtain rfl | hother := eq_or_ne id current
    · rw [if_pos hpath.symm, recordedDurations_concat]
      simp only [moveTo_node, Function.update_self, stoppedNode, hstart]
      rw [h.records.durations _ hid, TimerLog.durations]
    · rw [if_neg (hne id hid hother), List.append_nil]
      simp only [moveTo_node, Function.update_of_ne hother]
      exact h.records.durations id hid
  · intro id hid
    rw [TimerLog.modes, hmeasurements, List.map_append, List.filter_append]
    obtain rfl | hother := eq_or_ne id current
    · simp only [moveTo_node, Function.update_self, stoppedNode, if_pos hpath.symm,
        List.map_singleton]
      cases globalModes with
      | nil => simpa [TimerLog.modes] using h.records.modes _ hid
      | cons mode globalModes => simp
    · simp only [moveTo_node, Function.update_of_ne hother, if_neg (hne id hid hother),
        List.map_nil, List.filter_nil, List.append_nil]
      exact h.records.modes id hid
  · rw [hpathStop, hpathParent, hpath, hcurrentPath, List.dropLast_concat]

omit [Inhabited D] in
/-- A stop fails exactly if no measurement is open. -/
theorem Invariant.stopImpl_effect (h : Invariant tree log pathOf current)
    (localMode : LocalAggregationMode) (globalModes : List GlobalAggregationMode)
    (endpoint : D) :
    (log.opened = [] → tree.stopImpl true current localMode globalModes endpoint =
      (.assertionFailed, tree)) ∧
      (log.opened ≠ [] →
        (tree.stopImpl true current localMode globalModes endpoint).1 = .returned) := by
  rw [stopImpl_eq]
  constructor
  · intro hopened
    have hinactive : (tree.node current).isActive = false :=
      Bool.eq_false_iff.mpr fun hactive => h.active_current.mp hactive hopened
    rw [hinactive]
    rfl
  · intro hopened
    rw [h.active_current.mpr hopened]
    rfl

omit [Inhabited D] in
theorem Invariant.stopImpl (h : Invariant tree log pathOf current)
    (localMode : LocalAggregationMode) (globalModes : List GlobalAggregationMode)
    (endpoint : D) :
    ∃ next, Invariant (tree.stopImpl true current localMode globalModes endpoint).2
      (log.stop localMode globalModes endpoint) pathOf next := by
  obtain hopened | ⟨front, ⟨key, start⟩, hopened⟩ := List.eq_nil_or_concat log.opened
  · rw [(h.stopImpl_effect localMode globalModes endpoint).1 hopened, TimerLog.stop, hopened,
      List.getLast?_nil]
    exact ⟨current, h⟩
  · rw [List.concat_eq_append] at hopened
    have hactive : (tree.node current).isActive = true :=
      h.active_current.mpr (by simp [hopened])
    rw [stopImpl_eq, hactive]
    exact h.stop_of_opened hopened localMode globalModes endpoint

/-- A call changes the tree as it changes the log. -/
theorem Invariant.call (h : Invariant tree log pathOf current) (next : TimerCall D) :
    ∃ pathOf' current', Invariant (tree.call true next).2 (log.call next) pathOf' current' := by
  have hat := atCurrent_eq h.currentNode
  cases next with
  | start key time =>
      rw [TimerTree.call, hat]
      exact h.startImpl key time
  | stop modes time | stopAndAdd modes time | stopAndAppend modes time =>
      rw [TimerTree.call, hat]
      exact ⟨pathOf, h.stopImpl _ modes time⟩
  | clear => exact ⟨_, root, invariant_fromRoot⟩

/-- A call fails exactly if it stops a measurement that is not open. -/
theorem Invariant.call_effect (h : Invariant tree log pathOf current) (next : TimerCall D) :
    (log.Fails next → tree.call true next = (.assertionFailed, tree)) ∧
      (¬ log.Fails next → (tree.call true next).1 = .returned) := by
  have hat := atCurrent_eq h.currentNode
  cases next with
  | start key time =>
      rw [TimerTree.call, hat]
      exact ⟨False.elim, fun _ => rfl⟩
  | stop modes time | stopAndAdd modes time | stopAndAppend modes time =>
      rw [TimerTree.call, hat]
      exact h.stopImpl_effect _ modes time
  | clear => exact ⟨False.elim, fun _ => rfl⟩

theorem Invariant.run (h : Invariant tree log pathOf current) (calls : List (TimerCall D)) :
    ∃ pathOf' current', Invariant (tree.run true calls) (log.run calls) pathOf' current' := by
  induction calls generalizing tree log pathOf current with
  | nil => exact ⟨pathOf, current, h⟩
  | cons next calls ih =>
      obtain ⟨pathOf', current', hnext⟩ := h.call next
      exact ih hnext

/-- Trees of one log have the same effects in all later calls. -/
theorem Invariant.effects_eq {other : TimerTree D} {pathOf' : ℕ → List String} {cursor : ℕ}
    (h : Invariant tree log pathOf current) (hother : Invariant other log pathOf' cursor)
    (calls : List (TimerCall D)) : tree.effects true calls = other.effects true calls := by
  induction calls generalizing tree other log pathOf pathOf' current cursor with
  | nil => rfl
  | cons next calls ih =>
      obtain ⟨_, _, hnext⟩ := h.call next
      obtain ⟨_, _, hnext'⟩ := hother.call next
      rw [effects, effects, ih hnext hnext']
      by_cases hfails : log.Fails next
      · rw [(h.call_effect next).1 hfails, (hother.call_effect next).1 hfails]
      · rw [(h.call_effect next).2 hfails, (hother.call_effect next).2 hfails]

end Records

/-! ## Refinement -/

/-- A tree stores exactly what a log says. -/
structure Represents [Add D] (tree : TimerTree D) (log : TimerLog D) : Prop where
  /-- Exactly the paths of started measurements have a node. -/
  nodes : ∀ path, (tree.nodeAt path).isSome ↔ path = [] ∨ path ∈ log.started
  /-- Every node on the heap lies at one path. -/
  unique : ∀ id < tree.allocated, ∃! path, tree.nodeAt path = some id
  parent : ∀ path key id, tree.nodeAt (path ++ [key]) = some id →
    (tree.node id).parentPtr = tree.nodeAt path
  /-- Children are stored in the order of their first starts. -/
  children : ∀ path id, tree.nodeAt path = some id →
    (tree.node id).childrenStorage.map (fun child => (tree.node child).name) =
      childKeys log.started path
  uniqueNames : ∀ path id, tree.nodeAt path = some id →
    ((tree.node id).childrenStorage.map fun child => (tree.node child).name).Nodup
  /-- The lookup by name finds the stored child. -/
  lookup : ∀ path id, tree.nodeAt path = some id → ∀ key,
    (tree.node id).childrenMap key =
      (tree.node id).childrenStorage.find? fun child => (tree.node child).name = key
  durations : ∀ path id, tree.nodeAt path = some id →
    (tree.node id).durations = log.durations path
  modes : ∀ path id, tree.nodeAt path = some id →
    (tree.node id).durationAggregationOperations = log.modes path
  current : tree.currentNode = tree.nodeAt log.currentPath
  active : ∀ path id, tree.nodeAt path = some id →
    ((tree.node id).isActive = true ↔ path ≠ [] ∧ path <+: log.currentPath)

section Refinement

variable {tree : TimerTree D} {log : TimerLog D} {pathOf : ℕ → List String} {current : ℕ}

theorem Invariant.represents [Add D] (h : Invariant tree log pathOf current) :
    Represents tree log where
  nodes path := by
    rw [Option.isSome_iff_exists, h.shape.mem_started]
    simp only [h.shape.nodeAt_eq_some]
    constructor
    · rintro ⟨id, hid, hpath⟩
      exact or_iff_not_imp_left.mpr fun hne => ⟨hne, id, hid, hpath⟩
    · rintro (rfl | ⟨-, id, hid, hpath⟩)
      · exact ⟨root, h.shape.root_lt, h.shape.pathOf_root⟩
      · exact ⟨id, hid, hpath⟩
  unique id hid := by
    refine ⟨pathOf id, h.shape.nodeAt_eq_some.mpr ⟨hid, rfl⟩, fun path hpath => ?_⟩
    exact (h.shape.nodeAt_eq_some.mp hpath).2.symm
  parent path key id hpath := by
    obtain ⟨hid, hpathId⟩ := h.shape.nodeAt_eq_some.mp hpath
    obtain ⟨parent, hparent, hptr, hpathParent⟩ := h.shape.parent id hid (by simp [hpathId])
    rw [hpathId, List.dropLast_concat] at hpathParent
    rw [hptr, h.shape.nodeAt_eq_some.mpr ⟨hparent, hpathParent⟩]
  children path id hpath := by
    obtain ⟨hid, rfl⟩ := h.shape.nodeAt_eq_some.mp hpath
    exact h.shape.map_name hid
  uniqueNames path id hpath := by
    obtain ⟨hid, rfl⟩ := h.shape.nodeAt_eq_some.mp hpath
    rw [h.shape.map_name hid]
    exact nodup_childKeys _ _
  lookup path id hpath := h.shape.lookup (h.shape.nodeAt_eq_some.mp hpath).1
  durations path id hpath := by
    obtain ⟨hid, rfl⟩ := h.shape.nodeAt_eq_some.mp hpath
    exact h.records.durations id hid
  modes path id hpath := by
    obtain ⟨hid, rfl⟩ := h.shape.nodeAt_eq_some.mp hpath
    exact h.records.modes id hid
  current := by
    rw [h.currentNode, h.shape.nodeAt_eq_some.mpr ⟨h.current_lt, h.pathOf_current⟩]
  active path id hpath := by
    obtain ⟨hid, rfl⟩ := h.shape.nodeAt_eq_some.mp hpath
    exact h.records.active id hid

end Refinement

/-! ## Main result -/

section Main

variable [Inhabited D] [Add D] [Sub D]

/-- After any sequence of calls the tree represents the log of the calls.  The next call fails
its assertion, without a change, exactly if it stops a measurement and none is open. -/
theorem timerTree_refines_log (calls : List (TimerCall D)) (next : TimerCall D) :
    let tree := construct.run true calls
    let log := TimerLog.empty.run calls
    Represents tree log ∧
      (log.Fails next → tree.call true next = (.assertionFailed, tree)) ∧
      (¬ log.Fails next → (tree.call true next).1 = .returned) := by
  obtain ⟨pathOf, current, hinvariant⟩ := invariant_construct.run calls
  exact ⟨hinvariant.represents, hinvariant.call_effect next⟩

end Main

end MpiBindings.Measurements
