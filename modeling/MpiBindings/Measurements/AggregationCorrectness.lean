import MpiBindings.Measurements.TimerTraversal
import Mathlib.Algebra.Order.Ring.Int

/-!
# Correctness of the aggregation

Timer trees of one shape on all ranks are one tree whose nodes hold the
durations of all ranks.  The aggregation relabels this tree: at the root rank by
the aggregated durations of the node, elsewhere without data.
-/

namespace MpiBindings.Measurements

open Collectives

variable {p : ℕ} {D : Type}

/-! ## Trees of one shape -/

/-- A node of the timer trees of all ranks. -/
structure RankedLabel (p : ℕ) (D : Type) where
  name : String
  numDurations : ℕ
  durations : Fin p → List D
  length_durations : ∀ rank, (durations rank).length = numDurations
  durationAggregationOperations : List GlobalAggregationMode

namespace RankedLabel

/-- The node on one rank. -/
def onRank (label : RankedLabel p D) (rank : Fin p) : TimerLabel D where
  name := label.name
  durations := label.durations rank
  durationAggregationOperations := label.durationAggregationOperations

/-- The durations of one measurement in the order of the ranks. -/
def durationsAt (label : RankedLabel p D) (durationIdx : Fin label.numDurations) : List D :=
  (List.finRange p).map fun rank =>
    (label.durations rank).get (durationIdx.cast (label.length_durations rank).symm)

theorem durationsAt_ne_nil (root : Fin p) (label : RankedLabel p D)
    (durationIdx : Fin label.numDurations) : label.durationsAt durationIdx ≠ [] :=
  List.ne_nil_of_mem (List.mem_map_of_mem (List.mem_finRange root))

end RankedLabel

/-- The receive buffer of the root holds the durations of a measurement at the
stride of the number of durations. -/
theorem mapM_recvBuf (label : RankedLabel p D) (durationIdx : Fin label.numDurations) :
    ((List.range p).mapM fun rank => ((List.finRange p).flatMap label.durations)[
      (durationIdx : ℕ) + rank * label.numDurations]?) =
        some (label.durationsAt durationIdx) := by
  rw [← List.map_coe_finRange_eq_range, List.mapM_map]
  refine mapM_eq_some_map fun rank _ => ?_
  have hlength : ∀ block ∈ (List.finRange p).map label.durations,
      block.length = label.numDurations := by
    simpa using label.length_durations
  have hblock : ((List.finRange p).map label.durations)[rank.val]? =
      some (label.durations rank) := by
    simp
  rw [Function.comp_apply, List.flatMap_def,
    getElem?_flatten_of_length hlength durationIdx.isLt hblock]
  exact List.getElem?_eq_getElem _

/-! ## Aggregated values -/

section Values

variable [LinearOrder D] [Add D] [Zero D]

/-- What a mode makes of the durations of all ranks: the greatest, the smallest, the sum in
the order of the ranks, or all of them. -/
def GlobalAggregationMode.apply (mode : GlobalAggregationMode) (values : List D)
    (hvalues : values ≠ []) : ScalarOrContainer D :=
  match mode with
  | .max => .scalar (values.max hvalues)
  | .min => .scalar (values.min hvalues)
  | .sum => .scalar (values.foldl (· + ·) 0)
  | .gather => .container values

omit [Add D] [Zero D] in
theorem maxElement_eq {values : List D} (hvalues : values ≠ []) :
    maxElement values = some (values.max hvalues) := by
  obtain ⟨first, rest, rfl⟩ := List.exists_cons_of_ne_nil hvalues
  have hbest : (fun best value : D => if best < value then value else best) = max := by
    funext best value
    split_ifs with hlt
    · exact (max_eq_right hlt.le).symm
    · exact (max_eq_left (not_lt.mp hlt)).symm
  rw [maxElement, hbest]
  rfl

omit [Add D] [Zero D] in
theorem minElement_eq {values : List D} (hvalues : values ≠ []) :
    minElement values = some (values.min hvalues) := by
  obtain ⟨first, rest, rfl⟩ := List.exists_cons_of_ne_nil hvalues
  have hbest : (fun best value : D => if value < best then value else best) = min := by
    funext best value
    split_ifs with hlt
    · exact (min_eq_right hlt.le).symm
    · exact (min_eq_left (not_lt.mp hlt)).symm
  rw [minElement, hbest]
  rfl

omit [LinearOrder D] in
theorem sumElements_eq {values : List D} (hvalues : values ≠ []) :
    sumElements values = some (values.foldl (· + ·) 0) := by
  obtain ⟨first, rest, rfl⟩ := List.exists_cons_of_ne_nil hvalues
  rfl

theorem aggregateMeasurementsGlobally_eq (mode : GlobalAggregationMode) {values : List D}
    (hvalues : values ≠ []) (label : AggregatedLabel D) :
    aggregateMeasurementsGlobally mode values label =
      label.add mode (mode.apply values hvalues) := by
  cases mode with
  | max =>
      rw [aggregateMeasurementsGlobally, maxElement_eq hvalues]
      rfl
  | min =>
      rw [aggregateMeasurementsGlobally, minElement_eq hvalues]
      rfl
  | sum =>
      rw [aggregateMeasurementsGlobally, sumElements_eq hvalues]
      rfl
  | gather => rfl

/-- Entries of one measurement: one for each occurrence of a mode. -/
theorem foldl_aggregateMeasurementsGlobally (modes : List GlobalAggregationMode)
    {values : List D} (hvalues : values ≠ []) (label : AggregatedLabel D) :
    modes.foldl (fun label mode => aggregateMeasurementsGlobally mode values label) label =
      { name := label.name
        aggregatedData := fun mode => label.aggregatedData mode ++
          List.replicate (modes.count mode) (mode.apply values hvalues) } := by
  induction modes generalizing label with
  | nil => simp
  | cons first modes ih =>
      rw [List.foldl_cons, ih, aggregateMeasurementsGlobally_eq first hvalues]
      simp only [AggregatedLabel.add, AggregatedLabel.mk.injEq, true_and]
      funext mode
      obtain rfl | hne := eq_or_ne mode first
      · rw [Function.update_self, List.count_cons_self, List.replicate_succ, List.append_assoc,
          List.singleton_append]
      · rw [Function.update_of_ne hne, List.count_cons_of_ne hne.symm]

/-- Entries of a node: for every measurement, each mode applied to the durations of
all ranks, once for each occurrence of the mode. -/
def RankedLabel.aggregatedData (root : Fin p) (label : RankedLabel p D)
    (mode : GlobalAggregationMode) : List (ScalarOrContainer D) :=
  (List.finRange label.numDurations).flatMap fun durationIdx =>
    List.replicate (label.durationAggregationOperations.count mode)
      (mode.apply (label.durationsAt durationIdx) (label.durationsAt_ne_nil root durationIdx))

/-- The node of the evaluation tree on one rank. -/
def RankedLabel.evaluated (root rank : Fin p) (label : RankedLabel p D) : AggregatedLabel D where
  name := label.name
  aggregatedData := if rank = root then label.aggregatedData root else fun _ => []

theorem aggregateDuration_eq_some (root : Fin p) (label : RankedLabel p D)
    (durationIdx : Fin label.numDurations) (evaluationNode : AggregatedLabel D) :
    aggregateDuration label.durationAggregationOperations p label.numDurations
        ((List.finRange p).flatMap label.durations) durationIdx evaluationNode =
      some
        { name := evaluationNode.name
          aggregatedData := fun mode => evaluationNode.aggregatedData mode ++
            List.replicate (label.durationAggregationOperations.count mode)
              (mode.apply (label.durationsAt durationIdx)
                (label.durationsAt_ne_nil root durationIdx)) } := by
  rw [aggregateDuration, mapM_recvBuf, Option.map_some,
    foldl_aggregateMeasurementsGlobally _ (label.durationsAt_ne_nil root durationIdx)]

/-- The loop over the measurements of a node at the root. -/
theorem foldlM_aggregateDuration (root : Fin p) (label : RankedLabel p D)
    (indices : List (Fin label.numDurations)) (evaluationNode : AggregatedLabel D) :
    indices.foldlM (fun (node : AggregatedLabel D) (durationIdx : Fin label.numDurations) =>
        aggregateDuration label.durationAggregationOperations p label.numDurations
          ((List.finRange p).flatMap label.durations) durationIdx.val node) evaluationNode =
      some
        { name := evaluationNode.name
          aggregatedData := fun mode => evaluationNode.aggregatedData mode ++
            indices.flatMap fun durationIdx =>
              List.replicate (label.durationAggregationOperations.count mode)
                (mode.apply (label.durationsAt durationIdx)
                  (label.durationsAt_ne_nil root durationIdx)) } := by
  induction indices generalizing evaluationNode with
  | nil => simp
  | cons durationIdx indices ih =>
      rw [List.foldlM_cons, aggregateDuration_eq_some root]
      simp only [Option.bind_eq_bind, Option.bind_some, ih, List.flatMap_cons,
        List.append_assoc]

/-- The loop over all measurements on one rank. -/
theorem aggregateDurations_eq_some (root rank : Fin p) (label : RankedLabel p D) :
    aggregateDurations (decide (rank = root)) p (label.onRank rank)
        (if rank = root then (List.finRange p).flatMap label.durations else [])
        (.construct label.name) =
      some (label.evaluated root rank) := by
  have hlength : (label.onRank rank).durations.length = label.numDurations :=
    label.length_durations rank
  rw [aggregateDurations, hlength, ← List.map_coe_finRange_eq_range, List.foldlM_map]
  by_cases hroot : rank = root
  · subst hroot
    rw [decide_eq_true rfl, if_pos rfl]
    refine (foldlM_aggregateDuration rank label (List.finRange _) (.construct label.name)).trans ?_
    simp only [RankedLabel.evaluated, if_true]
    rfl
  · simp only [hroot, decide_false, Bool.false_eq_true, if_false, AggregatedLabel.construct,
      RankedLabel.evaluated]
    induction List.finRange label.numDurations with
    | nil => rfl
    | cons durationIdx indices ih =>
        rw [List.foldlM_cons, Option.bind_eq_bind, Option.bind_some, ih]

end Values

/-! ## Operations of the ranks -/

theorem exchange_sameOnAllRanks (root : Fin p) (name : String) (numDurations : ℕ) :
    exchange root (fun _ => (Request.sameOnAllRanks name numDurations : Request D)) =
      some fun _ => [] := by
  have hnodes : allRanks (fun _ : Fin p =>
      (Request.sameOnAllRanks name numDurations : Request D).node) =
        some fun _ => (name, numDurations) :=
    allRanks_eq_some.mpr fun _ => rfl
  simp [exchange, hnodes]

theorem exchange_gatherv (root : Fin p) (sendBuf : Fin p → List D) :
    exchange root (fun rank => .gatherv (sendBuf rank)) =
      some fun rank => if rank = root then (List.finRange p).flatMap sendBuf else [] := by
  have hnodes : allRanks (fun rank : Fin p => (Request.gatherv (sendBuf rank)).node) = none :=
    allRanks_eq_none root rfl
  have hsendBuf : allRanks (fun rank : Fin p => (Request.gatherv (sendBuf rank)).sendBuf) =
      some sendBuf :=
    allRanks_eq_some.mpr fun _ => rfl
  simp only [exchange, hnodes, hsendBuf]

/-! ## Children of the evaluation tree -/

theorem findOrNewChild_of_new {children : List (AggregatedTreeNode D)} {name : String}
    (hnew : ∀ child ∈ children, child.label.name ≠ name) :
    findOrNewChild children name = .node (.construct name) [] := by
  have hfind : children.find? (fun child => child.label.name = name) = none := by
    simpa using hnew
  rw [findOrNewChild, hfind]

theorem storeChild_of_new {children : List (AggregatedTreeNode D)}
    {child : AggregatedTreeNode D}
    (hnew : ∀ other ∈ children, other.label.name ≠ child.label.name) :
    storeChild children child = children ++ [child] := by
  refine if_neg ?_
  simpa using hnew

/-! ## Traversal -/

section Traversal

variable [LinearOrder D] [Add D] [Zero D] (root : Fin p)

mutual

theorem run_aggregateNode : ∀ tree : RoseTree (RankedLabel p D),
    tree.SiblingsDiffer RankedLabel.name →
      CollectiveProgram.run (exchange root) root (fun rank =>
          aggregateNode (decide (rank = root)) p (.node (.construct tree.label.name) [])
            (tree.map (·.onRank rank))) =
        some fun rank => tree.map (RankedLabel.evaluated root rank)
  | .node label children, hsiblings => by
      obtain ⟨hnames, hchildren⟩ := hsiblings
      have hprogram : ∀ rank, aggregateNode (decide (rank = root)) p
          (.node (.construct label.name) []) (RoseTree.map (·.onRank rank) (.node label children)) =
            .call (.sameOnAllRanks label.name label.numDurations) fun _ =>
              .call (.gatherv (label.durations rank)) fun recvBuf =>
                match aggregateDurations (decide (rank = root)) p (label.onRank rank) recvBuf
                    (.construct label.name) with
                | none => .fail
                | some evaluated =>
                    (aggregateChildren (decide (rank = root)) p []
                      (RoseTree.mapForest (·.onRank rank) children)).bind fun forest =>
                        .done (.node evaluated forest) := by
        intro rank
        rw [← label.length_durations rank]
        rfl
      simp only [RoseTree.label, hprogram]
      rw [CollectiveProgram.run_call (exchange_sameOnAllRanks root _ _),
        CollectiveProgram.run_call (exchange_gatherv root label.durations)]
      simp only [aggregateDurations_eq_some]
      rw [CollectiveProgram.run_bind (run_aggregateChildren children (fun _ => []) hnames hchildren
        (by simp)), CollectiveProgram.run_done]
      rfl

theorem run_aggregateChildren : ∀ (children : List (RoseTree (RankedLabel p D)))
    (evaluated : Fin p → List (AggregatedTreeNode D)),
    (children.map fun child => child.label.name).Nodup →
    RoseTree.ForestSiblingsDiffer RankedLabel.name children →
    (∀ rank, ∀ child ∈ children, ∀ other ∈ evaluated rank,
      other.label.name ≠ child.label.name) →
      CollectiveProgram.run (exchange root) root (fun rank =>
          aggregateChildren (decide (rank = root)) p (evaluated rank)
            (RoseTree.mapForest (·.onRank rank) children)) =
        some fun rank => evaluated rank ++
          RoseTree.mapForest (RankedLabel.evaluated root rank) children
  | [], evaluated, _, _, _ => by
      simp only [RoseTree.mapForest, aggregateChildren, List.append_nil]
      exact CollectiveProgram.run_done _
  | child :: children, evaluated, hnames, ⟨hchild, hchildren⟩, hnew => by
      obtain ⟨hfirst, hnames⟩ := List.nodup_cons.mp hnames
      have hfind : ∀ rank, findOrNewChild (evaluated rank)
          (child.map (RankedLabel.onRank · rank)).label.name =
            .node (.construct child.label.name) [] := by
        intro rank
        rw [RoseTree.label_map]
        exact findOrNewChild_of_new (hnew rank child List.mem_cons_self)
      have hstore : ∀ rank, storeChild (evaluated rank)
          (child.map (RankedLabel.evaluated root rank)) =
            evaluated rank ++ [child.map (RankedLabel.evaluated root rank)] := by
        intro rank
        refine storeChild_of_new ?_
        rw [RoseTree.label_map]
        exact hnew rank child List.mem_cons_self
      simp only [RoseTree.mapForest, aggregateChildren, hfind]
      rw [CollectiveProgram.run_bind (run_aggregateNode child hchild)]
      simp only [hstore]
      rw [run_aggregateChildren children _ hnames hchildren]
      · simp only [List.append_assoc, List.singleton_append]
      · intro rank next hnext other hother
        obtain hother | hother := List.mem_append.mp hother
        · exact hnew rank next (List.mem_cons_of_mem _ hnext) other hother
        · obtain rfl := List.mem_singleton.mp hother
          rw [RoseTree.label_map]
          exact fun hsame => hfirst (List.mem_map.mpr ⟨next, hnext, hsame.symm⟩)

end

end Traversal

end MpiBindings.Measurements
