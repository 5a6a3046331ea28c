import MpiBindings.Core.CollectiveProgram
import MpiBindings.Core.RoseTree
import MpiBindings.Measurements.TimerTree
import Mathlib.Algebra.Group.Defs

/-!
# Aggregation of timer trees

The timer gathers the durations of all ranks node by node at the root rank and
stores the aggregated values in a tree of their own.  Every rank traverses its
timer tree and takes part in one gather for each node.
-/

namespace MpiBindings.Measurements

variable {D : Type}

/-! ## Trees -/

/-- What the aggregation reads from a node of a timer tree. -/
structure TimerLabel (D : Type) where
  name : String
  durations : List D
  durationAggregationOperations : List GlobalAggregationMode

inductive ScalarOrContainer (D : Type)
  | scalar (value : D)
  | container (values : List D)
deriving DecidableEq

structure AggregatedLabel (D : Type) where
  name : String
  aggregatedData : GlobalAggregationMode → List (ScalarOrContainer D)

def AggregatedLabel.construct (name : String) : AggregatedLabel D :=
  ⟨name, fun _ => []⟩

/-- Append an entry to the data of a mode. -/
def AggregatedLabel.add (label : AggregatedLabel D) (mode : GlobalAggregationMode)
    (entry : ScalarOrContainer D) : AggregatedLabel D :=
  { label with
    aggregatedData := Function.update label.aggregatedData mode
      (label.aggregatedData mode ++ [entry]) }

/-- Append a scalar unless it is empty. -/
def AggregatedLabel.addOptional (label : AggregatedLabel D) (mode : GlobalAggregationMode) :
    Option D → AggregatedLabel D
  | none => label
  | some value => label.add mode (.scalar value)

abbrev AggregatedTreeNode (D : Type) := RoseTree (AggregatedLabel D)

/-- The child with the given name, or a new one. -/
def findOrNewChild (children : List (AggregatedTreeNode D)) (name : String) :
    AggregatedTreeNode D :=
  match children.find? fun child => child.label.name = name with
  | some child => child
  | none => .node (.construct name) []

/-- Store a child in the place of the one with its name, or as the last one. -/
def storeChild (children : List (AggregatedTreeNode D)) (child : AggregatedTreeNode D) :
    List (AggregatedTreeNode D) :=
  if children.any fun other => other.label.name = child.label.name then
    children.map fun other => if other.label.name = child.label.name then child else other
  else children ++ [child]

/-! ## Operations -/

section Operations

variable [LT D] [DecidableLT D] [Add D] [Zero D]

/-- `std::max_element`: the first of the greatest elements. -/
def maxElement : List D → Option D
  | [] => none
  | first :: rest =>
      some (rest.foldl (fun best value => if best < value then value else best) first)

/-- `std::min_element`: the first of the smallest elements. -/
def minElement : List D → Option D
  | [] => none
  | first :: rest =>
      some (rest.foldl (fun best value => if value < best then value else best) first)

/-- `std::accumulate` of a range that is not empty. -/
def sumElements : List D → Option D
  | [] => none
  | first :: rest => some ((first :: rest).foldl (· + ·) 0)

/-- Store the aggregation of the durations of all ranks. -/
def aggregateMeasurementsGlobally (mode : GlobalAggregationMode) (gatheredData : List D)
    (evaluationNode : AggregatedLabel D) : AggregatedLabel D :=
  match mode with
  | .max => evaluationNode.addOptional mode (maxElement gatheredData)
  | .min => evaluationNode.addOptional mode (minElement gatheredData)
  | .sum => evaluationNode.addOptional mode (sumElements gatheredData)
  | .gather => evaluationNode.add mode (.container gatheredData)

/-- Aggregate the measurement with the given index by all modes. -/
def aggregateDuration (modes : List GlobalAggregationMode) (commSize numDurations : ℕ)
    (recvBuf : List D) (durationIdx : ℕ) (evaluationNode : AggregatedLabel D) :
    Option (AggregatedLabel D) :=
  ((List.range commSize).mapM fun rank => recvBuf[durationIdx + rank * numDurations]?).map
    fun curDurations => modes.foldl (fun label mode =>
      aggregateMeasurementsGlobally mode curDurations label) evaluationNode

/-- The loop over all measurements; only the root aggregates. -/
def aggregateDurations (isRoot : Bool) (commSize : ℕ) (node : TimerLabel D) (recvBuf : List D)
    (evaluationNode : AggregatedLabel D) : Option (AggregatedLabel D) :=
  (List.range node.durations.length).foldlM
    (fun label durationIdx =>
      if isRoot then
        aggregateDuration node.durationAggregationOperations commSize node.durations.length
          recvBuf durationIdx label
      else some label)
    evaluationNode

end Operations

/-! ## Traversal -/

/-- Collective operations of the aggregation: the check that all ranks are at the
same node, and the gather of the durations. -/
inductive Request (D : Type)
  | sameOnAllRanks (name : String) (numDurations : ℕ)
  | gatherv (sendBuf : List D)

def Request.node : Request D → Option (String × ℕ)
  | .sameOnAllRanks name numDurations => some (name, numDurations)
  | .gatherv _ => none

def Request.sendBuf : Request D → Option (List D)
  | .sameOnAllRanks _ _ => none
  | .gatherv sendBuf => some sendBuf

open Collectives in
/-- Responses to one operation; a gather fills the receive buffer of the root. -/
def exchange {p : ℕ} (root : Fin p) (requests : Fin p → Request D) :
    Option (Fin p → List D) :=
  match allRanks fun rank => (requests rank).node with
  | some nodes => if ∀ rank, nodes rank = nodes root then some fun _ => [] else none
  | none =>
      match allRanks fun rank => (requests rank).sendBuf with
      | some sendBuf =>
          some fun rank => if rank = root then (List.finRange p).flatMap sendBuf else []
      | none => none

abbrev AggregationProgram (D α : Type) := CollectiveProgram (Request D) (List D) α

section Traversal

variable [LT D] [DecidableLT D] [Add D] [Zero D] (isRoot : Bool) (commSize : ℕ)

mutual

/-- Aggregate the subtree of a node into the given node of the evaluation tree. -/
def aggregateNode (evaluationNode : AggregatedTreeNode D) :
    RoseTree (TimerLabel D) → AggregationProgram D (AggregatedTreeNode D)
  | .node timerNode children =>
      .call (.sameOnAllRanks timerNode.name timerNode.durations.length) fun _ =>
        .call (.gatherv timerNode.durations) fun recvBuf =>
          match aggregateDurations isRoot commSize timerNode recvBuf evaluationNode.label with
          | none => .fail
          | some label =>
              (aggregateChildren evaluationNode.children children).bind fun evaluated =>
                .done (.node label evaluated)

/-- The loop over the children of a node. -/
def aggregateChildren (evaluated : List (AggregatedTreeNode D)) :
    List (RoseTree (TimerLabel D)) → AggregationProgram D (List (AggregatedTreeNode D))
  | [] => .done evaluated
  | timerTreeChild :: children =>
      (aggregateNode (findOrNewChild evaluated timerTreeChild.label.name) timerTreeChild).bind
        fun evaluationTreeChild =>
          aggregateChildren (storeChild evaluated evaluationTreeChild) children

end

end Traversal

end MpiBindings.Measurements
