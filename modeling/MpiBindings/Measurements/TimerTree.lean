import Mathlib.Data.List.Basic
import Mathlib.Logic.Function.Basic

/-!
# Timer trees

The hierarchy of time measurements of one rank.  Nodes live on a heap and refer
to each other by pointers, which may be null: a node owns its children in the
order of their insertion, finds them by name, and points to its parent.  A cursor
points to the node of the innermost open measurement, or to the root.  The
constructor makes the root its own parent; clearing the timer assigns a new root,
which has no parent.
-/

namespace MpiBindings.Measurements

/-- How repeated measurements of a key are stored. -/
inductive LocalAggregationMode
  | accumulate
  | append
deriving DecidableEq

/-- How durations are aggregated over all ranks. -/
inductive GlobalAggregationMode
  | min
  | max
  | sum
  | gather
deriving DecidableEq

/-! ## Nodes -/

/-- Name, parent pointer and children of `TreeNode` and the measurements of
`TimerTreeNode`; a null pointer is `none`. -/
structure TimerTreeNode (D : Type) where
  name : String
  parentPtr : Option ℕ
  childrenMap : String → Option ℕ
  childrenStorage : List ℕ
  startpoint : D
  isActive : Bool
  durations : List D
  durationAggregationOperations : List GlobalAggregationMode

variable {D : Type}

/-- A new node; its start point is not initialized. -/
def TimerTreeNode.construct [Inhabited D] (name : String) (parent : Option ℕ) :
    TimerTreeNode D where
  name
  parentPtr := parent
  childrenMap := fun _ => none
  childrenStorage := []
  startpoint := default
  isActive := false
  durations := []
  durationAggregationOperations := [.max]

/-- Store the duration of a measurement. -/
def aggregateMeasurementsLocally [Add D] (durations : List D) (duration : D) :
    LocalAggregationMode → List D
  | .accumulate =>
      match durations.getLast? with
      | none => [duration]
      | some last => durations.dropLast ++ [last + duration]
  | .append => durations ++ [duration]

/-! ## Trees -/

/-- The nodes on the heap, of which the first is the root, and the cursor. -/
structure TimerTree (D : Type) where
  node : ℕ → TimerTreeNode D
  allocated : ℕ
  currentNode : Option ℕ

/-- What a call does besides changing the tree. -/
inductive Effect
  | returned
  | assertionFailed
  | nullDereferenced
deriving DecidableEq

/-- Calls of the timer with the clock readings that they make. -/
inductive TimerCall (D : Type)
  | start (key : String) (time : D)
  | stop (globalAggregationModes : List GlobalAggregationMode) (time : D)
  | stopAndAdd (globalAggregationModes : List GlobalAggregationMode) (time : D)
  | stopAndAppend (globalAggregationModes : List GlobalAggregationMode) (time : D)
  | clear
deriving DecidableEq

namespace TimerTree

def root : ℕ := 0

def update (tree : TimerTree D) (this : ℕ) (f : TimerTreeNode D → TimerTreeNode D) :
    TimerTree D :=
  { tree with node := Function.update tree.node this (f (tree.node this)) }

section Operations

variable [Inhabited D]

/-- A root that is constructed from its name, and no other node. -/
def fromRoot : TimerTree D where
  node _ := TimerTreeNode.construct "root" none
  allocated := 1
  currentNode := some root

/-- `TimerTree()`. -/
def construct : TimerTree D :=
  fromRoot.update root fun node => { node with parentPtr := some root }

/-- `TimerTree::reset()`: the assignment moves the members of a new root and destroys the
children of the old one, and with them all other nodes. -/
def reset (_ : TimerTree D) : TimerTree D := fromRoot

/-- Allocate a child of a node. -/
def insertChild (tree : TimerTree D) (this : ℕ) (name : String) : TimerTree D :=
  { tree with
    node := Function.update
      (Function.update tree.node this { tree.node this with
        childrenMap := Function.update (tree.node this).childrenMap name (some tree.allocated)
        childrenStorage := (tree.node this).childrenStorage ++ [tree.allocated] })
      tree.allocated (TimerTreeNode.construct name (some this))
    allocated := tree.allocated + 1 }

/-- The child of a node with the given name. -/
def findOrInsert (tree : TimerTree D) (this : ℕ) (name : String) : ℕ × TimerTree D :=
  match (tree.node this).childrenMap name with
  | some child => (child, tree)
  | none => (tree.allocated, tree.insertChild this name)

/-- Start a measurement below the current node. -/
def startImpl (tree : TimerTree D) (this : ℕ) (key : String) (startPoint : D) : TimerTree D :=
  let (node, tree) := tree.findOrInsert this key
  let tree := tree.update node fun current => { current with isActive := true }
  let tree := tree.update node fun current => { current with startpoint := startPoint }
  { tree with currentNode := some node }

variable [Add D] [Sub D]

omit [Inhabited D] in
/-- Stop the measurement of the current node; the assertion is checked if `kassert` is set. -/
def stopImpl (kassert : Bool) (tree : TimerTree D) (this : ℕ)
    (localAggregationMode : LocalAggregationMode)
    (globalAggregationModes : List GlobalAggregationMode) (endpoint : D) :
    Effect × TimerTree D :=
  if kassert && !(tree.node this).isActive then (.assertionFailed, tree)
  else
    let tree := tree.update this fun current => { current with isActive := false }
    let startpoint := (tree.node this).startpoint
    let tree := tree.update this fun current =>
      { current with
        durations := aggregateMeasurementsLocally current.durations (endpoint - startpoint)
          localAggregationMode }
    let tree :=
      if globalAggregationModes.isEmpty then tree
      else tree.update this fun current =>
        { current with durationAggregationOperations := globalAggregationModes }
    (.returned, { tree with currentNode := (tree.node this).parentPtr })

omit [Inhabited D] [Add D] [Sub D] in
/-- What follows the pointer to the current node. -/
def atCurrent (tree : TimerTree D) (f : ℕ → Effect × TimerTree D) : Effect × TimerTree D :=
  match tree.currentNode with
  | some this => f this
  | none => (.nullDereferenced, tree)

def call (kassert : Bool) (tree : TimerTree D) : TimerCall D → Effect × TimerTree D
  | .start key time => tree.atCurrent fun this => (.returned, tree.startImpl this key time)
  | .stop modes time => tree.atCurrent fun this =>
      tree.stopImpl kassert this .accumulate modes time
  | .stopAndAdd modes time => tree.atCurrent fun this =>
      tree.stopImpl kassert this .accumulate modes time
  | .stopAndAppend modes time => tree.atCurrent fun this =>
      tree.stopImpl kassert this .append modes time
  | .clear => (.returned, tree.reset)

/-- The tree after a sequence of calls, of which some may fail. -/
def run (kassert : Bool) (tree : TimerTree D) (calls : List (TimerCall D)) : TimerTree D :=
  calls.foldl (fun tree next => (tree.call kassert next).2) tree

/-- The effects of a sequence of calls. -/
def effects (kassert : Bool) : TimerTree D → List (TimerCall D) → List Effect
  | _, [] => []
  | tree, next :: calls =>
      (tree.call kassert next).1 :: effects kassert (tree.call kassert next).2 calls

end Operations

end TimerTree

end MpiBindings.Measurements
