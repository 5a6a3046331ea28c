import MpiBindings.Measurements.Aggregation
import MpiBindings.Measurements.TimerRefinement

/-!
# Traversal of timer trees

A traversal of the heap from the root along the stored children gives a rose
tree.  No node has more ancestors than nodes were allocated before it, so the
traversal ends.
-/

namespace MpiBindings.Measurements

open TimerTree

variable {D : Type}

def TimerTreeNode.label (node : TimerTreeNode D) : TimerLabel D where
  name := node.name
  durations := node.durations
  durationAggregationOperations := node.durationAggregationOperations

namespace TimerTree

/-- The nodes below a node up to the given depth. -/
def subtree (tree : TimerTree D) : ℕ → ℕ → RoseTree (TimerLabel D)
  | 0, id => .node (tree.node id).label []
  | depth + 1, id =>
      .node (tree.node id).label ((tree.node id).childrenStorage.map (tree.subtree depth))

def toRoseTree (tree : TimerTree D) : RoseTree (TimerLabel D) :=
  tree.subtree tree.allocated root

end TimerTree

section Shape

variable {tree : TimerTree D} {started : List (List String)} {pathOf : ℕ → List String}

/-- The traversal leaves no node out. -/
theorem Shape.subtree_succ (h : Shape tree started pathOf) {depth id : ℕ}
    (hid : id < tree.allocated) (hdepth : tree.allocated ≤ (pathOf id).length + depth) :
    tree.subtree (depth + 1) id = tree.subtree depth id := by
  induction depth generalizing id with
  | zero => exact absurd (h.length_le id hid) (by omega)
  | succ depth ih =>
      rw [TimerTree.subtree, TimerTree.subtree, RoseTree.node.injEq]
      refine ⟨rfl, List.map_congr_left fun child hchild => ?_⟩
      have hlength : (pathOf child).length = (pathOf id).length + 1 := by
        rw [h.pathOf_child hid hchild, List.length_append, List.length_singleton]
      exact ih ((h.children id hid).1 child hchild) (by omega)

/-- The depth of the traversal does not cut the tree off. -/
theorem Shape.toRoseTree_eq (h : Shape tree started pathOf) :
    tree.toRoseTree = .node (tree.node root).label
      ((tree.node root).childrenStorage.map (tree.subtree tree.allocated)) := by
  rw [TimerTree.toRoseTree, ← h.subtree_succ h.root_lt (Nat.le_add_left _ _)]
  rfl

end Shape

end MpiBindings.Measurements
