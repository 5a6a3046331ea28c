import MpiBindings.Measurements.TimerRefinement
import Mathlib.Data.Int.Notation

/-!
# Clearing a timer

Clearing a timer assigns a new root, which has no parent, where the constructor makes the
root its own parent.  Until then the pointers form a tree with its cursor; afterwards they do
except at the root, which a timer that checks its assertions does not notice.
-/

namespace MpiBindings.Measurements

namespace TimerTree

variable {D : Type}

/-! ## The representation invariant -/

/-- The nodes that the root owns. -/
inductive IsNode (tree : TimerTree D) : ℕ → Prop
  | root : IsNode tree root
  | child {id child : ℕ} (hid : IsNode tree id)
      (hchild : child ∈ (tree.node id).childrenStorage) : IsNode tree child

/-- Follow parent pointers. -/
def climb (tree : TimerTree D) : ℕ → ℕ → Option ℕ
  | 0, id => some id
  | steps + 1, id => (tree.node id).parentPtr.bind (tree.climb steps)

/-- The nodes from the current node upwards. -/
def OnPath (tree : TimerTree D) (id : ℕ) : Prop :=
  ∃ steps, tree.currentNode.bind (tree.climb steps) = some id

/-- The pointers form a tree with its cursor, and only nodes on the path to the cursor are
active. -/
structure RepresentationInvariant (tree : TimerTree D) : Prop where
  current : ∃ current, tree.currentNode = some current ∧ tree.IsNode current
  parent : ∀ id, tree.IsNode id → ∀ child ∈ (tree.node id).childrenStorage,
    child ≠ root ∧ (tree.node child).parentPtr = some id
  root_parent : (tree.node root).parentPtr = some root
  climb_ne_null : ∀ id, tree.IsNode id → ∀ steps, tree.climb steps id ≠ none
  inactive : ∀ id, tree.IsNode id → ¬ tree.OnPath id → (tree.node id).isActive = false

end TimerTree

/-! ## Links -/

section Links

open TimerTree

variable {D : Type}
variable {tree : TimerTree D} {started : List (List String)} {pathOf : ℕ → List String}
variable {id other : ℕ}

theorem Shape.mem_childrenStorage (h : Shape tree started pathOf) {child : ℕ} {key : String}
    (hid : id < tree.allocated) (hchild : child < tree.allocated)
    (hpath : pathOf child = pathOf id ++ [key]) : child ∈ (tree.node id).childrenStorage := by
  obtain ⟨hlt, hkeys⟩ := h.children id hid
  have hkey : key ∈ childKeys started (pathOf id) := by
    rw [mem_childKeys, h.mem_started, ← hpath]
    exact ⟨by simp [hpath], child, hchild, rfl⟩
  have hmem : pathOf child ∈ (tree.node id).childrenStorage.map pathOf := by
    rw [hkeys, hpath]
    exact List.mem_map.mpr ⟨key, hkey, rfl⟩
  obtain ⟨stored, hstored, hsame⟩ := List.mem_map.mp hmem
  rwa [← h.injective stored (hlt stored hstored) child hchild hsame]

/-- Every allocated node is owned by the root, directly or through other nodes. -/
theorem Shape.isNode_iff (h : Shape tree started pathOf) :
    tree.IsNode id ↔ id < tree.allocated := by
  constructor
  · intro hnode
    induction hnode with
    | root => exact h.root_lt
    | child _ hchild ih => exact (h.children _ ih).1 _ hchild
  · intro hid
    induction hpath : pathOf id using List.reverseRecOn generalizing id with
    | nil =>
        rw [h.injective id hid root h.root_lt (hpath.trans h.pathOf_root.symm)]
        exact IsNode.root
    | append_singleton front key ih =>
        obtain ⟨parent, hparent, -, hfront⟩ := h.parent id hid (by simp [hpath])
        rw [hpath, List.dropLast_concat] at hfront
        have hchild : pathOf id = pathOf parent ++ [key] := by rw [hpath, hfront]
        exact IsNode.child (ih hparent hfront) (h.mem_childrenStorage hparent hid hchild)

/-- The nodes that a node stores point back to it. -/
theorem Shape.parentPtr_child (h : Shape tree started pathOf) {child : ℕ}
    (hid : id < tree.allocated) (hchild : child ∈ (tree.node id).childrenStorage) :
    child ≠ root ∧ (tree.node child).parentPtr = some id := by
  have hpath := h.pathOf_child hid hchild
  have hne : pathOf child ≠ [] := by simp [hpath]
  obtain ⟨parent, hparent, hptr, hfront⟩ :=
    h.parent child ((h.children id hid).1 child hchild) hne
  rw [hpath, List.dropLast_concat] at hfront
  refine ⟨fun hroot => hne (hroot ▸ h.pathOf_root), ?_⟩
  rw [hptr, h.injective parent hparent id hid hfront]

/-- A root that is its own parent makes every pointer lead to a node. -/
theorem Shape.climb_ne_null (h : Shape tree started pathOf)
    (hroot : (tree.node root).parentPtr = some root) (hid : id < tree.allocated) (steps : ℕ) :
    tree.climb steps id ≠ none := by
  induction steps generalizing id with
  | zero => exact Option.some_ne_none id
  | succ steps ih =>
      by_cases hpath : pathOf id = []
      · rw [h.injective id hid root h.root_lt (hpath.trans h.pathOf_root.symm), climb, hroot]
        exact ih h.root_lt
      · obtain ⟨parent, hparent, hptr, -⟩ := h.parent id hid hpath
        rw [climb, hptr]
        exact ih hparent

/-- Climbing from a node gets to the nodes at the prefixes of its path. -/
theorem Shape.climb_of_prefix (h : Shape tree started pathOf) (hid : id < tree.allocated)
    (hother : other < tree.allocated) {back : List String}
    (hpath : pathOf id = pathOf other ++ back) : ∃ steps, tree.climb steps id = some other := by
  induction back using List.reverseRecOn generalizing id with
  | nil =>
      rw [List.append_nil] at hpath
      exact ⟨0, congrArg some (h.injective id hid other hother hpath)⟩
  | append_singleton back key ih =>
      obtain ⟨parent, hparent, hptr, hfront⟩ := h.parent id hid (by simp [hpath])
      rw [hpath, ← List.append_assoc, List.dropLast_concat] at hfront
      obtain ⟨steps, hclimb⟩ := ih hparent hfront
      refine ⟨steps + 1, ?_⟩
      rw [climb, hptr]
      exact hclimb

end Links

namespace TimerTree

variable {D : Type}

/-- The nodes lie at the given paths, the cursor points to the given node, and only nodes on
the path to it are active.  The parent of the root is a parameter. -/
structure Linked (tree : TimerTree D) (rootParent : Option ℕ) (started : List (List String))
    (pathOf : ℕ → List String) (current : ℕ) : Prop where
  shape : Shape tree started pathOf
  root_parent : (tree.node root).parentPtr = rootParent
  currentNode : tree.currentNode = some current
  current_lt : current < tree.allocated
  active : ∀ id < tree.allocated, (tree.node id).isActive = true →
    pathOf id ≠ [] ∧ pathOf id <+: pathOf current

def IsLinked (tree : TimerTree D) (rootParent : Option ℕ) : Prop :=
  ∃ started pathOf current, Linked tree rootParent started pathOf current

theorem Linked.representationInvariant {tree : TimerTree D} {started : List (List String)}
    {pathOf : ℕ → List String} {current : ℕ}
    (h : Linked tree (some root) started pathOf current) : RepresentationInvariant tree where
  current := ⟨current, h.currentNode, h.shape.isNode_iff.mpr h.current_lt⟩
  parent id hid child hchild := h.shape.parentPtr_child (h.shape.isNode_iff.mp hid) hchild
  root_parent := h.root_parent
  climb_ne_null id hid := h.shape.climb_ne_null h.root_parent (h.shape.isNode_iff.mp hid)
  inactive id hid hpath := by
    rw [← Bool.not_eq_true]
    intro hactive
    have hlt := h.shape.isNode_iff.mp hid
    obtain ⟨back, hback⟩ := (h.active id hlt hactive).2
    refine hpath ?_
    rw [OnPath, h.currentNode]
    exact h.shape.climb_of_prefix h.current_lt hlt hback.symm

/-! ## Calls -/

section Calls

variable {tree : TimerTree D} {rootParent : Option ℕ} {started : List (List String)}
variable {pathOf : ℕ → List String} {current : ℕ} {kassert : Bool}
variable [Inhabited D]

theorem linked_construct :
    Linked (construct : TimerTree D) (some root) [] (fun _ => []) root where
  shape := shape_construct
  root_parent := by simp [construct, update]
  currentNode := rfl
  current_lt := Nat.one_pos
  active id hid hactive := by
    obtain rfl : id = root := Nat.lt_one_iff.mp hid
    simp [construct, update, fromRoot, TimerTreeNode.construct] at hactive

/-- Finding or inserting a child activates no node and keeps the parent of the root. -/
theorem Linked.findOrInsert_node (h : Linked tree rootParent started pathOf current)
    (key : String) :
    ((tree.findOrInsert current key).2.node root).parentPtr = rootParent ∧
      ∀ id < (tree.findOrInsert current key).2.allocated,
        ((tree.findOrInsert current key).2.node id).isActive = true →
          id < tree.allocated ∧ (tree.node id).isActive = true := by
  rw [TimerTree.findOrInsert]
  cases (tree.node current).childrenMap key with
  | some child => exact ⟨h.root_parent, fun id hid hactive => ⟨hid, hactive⟩⟩
  | none =>
      refine ⟨(insertChild_parentPtr h.current_lt h.shape.root_lt).trans h.root_parent,
        fun id hid hactive => ?_⟩
      change ((tree.insertChild current key).node id).isActive = true at hactive
      obtain hlt | rfl := Nat.lt_succ_iff_lt_or_eq.mp hid
      · refine ⟨hlt, ?_⟩
        obtain rfl | hne := eq_or_ne id current
        · rwa [insertChild_node_this hlt] at hactive
        · rwa [insertChild_node_of_ne hlt hne] at hactive
      · rw [insertChild_node_new] at hactive
        exact absurd hactive Bool.false_ne_true

omit [Inhabited D] in
theorem moveTo_parentPtr {this : ℕ} {node : TimerTreeNode D}
    (hlinks : SameLinks node (tree.node this)) (next : Option ℕ) (id : ℕ) :
    ((tree.moveTo this node next).node id).parentPtr = (tree.node id).parentPtr :=
  (sameLinks_update hlinks id).parentPtr

/-- A start moves the cursor to a child of the current node. -/
theorem Linked.startImpl (h : Linked tree rootParent started pathOf current) (key : String)
    (time : D) : IsLinked (tree.startImpl current key time) rootParent := by
  obtain ⟨pathOf', hshape, hlt, hpath, hold⟩ := h.shape.findOrInsert h.current_lt key
  obtain ⟨hparent, hactive⟩ := h.findOrInsert_node key
  rw [startImpl_eq]
  generalize tree.findOrInsert current key = found at *
  obtain ⟨child, next⟩ := found
  have hlinks := sameLinks_started (next.node child) time
  refine ⟨_, pathOf', child, hshape.moveTo hlinks _, (moveTo_parentPtr hlinks _ _).trans hparent,
    rfl, hlt, fun id hid hid' => ?_⟩
  have hchild : pathOf' child ≠ [] := by simp [hpath]
  obtain rfl | hne := eq_or_ne id child
  · exact ⟨hchild, List.prefix_rfl⟩
  · rw [moveTo_node, Function.update_of_ne hne] at hid'
    obtain ⟨hidOld, hactiveOld⟩ := hactive id hid hid'
    obtain ⟨hnonempty, hfront⟩ := h.active id hidOld hactiveOld
    rw [hold id hidOld, hpath]
    exact ⟨hnonempty, hfront.trans (List.prefix_append _ _)⟩

omit [Inhabited D] in
/-- The cursor moves to the parent, and the node that it leaves becomes inactive. -/
theorem Linked.ascend (h : Linked tree rootParent started pathOf current) {parent : ℕ}
    (hlt : parent < tree.allocated) (hfront : pathOf parent = (pathOf current).dropLast)
    {node : TimerTreeNode D} (hlinks : SameLinks node (tree.node current))
    (hinactive : node.isActive = false) :
    Linked (tree.moveTo current node (some parent)) rootParent started pathOf parent where
  shape := h.shape.moveTo hlinks _
  root_parent := (moveTo_parentPtr hlinks _ _).trans h.root_parent
  currentNode := rfl
  current_lt := hlt
  active id hid hactive := by
    obtain rfl | hother := eq_or_ne id current
    · rw [moveTo_node, Function.update_self, hinactive] at hactive
      exact absurd hactive Bool.false_ne_true
    · rw [moveTo_node, Function.update_of_ne hother] at hactive
      obtain ⟨hne, hprefix⟩ := h.active id hid hactive
      refine ⟨hne, ?_⟩
      obtain hnil | ⟨front, key, hcurrent⟩ := List.eq_nil_or_concat (pathOf current)
      · exact absurd (List.prefix_nil.mp (hnil ▸ hprefix)) hne
      · rw [List.concat_eq_append] at hcurrent
        rw [hcurrent, List.prefix_concat_iff] at hprefix
        rw [hfront, hcurrent, List.dropLast_concat]
        refine hprefix.resolve_left fun hsame => hother ?_
        exact h.shape.injective id hid current h.current_lt (hsame.trans hcurrent.symm)

variable [Add D] [Sub D]

omit [Inhabited D] in
/-- Stopping keeps the links, if the assertion is checked or the root has itself as parent. -/
theorem Linked.stopImpl (h : Linked tree rootParent started pathOf current)
    (hmode : kassert = true ∨ rootParent = some root) (localMode : LocalAggregationMode)
    (globalModes : List GlobalAggregationMode) (endpoint : D) :
    IsLinked (tree.stopImpl kassert current localMode globalModes endpoint).2 rootParent := by
  rw [stopImpl_eq]
  split_ifs with hassert
  · exact ⟨_, _, _, h⟩
  · have hparent : ∃ parent < tree.allocated, (tree.node current).parentPtr = some parent ∧
        pathOf parent = (pathOf current).dropLast := by
      by_cases hpath : pathOf current = []
      · -- only an unchecked call gets here
        rcases hmode with rfl | rfl
        · have hactive : (tree.node current).isActive = true := by simpa using hassert
          exact absurd hpath (h.active current h.current_lt hactive).1
        · have hroot := h.shape.injective current h.current_lt root h.shape.root_lt
            (hpath.trans h.shape.pathOf_root.symm)
          refine ⟨root, h.shape.root_lt, hroot ▸ h.root_parent, ?_⟩
          rw [hpath, h.shape.pathOf_root]
          rfl
      · exact h.shape.parent current h.current_lt hpath
    obtain ⟨parent, hlt, hptr, hfront⟩ := hparent
    rw [hptr]
    exact ⟨_, _, _, h.ascend hlt hfront (sameLinks_stopped _ _ _ _) rfl⟩

/-- Calls other than `clear` keep the links and the parent of the root. -/
theorem Linked.call (h : Linked tree rootParent started pathOf current)
    (hmode : kassert = true ∨ rootParent = some root) {next : TimerCall D}
    (hnext : next ≠ .clear) : IsLinked (tree.call kassert next).2 rootParent := by
  have hat := atCurrent_eq h.currentNode
  cases next with
  | start key time =>
      rw [TimerTree.call, hat]
      exact h.startImpl key time
  | stop modes time | stopAndAdd modes time | stopAndAppend modes time =>
      rw [TimerTree.call, hat]
      exact h.stopImpl hmode _ modes time
  | clear => exact absurd rfl hnext

/-- Runs without `clear` keep the links and the parent of the root. -/
theorem IsLinked.run (h : IsLinked tree rootParent)
    (hmode : kassert = true ∨ rootParent = some root) {calls : List (TimerCall D)}
    (hcalls : .clear ∉ calls) : IsLinked (tree.run kassert calls) rootParent := by
  induction calls generalizing tree with
  | nil => exact h
  | cons next calls ih =>
      obtain ⟨_, _, _, hlinked⟩ := h
      have hnext : next ≠ .clear := fun hclear => hcalls (hclear ▸ List.mem_cons_self)
      exact ih (hlinked.call hmode hnext) fun hmem => hcalls (List.mem_cons_of_mem next hmem)

end Calls

/-! ## Clearing -/

section Clearing

variable [Inhabited D] {kassert : Bool} [Add D] [Sub D]

theorem run_concat_clear (tree : TimerTree D) (calls : List (TimerCall D)) :
    tree.run kassert (calls ++ [.clear]) = fromRoot := by
  rw [run, List.foldl_concat]
  rfl

/-- In every state of a run the representation invariant holds, and after a call of `clear`
the state is that of a new timer, on which all later calls have the same effects. -/
def ClearResets (kassert : Bool) (calls : List (TimerCall D)) : Prop :=
  ∀ done, done <+: calls →
    RepresentationInvariant (construct.run kassert done) ∧
      (done.getLast? = some .clear →
        construct.run kassert done = construct ∧
          ∀ later, (construct.run kassert done).effects kassert later =
            construct.effects kassert later)

/-- A timer keeps its representation invariant, and clearing it gives a new one, in the runs
without a call of `clear` only. -/
theorem clearResets_iff (kassert : Bool) (calls : List (TimerCall D)) :
    ClearResets kassert calls ↔ .clear ∉ calls := by
  constructor
  · intro hresets hclear
    obtain ⟨before, after, rfl⟩ := List.append_of_mem hclear
    have hprefix : before ++ [.clear] <+: before ++ .clear :: after :=
      ⟨after, (List.append_cons before .clear after).symm⟩
    have hroot := (hresets _ hprefix).1.root_parent
    rw [run_concat_clear] at hroot
    exact absurd hroot.symm (Option.some_ne_none root)
  · intro hcalls done hdone
    have hnone : .clear ∉ done := fun hmem => hcalls (hdone.subset hmem)
    obtain ⟨_, _, _, hlinked⟩ : IsLinked (construct.run kassert done) (some root) :=
      IsLinked.run ⟨_, _, _, linked_construct⟩ (Or.inr rfl) hnone
    refine ⟨hlinked.representationInvariant, fun hlast => ?_⟩
    exact absurd (List.mem_of_getLast? hlast) hnone

/-- After `clear` the root has no parent.  Without assertions a further `stop` makes the
pointer to the current node null, and the next call dereferences it. -/
theorem clearResets_fails :
    ¬ ClearResets true ([.clear] : List (TimerCall ℤ)) ∧
      (construct : TimerTree ℤ).effects false [.clear, .stop [] 1, .start "key" 2] =
        [.returned, .returned, .nullDereferenced] ∧
      (construct : TimerTree ℤ).effects false [.stop [] 1, .start "key" 2] =
        [.returned, .returned] := by
  refine ⟨fun hresets => ?_, rfl, rfl⟩
  have hroot := (hresets [.clear] List.prefix_rfl).1.root_parent
  exact absurd hroot.symm (Option.some_ne_none root)

/-- A timer that checks its assertions has the same effects after `clear` as a new timer. -/
theorem clear_like_new (before later : List (TimerCall D)) :
    (construct.run true (before ++ [.clear])).effects true later =
      (construct : TimerTree D).effects true later := by
  rw [run_concat_clear]
  exact invariant_fromRoot.effects_eq invariant_construct later

end Clearing

end TimerTree

end MpiBindings.Measurements
