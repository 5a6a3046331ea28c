import MpiBindings.Measurements.TimerLog

/-!
# Paths of the nodes

Every node of the heap lies at a key path of its own.  Labelled with these paths,
the links between the nodes are those of the started paths.  This holds with any
parent of the root.
-/

namespace MpiBindings.Measurements

open TimerTree

variable {D : Type}

/-! ## Links between nodes -/

/-- The nodes of a tree lie at the given paths, and their links agree with them. -/
structure Shape (tree : TimerTree D) (started : List (List String)) (pathOf : ℕ → List String) :
    Prop where
  root_lt : root < tree.allocated
  pathOf_root : pathOf root = []
  name_root : (tree.node root).name = "root"
  length_le : ∀ id < tree.allocated, (pathOf id).length ≤ id
  injective : ∀ id < tree.allocated, ∀ other < tree.allocated, pathOf id = pathOf other →
    id = other
  mem_started : ∀ path,
    path ∈ started ↔ path ≠ [] ∧ ∃ id < tree.allocated, pathOf id = path
  parent : ∀ id < tree.allocated, pathOf id ≠ [] → ∃ parent < tree.allocated,
    (tree.node id).parentPtr = some parent ∧ pathOf parent = (pathOf id).dropLast
  name : ∀ id < tree.allocated, pathOf id ≠ [] →
    (pathOf id).getLast? = some (tree.node id).name
  childrenMap : ∀ id < tree.allocated, ∀ key child,
    (tree.node id).childrenMap key = some child ↔
      child < tree.allocated ∧ pathOf child = pathOf id ++ [key]
  children : ∀ id < tree.allocated,
    (∀ child ∈ (tree.node id).childrenStorage, child < tree.allocated) ∧
      (tree.node id).childrenStorage.map pathOf =
        (childKeys started (pathOf id)).map fun key => pathOf id ++ [key]

/-- Nodes with the same name and the same links. -/
structure SameLinks (left right : TimerTreeNode D) : Prop where
  name : left.name = right.name
  parentPtr : left.parentPtr = right.parentPtr
  childrenMap : left.childrenMap = right.childrenMap
  childrenStorage : left.childrenStorage = right.childrenStorage

section Links

variable {tree next : TimerTree D} {started : List (List String)} {pathOf : ℕ → List String}
variable {this : ℕ} {key : String}

theorem Shape.of_sameLinks (h : Shape tree started pathOf)
    (hallocated : next.allocated = tree.allocated)
    (hlinks : ∀ id, SameLinks (next.node id) (tree.node id)) : Shape next started pathOf where
  root_lt := hallocated ▸ h.root_lt
  pathOf_root := h.pathOf_root
  name_root := (hlinks root).name.trans h.name_root
  length_le := by
    rw [hallocated]
    exact h.length_le
  injective := by
    rw [hallocated]
    exact h.injective
  mem_started := by
    rw [hallocated]
    exact h.mem_started
  parent id hid := by
    rw [hallocated] at hid ⊢
    rw [(hlinks id).parentPtr]
    exact h.parent id hid
  name id hid := by
    rw [hallocated] at hid
    rw [(hlinks id).name]
    exact h.name id hid
  childrenMap id hid := by
    rw [hallocated] at hid ⊢
    rw [(hlinks id).childrenMap]
    exact h.childrenMap id hid
  children id hid := by
    rw [hallocated] at hid ⊢
    rw [(hlinks id).childrenStorage]
    exact h.children id hid

/-- Starting a path again adds no children. -/
theorem Shape.restart (h : Shape tree started pathOf) (parent : List String)
    (hstarted : parent ++ [key] ∈ started) :
    Shape tree (started ++ [parent ++ [key]]) pathOf where
  root_lt := h.root_lt
  pathOf_root := h.pathOf_root
  name_root := h.name_root
  length_le := h.length_le
  injective := h.injective
  mem_started path := by
    rw [List.mem_append, List.mem_singleton, ← h.mem_started]
    exact ⟨fun hmem => hmem.elim id fun hpath => hpath ▸ hstarted, Or.inl⟩
  parent := h.parent
  name := h.name
  childrenMap := h.childrenMap
  children id hid := by
    rw [childKeys_start, if_neg fun hnew => hnew.2 hstarted]
    exact h.children id hid

/-- No node lies at the path of a missing child. -/
theorem Shape.pathOf_ne (h : Shape tree started pathOf) (hthis : this < tree.allocated)
    (hmissing : (tree.node this).childrenMap key = none) :
    ∀ id < tree.allocated, pathOf id ≠ pathOf this ++ [key] := by
  intro id hid hpath
  rw [(h.childrenMap this hthis key id).mpr ⟨hid, hpath⟩] at hmissing
  cases hmissing

theorem Shape.notMem_started (h : Shape tree started pathOf) (hthis : this < tree.allocated)
    (hmissing : (tree.node this).childrenMap key = none) : pathOf this ++ [key] ∉ started := by
  rw [h.mem_started]
  rintro ⟨-, id, hid, hpath⟩
  exact h.pathOf_ne hthis hmissing id hid hpath

/-- No node lies below the path of a missing child. -/
theorem Shape.pathOf_below_ne (h : Shape tree started pathOf) (hthis : this < tree.allocated)
    (hmissing : (tree.node this).childrenMap key = none) (other : String) :
    ∀ id < tree.allocated, pathOf id ≠ pathOf this ++ [key] ++ [other] := by
  intro id hid hpath
  obtain ⟨parent, hparent, -, hpathParent⟩ := h.parent id hid (by simp [hpath])
  rw [hpath, List.dropLast_concat] at hpathParent
  exact h.pathOf_ne hthis hmissing parent hparent hpathParent

/-- Paths of the nodes after the next one was allocated at the given path. -/
def extendPaths (tree : TimerTree D) (pathOf : ℕ → List String) (path : List String) :
    ℕ → List String :=
  Function.update pathOf tree.allocated path

theorem extendPaths_of_lt {id : ℕ} (hid : id < tree.allocated) (path : List String) :
    extendPaths tree pathOf path id = pathOf id :=
  Function.update_of_ne (Nat.ne_of_lt hid) ..

theorem extendPaths_allocated (tree : TimerTree D) (pathOf : ℕ → List String)
    (path : List String) : extendPaths tree pathOf path tree.allocated = path :=
  Function.update_self ..

/-- The nodes at a path are the old ones and the new one. -/
theorem extendPaths_eq_iff {child : ℕ} {path other : List String} :
    child < tree.allocated + 1 ∧ extendPaths tree pathOf path child = other ↔
      (child < tree.allocated ∧ pathOf child = other) ∨
        child = tree.allocated ∧ path = other := by
  constructor
  · rintro ⟨hlt, hpath⟩
    obtain hlt | rfl := Nat.lt_succ_iff_lt_or_eq.mp hlt
    · exact Or.inl ⟨hlt, by rwa [extendPaths_of_lt hlt] at hpath⟩
    · exact Or.inr ⟨rfl, by rwa [extendPaths_allocated] at hpath⟩
  · rintro (⟨hlt, hpath⟩ | ⟨rfl, hpath⟩)
    · exact ⟨Nat.lt_succ_of_lt hlt, by rwa [extendPaths_of_lt hlt]⟩
    · exact ⟨Nat.lt_succ_self _, by rwa [extendPaths_allocated]⟩

theorem Shape.extendPaths_injective (h : Shape tree started pathOf) {path : List String}
    (hfresh : ∀ id < tree.allocated, pathOf id ≠ path) {id other : ℕ}
    (hid : id < tree.allocated + 1) (hother : other < tree.allocated + 1)
    (hpath : extendPaths tree pathOf path id = extendPaths tree pathOf path other) :
    id = other := by
  obtain hid | rfl := Nat.lt_succ_iff_lt_or_eq.mp hid
  · rw [extendPaths_of_lt hid] at hpath
    obtain ⟨hlt, hsame⟩ | ⟨-, hnew⟩ := extendPaths_eq_iff.mp ⟨hother, hpath.symm⟩
    · exact h.injective id hid other hlt hsame.symm
    · exact absurd hnew.symm (hfresh id hid)
  · rw [extendPaths_allocated] at hpath
    obtain ⟨hlt, hsame⟩ | ⟨hlast, -⟩ := extendPaths_eq_iff.mp ⟨hother, hpath.symm⟩
    · exact absurd hsame (hfresh other hlt)
    · exact hlast.symm

theorem Shape.mem_started_extendPaths (h : Shape tree started pathOf) {new : List String}
    (hne : new ≠ []) (path : List String) :
    path ∈ started ++ [new] ↔
      path ≠ [] ∧ ∃ id < tree.allocated + 1, extendPaths tree pathOf new id = path := by
  simp only [extendPaths_eq_iff]
  rw [List.mem_append, List.mem_singleton, h.mem_started]
  constructor
  · rintro (⟨hpath, id, hid, rfl⟩ | rfl)
    · exact ⟨hpath, id, Or.inl ⟨hid, rfl⟩⟩
    · exact ⟨hne, tree.allocated, Or.inr ⟨rfl, rfl⟩⟩
  · rintro ⟨hpath, id, ⟨hid, rfl⟩ | ⟨-, rfl⟩⟩
    · exact Or.inl ⟨hpath, id, hid, rfl⟩
    · exact Or.inr rfl

variable [Inhabited D]

theorem insertChild_node_this (hthis : this < tree.allocated) :
    (tree.insertChild this key).node this = { tree.node this with
      childrenMap := Function.update (tree.node this).childrenMap key (some tree.allocated)
      childrenStorage := (tree.node this).childrenStorage ++ [tree.allocated] } := by
  simp only [insertChild]
  rw [Function.update_of_ne (Nat.ne_of_lt hthis), Function.update_self]

theorem insertChild_node_new :
    (tree.insertChild this key).node tree.allocated = TimerTreeNode.construct key (some this) :=
  Function.update_self ..

theorem insertChild_node_of_ne {id : ℕ} (hid : id < tree.allocated) (hne : id ≠ this) :
    (tree.insertChild this key).node id = tree.node id := by
  simp only [insertChild]
  rw [Function.update_of_ne (Nat.ne_of_lt hid), Function.update_of_ne hne]

theorem insertChild_name (hthis : this < tree.allocated) {id : ℕ} (hid : id < tree.allocated) :
    ((tree.insertChild this key).node id).name = (tree.node id).name := by
  obtain rfl | hne := eq_or_ne id this
  · rw [insertChild_node_this hthis]
  · rw [insertChild_node_of_ne hid hne]

theorem insertChild_parentPtr (hthis : this < tree.allocated) {id : ℕ}
    (hid : id < tree.allocated) :
    ((tree.insertChild this key).node id).parentPtr = (tree.node id).parentPtr := by
  obtain rfl | hne := eq_or_ne id this
  · rw [insertChild_node_this hthis]
  · rw [insertChild_node_of_ne hid hne]

/-- The new child is found under its name at its parent only. -/
theorem Shape.childrenMap_insertChild (h : Shape tree started pathOf)
    (hthis : this < tree.allocated) (hmissing : (tree.node this).childrenMap key = none) {id : ℕ}
    (hid : id < tree.allocated + 1) (other : String) (child : ℕ) :
    ((tree.insertChild this key).node id).childrenMap other = some child ↔
      child < tree.allocated + 1 ∧ extendPaths tree pathOf (pathOf this ++ [key]) child =
        extendPaths tree pathOf (pathOf this ++ [key]) id ++ [other] := by
  rw [extendPaths_eq_iff]
  obtain hid | rfl := Nat.lt_succ_iff_lt_or_eq.mp hid
  · rw [extendPaths_of_lt hid, ← h.childrenMap id hid]
    obtain rfl | hne := eq_or_ne id this
    · rw [insertChild_node_this hthis]
      obtain rfl | hkey := eq_or_ne other key
      · simp [hmissing, eq_comm]
      · simp [Function.update_of_ne hkey, hkey.symm]
    · rw [insertChild_node_of_ne hid hne]
      have hpath : pathOf this ++ [key] ≠ pathOf id ++ [other] := by
        intro hpath
        exact hne (h.injective id hid this hthis (List.append_inj_left' hpath rfl).symm)
      simp [hpath]
  · rw [insertChild_node_new, extendPaths_allocated]
    have hpath : pathOf this ++ [key] ≠ pathOf this ++ [key] ++ [other] := by simp
    simp only [TimerTreeNode.construct, reduceCtorEq, false_iff]
    rintro (⟨hlt, habove⟩ | ⟨-, hself⟩)
    · exact h.pathOf_below_ne hthis hmissing other child hlt habove
    · exact hpath hself

/-- The new child is the last one of its parent and has no children. -/
theorem Shape.children_insertChild (h : Shape tree started pathOf)
    (hthis : this < tree.allocated) (hmissing : (tree.node this).childrenMap key = none) {id : ℕ}
    (hid : id < tree.allocated + 1) :
    (∀ child ∈ ((tree.insertChild this key).node id).childrenStorage,
        child < tree.allocated + 1) ∧
      ((tree.insertChild this key).node id).childrenStorage.map
          (extendPaths tree pathOf (pathOf this ++ [key])) =
        (childKeys (started ++ [pathOf this ++ [key]])
          (extendPaths tree pathOf (pathOf this ++ [key]) id)).map fun other =>
            extendPaths tree pathOf (pathOf this ++ [key]) id ++ [other] := by
  rw [childKeys_start]
  obtain hid | rfl := Nat.lt_succ_iff_lt_or_eq.mp hid
  · obtain ⟨hlt, hkeys⟩ := h.children id hid
    have hmap : (tree.node id).childrenStorage.map
        (extendPaths tree pathOf (pathOf this ++ [key])) =
          (tree.node id).childrenStorage.map pathOf :=
      List.map_congr_left fun child hchild => extendPaths_of_lt (hlt child hchild) _
    rw [extendPaths_of_lt hid]
    obtain rfl | hne := eq_or_ne id this
    · rw [insertChild_node_this hthis, if_pos ⟨rfl, h.notMem_started hthis hmissing⟩]
      constructor
      · intro child hchild
        obtain hchild | hchild := List.mem_append.mp hchild
        · exact Nat.lt_succ_of_lt (hlt child hchild)
        · rw [List.mem_singleton.mp hchild]
          exact Nat.lt_succ_self _
      · rw [List.map_append, hmap, hkeys, List.map_singleton, extendPaths_allocated,
          List.map_append, List.map_singleton]
    · rw [insertChild_node_of_ne hid hne, hmap, if_neg]
      · exact ⟨fun child hchild => Nat.lt_succ_of_lt (hlt child hchild), hkeys⟩
      · exact fun hsame => hne (h.injective id hid this hthis hsame.1.symm)
  · rw [insertChild_node_new, extendPaths_allocated, if_neg (by simp)]
    have hnone : childKeys started (pathOf this ++ [key]) = [] := by
      rw [List.eq_nil_iff_forall_not_mem]
      intro other hother
      obtain ⟨-, child, hchild, hpath⟩ := (h.mem_started _).mp (mem_childKeys.mp hother)
      exact h.pathOf_below_ne hthis hmissing other child hchild hpath
    rw [hnone]
    exact ⟨fun child hchild => absurd hchild List.not_mem_nil, rfl⟩

/-- A new child lies at the path of its parent followed by its name. -/
theorem Shape.insertChild (h : Shape tree started pathOf) (hthis : this < tree.allocated)
    (hmissing : (tree.node this).childrenMap key = none) :
    Shape (tree.insertChild this key) (started ++ [pathOf this ++ [key]])
      (extendPaths tree pathOf (pathOf this ++ [key])) where
  root_lt := Nat.lt_succ_of_lt h.root_lt
  pathOf_root := (extendPaths_of_lt h.root_lt _).trans h.pathOf_root
  name_root := (insertChild_name hthis h.root_lt).trans h.name_root
  length_le id hid := by
    obtain hid | rfl := Nat.lt_succ_iff_lt_or_eq.mp hid
    · rw [extendPaths_of_lt hid]
      exact h.length_le id hid
    · rw [extendPaths_allocated, List.length_append, List.length_singleton]
      exact Nat.succ_le_of_lt (Nat.lt_of_le_of_lt (h.length_le this hthis) hthis)
  injective _ hid _ hother := h.extendPaths_injective (h.pathOf_ne hthis hmissing) hid hother
  mem_started := h.mem_started_extendPaths (by simp)
  parent id hid hne := by
    obtain hid | rfl := Nat.lt_succ_iff_lt_or_eq.mp hid
    · rw [extendPaths_of_lt hid] at hne ⊢
      obtain ⟨parent, hparent, hptr, hpath⟩ := h.parent id hid hne
      exact ⟨parent, Nat.lt_succ_of_lt hparent, (insertChild_parentPtr hthis hid).trans hptr,
        (extendPaths_of_lt hparent _).trans hpath⟩
    · rw [insertChild_node_new, extendPaths_allocated, List.dropLast_concat]
      exact ⟨this, Nat.lt_succ_of_lt hthis, rfl, extendPaths_of_lt hthis _⟩
  name id hid := by
    obtain hid | rfl := Nat.lt_succ_iff_lt_or_eq.mp hid
    · rw [insertChild_name hthis hid, extendPaths_of_lt hid]
      exact h.name id hid
    · rw [insertChild_node_new, extendPaths_allocated, List.getLast?_concat]
      exact fun _ => rfl
  childrenMap _ hid := h.childrenMap_insertChild hthis hmissing hid
  children _ hid := h.children_insertChild hthis hmissing hid

end Links

/-! ## Calls -/

namespace TimerTree

/-- The tree after a node was changed and the cursor moved. -/
def moveTo (tree : TimerTree D) (id : ℕ) (node : TimerTreeNode D) (next : Option ℕ) :
    TimerTree D :=
  { tree with node := Function.update tree.node id node, currentNode := next }

@[simp]
theorem moveTo_node (tree : TimerTree D) (id : ℕ) (node : TimerTreeNode D) (next : Option ℕ) :
    (tree.moveTo id node next).node = Function.update tree.node id node := rfl

/-- The node of a measurement after it was started. -/
def startedNode (node : TimerTreeNode D) (startPoint : D) : TimerTreeNode D :=
  { node with isActive := true, startpoint := startPoint }

theorem startImpl_eq [Inhabited D] (tree : TimerTree D) (this : ℕ) (key : String) (time : D) :
    tree.startImpl this key time =
      (tree.findOrInsert this key).2.moveTo (tree.findOrInsert this key).1
        (startedNode ((tree.findOrInsert this key).2.node (tree.findOrInsert this key).1) time)
        (some (tree.findOrInsert this key).1) := by
  simp [startImpl, update, moveTo, startedNode]

/-- The node of the innermost measurement after it was stopped. -/
def stoppedNode [Add D] [Sub D] (node : TimerTreeNode D) (localMode : LocalAggregationMode)
    (globalModes : List GlobalAggregationMode) (endpoint : D) : TimerTreeNode D :=
  { node with
    isActive := false
    durations := aggregateMeasurementsLocally node.durations (endpoint - node.startpoint)
      localMode
    durationAggregationOperations :=
      if globalModes.isEmpty then node.durationAggregationOperations else globalModes }

theorem stopImpl_eq [Add D] [Sub D] (kassert : Bool) (tree : TimerTree D) (this : ℕ)
    (localMode : LocalAggregationMode) (globalModes : List GlobalAggregationMode)
    (endpoint : D) :
    tree.stopImpl kassert this localMode globalModes endpoint =
      if kassert && !(tree.node this).isActive then (.assertionFailed, tree)
      else (.returned,
        tree.moveTo this (stoppedNode (tree.node this) localMode globalModes endpoint)
          (tree.node this).parentPtr) := by
  rw [stopImpl]
  cases globalModes <;> simp [update, moveTo, stoppedNode]

theorem atCurrent_eq {tree : TimerTree D} {current : ℕ} (hcurrent : tree.currentNode = some current)
    (f : ℕ → Effect × TimerTree D) : tree.atCurrent f = f current := by
  rw [atCurrent, hcurrent]

end TimerTree

section Calls

variable {tree : TimerTree D} {started : List (List String)} {pathOf : ℕ → List String}
variable {this : ℕ} {node : TimerTreeNode D}

theorem sameLinks_update (hlinks : SameLinks node (tree.node this)) (id : ℕ) :
    SameLinks (Function.update tree.node this node id) (tree.node id) := by
  obtain rfl | hne := eq_or_ne id this
  · rwa [Function.update_self]
  · rw [Function.update_of_ne hne]
    exact ⟨rfl, rfl, rfl, rfl⟩

theorem Shape.moveTo (h : Shape tree started pathOf) (hlinks : SameLinks node (tree.node this))
    (next : Option ℕ) : Shape (tree.moveTo this node next) started pathOf :=
  h.of_sameLinks rfl (sameLinks_update hlinks)

theorem sameLinks_started (node : TimerTreeNode D) (startPoint : D) :
    SameLinks (startedNode node startPoint) node := ⟨rfl, rfl, rfl, rfl⟩

theorem sameLinks_stopped [Add D] [Sub D] (node : TimerTreeNode D)
    (localMode : LocalAggregationMode) (globalModes : List GlobalAggregationMode)
    (endpoint : D) : SameLinks (stoppedNode node localMode globalModes endpoint) node :=
  ⟨rfl, rfl, rfl, rfl⟩

/-- The root may have any parent. -/
theorem Shape.setRootParent (h : Shape tree started pathOf) (parent : Option ℕ) :
    Shape (tree.update root fun node => { node with parentPtr := parent }) started pathOf := by
  have hnode : ∀ id, ((tree.update root fun node => { node with parentPtr := parent }).node
      id).name = (tree.node id).name ∧
      ((tree.update root fun node => { node with parentPtr := parent }).node id).childrenMap =
        (tree.node id).childrenMap ∧
      ((tree.update root fun node => { node with parentPtr := parent }).node
        id).childrenStorage = (tree.node id).childrenStorage := by
    intro id
    obtain rfl | hne := eq_or_ne id root
    · simp [TimerTree.update]
    · simp [TimerTree.update, Function.update_of_ne hne]
  refine
    { root_lt := h.root_lt
      pathOf_root := h.pathOf_root
      name_root := (hnode root).1.trans h.name_root
      length_le := h.length_le
      injective := h.injective
      mem_started := h.mem_started
      parent := fun id hid hne => ?_
      name := fun id hid hne => (hnode id).1 ▸ h.name id hid hne
      childrenMap := fun id hid => (hnode id).2.1 ▸ h.childrenMap id hid
      children := fun id hid => (hnode id).2.2 ▸ h.children id hid }
  obtain ⟨other, hother, hptr, hpath⟩ := h.parent id hid hne
  have hroot : id ≠ root := fun hroot => hne (hroot ▸ h.pathOf_root)
  refine ⟨other, hother, ?_, hpath⟩
  simpa [TimerTree.update, Function.update_of_ne hroot] using hptr

variable [Inhabited D]

theorem shape_fromRoot : Shape (fromRoot : TimerTree D) [] fun _ => [] where
  root_lt := Nat.zero_lt_one
  pathOf_root := rfl
  name_root := rfl
  length_le _ _ := Nat.zero_le _
  injective _ hid _ hother _ := (Nat.lt_one_iff.mp hid).trans (Nat.lt_one_iff.mp hother).symm
  mem_started path := by
    simp only [List.not_mem_nil, false_iff]
    rintro ⟨hne, -, -, rfl⟩
    exact hne rfl
  parent _ _ hne := absurd rfl hne
  name _ _ hne := absurd rfl hne
  childrenMap _ _ key child := by simp [fromRoot, TimerTreeNode.construct]
  children _ _ := ⟨fun child hchild => absurd hchild List.not_mem_nil, rfl⟩

theorem shape_construct : Shape (construct : TimerTree D) [] fun _ => [] :=
  shape_fromRoot.setRootParent (some root)

/-- A start finds or inserts the node at the path of the current one and the key. -/
theorem Shape.findOrInsert (h : Shape tree started pathOf) (hthis : this < tree.allocated)
    (key : String) :
    ∃ pathOf',
      Shape (tree.findOrInsert this key).2 (started ++ [pathOf this ++ [key]]) pathOf' ∧
        (tree.findOrInsert this key).1 < (tree.findOrInsert this key).2.allocated ∧
        pathOf' (tree.findOrInsert this key).1 = pathOf this ++ [key] ∧
        ∀ id < tree.allocated, pathOf' id = pathOf id := by
  rw [TimerTree.findOrInsert]
  cases hchild : (tree.node this).childrenMap key with
  | some child =>
      obtain ⟨hlt, hpath⟩ := (h.childrenMap this hthis key child).mp hchild
      have hstarted : pathOf this ++ [key] ∈ started :=
        (h.mem_started _).mpr ⟨by simp, child, hlt, hpath⟩
      exact ⟨pathOf, h.restart _ hstarted, hlt, hpath, fun _ _ => rfl⟩
  | none =>
      exact ⟨_, h.insertChild hthis hchild, Nat.lt_succ_self _, extendPaths_allocated ..,
        fun _ hid => extendPaths_of_lt hid _⟩

end Calls

/-! ## Nodes at paths -/

/-- The node at a path below a node, found by the names of the children. -/
def TimerTree.nodeBelow (tree : TimerTree D) : ℕ → List String → Option ℕ
  | id, [] => some id
  | id, key :: path =>
      ((tree.node id).childrenMap key).bind fun child => tree.nodeBelow child path

def TimerTree.nodeAt (tree : TimerTree D) (path : List String) : Option ℕ :=
  tree.nodeBelow root path

section Shape

variable {tree : TimerTree D} {started : List (List String)} {pathOf : ℕ → List String}

/-- Nodes lie at all prefixes of the path of a node. -/
theorem Shape.exists_ancestor (h : Shape tree started pathOf) {id : ℕ}
    (hid : id < tree.allocated) {front back : List String} (hpath : pathOf id = front ++ back) :
    ∃ ancestor < tree.allocated, pathOf ancestor = front := by
  induction back using List.reverseRecOn generalizing id with
  | nil => exact ⟨id, hid, by rw [hpath, List.append_nil]⟩
  | append_singleton back key ih =>
      obtain ⟨parent, hparent, -, hpathParent⟩ := h.parent id hid (by simp [hpath])
      refine ih hparent ?_
      rw [hpathParent, hpath, ← List.append_assoc, List.dropLast_concat]

theorem Shape.nodeBelow_eq_some (h : Shape tree started pathOf) {id other : ℕ}
    (hid : id < tree.allocated) {path : List String} :
    tree.nodeBelow id path = some other ↔
      other < tree.allocated ∧ pathOf other = pathOf id ++ path := by
  induction path generalizing id with
  | nil =>
      rw [TimerTree.nodeBelow, Option.some.injEq, List.append_nil]
      constructor
      · rintro rfl
        exact ⟨hid, rfl⟩
      · rintro ⟨hother, hpath⟩
        exact h.injective id hid other hother hpath.symm
  | cons key path ih =>
      rw [TimerTree.nodeBelow, Option.bind_eq_some_iff]
      constructor
      · rintro ⟨child, hchild, hbelow⟩
        obtain ⟨hlt, hpath⟩ := (h.childrenMap id hid key child).mp hchild
        rw [ih hlt, hpath, List.append_assoc, List.singleton_append] at hbelow
        exact hbelow
      · rintro ⟨hother, hpath⟩
        have hsplit : pathOf other = (pathOf id ++ [key]) ++ path := by
          rw [hpath, List.append_assoc, List.singleton_append]
        obtain ⟨child, hlt, hpathChild⟩ := h.exists_ancestor hother hsplit
        refine ⟨child, (h.childrenMap id hid key child).mpr ⟨hlt, hpathChild⟩, ?_⟩
        rw [ih hlt, hpathChild, List.append_assoc, List.singleton_append]
        exact ⟨hother, hpath⟩

theorem Shape.nodeAt_eq_some (h : Shape tree started pathOf) {id : ℕ} {path : List String} :
    tree.nodeAt path = some id ↔ id < tree.allocated ∧ pathOf id = path := by
  rw [TimerTree.nodeAt, h.nodeBelow_eq_some h.root_lt, h.pathOf_root, List.nil_append]

theorem Shape.name_eq (h : Shape tree started pathOf) {child : ℕ}
    (hchild : child < tree.allocated) {parent : List String} {key : String}
    (hpath : pathOf child = parent ++ [key]) : (tree.node child).name = key := by
  have hname := h.name child hchild (by simp [hpath])
  rw [hpath, List.getLast?_concat] at hname
  exact (Option.some.inj hname).symm

/-- Paths of the stored children of a node. -/
theorem Shape.pathOf_child (h : Shape tree started pathOf) {id child : ℕ}
    (hid : id < tree.allocated) (hchild : child ∈ (tree.node id).childrenStorage) :
    pathOf child = pathOf id ++ [(tree.node child).name] := by
  obtain ⟨hlt, hkeys⟩ := h.children id hid
  have hmem := List.mem_map_of_mem (f := pathOf) hchild
  rw [hkeys] at hmem
  obtain ⟨key, -, hpath⟩ := List.mem_map.mp hmem
  rw [h.name_eq (hlt child hchild) hpath.symm, hpath]

theorem Shape.map_name (h : Shape tree started pathOf) {id : ℕ} (hid : id < tree.allocated) :
    (tree.node id).childrenStorage.map (fun child => (tree.node child).name) =
      childKeys started (pathOf id) := by
  have hpaths : (tree.node id).childrenStorage.map
      (fun child => pathOf id ++ [(tree.node child).name]) =
        (childKeys started (pathOf id)).map fun key => pathOf id ++ [key] := by
    rw [← (h.children id hid).2]
    exact List.map_congr_left fun child hchild => (h.pathOf_child hid hchild).symm
  have hinjective : Function.Injective fun key : String => pathOf id ++ [key] :=
    fun left right hsame => by simpa using hsame
  refine List.map_injective_iff.mpr hinjective ?_
  rw [List.map_map]
  exact hpaths

theorem Shape.lookup (h : Shape tree started pathOf) {id : ℕ} (hid : id < tree.allocated)
    (key : String) :
    (tree.node id).childrenMap key =
      (tree.node id).childrenStorage.find? fun child => (tree.node child).name = key := by
  cases hfind : (tree.node id).childrenStorage.find? fun child =>
      (tree.node child).name = key with
  | some child =>
      have hmem := List.mem_of_find?_eq_some hfind
      have hname := List.find?_some hfind
      rw [decide_eq_true_eq] at hname
      refine (h.childrenMap id hid key child).mpr ⟨(h.children id hid).1 child hmem, ?_⟩
      rw [h.pathOf_child hid hmem, hname]
  | none =>
      rw [List.find?_eq_none] at hfind
      rw [Option.eq_none_iff_forall_not_mem]
      intro child hchild
      obtain ⟨hlt, hpath⟩ := (h.childrenMap id hid key child).mp hchild
      have hkey : key ∈ childKeys started (pathOf id) := by
        rw [mem_childKeys, h.mem_started]
        exact ⟨by simp, child, hlt, hpath⟩
      rw [← h.map_name hid] at hkey
      obtain ⟨stored, hstored, hname⟩ := List.mem_map.mp hkey
      exact hfind stored hstored (by simpa using hname)

end Shape

end MpiBindings.Measurements
