import Mathlib.Data.List.Nodup

/-!
# Rose trees

Finite ordered trees with a label at every node.  Trees of one shape on several
ranks are one tree whose labels hold the data of all ranks.
-/

namespace MpiBindings

inductive RoseTree (L : Type)
  | node (label : L) (children : List (RoseTree L))

namespace RoseTree

variable {L M K : Type}

def label : RoseTree L → L
  | .node label _ => label

def children : RoseTree L → List (RoseTree L)
  | .node _ children => children

mutual

/-- Relabel every node. -/
def map (f : L → M) : RoseTree L → RoseTree M
  | .node label children => .node (f label) (mapForest f children)

def mapForest (f : L → M) : List (RoseTree L) → List (RoseTree M)
  | [] => []
  | tree :: trees => tree.map f :: mapForest f trees

end

theorem mapForest_eq (f : L → M) (trees : List (RoseTree L)) :
    mapForest f trees = trees.map (map f) := by
  induction trees with
  | nil => rfl
  | cons tree trees ih => rw [mapForest, ih, List.map_cons]

@[simp]
theorem label_map (f : L → M) (tree : RoseTree L) : (tree.map f).label = f tree.label := by
  cases tree
  rw [map, label, label]

mutual

/-- Siblings have different keys. -/
def SiblingsDiffer (key : L → K) : RoseTree L → Prop
  | .node _ children =>
      (children.map fun child => key child.label).Nodup ∧ ForestSiblingsDiffer key children

def ForestSiblingsDiffer (key : L → K) : List (RoseTree L) → Prop
  | [] => True
  | tree :: trees => tree.SiblingsDiffer key ∧ ForestSiblingsDiffer key trees

end

mutual

/-- Trees with related labels in the same places. -/
def Related (r : L → M → Prop) : RoseTree L → RoseTree M → Prop
  | .node label children, .node label' children' =>
      r label label' ∧ ForestRelated r children children'

def ForestRelated (r : L → M → Prop) : List (RoseTree L) → List (RoseTree M) → Prop
  | [], [] => True
  | tree :: trees, tree' :: trees' => tree.Related r tree' ∧ ForestRelated r trees trees'
  | _, _ => False

end

mutual

theorem map_map (f : L → M) (g : M → K) : ∀ tree : RoseTree L,
    (tree.map f).map g = tree.map (g ∘ f)
  | .node label children => by
      rw [map, map, map, mapForest_mapForest f g children, Function.comp_apply]

theorem mapForest_mapForest (f : L → M) (g : M → K) : ∀ trees : List (RoseTree L),
    mapForest g (mapForest f trees) = mapForest (g ∘ f) trees
  | [] => rfl
  | tree :: trees => by
      rw [mapForest, mapForest, mapForest, map_map f g tree, mapForest_mapForest f g trees]

end

theorem mapForest_label (f : L → M) (key : M → K) (trees : List (RoseTree L)) :
    ((mapForest f trees).map fun tree => key tree.label) =
      trees.map fun tree => key (f tree.label) := by
  rw [mapForest_eq, List.map_map]
  refine List.map_congr_left fun tree _ => ?_
  rw [Function.comp_apply, label_map]

mutual

theorem siblingsDiffer_map (f : L → M) (key : M → K) : ∀ tree : RoseTree L,
    (tree.map f).SiblingsDiffer key ↔ tree.SiblingsDiffer fun label => key (f label)
  | .node label children => by
      rw [map, SiblingsDiffer, SiblingsDiffer, mapForest_label,
        forestSiblingsDiffer_mapForest f key children]

theorem forestSiblingsDiffer_mapForest (f : L → M) (key : M → K) : ∀ trees : List (RoseTree L),
    ForestSiblingsDiffer key (mapForest f trees) ↔
      ForestSiblingsDiffer (fun label => key (f label)) trees
  | [] => Iff.rfl
  | tree :: trees => by
      rw [mapForest, ForestSiblingsDiffer, ForestSiblingsDiffer, siblingsDiffer_map f key tree,
        forestSiblingsDiffer_mapForest f key trees]

end

/-! ## Paths -/

section Paths

variable (key : L → K)

mutual

/-- The nodes in preorder, each with the keys on the way from the root to it. -/
def paths (above : List K) : RoseTree L → List (List K × L)
  | .node label children =>
      (above ++ [key label], label) :: forestPaths (above ++ [key label]) children

def forestPaths (above : List K) : List (RoseTree L) → List (List K × L)
  | [] => []
  | tree :: trees => tree.paths above ++ forestPaths above trees

end

mutual

theorem exists_of_mem_paths : ∀ (tree : RoseTree L) {above : List K} {entry : List K × L},
    entry ∈ tree.paths key above → ∃ below, entry.1 = above ++ key tree.label :: below
  | .node label children, above, entry, hentry => by
      rw [paths, List.mem_cons] at hentry
      rcases hentry with rfl | hentry
      · exact ⟨[], rfl⟩
      · obtain ⟨child, -, below, hbelow⟩ := exists_of_mem_forestPaths children hentry
        exact ⟨key child.label :: below, by rw [hbelow, List.append_assoc]; rfl⟩

theorem exists_of_mem_forestPaths : ∀ (trees : List (RoseTree L)) {above : List K}
    {entry : List K × L}, entry ∈ forestPaths key above trees →
      ∃ tree ∈ trees, ∃ below, entry.1 = above ++ key tree.label :: below
  | [], above, entry, hentry => by cases hentry
  | tree :: trees, above, entry, hentry => by
      rw [forestPaths, List.mem_append] at hentry
      rcases hentry with hentry | hentry
      · exact ⟨tree, List.mem_cons_self, exists_of_mem_paths tree hentry⟩
      · obtain ⟨other, hother, hbelow⟩ := exists_of_mem_forestPaths trees hentry
        exact ⟨other, List.mem_cons_of_mem _ hother, hbelow⟩

end

mutual

/-- Where siblings have different keys, different nodes have different paths. -/
theorem nodup_paths : ∀ (tree : RoseTree L) (above : List K), tree.SiblingsDiffer key →
    ((tree.paths key above).map Prod.fst).Nodup
  | .node label children, above, hdiffer => by
      rw [SiblingsDiffer] at hdiffer
      rw [paths, List.map_cons, List.nodup_cons]
      refine ⟨fun hmem => ?_, nodup_forestPaths children _ hdiffer.1 hdiffer.2⟩
      obtain ⟨entry, hentry, heq⟩ := List.mem_map.mp hmem
      obtain ⟨child, -, below, hbelow⟩ := exists_of_mem_forestPaths key children hentry
      rw [hbelow] at heq
      exact List.cons_ne_nil _ _ (List.append_right_eq_self.mp heq)

theorem nodup_forestPaths : ∀ (trees : List (RoseTree L)) (above : List K),
    (trees.map fun tree => key tree.label).Nodup → ForestSiblingsDiffer key trees →
      ((forestPaths key above trees).map Prod.fst).Nodup
  | [], above, _, _ => List.nodup_nil
  | tree :: trees, above, hkeys, hdiffer => by
      rw [List.map_cons, List.nodup_cons] at hkeys
      rw [ForestSiblingsDiffer] at hdiffer
      rw [forestPaths, List.map_append, List.nodup_append']
      refine ⟨nodup_paths tree above hdiffer.1,
        nodup_forestPaths trees above hkeys.2 hdiffer.2, fun path htree htrees => ?_⟩
      obtain ⟨entry, hentry, rfl⟩ := List.mem_map.mp htree
      obtain ⟨other, hother, heq⟩ := List.mem_map.mp htrees
      obtain ⟨below, hbelow⟩ := exists_of_mem_paths key tree hentry
      obtain ⟨sibling, hsibling, rest, hrest⟩ := exists_of_mem_forestPaths key trees hother
      rw [hbelow, hrest, List.append_cancel_left_eq, List.cons.injEq] at heq
      exact hkeys.1 (List.mem_map.mpr ⟨sibling, hsibling, heq.1⟩)

end

mutual

/-- The keys on a path are keys of the tree or come from above it. -/
theorem forall_mem_paths {p : K → Prop} : ∀ (tree : RoseTree L) {above : List K},
    (∀ k ∈ above, p k) → (∀ node ∈ tree.paths key above, p (key node.2)) →
      ∀ node ∈ tree.paths key above, ∀ k ∈ node.1, p k
  | .node label children, above, habove, hkeys => by
      rw [paths, List.forall_mem_cons] at hkeys ⊢
      have hlabel : ∀ k ∈ above ++ [key label], p k := by
        rw [List.forall_mem_append, List.forall_mem_singleton]
        exact ⟨habove, hkeys.1⟩
      exact ⟨hlabel, forall_mem_forestPaths children hlabel hkeys.2⟩

theorem forall_mem_forestPaths {p : K → Prop} : ∀ (trees : List (RoseTree L)) {above : List K},
    (∀ k ∈ above, p k) → (∀ node ∈ forestPaths key above trees, p (key node.2)) →
      ∀ node ∈ forestPaths key above trees, ∀ k ∈ node.1, p k
  | [], _, _, _ => List.forall_mem_nil _
  | tree :: trees, above, habove, hkeys => by
      rw [forestPaths, List.forall_mem_append] at hkeys ⊢
      exact ⟨forall_mem_paths tree habove hkeys.1,
        forall_mem_forestPaths trees habove hkeys.2⟩

end

end Paths

/-! ## Families of trees -/

/-- The labels of one node in a family of trees, each related to a reference label. -/
structure LabelFamily (ι : Type) (r : L → M → Prop) where
  reference : L
  labels : ι → M
  related : ∀ i, r reference (labels i)

section Families

variable {ι : Type} {r : L → M → Prop}

mutual

/-- Trees related to one tree are one tree of label families. -/
theorem exists_family : ∀ (reference : RoseTree L) (trees : ι → RoseTree M),
    (∀ i, reference.Related r (trees i)) →
      ∃ family : RoseTree (LabelFamily ι r),
        family.map LabelFamily.reference = reference ∧
          ∀ i, family.map (LabelFamily.labels · i) = trees i
  | .node label children, trees, hrelated => by
      have hnode : ∀ i, ∃ other others, trees i = .node other others ∧ r label other ∧
          ForestRelated r children others := by
        intro i
        have hi := hrelated i
        generalize trees i = tree at hi
        cases tree with
        | node other others => exact ⟨other, others, rfl, hi.1, hi.2⟩
      choose labels forests htrees hlabels hforests using hnode
      obtain ⟨family, hreference, hfamily⟩ := exists_forestFamily children forests hforests
      refine ⟨.node ⟨label, labels, hlabels⟩ family, ?_, fun i => ?_⟩
      · rw [map, hreference]
      · rw [map, hfamily i, htrees i]

theorem exists_forestFamily : ∀ (references : List (RoseTree L)) (forests : ι → List (RoseTree M)),
    (∀ i, ForestRelated r references (forests i)) →
      ∃ family : List (RoseTree (LabelFamily ι r)),
        mapForest LabelFamily.reference family = references ∧
          ∀ i, mapForest (LabelFamily.labels · i) family = forests i
  | [], forests, hrelated => by
      refine ⟨[], rfl, fun i => ?_⟩
      have hi := hrelated i
      generalize forests i = forest at hi
      cases forest with
      | nil => rfl
      | cons tree trees => exact hi.elim
  | reference :: references, forests, hrelated => by
      have hforest : ∀ i, ∃ tree trees, forests i = tree :: trees ∧ reference.Related r tree ∧
          ForestRelated r references trees := by
        intro i
        have hi := hrelated i
        generalize forests i = forest at hi
        cases forest with
        | nil => exact hi.elim
        | cons tree trees => exact ⟨tree, trees, rfl, hi.1, hi.2⟩
      choose heads tails hcons hheads htails using hforest
      obtain ⟨family, hreference, hfamily⟩ := exists_family reference heads hheads
      obtain ⟨families, hreferences, hfamilies⟩ := exists_forestFamily references tails htails
      refine ⟨family :: families, ?_, fun i => ?_⟩
      · rw [mapForest, hreference, hreferences]
      · rw [mapForest, hfamily i, hfamilies i, hcons i]

end

end Families

end RoseTree

end MpiBindings
