import MpiBindings.Measurements.Printers

/-!
# The flat printer

`FlatPrinter` writes every measurement under the names on the way to its node.  It keeps
these names on a stack that the recursion and all later calls share.
-/

namespace MpiBindings.Measurements

structure FlatPrinter where
  outstream : Outstream
  keyStack : List String

variable {D : Type}

/-- `concatenate_key_stack`. -/
def concatenateKeyStack (keyStack : List String) : List Char :=
  keyStack.foldl (fun str key => (if str = [] then str else str ++ ['.']) ++ key.toList) []

namespace FlatPrinter

variable (showDuration : D → String)

/-- The body of the loop over the aggregated data. -/
def printMode (label : PrintedLabel D) (printer : FlatPrinter)
    (operation : GlobalAggregationMode) : FlatPrinter :=
  let outstream := write " " printer.outstream
  let outstream := outstream ++ concatenateKeyStack printer.keyStack
  let outstream := write "=[" (write (getString operation) (write ":" outstream))
  let outstream := printData showDuration (label.aggregatedData operation) outstream
  { printer with outstream := write "]" outstream }

mutual

/-- `FlatPrinter::print`. -/
def print : RoseTree (PrintedLabel D) → FlatPrinter → FlatPrinter
  | .node label children, printer =>
      let printer := { printer with keyStack := printer.keyStack ++ [label.name] }
      let printer := label.modes.foldl (printMode showDuration label) printer
      let printer := printChildren children printer
      { printer with keyStack := printer.keyStack.dropLast }

/-- The loop over the children. -/
def printChildren : List (RoseTree (PrintedLabel D)) → FlatPrinter → FlatPrinter
  | [], printer => printer
  | child :: children, printer => printChildren children (print child printer)

end

end FlatPrinter

/-! ## Entries -/

/-- A measurement in the output. -/
structure FlatEntry (D : Type) where
  identifier : List Char
  operation : GlobalAggregationMode
  data : List (ScalarOrContainer D)

def FlatEntry.text (showDuration : D → String) (entry : FlatEntry D) : List Char :=
  " ".toList ++ entry.identifier ++ ":".toList ++ (getString entry.operation).toList ++
    "=[".toList ++ dataText showDuration entry.data ++ "]".toList

/-- The dot-joined names of a path. -/
def pathIdentifier (path : List String) : List Char := separatedText "." String.toList path

/-- One entry for each aggregation mode of a node. -/
def nodeEntries (node : List String × PrintedLabel D) : List (FlatEntry D) :=
  node.2.modes.map fun operation =>
    ⟨pathIdentifier node.1, operation, node.2.aggregatedData operation⟩

/-- The entries of a tree: its nodes in preorder, and for each node its modes. -/
def flatEntries (tree : RoseTree (PrintedLabel D)) : List (FlatEntry D) :=
  (namedPaths tree).flatMap nodeEntries

def entriesText (showDuration : D → String) (nodes : List (List String × PrintedLabel D)) :
    List Char :=
  (nodes.flatMap nodeEntries).flatMap (FlatEntry.text showDuration)

theorem entriesText_cons (showDuration : D → String) (node : List String × PrintedLabel D)
    (nodes : List (List String × PrintedLabel D)) :
    entriesText showDuration (node :: nodes) =
      (nodeEntries node).flatMap (FlatEntry.text showDuration) ++
        entriesText showDuration nodes := by
  rw [entriesText, List.flatMap_cons, List.flatMap_append]
  rfl

theorem entriesText_append (showDuration : D → String)
    (nodes nodes' : List (List String × PrintedLabel D)) :
    entriesText showDuration (nodes ++ nodes') =
      entriesText showDuration nodes ++ entriesText showDuration nodes' := by
  rw [entriesText, List.flatMap_append, List.flatMap_append]
  rfl

/-- Names are not empty and have no dot, and siblings have different names. -/
structure FlatNames (tree : RoseTree (PrintedLabel D)) : Prop where
  nonempty : ∀ node ∈ namedPaths tree, node.2.name ≠ ""
  noDot : ∀ node ∈ namedPaths tree, '.' ∉ node.2.name.toList
  siblings : tree.SiblingsDiffer fun label => label.name

/-! ## The printer -/

/-- Behind a text that is not empty every key gets its dot. -/
theorem foldl_concatenate {str : List Char} (hstr : str ≠ []) (keyStack : List String) :
    keyStack.foldl (fun str key => (if str = [] then str else str ++ ['.']) ++ key.toList) str =
      str ++ keyStack.flatMap fun key => ".".toList ++ key.toList := by
  induction keyStack generalizing str with
  | nil => exact (List.append_nil str).symm
  | cons key keyStack ih =>
      rw [List.foldl_cons, if_neg hstr, ih (by simp), List.flatMap_cons, List.append_assoc,
        List.append_assoc, List.append_assoc]
      rfl

theorem concatenateKeyStack_eq {keyStack : List String} (hkeys : ∀ key ∈ keyStack, key ≠ "") :
    concatenateKeyStack keyStack = pathIdentifier keyStack := by
  cases keyStack with
  | nil => rfl
  | cons key keyStack =>
      have hkey : key.toList ≠ [] := fun hempty =>
        hkeys key List.mem_cons_self (String.toList_eq_nil_iff.mp hempty)
      rw [concatenateKeyStack, List.foldl_cons, if_pos rfl, List.nil_append,
        foldl_concatenate hkey, pathIdentifier, separatedText_cons]

section Printing

variable (showDuration : D → String)

/-- The entry of a mode under the names on the stack. -/
theorem printMode_eq (label : PrintedLabel D) (outstream : Outstream) {keyStack : List String}
    (hkeys : ∀ key ∈ keyStack, key ≠ "") (operation : GlobalAggregationMode) :
    FlatPrinter.printMode showDuration label ⟨outstream, keyStack⟩ operation =
      ⟨outstream ++ FlatEntry.text showDuration
        ⟨pathIdentifier keyStack, operation, label.aggregatedData operation⟩, keyStack⟩ := by
  rw [FlatPrinter.printMode, concatenateKeyStack_eq hkeys, printData_eq, FlatEntry.text]
  simp only [write, List.append_assoc]

theorem foldl_printMode (label : PrintedLabel D) (outstream : Outstream)
    {keyStack : List String} (hkeys : ∀ key ∈ keyStack, key ≠ "")
    (modes : List GlobalAggregationMode) :
    modes.foldl (FlatPrinter.printMode showDuration label) ⟨outstream, keyStack⟩ =
      ⟨outstream ++ (modes.map fun operation =>
        ⟨pathIdentifier keyStack, operation, label.aggregatedData operation⟩).flatMap
          (FlatEntry.text showDuration), keyStack⟩ := by
  induction modes generalizing outstream with
  | nil => rw [List.foldl_nil, List.map_nil, List.flatMap_nil, List.append_nil]
  | cons mode modes ih =>
      rw [List.foldl_cons, printMode_eq showDuration label outstream hkeys, ih, List.map_cons,
        List.flatMap_cons, List.append_assoc]

mutual

/-- A call appends the entries of its tree under the names on the stack, and leaves the
stack as it was. -/
theorem print_eq : ∀ (tree : RoseTree (PrintedLabel D)) (outstream : Outstream)
    (keyStack : List String), (∀ key ∈ keyStack, key ≠ "") →
    (∀ node ∈ tree.paths (fun label => label.name) keyStack, node.2.name ≠ "") →
      FlatPrinter.print showDuration tree ⟨outstream, keyStack⟩ =
        ⟨outstream ++ entriesText showDuration (tree.paths (fun label => label.name) keyStack),
          keyStack⟩
  | .node label children, outstream, keyStack, hkeys, hnames => by
      rw [RoseTree.paths, List.forall_mem_cons] at hnames
      have hstack : ∀ key ∈ keyStack ++ [label.name], key ≠ "" := by
        rw [List.forall_mem_append, List.forall_mem_singleton]
        exact ⟨hkeys, hnames.1⟩
      rw [FlatPrinter.print, foldl_printMode showDuration label outstream hstack,
        printChildren_eq children _ _ hstack hnames.2, RoseTree.paths, entriesText_cons,
        nodeEntries, List.append_assoc, List.dropLast_concat]

theorem printChildren_eq : ∀ (children : List (RoseTree (PrintedLabel D)))
    (outstream : Outstream) (keyStack : List String), (∀ key ∈ keyStack, key ≠ "") →
    (∀ node ∈ RoseTree.forestPaths (fun label => label.name) keyStack children,
      node.2.name ≠ "") →
      FlatPrinter.printChildren showDuration children ⟨outstream, keyStack⟩ =
        ⟨outstream ++ entriesText showDuration
          (RoseTree.forestPaths (fun label => label.name) keyStack children), keyStack⟩
  | [], outstream, keyStack, _, _ => by
      rw [FlatPrinter.printChildren, RoseTree.forestPaths, entriesText, List.flatMap_nil,
        List.flatMap_nil, List.append_nil]
  | child :: children, outstream, keyStack, hkeys, hnames => by
      rw [RoseTree.forestPaths, List.forall_mem_append] at hnames
      rw [FlatPrinter.printChildren, print_eq child outstream keyStack hkeys hnames.1,
        printChildren_eq children _ keyStack hkeys hnames.2, RoseTree.forestPaths,
        entriesText_append, List.append_assoc]

end

end Printing

/-! ## Identifiers -/

/-- Names without dots are found again in the identifier. -/
theorem splitOn_pathIdentifier {path : List String} (hne : path ≠ [])
    (hnoDot : ∀ name ∈ path, '.' ∉ name.toList) :
    (pathIdentifier path).splitOn '.' = path.map String.toList := by
  have hdot : ".".toList = ['.'] := rfl
  rw [pathIdentifier, separatedText, hdot]
  apply List.splitOn_intercalate
  · intro name hname
    obtain ⟨key, hkey, rfl⟩ := List.mem_map.mp hname
    exact hnoDot key hkey
  · rwa [ne_eq, List.map_eq_nil_iff]

/-- Different nodes of a tree have different identifiers. -/
theorem nodup_identifiers {tree : RoseTree (PrintedLabel D)} (hnames : FlatNames tree) :
    ((namedPaths tree).map fun node => pathIdentifier node.1).Nodup := by
  have hnoDot : ∀ node ∈ namedPaths tree, ∀ name ∈ node.1, '.' ∉ name.toList :=
    RoseTree.forall_mem_paths _ tree (List.forall_mem_nil _) hnames.noDot
  have hne : ∀ node ∈ namedPaths tree, node.1 ≠ [] := fun node hnode => by
    obtain ⟨below, hbelow⟩ := RoseTree.exists_of_mem_paths _ tree hnode
    rw [hbelow]
    exact List.cons_ne_nil _ _
  have hpaths : ((namedPaths tree).map Prod.fst).Nodup :=
    RoseTree.nodup_paths _ tree [] hnames.siblings
  have hmap : ((namedPaths tree).map fun node => pathIdentifier node.1) =
      ((namedPaths tree).map Prod.fst).map pathIdentifier := List.map_map.symm
  rw [hmap]
  refine hpaths.map_on fun path hpath path' hpath' heq => ?_
  obtain ⟨node, hnode, rfl⟩ := List.mem_map.mp hpath
  obtain ⟨node', hnode', rfl⟩ := List.mem_map.mp hpath'
  have hsplit := splitOn_pathIdentifier (hne node hnode) (hnoDot node hnode)
  rw [heq, splitOn_pathIdentifier (hne node' hnode') (hnoDot node' hnode')] at hsplit
  exact (List.map_injective_iff.mpr (fun _ _ => String.toList_injective) hsplit).symm

/-! ## Sequences of calls -/

/-- Successive calls of `print` on one printer. -/
def printCalls (showDuration : D → String) (trees : List (RoseTree (PrintedLabel D)))
    (printer : FlatPrinter) : FlatPrinter :=
  trees.foldl (fun printer tree => printer.print showDuration tree) printer

/-- Every sequence of calls appends the entries of its trees and ends with an empty stack;
within a call different nodes have different identifiers. -/
theorem printCalls_entries (showDuration : D → String)
    (trees : List (RoseTree (PrintedLabel D))) (outstream : Outstream)
    (hnames : ∀ tree ∈ trees, FlatNames tree) :
    printCalls showDuration trees ⟨outstream, []⟩ =
        ⟨outstream ++ trees.flatMap fun tree =>
          (flatEntries tree).flatMap (FlatEntry.text showDuration), []⟩ ∧
      ∀ tree ∈ trees, ((namedPaths tree).map fun node => pathIdentifier node.1).Nodup := by
  refine ⟨?_, fun tree htree => nodup_identifiers (hnames tree htree)⟩
  induction trees generalizing outstream with
  | nil => exact congrArg (FlatPrinter.mk · []) (List.append_nil outstream).symm
  | cons tree trees ih =>
      rw [List.forall_mem_cons] at hnames
      have hcall := print_eq showDuration tree outstream [] (List.forall_mem_nil _)
        hnames.1.nonempty
      have hrest := ih (outstream ++ entriesText showDuration (namedPaths tree)) hnames.2
      rw [printCalls, List.foldl_cons, hcall, List.flatMap_cons, ← List.append_assoc]
      exact hrest

/-- The timer tree in the documentation of the printer. -/
def algoTree : RoseTree (PrintedLabel ℕ) :=
  .node (.single "algo" .max [.scalar 7]) [
    .node (.single "subroutine" .gather [.container [4, 5]]) [
      .node (.single "subsubroutine" .min [.scalar 2]) []]]

theorem flatNames_algoTree : FlatNames algoTree :=
  ⟨by decide, by decide,
    by simp [algoTree, RoseTree.SiblingsDiffer, RoseTree.ForestSiblingsDiffer]⟩

theorem printCalls_entries_algo :
    printCalls toString [algoTree, algoTree] ⟨[], []⟩ =
        ⟨[] ++ [algoTree, algoTree].flatMap fun tree =>
          (flatEntries tree).flatMap (FlatEntry.text toString), []⟩ ∧
      ∀ tree ∈ [algoTree, algoTree],
        ((namedPaths tree).map fun node => pathIdentifier node.1).Nodup :=
  printCalls_entries toString [algoTree, algoTree] [] (by
    rw [List.forall_mem_cons, List.forall_mem_singleton]
    exact ⟨flatNames_algoTree, flatNames_algoTree⟩)

/-- The documented output. -/
example :
    (printCalls toString [algoTree] ⟨[], []⟩).outstream =
      (" algo:max=[7] algo.subroutine:gather=[[4, 5]]" ++
        " algo.subroutine.subsubroutine:min=[2]").toList := by
  decide +kernel

end MpiBindings.Measurements
