import MpiBindings.Core.Json
import MpiBindings.Measurements.Printers

/-!
# The JSON printer

`SimpleJsonPrinter` writes a tree as one JSON member.  Its text is a member that parses
back to the name, the statistics and the children of the tree.
-/

namespace MpiBindings.Measurements

variable {D : Type}

/-- `std::string(indentation, ' ')`. -/
def spaces (indentation : ℕ) : String := String.ofList (List.replicate indentation ' ')

def quoteString (str : String) : String := "\"" ++ str ++ "\""

/-- Write a text and `std::endl`. -/
def writeLine (text : String) (outstream : Outstream) : Outstream :=
  write "\n" (write text outstream)

def indentationPerLevel : ℕ := 2

namespace SimpleJsonPrinter

variable (showDuration : D → String)

/-- The body of the loop over the statistics. -/
def printOperation (label : PrintedLabel D) (indentation : ℕ) (op : GlobalAggregationMode)
    (outstream : Outstream) : Outstream :=
  let outstream := write (spaces (indentation + 2 * indentationPerLevel)) outstream
  let outstream := write ": [" (write (quoteString (getString op)) outstream)
  write "]" (printData showDuration (label.aggregatedData op) outstream)

/-- The members of the statistics object. -/
def printStatistics (label : PrintedLabel D) (indentation : ℕ) (outstream : Outstream) :
    Outstream :=
  if label.modes ≠ [] then
    writeLine "" (printSeparated ",\n" (printOperation showDuration label indentation) true
      label.modes outstream)
  else outstream

mutual

/-- `SimpleJsonPrinter::print`. -/
def print : RoseTree (PrintedLabel D) → (indentation : ℕ) → Outstream → Outstream
  | .node label children, indentation, outstream =>
      let outstream := write (spaces indentation) outstream
      let outstream := writeLine ": \x7b" (write (quoteString label.name) outstream)
      let outstream := write (spaces (indentation + indentationPerLevel)) outstream
      let outstream := writeLine ": \x7b" (write (quoteString "statistics") outstream)
      let outstream := printStatistics showDuration label indentation outstream
      let outstream := write "\x7d" (write (spaces (indentation + indentationPerLevel)) outstream)
      let outstream := if children ≠ [] then write "," outstream else outstream
      let outstream := writeLine "" outstream
      let outstream := printChildren true children (indentation + indentationPerLevel) outstream
      let outstream := if children ≠ [] then writeLine "" outstream else outstream
      write "\x7d" (write (spaces indentation) outstream)

/-- The loop over the children. -/
def printChildren : (isFirst : Bool) → List (RoseTree (PrintedLabel D)) → (indentation : ℕ) →
    Outstream → Outstream
  | _, [], _, outstream => outstream
  | isFirst, child :: children, indentation, outstream =>
      let outstream := if isFirst then outstream else writeLine "," outstream
      printChildren false children indentation (print child indentation outstream)

end

end SimpleJsonPrinter

/-! ## The member of a tree -/

section Members

variable (showDuration : D → String)

def itemJson : ScalarOrContainer D → Json
  | .scalar scalar => .number (showDuration scalar)
  | .container vec => .array (vec.map fun elem => .number (showDuration elem))

/-- The data of a mode under its name. -/
def operationMember (label : PrintedLabel D) (op : GlobalAggregationMode) : String × Json :=
  (getString op, .array ((label.aggregatedData op).map (itemJson showDuration)))

/-- The statistics of a node in the order of the iteration. -/
def statisticsMember (label : PrintedLabel D) : String × Json :=
  ("statistics", .object (label.modes.map (operationMember showDuration label)))

mutual

/-- The name of a node with its statistics and its children. -/
def treeMember : RoseTree (PrintedLabel D) → String × Json
  | .node label children =>
      (label.name, .object (statisticsMember showDuration label :: forestMembers children))

def forestMembers : List (RoseTree (PrintedLabel D)) → List (String × Json)
  | [] => []
  | tree :: trees => treeMember tree :: forestMembers trees

end

end Members

/-! ## The text of a tree -/

section Texts

variable (showDuration : D → String)

/-- A quoted name, a colon and the text behind it. -/
def quotedMember (name : String) (text : List Char) : List Char :=
  '"' :: (name.toList ++ '"' :: ':' :: text)

/-- Comma-separated items in square brackets. -/
def listText (texts : List (List Char)) : List Char := Json.bracketed '[' ']' [] [' '] [] texts

def operationText (label : PrintedLabel D) (indentation : ℕ) (op : GlobalAggregationMode) :
    List Char :=
  (spaces (indentation + 2 * indentationPerLevel)).toList ++
    quotedMember (getString op)
      (' ' :: listText ((label.aggregatedData op).map (itemText showDuration)))

/-- The last statistic ends its line. -/
def statisticsText (label : PrintedLabel D) (indentation : ℕ) : List Char :=
  (spaces (indentation + indentationPerLevel)).toList ++
    quotedMember "statistics" (' ' :: Json.bracketed '{' '}' ['\n'] ['\n']
      ((if label.modes ≠ [] then ['\n'] else []) ++
        (spaces (indentation + indentationPerLevel)).toList)
      (label.modes.map (operationText showDuration label indentation)))

mutual

def treeText : RoseTree (PrintedLabel D) → ℕ → List Char
  | .node label children, indentation =>
      (spaces indentation).toList ++
        quotedMember label.name (' ' :: Json.bracketed '{' '}' ['\n'] ['\n']
          ('\n' :: (spaces indentation).toList)
          (statisticsText showDuration label indentation ::
            forestTexts children (indentation + indentationPerLevel)))

def forestTexts : List (RoseTree (PrintedLabel D)) → ℕ → List (List Char)
  | [], _ => []
  | child :: children, indentation =>
      treeText child indentation :: forestTexts children indentation

end

theorem toList_quoteString (str : String) :
    (quoteString str).toList = '"' :: (str.toList ++ ['"']) := by
  rw [quoteString, String.toList_append, String.toList_append]
  rfl

theorem writeLine_eq (text : String) (outstream : Outstream) :
    writeLine text outstream = outstream ++ text.toList ++ ['\n'] := rfl

theorem printOperation_eq (label : PrintedLabel D) (indentation : ℕ)
    (op : GlobalAggregationMode) (outstream : Outstream) :
    SimpleJsonPrinter.printOperation showDuration label indentation op outstream =
      outstream ++ operationText showDuration label indentation op := by
  have hopen : ": [".toList = [':', ' ', '['] := rfl
  have hclose : "]".toList = [']'] := rfl
  have hcomma : ", ".toList = [',', ' '] := rfl
  rw [SimpleJsonPrinter.printOperation, printData_eq, operationText, quotedMember, listText,
    Json.bracketed, dataText, separatedText]
  simp only [write, toList_quoteString, hopen, hclose, hcomma, List.append_assoc,
    List.cons_append, List.nil_append]

/-- The statistics object, up to its closing bracket. -/
theorem printStatistics_eq (label : PrintedLabel D) (indentation : ℕ) (outstream : Outstream) :
    write "\x7d" (write (spaces (indentation + indentationPerLevel))
      (SimpleJsonPrinter.printStatistics showDuration label indentation
        (writeLine ": \x7b" (write (quoteString "statistics")
          (write (spaces (indentation + indentationPerLevel)) outstream))))) =
      outstream ++ statisticsText showDuration label indentation := by
  have hopen : ": \x7b".toList = [':', ' ', '{'] := rfl
  have hclose : "\x7d".toList = ['}'] := rfl
  have hcomma : ",\n".toList = [',', '\n'] := rfl
  have hempty : "".toList = [] := rfl
  rw [SimpleJsonPrinter.printStatistics, statisticsText, quotedMember, Json.bracketed]
  by_cases hmodes : label.modes = []
  · simp only [hmodes, ne_eq, not_true_eq_false, if_false, write, writeLine_eq,
      toList_quoteString, hopen, hclose, List.map_nil, List.intercalate_nil, List.append_assoc,
      List.cons_append, List.nil_append]
  · rw [if_pos hmodes, if_pos hmodes, printSeparated_eq (printOperation_eq showDuration label
      indentation), separatedText]
    simp only [write, writeLine_eq, toList_quoteString, hopen, hclose, hcomma, hempty,
      List.append_assoc, List.cons_append, List.nil_append]

mutual

/-- A call appends the text of its tree. -/
theorem print_eq_treeText : ∀ (tree : RoseTree (PrintedLabel D)) (indentation : ℕ)
    (outstream : Outstream),
    SimpleJsonPrinter.print showDuration tree indentation outstream =
      outstream ++ treeText showDuration tree indentation
  | .node label [], indentation, outstream => by
      have hopen : ": \x7b".toList = [':', ' ', '{'] := rfl
      have hclose : "\x7d".toList = ['}'] := rfl
      have hempty : "".toList = [] := rfl
      rw [SimpleJsonPrinter.print, printStatistics_eq, SimpleJsonPrinter.printChildren, treeText,
        forestTexts, quotedMember, Json.bracketed, List.intercalate_singleton]
      simp only [ne_eq, not_true_eq_false, if_false, write, writeLine_eq, toList_quoteString,
        hopen, hclose, hempty, List.append_assoc, List.cons_append, List.nil_append]
  | .node label (child :: children), indentation, outstream => by
      have hopen : ": \x7b".toList = [':', ' ', '{'] := rfl
      have hclose : "\x7d".toList = ['}'] := rfl
      have hcomma : ",".toList = [','] := rfl
      have hempty : "".toList = [] := rfl
      rw [SimpleJsonPrinter.print, printStatistics_eq, SimpleJsonPrinter.printChildren, if_pos rfl,
        print_eq_treeText child, printChildren_eq_texts children, treeText, forestTexts,
        quotedMember, Json.bracketed, List.intercalate_cons_cons, intercalate_cons]
      simp only [ne_eq, List.cons_ne_nil, not_false_eq_true, if_true, write, writeLine_eq,
        toList_quoteString, hopen, hclose, hcomma, hempty, List.append_assoc, List.cons_append,
        List.nil_append]

theorem printChildren_eq_texts : ∀ (children : List (RoseTree (PrintedLabel D)))
    (indentation : ℕ) (outstream : Outstream),
    SimpleJsonPrinter.printChildren showDuration false children indentation outstream =
      outstream ++ (forestTexts showDuration children indentation).flatMap ([',', '\n'] ++ ·)
  | [], indentation, outstream => (List.append_nil outstream).symm
  | child :: children, indentation, outstream => by
      have hcomma : ",".toList = [','] := rfl
      rw [SimpleJsonPrinter.printChildren, print_eq_treeText child,
        printChildren_eq_texts children, forestTexts, List.flatMap_cons, if_neg Bool.false_ne_true,
        writeLine_eq, hcomma]
      simp only [List.append_assoc, List.cons_append, List.nil_append]

end

end Texts

/-! ## The text is a member -/

section Reading

open Json

variable {showDuration : D → String}

/-- A name without quotation marks, backslashes and control characters. -/
def JsonName (name : String) : Prop := IsStringText name.toList

instance (name : String) : Decidable (JsonName name) :=
  inferInstanceAs (Decidable (name.toList.all isStringChar = true))

theorem spaces_spaces (indentation : ℕ) : Spaces (spaces indentation).toList := by
  rw [spaces, String.toList_ofList]
  intro c hc
  rw [List.eq_of_mem_replicate hc]
  rfl

theorem spaces_singleton {c : Char} (hc : isSpace c = true) : Spaces [c] :=
  List.forall_mem_singleton.mpr hc

theorem reads_item (htoken : ∀ duration, IsToken (showDuration duration).toList)
    (item : ScalarOrContainer D) :
    Reads parseValue (itemText showDuration item) (itemJson showDuration item) := by
  cases item with
  | scalar scalar => exact reads_number (htoken scalar)
  | container vec =>
      have htext : itemText showDuration (.container vec) =
          listText (vec.map fun elem => (showDuration elem).toList) := by
        rw [listText, bracketed, List.append_nil]
        rfl
      rw [htext]
      refine reads_array (List.forall_mem_nil _) (spaces_singleton rfl) (List.forall_mem_nil _) ?_
      rw [List.forall₂_map_left_iff, List.forall₂_map_right_iff, List.forall₂_same]
      exact fun elem _ => reads_number (htoken elem)

theorem jsonName_getString (mode : GlobalAggregationMode) : JsonName (getString mode) := by
  cases mode <;> decide

/-- A statistic is read under the name of its mode. -/
theorem reads_operation (htoken : ∀ duration, IsToken (showDuration duration).toList)
    (label : PrintedLabel D) (indentation : ℕ) (op : GlobalAggregationMode) :
    Reads parseMemberAt (operationText showDuration label indentation op)
      (operationMember showDuration label op) := by
  have hitems : ((label.aggregatedData op).map (itemText showDuration)).Forall₂
      (Reads parseValue) ((label.aggregatedData op).map (itemJson showDuration)) := by
    rw [List.forall₂_map_left_iff, List.forall₂_map_right_iff, List.forall₂_same]
    exact fun item _ => reads_item htoken item
  have hlist : Reads parseValue
      (listText ((label.aggregatedData op).map (itemText showDuration)))
      (.array ((label.aggregatedData op).map (itemJson showDuration))) :=
    reads_array (List.forall_mem_nil _) (spaces_singleton rfl) (List.forall_mem_nil _) hitems
  exact (reads_member (jsonName_getString op)
    (hlist.space (spaces_singleton (c := ' ') rfl))).space (spaces_spaces _)

theorem reads_statistics (htoken : ∀ duration, IsToken (showDuration duration).toList)
    (label : PrintedLabel D) (indentation : ℕ) :
    Reads parseMemberAt (statisticsText showDuration label indentation)
      (statisticsMember showDuration label) := by
  have hmodes : (label.modes.map (operationText showDuration label indentation)).Forall₂
      (Reads parseMemberAt) (label.modes.map (operationMember showDuration label)) := by
    rw [List.forall₂_map_left_iff, List.forall₂_map_right_iff, List.forall₂_same]
    exact fun op _ => reads_operation htoken label indentation op
  have hnewline : Spaces (if label.modes ≠ [] then ['\n'] else []) := by
    split_ifs
    · exact spaces_singleton rfl
    · exact List.forall_mem_nil _
  have hobject := reads_object (spaces_singleton (c := '\n') rfl)
    (spaces_singleton (c := '\n') rfl)
    (hnewline.append (spaces_spaces (indentation + indentationPerLevel))) hmodes
  have hname : JsonName "statistics" := by decide
  exact (reads_member hname
    (hobject.space (spaces_singleton (c := ' ') rfl))).space (spaces_spaces _)

mutual

theorem reads_tree (htoken : ∀ duration, IsToken (showDuration duration).toList) :
    ∀ (tree : RoseTree (PrintedLabel D)) (indentation : ℕ) {above : List String},
      (∀ node ∈ tree.paths (fun label => label.name) above, JsonName node.2.name) →
        Reads parseMemberAt (treeText showDuration tree indentation)
          (treeMember showDuration tree)
  | .node label children, indentation, above, hnames => by
      rw [RoseTree.paths, List.forall_mem_cons] at hnames
      have hmembers := (reads_forest htoken children (indentation + indentationPerLevel)
        hnames.2).cons (reads_statistics htoken label indentation)
      have hobject := reads_object (spaces_singleton (c := '\n') rfl)
        (spaces_singleton (c := '\n') rfl)
        ((spaces_singleton (c := '\n') rfl).append (spaces_spaces indentation)) hmembers
      exact (reads_member hnames.1
        (hobject.space (spaces_singleton (c := ' ') rfl))).space (spaces_spaces _)

theorem reads_forest (htoken : ∀ duration, IsToken (showDuration duration).toList) :
    ∀ (children : List (RoseTree (PrintedLabel D))) (indentation : ℕ) {above : List String},
      (∀ node ∈ RoseTree.forestPaths (fun label => label.name) above children,
        JsonName node.2.name) →
        (forestTexts showDuration children indentation).Forall₂ (Reads parseMemberAt)
          (forestMembers showDuration children)
  | [], _, _, _ => .nil
  | child :: children, indentation, above, hnames => by
      rw [RoseTree.forestPaths, List.forall_mem_append] at hnames
      exact (reads_forest htoken children indentation hnames.2).cons
        (reads_tree htoken child indentation hnames.1)

end

/-- The printed text is one member, and it parses to the member of the tree: the name, the
statistics of each mode in order, and the children in order. -/
theorem print_parses (htoken : ∀ duration, IsToken (showDuration duration).toList)
    (tree : RoseTree (PrintedLabel D))
    (hnames : ∀ node ∈ namedPaths tree, JsonName node.2.name) (indentation : ℕ)
    (outstream : Outstream) :
    ∃ text, SimpleJsonPrinter.print showDuration tree indentation outstream = outstream ++ text ∧
      parseMemberAt text.length text = some (treeMember showDuration tree, []) :=
  ⟨treeText showDuration tree indentation,
    print_eq_treeText showDuration tree indentation outstream,
    (reads_tree htoken tree indentation hnames).parses_all⟩

def showSeconds : Bool → String
  | false => "0.250000"
  | true => "1.500000"

def rootTree : RoseTree (PrintedLabel Bool) :=
  .node (.bare "root") [
    .node (.single "algo" .gather [.container [true, false], .container []]) [],
    .node (.single "init" .max [.scalar true, .scalar false]) []]

theorem print_parses_root :
    ∃ text, SimpleJsonPrinter.print showSeconds rootTree 0 [] = [] ++ text ∧
      parseMemberAt text.length text = some (treeMember showSeconds rootTree, []) :=
  print_parses (fun duration => by cases duration <;> exact ⟨by decide, by decide⟩) rootTree
    (by decide) 0 []

/-- The text of a node without children. -/
example :
    SimpleJsonPrinter.print showSeconds
        (.node (.single "init" .max [.scalar true, .container []]) []) 0 [] =
      ("\"init\": \x7b\n  \"statistics\": \x7b\n    \"max\": [1.500000, []]\n  \x7d\n" ++
        "\x7d").toList := by
  decide +kernel

end Reading

end MpiBindings.Measurements
