import MpiBindings.Measurements.Aggregation

/-!
# Output of aggregated measurements

What the printers of aggregated trees share: the characters on an output stream, the loop
that separates items, and the data of one aggregation mode.
-/

namespace MpiBindings.Measurements

variable {D : Type} {Item : Type}

/-- The characters that were written. -/
abbrev Outstream := List Char

def write (text : String) (outstream : Outstream) : Outstream := outstream ++ text.toList

/-- `get_string` of a mode. -/
def getString : GlobalAggregationMode → String
  | .min => "min"
  | .max => "max"
  | .sum => "sum"
  | .gather => "gather"

/-- A label together with the modes of its `std::unordered_map` in the order of the
iteration. -/
structure PrintedLabel (D : Type) extends AggregatedLabel D where
  modes : List GlobalAggregationMode
  modes_nodup : modes.Nodup
  modes_complete : ∀ mode, mode ∉ modes → aggregatedData mode = []

/-- A node without measurements. -/
def PrintedLabel.bare (name : String) : PrintedLabel D :=
  ⟨.construct name, [], List.nodup_nil, fun _ _ => rfl⟩

/-- A node whose measurements are aggregated by one mode. -/
def PrintedLabel.single (name : String) (mode : GlobalAggregationMode)
    (data : List (ScalarOrContainer D)) : PrintedLabel D where
  name
  aggregatedData := Function.update (fun _ => []) mode data
  modes := [mode]
  modes_nodup := List.nodup_singleton mode
  modes_complete _ hother :=
    Function.update_of_ne (fun heq => hother (List.mem_singleton.mpr heq)) _ _

/-- The nodes of a tree in preorder, with their paths. -/
def namedPaths (tree : RoseTree (PrintedLabel D)) : List (List String × PrintedLabel D) :=
  tree.paths (fun label => label.name) []

/-! ## Loops -/

/-- The loops of the printers over a range, with their flag `is_first`. -/
def printSeparated (separator : String) (printItem : Item → Outstream → Outstream) :
    (isFirst : Bool) → List Item → Outstream → Outstream
  | _, [], outstream => outstream
  | isFirst, item :: items, outstream =>
      let outstream := if isFirst then outstream else write separator outstream
      printSeparated separator printItem false items (printItem item outstream)

section Printing

/- Text of a duration behind `std::fixed`. -/
variable (showDuration : D → String)

/-- `ScalarOrVectorPrinter`. -/
def scalarOrVectorPrinter : ScalarOrContainer D → Outstream → Outstream
  | .scalar scalar, outstream => write (showDuration scalar) outstream
  | .container vec, outstream =>
      write "]" (printSeparated ", " (fun elem => write (showDuration elem)) true vec
        (write "[" outstream))

/-- The loop over the data items of a mode. -/
def printData (data : List (ScalarOrContainer D)) (outstream : Outstream) : Outstream :=
  printSeparated ", " (scalarOrVectorPrinter showDuration) true data outstream

/-! ## What is written -/

/-- Items with the separator between them. -/
def separatedText (separator : String) (itemText : Item → List Char) (items : List Item) :
    List Char :=
  List.intercalate separator.toList (items.map itemText)

def itemText : ScalarOrContainer D → List Char
  | .scalar scalar => (showDuration scalar).toList
  | .container vec =>
      "[".toList ++ separatedText ", " (fun elem => (showDuration elem).toList) vec ++ "]".toList

def dataText (data : List (ScalarOrContainer D)) : List Char :=
  separatedText ", " (itemText showDuration) data

end Printing

/-- The separator stands in front of every text but the first. -/
theorem intercalate_cons (separator text : List Char) (texts : List (List Char)) :
    separator.intercalate (text :: texts) = text ++ texts.flatMap (separator ++ ·) := by
  induction texts generalizing text with
  | nil => rw [List.intercalate_singleton, List.flatMap_nil, List.append_nil]
  | cons next texts ih =>
      rw [List.intercalate_cons_cons, ih, List.flatMap_cons, List.append_assoc,
        List.append_assoc]

section Loops

variable {separator : String} {printItem : Item → Outstream → Outstream}
  {text : Item → List Char}

theorem printSeparated_false (hprint : ∀ item outstream, printItem item outstream =
      outstream ++ text item) (items : List Item) (outstream : Outstream) :
    printSeparated separator printItem false items outstream =
      outstream ++ items.flatMap fun item => separator.toList ++ text item := by
  induction items generalizing outstream with
  | nil => exact (List.append_nil outstream).symm
  | cons item items ih =>
      rw [printSeparated, ih, hprint, write, List.flatMap_cons]
      simp only [Bool.false_eq_true, if_false, List.append_assoc]

theorem separatedText_cons (item : Item) (items : List Item) :
    separatedText separator text (item :: items) =
      text item ++ items.flatMap fun item => separator.toList ++ text item := by
  rw [separatedText, List.map_cons, intercalate_cons, List.flatMap_map]

/-- The separators stand between the items. -/
theorem printSeparated_eq (hprint : ∀ item outstream, printItem item outstream =
      outstream ++ text item) (items : List Item) (outstream : Outstream) :
    printSeparated separator printItem true items outstream =
      outstream ++ separatedText separator text items := by
  cases items with
  | nil => exact (List.append_nil outstream).symm
  | cons item items =>
      rw [printSeparated, printSeparated_false hprint, separatedText_cons, if_pos rfl, hprint,
        List.append_assoc]

end Loops

section Data

variable (showDuration : D → String)

theorem scalarOrVectorPrinter_eq (item : ScalarOrContainer D) (outstream : Outstream) :
    scalarOrVectorPrinter showDuration item outstream =
      outstream ++ itemText showDuration item := by
  cases item with
  | scalar scalar => rfl
  | container vec =>
      have helem : ∀ elem outstream, write (showDuration elem) outstream =
          outstream ++ (showDuration elem).toList := fun _ _ => rfl
      rw [scalarOrVectorPrinter, printSeparated_eq helem, write, write, itemText]
      simp only [List.append_assoc]

theorem printData_eq (data : List (ScalarOrContainer D)) (outstream : Outstream) :
    printData showDuration data outstream = outstream ++ dataText showDuration data :=
  printSeparated_eq (scalarOrVectorPrinter_eq showDuration) data outstream

end Data

end MpiBindings.Measurements
