import Mathlib.Data.List.Forall2
import Mathlib.Data.Nat.Notation

/-!
# JSON texts

A parser for JSON values: objects are ordered lists of members, strings have no escape
sequences, and a number is a token up to the next delimiter.  The rules below say which
texts a writer has to produce.
-/

namespace MpiBindings

inductive Json where
  | number (token : String)
  | string (text : String)
  | array (items : List Json)
  | object (members : List (String × Json))

namespace Json

/-! ## The parser -/

def isSpace (c : Char) : Bool := c = ' ' || c = '\n' || c = '\r' || c = '\t'

/-- Characters that end a token. -/
def isDelimiter (c : Char) : Bool :=
  isSpace c || c = ',' || c = ':' || c = '[' || c = ']' || c = '{' || c = '}' || c = '"'

/-- Characters of a string: no quotation mark, no backslash, no control character. -/
def isStringChar (c : Char) : Bool := c ≠ '"' && c ≠ '\\' && 0x20 ≤ c.toNat

/-- A parser returns what it read and the text behind it. -/
abbrev Parser (α : Type) := List Char → Option (α × List Char)

def skipSpace (text : List Char) : List Char := text.dropWhile isSpace

def parseString : Parser String := fun text =>
  match skipSpace text with
  | [] => none
  | c :: rest =>
      if c = '"' then
        match rest.dropWhile isStringChar with
        | [] => none
        | quote :: rest' =>
            if quote = '"' then some (String.ofList (rest.takeWhile isStringChar), rest')
            else none
      else none

def parseNumber : Parser Json := fun text =>
  let token := text.takeWhile fun c => !isDelimiter c
  if token = [] then none
  else some (.number (String.ofList token), text.dropWhile fun c => !isDelimiter c)

variable {α : Type}

/-- Elements with commas between them, up to a closing bracket. -/
def parseSeparated (parseElement : Parser α) (close : Char) : ℕ → Parser (List α)
  | 0, _ => none
  | fuel + 1, text =>
      (parseElement text).bind fun element =>
        match skipSpace element.2 with
        | [] => none
        | c :: rest =>
            if c = ',' then
              (parseSeparated parseElement close fuel rest).map fun elements =>
                (element.1 :: elements.1, elements.2)
            else if c = close then some ([element.1], rest)
            else none

/-- What follows an opening bracket. -/
def parseList (parseElement : Parser α) (close : Char) : Parser (List α) := fun text =>
  match skipSpace text with
  | [] => none
  | c :: rest =>
      if c = close then some ([], rest)
      else parseSeparated parseElement close text.length text

/-- A string, a colon and a value. -/
def parseMember (parseValue : Parser Json) : Parser (String × Json) := fun text =>
  (parseString text).bind fun name =>
    match skipSpace name.2 with
    | [] => none
    | c :: rest =>
        if c = ':' then (parseValue rest).map fun value => ((name.1, value.1), value.2)
        else none

/-- Values of nesting depth below the bound. -/
def parseValue : ℕ → Parser Json
  | 0, _ => none
  | depth + 1, text =>
      match skipSpace text with
      | [] => none
      | c :: rest =>
          if c = '{' then
            (parseList (parseMember (parseValue depth)) '}' rest).map fun members =>
              (.object members.1, members.2)
          else if c = '[' then
            (parseList (parseValue depth) ']' rest).map fun items => (.array items.1, items.2)
          else if c = '"' then
            (parseString (c :: rest)).map fun string => (.string string.1, string.2)
          else parseNumber (c :: rest)

/-! ## Spaces and tokens -/

def Spaces (text : List Char) : Prop := ∀ c ∈ text, isSpace c = true

/-- A text behind which a token ends. -/
def Delimited (text : List Char) : Prop := ∀ c rest, text = c :: rest → isDelimiter c = true

/-- A text whose first character is no space. -/
def Visible (text : List Char) : Prop := ∃ c rest, text = c :: rest ∧ isSpace c = false

/-- A token is not empty and has no delimiter. -/
structure IsToken (token : List Char) : Prop where
  ne_nil : token ≠ []
  inside : token.all (fun c => !isDelimiter c) = true

/-- A text that needs no escape sequences in a string. -/
def IsStringText (text : List Char) : Prop := text.all isStringChar = true

theorem isDelimiter_of_isSpace {c : Char} (hspace : isSpace c = true) : isDelimiter c = true := by
  simp only [isDelimiter, hspace, Bool.true_or]

theorem Spaces.append {left right : List Char} (hleft : Spaces left) (hright : Spaces right) :
    Spaces (left ++ right) := by
  rw [Spaces, List.forall_mem_append]
  exact ⟨hleft, hright⟩

theorem Delimited.cons {c : Char} (hc : isDelimiter c = true) (rest : List Char) :
    Delimited (c :: rest) := by
  rintro c' rest' heq
  rw [← (List.cons.inj heq).1]
  exact hc

theorem Delimited.append {space rest : List Char} (hspace : Spaces space)
    (hrest : Delimited rest) : Delimited (space ++ rest) := by
  cases space with
  | nil => exact hrest
  | cons c space => exact .cons (isDelimiter_of_isSpace (hspace c List.mem_cons_self)) _

/-- Spaces in front of a visible text are skipped. -/
theorem skipSpace_append {space text : List Char} (hspace : Spaces space)
    (htext : Visible text) : skipSpace (space ++ text) = text := by
  obtain ⟨c, rest, rfl, hc⟩ := htext
  rw [skipSpace, List.dropWhile_append_of_pos hspace, List.dropWhile_cons_of_neg]
  rw [hc]
  exact Bool.false_ne_true

theorem skipSpace_append_cons {space : List Char} (hspace : Spaces space) {c : Char}
    (hc : isSpace c = false) (rest : List Char) : skipSpace (space ++ c :: rest) = c :: rest :=
  skipSpace_append hspace ⟨c, rest, rfl, hc⟩

/-! ## Texts that a parser reads -/

/-- A text that starts an element: its first visible character closes no bracket. -/
def Starts (text : List Char) : Prop :=
  ∃ space c body, text = space ++ c :: body ∧ Spaces space ∧ isSpace c = false ∧
    c ≠ ']' ∧ c ≠ '}'

theorem Starts.space {space text : List Char} (hspace : Spaces space) (htext : Starts text) :
    Starts (space ++ text) := by
  obtain ⟨inner, c, body, rfl, hinner, hc⟩ := htext
  exact ⟨space ++ inner, c, body, (List.append_assoc _ _ _).symm, hspace.append hinner, hc⟩

theorem Starts.ne_nil {text : List Char} (htext : Starts text) : text ≠ [] := by
  obtain ⟨space, c, body, rfl, -⟩ := htext
  simp

/-- A parser with enough depth for the text returns the value and what follows the text. -/
structure Reads (parse : ℕ → Parser α) (text : List Char) (value : α) : Prop where
  starts : Starts text
  parses : ∀ depth, text.length ≤ depth → ∀ space rest, Spaces space → Delimited rest →
    parse depth (space ++ text ++ rest) = some (value, rest)

theorem Reads.space {parse : ℕ → Parser α} {space text : List Char} {value : α}
    (hspace : Spaces space) (hreads : Reads parse text value) :
    Reads parse (space ++ text) value where
  starts := hreads.starts.space hspace
  parses depth hdepth outer rest houter hrest := by
    rw [List.length_append] at hdepth
    rw [← List.append_assoc]
    exact hreads.parses depth (Nat.le_trans (Nat.le_add_left _ _) hdepth) _ rest
      (houter.append hspace) hrest

/-- The whole text is read. -/
theorem Reads.parses_all {parse : ℕ → Parser α} {text : List Char} {value : α}
    (hreads : Reads parse text value) : parse text.length text = some (value, []) := by
  have hall := hreads.parses text.length (Nat.le_refl _) [] [] (List.forall_mem_nil _)
    (fun c rest hcons => by cases hcons)
  rwa [List.nil_append, List.append_nil] at hall

section Lists

variable {separator : List Char} {texts : List (List Char)}

theorem length_le_intercalate (hne : ∀ text ∈ texts, text ≠ []) :
    texts.length ≤ (separator.intercalate texts).length := by
  induction texts with
  | nil => exact Nat.zero_le _
  | cons text texts ih =>
      rw [List.forall_mem_cons] at hne
      have htext : 1 ≤ text.length := List.length_pos_iff.mpr hne.1
      cases texts with
      | nil =>
          rw [List.intercalate_singleton]
          exact htext
      | cons next texts =>
          have hrest := ih hne.2
          rw [List.intercalate_cons_cons, List.length_append, List.length_append,
            List.length_cons]
          omega

theorem exists_intercalate_cons (separator text : List Char) (texts : List (List Char)) :
    ∃ more, separator.intercalate (text :: texts) = text ++ more := by
  cases texts with
  | nil => exact ⟨[], by rw [List.intercalate_singleton, List.append_nil]⟩
  | cons next texts => exact ⟨_, by rw [List.intercalate_cons_cons, List.append_assoc]⟩

theorem length_le_intercalate_of_mem {text : List Char} (htext : text ∈ texts) :
    text.length ≤ (separator.intercalate texts).length := by
  induction texts with
  | nil => cases htext
  | cons first texts ih =>
      cases texts with
      | nil =>
          exact Nat.le_of_eq (by rw [List.mem_singleton.mp htext, List.intercalate_singleton])
      | cons next texts =>
          rw [List.intercalate_cons_cons, List.length_append, List.length_append]
          rcases List.mem_cons.mp htext with rfl | htext
          · omega
          · have hrest := ih htext
            omega

variable {parse : ℕ → Parser α} {values : List α} {close : Char} {depth : ℕ}
  {gap trailing : List Char}

/-- Elements that are read one by one are read with commas between them. -/
theorem parseSeparated_eq (hclose : close = ']' ∨ close = '}') (hgap : Spaces gap)
    (htrailing : Spaces trailing) (rest : List Char) {first : List Char} {firstValue : α}
    (hfirst : first.length ≤ depth ∧ Reads parse first firstValue)
    (hrest : texts.Forall₂ (fun text value => text.length ≤ depth ∧ Reads parse text value) values)
    {space : List Char} (hspace : Spaces space) {fuel : ℕ}
    (hfuel : (first :: texts).length ≤ fuel) :
    parseSeparated (parse depth) close fuel
        (space ++ (',' :: gap).intercalate (first :: texts) ++ trailing ++ close :: rest) =
      some (firstValue :: values, rest) := by
  obtain ⟨fuel, rfl⟩ := Nat.exists_eq_succ_of_ne_zero
    (Nat.ne_of_gt (Nat.lt_of_lt_of_le (Nat.succ_pos _) hfuel))
  induction hrest generalizing first firstValue space fuel with
  | nil =>
      have hdelimiter : isDelimiter close = true := by
        rcases hclose with rfl | rfl <;> decide
      have hvisible : isSpace close = false := by
        rcases hclose with rfl | rfl <;> decide
      have hcomma : close ≠ ',' := by
        rcases hclose with rfl | rfl <;> decide
      rw [List.intercalate_singleton, List.append_assoc _ trailing, parseSeparated,
        hfirst.2.parses depth hfirst.1 space _ hspace
          (.append htrailing (.cons hdelimiter rest)), Option.bind_some,
        skipSpace_append_cons htrailing hvisible]
      simp only [hcomma, if_false, if_true]
  | @cons next nextValue texts values hnext htexts ih =>
      obtain ⟨fuel, rfl⟩ := Nat.exists_eq_succ_of_ne_zero
        (Nat.ne_of_gt (Nat.lt_of_lt_of_le (Nat.succ_pos _) (Nat.le_of_succ_le_succ hfuel)))
      have hnexts := ih hnext hgap fuel (Nat.le_of_succ_le_succ hfuel)
      have hsplit : space ++ (',' :: gap).intercalate (first :: next :: texts) ++ trailing ++
          close :: rest = space ++ first ++ ',' :: (gap ++
            (',' :: gap).intercalate (next :: texts) ++ trailing ++ close :: rest) := by
        rw [List.intercalate_cons_cons]
        simp only [List.append_assoc, List.cons_append]
      have hcomma : ∀ rest', skipSpace (',' :: rest') = ',' :: rest' :=
        skipSpace_append_cons (List.forall_mem_nil _) (by decide)
      rw [hsplit, parseSeparated, hfirst.2.parses depth hfirst.1 space _ hspace
        (.cons (by decide) _), Option.bind_some]
      simp only [hcomma, if_true]
      rw [hnexts]
      rfl

variable {leading : List Char}

/-- A bracketed list of elements that are read one by one is read. -/
theorem parseList_eq (hclose : close = ']' ∨ close = '}') (hgap : Spaces gap)
    (hleading : Spaces leading) (htrailing : Spaces trailing) (rest : List Char)
    (hreads : texts.Forall₂ (fun text value => text.length ≤ depth ∧ Reads parse text value)
      values) :
    parseList (parse depth) close
        (leading ++ (',' :: gap).intercalate texts ++ trailing ++ close :: rest) =
      some (values, rest) := by
  cases hreads with
  | nil =>
      have hvisible : isSpace close = false := by
        rcases hclose with rfl | rfl <;> decide
      rw [List.intercalate_nil, List.append_nil, parseList,
        skipSpace_append_cons (hleading.append htrailing) hvisible]
      simp only [if_true]
  | @cons first firstValue texts values hfirst hrest =>
      obtain ⟨space, c, body, hcons, hspace, hvisible, hsquare, hcurly⟩ := hfirst.2.starts
      have hne : c ≠ close := by
        rcases hclose with rfl | rfl
        · exact hsquare
        · exact hcurly
      have hlength : (first :: texts).length ≤ (leading ++
          (',' :: gap).intercalate (first :: texts) ++ trailing ++ close :: rest).length := by
        have hnonempty : ∀ text ∈ first :: texts, text ≠ [] := by
          rw [List.forall_mem_cons]
          exact ⟨hfirst.2.starts.ne_nil, ((List.forall₂_and_left _ _).mp
            (hrest.imp fun text value hreads => ⟨hreads.2.starts.ne_nil, hreads⟩)).1⟩
        have hle := @length_le_intercalate (',' :: gap) _ hnonempty
        simp only [List.length_append]
        omega
      obtain ⟨more, hmore⟩ := exists_intercalate_cons (',' :: gap) first texts
      have hsplit : leading ++ (',' :: gap).intercalate (first :: texts) ++ trailing ++
          close :: rest = leading ++ space ++ c :: (body ++ more ++ trailing ++ close :: rest) := by
        rw [hmore, hcons]
        simp only [List.append_assoc, List.cons_append]
      have hskip := hsplit ▸ skipSpace_append_cons (hleading.append hspace) hvisible
        (body ++ more ++ trailing ++ close :: rest)
      rw [parseList, hskip]
      simp only [hne, if_false]
      exact parseSeparated_eq hclose hgap htrailing rest hfirst hrest hleading hlength

end Lists

/-! ## Rules for writers -/

/-- Texts with commas and spaces between them, in brackets. -/
def bracketed (opening close : Char) (leading gap trailing : List Char)
    (texts : List (List Char)) : List Char :=
  opening :: (leading ++ (',' :: gap).intercalate texts ++ trailing ++ [close])

def parseMemberAt (depth : ℕ) : Parser (String × Json) := parseMember (parseValue depth)

theorem parseNumber_append {token : String} (htoken : IsToken token.toList) {rest : List Char}
    (hrest : Delimited rest) :
    parseNumber (token.toList ++ rest) = some (.number token, rest) := by
  have hinside := List.all_eq_true.mp htoken.inside
  have htake : (rest.takeWhile fun c => !isDelimiter c) = [] := by
    cases rest with
    | nil => rfl
    | cons c rest => rw [List.takeWhile_cons_of_neg]; simp [hrest c rest rfl]
  have hdrop : (rest.dropWhile fun c => !isDelimiter c) = rest := by
    cases rest with
    | nil => rfl
    | cons c rest => rw [List.dropWhile_cons_of_neg]; simp [hrest c rest rfl]
  rw [parseNumber, List.takeWhile_append_of_pos hinside, List.dropWhile_append_of_pos hinside,
    htake, hdrop, List.append_nil, String.ofList_toList]
  simp only [htoken.ne_nil, if_false]

theorem reads_number {token : String} (htoken : IsToken token.toList) :
    Reads parseValue token.toList (.number token) := by
  obtain ⟨c, body, hcons⟩ := List.exists_cons_of_ne_nil htoken.ne_nil
  have hdelimiter : isDelimiter c = false := by
    rw [← Bool.not_eq_true']
    exact List.all_eq_true.mp htoken.inside c (hcons ▸ List.mem_cons_self)
  have hvisible : isSpace c = false := by
    rw [← Bool.not_eq_true]
    exact fun hspace => Bool.eq_false_iff.mp hdelimiter (isDelimiter_of_isSpace hspace)
  have hne : ∀ other, isDelimiter other = true → c ≠ other := by
    rintro other hother rfl
    exact Bool.eq_false_iff.mp hdelimiter hother
  refine ⟨⟨[], c, body, hcons, List.forall_mem_nil _, hvisible, hne _ (by decide),
    hne _ (by decide)⟩, fun depth hdepth space rest hspace hrest => ?_⟩
  rw [hcons, List.length_cons] at hdepth
  obtain ⟨depth, rfl⟩ := Nat.exists_eq_succ_of_ne_zero
    (Nat.ne_of_gt (Nat.lt_of_lt_of_le (Nat.succ_pos _) hdepth))
  have hskip : skipSpace (space ++ token.toList ++ rest) = c :: (body ++ rest) := by
    rw [hcons, List.append_assoc, List.cons_append]
    exact skipSpace_append_cons hspace hvisible _
  have hnumber := parseNumber_append htoken hrest
  rw [hcons, List.cons_append] at hnumber
  rw [parseValue, hskip]
  simp only [hne '{' (by decide), hne '[' (by decide), hne '"' (by decide), if_false, hnumber]

section Rules

variable {parse : ℕ → Parser α} {leading gap trailing : List Char} {texts : List (List Char)}

theorem starts_bracketed {opening : Char} (hvisible : isSpace opening = false)
    (hsquare : opening ≠ ']') (hcurly : opening ≠ '}') (close : Char)
    (leading gap trailing : List Char) (texts : List (List Char)) :
    Starts (bracketed opening close leading gap trailing texts) :=
  ⟨[], opening, _, rfl, List.forall_mem_nil _, hvisible, hsquare, hcurly⟩

/-- The elements in brackets are read with one level of depth less. -/
theorem parseList_bracketed {opening close : Char} (hclose : close = ']' ∨ close = '}')
    (hleading : Spaces leading) (hgap : Spaces gap) (htrailing : Spaces trailing)
    {values : List α} (hreads : texts.Forall₂ (Reads parse) values) {depth : ℕ}
    (hdepth : (bracketed opening close leading gap trailing texts).length ≤ depth + 1)
    (rest : List Char) :
    parseList (parse depth) close
        (leading ++ (',' :: gap).intercalate texts ++ trailing ++ [close] ++ rest) =
      some (values, rest) := by
  have hshort : ∀ text ∈ texts, text.length ≤ depth := fun text htext => by
    have hle := @length_le_intercalate_of_mem (',' :: gap) texts text htext
    simp only [bracketed, List.length_cons, List.length_append] at hdepth
    omega
  rw [List.append_assoc _ [close], List.singleton_append]
  exact parseList_eq hclose hgap hleading htrailing rest
    ((List.forall₂_and_left _ _).mpr ⟨hshort, hreads⟩)

theorem reads_array (hleading : Spaces leading) (hgap : Spaces gap)
    (htrailing : Spaces trailing) {items : List Json}
    (hreads : texts.Forall₂ (Reads parseValue) items) :
    Reads parseValue (bracketed '[' ']' leading gap trailing texts) (.array items) := by
  refine ⟨starts_bracketed (by decide) (by decide) (by decide) _ _ _ _ _,
    fun depth hdepth space rest hspace hrest => ?_⟩
  obtain ⟨depth, rfl⟩ := Nat.exists_eq_succ_of_ne_zero
    (Nat.ne_of_gt (Nat.lt_of_lt_of_le (Nat.succ_pos _) hdepth))
  have hlist := parseList_bracketed (.inl rfl) hleading hgap htrailing hreads hdepth rest
  rw [parseValue, bracketed, List.append_assoc, List.cons_append,
    skipSpace_append_cons hspace (by decide)]
  simp only [hlist]
  rfl

theorem reads_object (hleading : Spaces leading) (hgap : Spaces gap)
    (htrailing : Spaces trailing) {members : List (String × Json)}
    (hreads : texts.Forall₂ (Reads parseMemberAt) members) :
    Reads parseValue (bracketed '{' '}' leading gap trailing texts) (.object members) := by
  refine ⟨starts_bracketed (by decide) (by decide) (by decide) _ _ _ _ _,
    fun depth hdepth space rest hspace hrest => ?_⟩
  obtain ⟨depth, rfl⟩ := Nat.exists_eq_succ_of_ne_zero
    (Nat.ne_of_gt (Nat.lt_of_lt_of_le (Nat.succ_pos _) hdepth))
  have hlist := parseList_bracketed (.inr rfl) hleading hgap htrailing hreads hdepth rest
  rw [parseMemberAt] at hlist
  rw [parseValue, bracketed, List.append_assoc, List.cons_append,
    skipSpace_append_cons hspace (by decide)]
  simp only [hlist]
  rfl

end Rules

theorem parseString_quoted {name : String} (hname : IsStringText name.toList)
    {space : List Char} (hspace : Spaces space) (rest : List Char) :
    parseString (space ++ '"' :: (name.toList ++ '"' :: rest)) = some (name, rest) := by
  have htake : (name.toList ++ '"' :: rest).takeWhile isStringChar = name.toList := by
    rw [List.takeWhile_append_of_pos (List.all_eq_true.mp hname),
      List.takeWhile_cons_of_neg (by decide), List.append_nil]
  have hdrop : (name.toList ++ '"' :: rest).dropWhile isStringChar = '"' :: rest := by
    rw [List.dropWhile_append_of_pos (List.all_eq_true.mp hname),
      List.dropWhile_cons_of_neg (by decide)]
  rw [parseString, skipSpace_append_cons hspace (by decide)]
  simp only [hdrop, htake, if_true, String.ofList_toList]

/-- A quoted name, a colon and a value. -/
theorem reads_member {name : String} (hname : IsStringText name.toList) {text : List Char}
    {value : Json} (hvalue : Reads parseValue text value) :
    Reads parseMemberAt ('"' :: (name.toList ++ '"' :: ':' :: text)) (name, value) := by
  refine ⟨⟨[], '"', _, rfl, List.forall_mem_nil _, by decide, by decide, by decide⟩,
    fun depth hdepth space rest hspace hrest => ?_⟩
  have hle : text.length ≤ depth := by
    simp only [List.length_cons, List.length_append] at hdepth
    omega
  have hcolon : ∀ rest', skipSpace (':' :: rest') = ':' :: rest' :=
    skipSpace_append_cons (List.forall_mem_nil _) (by decide)
  have hparse := hvalue.parses depth hle [] rest (List.forall_mem_nil _) hrest
  rw [List.nil_append] at hparse
  have hsplit : space ++ '"' :: (name.toList ++ '"' :: ':' :: text) ++ rest =
      space ++ '"' :: (name.toList ++ '"' :: ':' :: (text ++ rest)) := by
    simp only [List.append_assoc, List.cons_append]
  rw [hsplit, parseMemberAt, parseMember, parseString_quoted hname hspace, Option.bind_some]
  simp only [hcolon, hparse, if_true]
  rfl

/-- A trailing comma is no list. -/
example : (parseValue 5 "[1, [ ], \x7b\"a\": 2\x7d]".toList).isSome = true ∧
    (parseValue 5 "[1, ]".toList).isNone = true := by
  decide +kernel

end Json

end MpiBindings
