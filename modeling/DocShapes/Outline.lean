import DocShapes.Doc

/-! # Outlines

A block of text is a list of top-level lines. A line that is not blank owns the lines behind it
that are indented deeper, up to the last of them that is not blank; they are its body, brought to
the margin of the shallowest one. A line of the form `name : spec`, with blanks on both sides of
the colon, is a declaration. `length_body_lt` says that a body has fewer lines than its block.
-/

namespace DocShapes.Outline

open Text (blank isBlank)

/-! ## Margins -/

/-- Columns that a blank character takes at the start of a line. -/
def columns (c : Char) : Nat := if c = '\t' then 4 else 1

/-- Columns in front of the first character that is not blank. -/
def indentOf : List Char → Nat
  | [] => 0
  | c :: rest => if isBlank c then columns c + indentOf rest else 0

def indent (line : String) : Nat := indentOf line.toList

/-- The least indentation of a line that is not blank. -/
def margin (lines : List String) : Nat :=
  (((lines.filter fun line => !blank line).map indent).min?).getD 0

/-- Blanks dropped from the start of a text until they have taken `width` columns. -/
def dropColumns : Nat → List Char → List Char
  | _, [] => []
  | width, c :: rest =>
      if width = 0 || !isBlank c then c :: rest else dropColumns (width - columns c) rest

/-- A line without its first `width` columns and without blanks at its end. -/
def dedentLine (width : Nat) (line : String) : String :=
  if blank line then "" else String.ofList (Text.trimEnd (dropColumns width line.toList))

/-- Lines without their common margin and without blanks at their ends. -/
def dedent (lines : List String) : List String := lines.map (dedentLine (margin lines))

/-! ## Declarations -/

/-- The name and the spec of a declaration. The spec may be missing and is one line of text. -/
def classify (text : String) : Option (String × String) :=
  let name := text.toList.takeWhile fun c => !isBlank c && c ≠ ':'
  let rest := text.toList.drop name.length
  let gap := rest.takeWhile isBlank
  match rest.drop gap.length with
  | ':' :: tail =>
      let spec := Text.trim tail
      let parted := spec.isEmpty || (tail.head?.map isBlank).getD false
      if !name.isEmpty && !gap.isEmpty && parted && !spec.contains '\n' then
        some (String.ofList name, String.ofList spec)
      else none
  | _ => none

/-! ## Lines and bodies -/

structure Line where
  /-- The line without its indentation; empty for a blank line. -/
  text : String
  /-- Name and spec, when the line is a declaration. -/
  declaration : Option (String × String)
  body : List String
  /-- No line, or a blank one, stands before this line. -/
  blankBefore : Bool
  /-- No line, or a blank one, follows this line and its body. -/
  blankAfter : Bool
  deriving Repr, DecidableEq, Inhabited

def Line.isBlank (line : Line) : Bool := line.text.isEmpty

def blankLine : Line where
  text := ""
  declaration := none
  body := []
  blankBefore := true
  blankAfter := true

/-- The lines that belong to a line of the given indentation, of those behind it. -/
def owned (own : Nat) (lines : List String) : List String :=
  Doc.dropBlankEnd (lines.takeWhile fun line => blank line || own < indent line)

/-- Top-level lines, of which the first `skipped` lines are no part; `before` says whether a blank
line or none stands before the first one. -/
def linesFrom : Bool → Nat → List String → List Line
  | _, _, [] => []
  | before, skipped + 1, _ :: rest => linesFrom before skipped rest
  | before, 0, line :: rest =>
      if blank line then blankLine :: linesFrom true 0 rest
      else
        let body := owned (indent line) rest
        let text := String.ofList (Text.trim line.toList)
        { text := text
          declaration := classify text
          body := dedent body
          blankBefore := before
          blankAfter := ((rest.drop body.length).head?.map blank).getD true } ::
            linesFrom false body.length rest

/-- The top-level lines of lines that have lost their margin. -/
def ofLines (lines : List String) : List Line := linesFrom true 0 lines

def ofText (text : String) : List Line := ofLines (dedent (Text.linesOf text))

/-! ## Bodies are shorter -/

theorem length_dropBlankEnd_le (lines : List String) :
    (Doc.dropBlankEnd lines).length ≤ lines.length := by
  induction lines with
  | nil => simp [Doc.dropBlankEnd]
  | cons line rest ih =>
    simp only [Doc.dropBlankEnd]
    split
    · split <;> simp
    · simpa using ih

theorem length_owned_le (own : Nat) (lines : List String) :
    (owned own lines).length ≤ lines.length :=
  Nat.le_trans (length_dropBlankEnd_le _) (List.takeWhile_prefix _).length_le

theorem length_body_lt_of_mem (before : Bool) (skipped : Nat) (lines : List String) (line : Line)
    (member : line ∈ linesFrom before skipped lines) : line.body.length < lines.length := by
  induction lines generalizing before skipped with
  | nil => simp [linesFrom] at member
  | cons first rest ih =>
    cases skipped with
    | succ skipped => exact Nat.lt_succ_of_lt (ih before skipped member)
    | zero =>
      simp only [linesFrom] at member
      split at member
      · rcases List.mem_cons.mp member with same | later
        · simp [same, blankLine]
        · exact Nat.lt_succ_of_lt (ih _ _ later)
      · rcases List.mem_cons.mp member with same | later
        · have short := length_owned_le (indent first) rest
          simp only [same, dedent, List.length_map, List.length_cons]
          omega
        · exact Nat.lt_succ_of_lt (ih _ _ later)

/-- A body has fewer lines than the block that it stands in. -/
theorem length_body_lt (lines : List String) (line : Line) (member : line ∈ ofLines lines) :
    line.body.length < lines.length :=
  length_body_lt_of_mem true 0 lines line member

end DocShapes.Outline
