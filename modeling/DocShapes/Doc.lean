import DocShapes.Text.Blank
import DocShapes.Text.Lines

/-! # Documentation text

A doc is a text that is not blank. Docs are joined with a blank line between them; what several
docs have in common is their longest run of equal last lines; what one of them says beyond that
is its remainder. Lines are compared without the blanks at their ends.
-/

namespace DocShapes.Doc

open Text (blank nonBlank linesOf unlines)

/-! ## Joining -/

/-- The docs that are there and not blank, with an empty line between each two of them. -/
def join (docs : List (Option String)) : Option String :=
  match (docs.filterMap id).filter fun doc => !blank doc with
  | [] => none
  | parts => some ("\n\n".intercalate parts)

/-- The lines from the first one that is not blank. -/
def dropBlankStart (lines : List String) : List String := lines.dropWhile blank

/-- The lines up to the last one that is not blank. -/
def dropBlankEnd : List String → List String
  | [] => []
  | line :: rest =>
      match dropBlankEnd rest with
      | [] => if blank line then [] else [line]
      | kept => line :: kept

/-- The doc of a run of lines: what is left without the blank lines at either end. -/
def ofLines (lines : List String) : Option String :=
  match dropBlankEnd (dropBlankStart lines) with
  | [] => none
  | kept => some (unlines kept)

/-! ## Common tails -/

def strip (text : String) : String := String.ofList (Text.trimEnd text.toList)

/-- The longest run of first lines that two lists share, as the first list has them. -/
def sharedStart : List String → List String → List String
  | left :: lefts, right :: rights =>
      if strip left = strip right then left :: sharedStart lefts rights else []
  | _, _ => []

/-- The last lines that all docs share, last one first. -/
def sharedEnd : List String → List String
  | [] => []
  | first :: others =>
      others.foldl (fun shared doc => sharedStart shared (linesOf doc).reverse)
        (linesOf first).reverse

/-- The longest run of last lines that all docs share, without blank lines at its start. -/
def commonTail (docs : List String) : String :=
  unlines (dropBlankStart (sharedEnd docs).reverse)

/-- The text without blanks at its end, unless it is blank. -/
def stripped (text : String) : Option String := nonBlank (strip text)

/-- What a doc says beyond a tail; a doc that does not end in the tail is kept whole. -/
def remainder (doc tail : String) : Option String :=
  if tail.isEmpty then stripped doc
  else
    let lines := linesOf doc
    let count := (linesOf tail).length
    let head := lines.take (lines.length - count)
    if count ≤ lines.length && strip (unlines (lines.drop head.length)) = strip tail then
      stripped (unlines head)
    else stripped doc

end DocShapes.Doc
