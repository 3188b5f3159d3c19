/-! # Lines of a text

A line ends at a line feed, or at a carriage return with a line feed behind it. A text that ends
in a line break has no empty line after it. `lines_cons_newline` and `lines_cons_of_ne` say how
the first character of a text acts on the lines of the rest.
-/

namespace DocShapes.Text

/-- The lines of a text without their line breaks. -/
def lines : List Char → List (List Char)
  | [] => []
  | c :: rest =>
      if c = '\n' then [] :: lines rest
      else if c = '\r' ∧ rest.head? = some '\n' then lines rest
      else
        match lines rest with
        | [] => [[c]]
        | line :: more => (c :: line) :: more

def linesOf (text : String) : List String := (lines text.toList).map String.ofList

/-- Lines with a line feed between each two of them. -/
def unlines (parts : List String) : String := "\n".intercalate parts

@[simp] theorem lines_nil : lines [] = [] := by rw [lines]

@[simp] theorem lines_cons_newline (rest : List Char) :
    lines ('\n' :: rest) = [] :: lines rest := by rw [lines]; simp

/-- A character that is no part of a line break extends the first line. -/
theorem lines_cons_of_ne (c : Char) (rest : List Char) (feed : c ≠ '\n') (carriage : c ≠ '\r') :
    lines (c :: rest) =
      match lines rest with
      | [] => [[c]]
      | line :: more => (c :: line) :: more := by
  rw [lines]; simp [feed, carriage]

end DocShapes.Text
