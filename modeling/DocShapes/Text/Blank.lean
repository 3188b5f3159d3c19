/-! # Blank characters and blank text

The characters with the Unicode property White_Space, and what it means to trim a text of them.
`isBlank_of_isWhitespace` says that the class extends the ASCII one.
-/

namespace DocShapes.Text

/-- The characters with the property White_Space. -/
def isBlank (c : Char) : Bool :=
  let code := c.val
  (9 ≤ code && code ≤ 13) || code == 0x20 || code == 0x85 || code == 0xa0 || code == 0x1680 ||
    (0x2000 ≤ code && code ≤ 0x200a) || code == 0x2028 || code == 0x2029 || code == 0x202f ||
    code == 0x205f || code == 0x3000

theorem isBlank_of_isWhitespace (c : Char) (white : c.isWhitespace) : isBlank c := by
  simp only [Char.isWhitespace, Bool.or_eq_true, decide_eq_true_eq] at white
  rcases white with ((rfl | rfl) | rfl) | rfl <;> decide

/-- The characters from the first one that is not blank. -/
def trimStart (text : List Char) : List Char := text.dropWhile isBlank

/-- The characters up to the last one that is not blank. -/
def trimEnd : List Char → List Char
  | [] => []
  | c :: rest =>
      match trimEnd rest with
      | [] => if isBlank c then [] else [c]
      | kept => c :: kept

def trim (text : List Char) : List Char := trimEnd (trimStart text)

/-- Text without a character that is not blank. -/
def blank (text : String) : Bool := text.toList.all isBlank

/-- The text itself unless it is blank. -/
def nonBlank (text : String) : Option String := if blank text then none else some text

end DocShapes.Text
