/-! # Widths in bytes

Positions in a text are counted in bytes of its UTF-8 form. `width` measures a text and `within`
cuts it at the last character boundary that a position reaches; `width_within_le` and
`within_width` say that the cut is the longest such piece.
-/

namespace DocShapes.Text

/-- Bytes of the UTF-8 form. -/
def width : List Char → Nat
  | [] => 0
  | c :: rest => c.utf8Size + width rest

/-- The longest initial piece of at most `limit` bytes. -/
def within : Nat → List Char → List Char
  | _, [] => []
  | limit, c :: rest =>
      if c.utf8Size ≤ limit then c :: within (limit - c.utf8Size) rest else []

@[simp] theorem width_nil : width [] = 0 := rfl

@[simp] theorem width_cons (c : Char) (rest : List Char) :
    width (c :: rest) = c.utf8Size + width rest := rfl

@[simp] theorem width_append (left right : List Char) :
    width (left ++ right) = width left + width right := by
  induction left with
  | nil => simp
  | cons c rest ih => simp [ih, Nat.add_assoc]

@[simp] theorem width_reverse (text : List Char) : width text.reverse = width text := by
  induction text with
  | nil => rfl
  | cons c rest ih => simp [ih, Nat.add_comm]

theorem width_within_le (limit : Nat) (text : List Char) : width (within limit text) ≤ limit := by
  induction text generalizing limit with
  | nil => simp [within]
  | cons c rest ih =>
    simp only [within]
    split
    · have := ih (limit - c.utf8Size)
      simp only [width_cons]
      omega
    · simp

/-- A cut that lands on a character boundary keeps everything before it. -/
theorem within_width (left right : List Char) : within (width left) (left ++ right) = left := by
  induction left with
  | nil =>
    cases right with
    | nil => rfl
    | cons c rest => simp [within, Nat.not_le.mpr c.utf8Size_pos]
  | cons c rest ih => simp [within, ih]

end DocShapes.Text
