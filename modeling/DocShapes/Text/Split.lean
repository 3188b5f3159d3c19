/-! # Pieces of a text

The pieces of a text between its marks. There is always one more of them than there are marks.
`not_mem_of_mem_split` says that no piece holds a mark, and `intercalate_split` puts the pieces
together again.
-/

namespace DocShapes.Text

def split (mark : Char) : List Char → List (List Char)
  | [] => [[]]
  | c :: rest =>
      if c = mark then [] :: split mark rest
      else
        match split mark rest with
        | [] => [[c]]
        | first :: others => (c :: first) :: others

theorem split_ne_nil (mark : Char) (text : List Char) : split mark text ≠ [] := by
  cases text with
  | nil => simp [split]
  | cons c rest =>
    simp only [split]
    split
    · simp
    · split <;> simp

theorem not_mem_of_mem_split (mark : Char) (text piece : List Char)
    (member : piece ∈ split mark text) : mark ∉ piece := by
  induction text generalizing piece with
  | nil =>
    rw [split, List.mem_singleton] at member
    simp [member]
  | cons c rest ih =>
    simp only [split] at member
    split at member
    · rcases List.mem_cons.mp member with rfl | later
      · exact List.not_mem_nil
      · exact ih piece later
    · rename_i unmarked
      split at member
      · rw [List.mem_singleton] at member
        simp [member, Ne.symm unmarked]
      · rename_i first others pieces
        rcases List.mem_cons.mp member with rfl | later
        · have absent := ih first (pieces ▸ List.mem_cons_self)
          simp [Ne.symm unmarked, absent]
        · exact ih piece (pieces ▸ List.mem_cons_of_mem first later)

theorem intercalate_split (mark : Char) (text : List Char) :
    [mark].intercalate (split mark text) = text := by
  induction text with
  | nil => rfl
  | cons c rest ih =>
    simp only [split]
    split
    · rename_i marked
      cases pieces : split mark rest with
      | nil => exact absurd pieces (split_ne_nil mark rest)
      | cons first others =>
        rw [pieces] at ih
        simp [List.intercalate, List.intersperse, marked, ← ih]
    · cases pieces : split mark rest with
      | nil => exact absurd pieces (split_ne_nil mark rest)
      | cons first others =>
        rw [pieces] at ih
        cases others with
        | nil => simpa [List.intercalate, List.intersperse] using ih
        | cons second more => simpa [List.intercalate, List.intersperse] using ih

end DocShapes.Text
