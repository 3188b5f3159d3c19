import DocShapes.Literal.Reader
import DocShapes.Spec.Reader
import Mathlib.Data.List.Infix

/-! # Byte offsets of a text

A place in a text can be kept as a number of bytes. Such a number may lie inside a character or
behind the end, and a slice of the text exists only between two boundaries. A probe reads a text at
such a place: it fails with nothing where it takes a slice that does not exist, and it keeps all
places where it has been. A probe mirrors a reading if it ends as the reading does, has been at
boundaries only and took no other slices (`Mirrors`).
-/

namespace DocShapes

namespace Text

variable {text front piece behind : List Char} {position start finish : Nat}

/-! ## Boundaries -/

/-- A place between two characters of a text or at one of its ends, counted in bytes. It is not
behind the end (`Boundary.le`). -/
def Boundary (text : List Char) (position : Nat) : Prop :=
  ∃ front behind, text = front ++ behind ∧ width front = position

theorem within_prefix (limit : Nat) (text : List Char) : within limit text <+: text := by
  induction text generalizing limit with
  | nil => exact List.prefix_rfl
  | cons c rest ih =>
    rw [within]
    split
    · exact List.cons_prefix_cons.mpr ⟨rfl, ih _⟩
    · exact List.nil_prefix

theorem boundary_iff : Boundary text position ↔ width (within position text) = position := by
  constructor
  · rintro ⟨front, behind, rfl, rfl⟩
    rw [within_width]
  · intro same
    obtain ⟨behind, whole⟩ := within_prefix position text
    exact ⟨_, behind, whole.symm, same⟩

instance (text : List Char) (position : Nat) : Decidable (Boundary text position) :=
  decidable_of_iff _ boundary_iff.symm

theorem boundary_append (front behind : List Char) : Boundary (front ++ behind) (width front) :=
  ⟨front, behind, rfl, rfl⟩

theorem boundary_within (limit : Nat) (text : List Char) :
    Boundary text (width (within limit text)) := by
  obtain ⟨behind, whole⟩ := within_prefix limit text
  exact ⟨_, behind, whole.symm, rfl⟩

/-- A cut stays the same as long as it does not become too long. -/
theorem within_of_width_le {limit more : Nat} (short : width (within more text) ≤ limit)
    (le : limit ≤ more) : within limit text = within more text := by
  induction text generalizing limit more with
  | nil => rfl
  | cons c rest ih =>
    rw [within] at short ⊢
    rw [within]
    by_cases fits : c.utf8Size ≤ more
    · rw [if_pos fits, width_cons] at short
      have room : width (within (more - c.utf8Size) rest) ≤ limit - c.utf8Size := by omega
      rw [if_pos fits, if_pos (by omega), ih room (by omega)]
    · rw [if_neg fits, if_neg (by omega)]

theorem within_within (limit : Nat) (text : List Char) :
    within (width (within limit text)) text = within limit text :=
  within_of_width_le (Nat.le_refl _) (width_within_le limit text)

theorem within_min_width (limit : Nat) (text : List Char) :
    within (min limit (width text)) text = within limit text := by
  obtain ⟨behind, whole⟩ := within_prefix limit text
  have short : width (within limit text) ≤ width text := by
    conv_rhs => rw [← whole, width_append]
    exact Nat.le_add_right _ _
  exact within_of_width_le (Nat.le_min.mpr ⟨width_within_le limit text, short⟩)
    (Nat.min_le_left _ _)

theorem within_prefix_within {limit more : Nat} (le : limit ≤ more) (text : List Char) :
    within limit text <+: within more text := by
  induction text generalizing limit more with
  | nil => exact List.prefix_rfl
  | cons c rest ih =>
    rw [within, within]
    by_cases fits : c.utf8Size ≤ limit
    · rw [if_pos fits, if_pos (fits.trans le)]
      exact List.cons_prefix_cons.mpr ⟨rfl, ih (Nat.sub_le_sub_right le _)⟩
    · rw [if_neg fits]
      exact List.nil_prefix

theorem width_le_of_prefix (within : front <+: text) : width front ≤ width text := by
  obtain ⟨behind, rfl⟩ := within
  rw [width_append]
  exact Nat.le_add_right _ _

theorem Boundary.le (boundary : Boundary text position) : position ≤ width text := by
  obtain ⟨front, behind, rfl, rfl⟩ := boundary
  exact width_le_of_prefix (List.prefix_append _ _)

/-- The last boundary that is not behind a position. -/
def floorBoundary (text : List Char) : Nat → Nat
  | 0 => 0
  | position + 1 =>
      if Boundary text (position + 1) then position + 1 else floorBoundary text position

theorem floorBoundary_eq (text : List Char) (position : Nat) :
    floorBoundary text position = width (within position text) := by
  induction position with
  | zero => exact (Nat.le_zero.mp (width_within_le 0 text)).symm
  | succ position ih =>
    rw [floorBoundary]
    split
    · rename_i boundary
      exact (boundary_iff.mp boundary).symm
    · rename_i inside
      have le := width_within_le (position + 1) text
      have ne := mt boundary_iff.mpr inside
      have short : width (within (position + 1) text) ≤ position := by omega
      rw [ih, within_of_width_le short (Nat.le_succ position)]

/-- The boundary that a position in or behind a text stands for. -/
theorem floorBoundary_min (text : List Char) (position : Nat) :
    floorBoundary text (min position (width text)) = width (within position text) := by
  rw [floorBoundary_eq, within_min_width]

/-! ## Slices -/

/-- The text between two boundaries. -/
def slice? (text : List Char) (start finish : Nat) : Option (List Char) :=
  if start ≤ finish ∧ Boundary text start ∧ Boundary text finish then
    some ((within finish text).drop (within start text).length)
  else none

theorem slice?_append (front piece behind : List Char) :
    slice? (front ++ (piece ++ behind)) (width front) (width front + width piece) = some piece := by
  have first : Boundary (front ++ (piece ++ behind)) (width front) := boundary_append _ _
  have last : Boundary (front ++ (piece ++ behind)) (width (front ++ piece)) := by
    rw [← List.append_assoc]
    exact boundary_append _ _
  have cut : within (width front + width piece) (front ++ (piece ++ behind)) = front ++ piece := by
    rw [← width_append, ← List.append_assoc, within_width]
  rw [width_append] at last
  rw [slice?, if_pos ⟨Nat.le_add_right _ _, first, last⟩, cut, within_width, List.drop_left]

theorem slice?_within {limit more : Nat} (le : limit ≤ more) (text : List Char) :
    slice? text (width (within limit text)) (width (within more text)) =
      some ((within more text).drop (within limit text).length) := by
  have short := width_le_of_prefix (within_prefix_within le text)
  rw [slice?, if_pos ⟨short, boundary_within _ _, boundary_within _ _⟩, within_within,
    within_within]

/-- A slice does not begin inside a character. -/
example : slice? ['é', '!'] 1 3 = none := by decide

end Text

/-! ## Places of faults -/

namespace Error

open Text (slice? floorBoundary within width)

/-- A fault in a text, placed by slices of the text. -/
def locate? (fault : SpecFault) (text : List Char) (position : Nat) : Option Error := do
  let place := floorBoundary text (min position (width text))
  let start := floorBoundary text (place - 10)
  let finish := floorBoundary text (min (place + 10) (width text))
  let before ← slice? text 0 place
  let context ← slice? text start finish
  some (.invalidSpec fault (before.length + 1) (String.ofList context))

/-- Wherever a fault is, the slices of its place exist. -/
theorem locate?_eq (fault : SpecFault) (text : List Char) (position : Nat) :
    locate? fault text position = some (located fault text position) := by
  have before : slice? text 0 (width (within position text)) = some (within position text) := by
    obtain ⟨behind, whole⟩ := Text.within_prefix position text
    simpa [whole] using Text.slice?_append [] (within position text) behind
  have context := Text.slice?_within
    (show width (within position text) - 10 ≤ width (within position text) + 10 by omega) text
  rw [locate?, Text.floorBoundary_min, Text.floorBoundary_eq, Text.floorBoundary_min, before]
  simp only [Option.bind_eq_bind, Option.bind_some, context]
  rfl

/-- The column of a fault is one of the text or the one behind it, and its context is a contiguous
piece of the text. -/
def PlacedIn (text : List Char) : Error → Prop
  | .invalidSpec _ column context =>
      1 ≤ column ∧ column ≤ text.length + 1 ∧ context.toList <:+: text
  | _ => True

theorem placedIn_located (fault : SpecFault) (text : List Char) (position : Nat) :
    (located fault text position).PlacedIn text := by
  have before := (Text.within_prefix position text).length_le
  refine ⟨Nat.le_add_left _ _, Nat.add_le_add_right before 1, ?_⟩
  rw [String.toList_ofList]
  exact (List.drop_suffix _ _).isInfix.trans (Text.within_prefix _ _).isInfix

end Error

/-! ## Probes -/

/-- A place in a text, with the places where a probe was before, last one first. -/
structure Place where
  position : Nat
  earlier : List Nat

namespace Place

/-- The start of a text. -/
def start : Place := ⟨0, []⟩

/-- All places where a probe has been. -/
def visited (place : Place) : List Nat := place.position :: place.earlier

end Place

/-- Reading steps on byte offsets. They fail with an error, or with nothing where a slice does not
exist. -/
abbrev Probe := EStateM (Option Error) Place

namespace Probe

open Text (slice? floorBoundary width)

def position : Probe Nat := do return (← get).position

def moveTo (position : Nat) : Probe Unit :=
  modify fun place => ⟨position, place.visited⟩

variable (text : List Char)

def slice (start finish : Nat) : Probe (List Char) :=
  match slice? text start finish with
  | some piece => return piece
  | none => throw none

/-- The text from the place on. -/
def rest : Probe (List Char) := do
  slice text (← position) (width text)

def peek : Probe (Option Char) := do
  return (← rest text).head?

/-- Go behind some characters, one by one. -/
def pass (chars : List Char) : Probe Unit :=
  chars.forM fun c => do moveTo ((← position) + c.utf8Size)

/-- Go to a position, or to the boundary in front of it. -/
def seek (target : Nat) : Probe Unit := moveTo (floorBoundary text (min target (width text)))

def advance (bytes : Nat) : Probe Unit := do
  seek text ((← position) + bytes)

def skipBlank : Probe Unit := do
  pass ((← rest text).takeWhile Text.isBlank)

/-- Take `c` if it is next after blanks, else go back. -/
def eat (c : Char) : Probe Bool := do
  let start ← position
  skipBlank text
  if (← peek text) = some c then
    pass [c]
    return true
  else
    moveTo start
    return false

def failAt {α : Type} (start : Nat) (fault : SpecFault) : Probe α :=
  throw (Error.locate? fault text start)

def fail {α : Type} (fault : SpecFault) : Probe α := do
  failAt text (← position) fault

end Probe

/-! ## Probes and cursors -/

/-- A place is where a cursor is, and no place so far was inside a character or behind the end. -/
structure Matches (text : List Char) (place : Place) (cursor : Cursor) : Prop where
  whole : cursor.text = text
  position : place.position = cursor.position
  visited : ∀ position ∈ place.visited, Text.Boundary text position

/-- A probe ends as a reading at a cursor does. It gives what the reading finds, and its place is
that of the cursor behind it, which is not in front of the first cursor; or it fails with the error
of the reading, which is placed in the text. It has been at boundaries only, and no slice was
missing. -/
def Mirrors {α : Type} (text : List Char) (place : Place) (cursor : Cursor) (probe : Probe α)
    (reading : Spec.Reading (α × Cursor)) : Prop :=
  match reading with
  | .ok (found, next) => cursor.position ≤ next.position ∧
      ∃ after, probe place = .ok found after ∧ Matches text after next
  | .error rejection => rejection.error.PlacedIn text ∧
      ∃ after, probe place = .error (some rejection.error) after ∧
        ∀ position ∈ after.visited, Text.Boundary text position

/-- A probe mirrors a reader wherever they start. -/
def MirrorsReader {α : Type} (text : List Char) (probe : Probe α) (reader : Spec.Reader α) : Prop :=
  ∀ ⦃place cursor⦄, Matches text place cursor → Mirrors text place cursor probe (reader cursor)

end DocShapes
