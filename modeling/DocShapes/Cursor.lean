import DocShapes.Error
import DocShapes.Text.Blank

/-! # Reading positions

A cursor is a text with a place between two of its characters. Positions are byte offsets; one
that falls inside a character means the boundary before it, one behind the end means the end.
`text_forward`, `text_seek`, `text_skipBlank` and `text_eat` say that no step changes the text.
-/

namespace DocShapes

/-- What has been passed, last character first, and what is left. -/
structure Cursor where
  passed : List Char
  rest : List Char
  deriving Repr, DecidableEq, Inhabited

namespace Cursor

def ofList (text : List Char) : Cursor := ⟨[], text⟩

def ofString (text : String) : Cursor := ofList text.toList

def text (cursor : Cursor) : List Char := cursor.passed.reverse ++ cursor.rest

def position (cursor : Cursor) : Nat := Text.width cursor.passed

/-- Bytes that are left. -/
def remaining (cursor : Cursor) : Nat := Text.width cursor.rest

def atEnd (cursor : Cursor) : Bool := cursor.rest.isEmpty

def peek (cursor : Cursor) : Option Char := cursor.rest.head?

/-- The cursor behind the next `count` characters. -/
def forward : Nat → Cursor → Cursor
  | 0, cursor => cursor
  | _ + 1, ⟨passed, []⟩ => ⟨passed, []⟩
  | count + 1, ⟨passed, c :: rest⟩ => forward count ⟨c :: passed, rest⟩

/-- The cursor behind the next character. -/
def step (cursor : Cursor) : Cursor := cursor.forward 1

/-- The cursor at a byte position of the text. -/
def seek (position : Nat) (cursor : Cursor) : Cursor :=
  (ofList cursor.text).forward (Text.within position cursor.text).length

/-- The cursor `bytes` further on. -/
def advance (bytes : Nat) (cursor : Cursor) : Cursor := cursor.seek (cursor.position + bytes)

def skipBlank (cursor : Cursor) : Cursor :=
  cursor.forward (cursor.rest.takeWhile Text.isBlank).length

/-- The cursor behind `c`, if that is next after blanks. -/
def eat (c : Char) (cursor : Cursor) : Option Cursor :=
  let next := cursor.skipBlank
  if next.peek = some c then some next.step else none

/-- A fault at the cursor. -/
def fault (cursor : Cursor) (fault : SpecFault) : Error :=
  Error.located fault cursor.text cursor.position

/-! ## The text stays -/

@[simp] theorem text_ofList (text : List Char) : (ofList text).text = text := rfl

@[simp] theorem text_forward (count : Nat) (cursor : Cursor) :
    (cursor.forward count).text = cursor.text := by
  induction count generalizing cursor with
  | zero => rfl
  | succ count ih =>
    obtain ⟨passed, rest⟩ := cursor
    cases rest with
    | nil => rfl
    | cons c rest =>
      rw [forward, ih]
      simp [text]

@[simp] theorem text_seek (position : Nat) (cursor : Cursor) :
    (cursor.seek position).text = cursor.text := by simp [seek]

@[simp] theorem text_skipBlank (cursor : Cursor) : cursor.skipBlank.text = cursor.text := by
  simp [skipBlank]

theorem text_eat (c : Char) (cursor next : Cursor) (found : cursor.eat c = some next) :
    next.text = cursor.text := by
  simp only [eat] at found
  split at found
  · cases found; simp [step]
  · cases found

@[simp] theorem rest_forward (count : Nat) (cursor : Cursor) :
    (cursor.forward count).rest = cursor.rest.drop count := by
  induction count generalizing cursor with
  | zero => rfl
  | succ count ih =>
    obtain ⟨passed, rest⟩ := cursor
    cases rest with
    | nil => rfl
    | cons c rest => simp [forward, ih]

end Cursor

end DocShapes
