import DocShapes.Cursor

/-! # Reading steps

A scan moves a cursor and gives a value or fails. The place where a failing scan stopped stays
visible in the cursor that it leaves behind.
-/

namespace DocShapes

abbrev Scan := EStateM Error Cursor

namespace Scan

def fail {α : Type} (fault : SpecFault) : Scan α := do
  throw ((← get).fault fault)

/-- Fail for something that began where `start` stands. -/
def failAt {α : Type} (start : Cursor) (fault : SpecFault) : Scan α := throw (start.fault fault)

def skipBlank : Scan Unit := modify Cursor.skipBlank

def forward (count : Nat) : Scan Unit := modify (Cursor.forward count)

/-- Take `c` if it is next after blanks, else stay. -/
def eat (c : Char) : Scan Bool := do
  match (← get).eat c with
  | some next => set next; return true
  | none => return false

end Scan

end DocShapes
