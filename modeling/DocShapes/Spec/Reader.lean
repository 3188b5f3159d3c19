import DocShapes.Literal.Reader
import DocShapes.Name
import DocShapes.Qualifiers
import DocShapes.Spec.Basic

/-! # Specs of a text

A sequence is one atom or several atoms with `|` or `&` between them. An atom is a sequence in
parentheses, a symbol, or a constant. The keywords `list` and `reference` take one sequence in
parentheses or none, `record` takes empty parentheses. A declaration is a sequence with qualifiers
behind it, and a comment may follow either.

A fault rejects a text as a whole, but the specs that had been read in full before it stay known,
because the types that they describe come into being even so.
-/

namespace DocShapes.Spec

open Literal (Words)

/-! ## Rejections -/

/-- Why a text is rejected, and the specs completed before the fault, in order. -/
structure Rejection where
  error : Error
  completed : List Spec

/-- What a text gives, or why it is rejected. -/
abbrev Reading := Except Rejection

/-- A reading at a cursor, with the cursor behind what it gives. -/
abbrev Reader (α : Type) := Cursor → Reading (α × Cursor)

def reject {α : Type} (completed : List Spec) (error : Error) : Reading α :=
  .error ⟨error, completed⟩

/-- A later part of a reading, for which some specs have been completed already. -/
def Reading.after {α : Type} (completed : List Spec) : Reading α → Reading α
  | .ok found => .ok found
  | .error rejection => reject (completed ++ rejection.completed) rejection.error

/-- A scan as a reading; it completes no specs. -/
def Reader.ofScan {α : Type} (scan : Scan α) : Reader α := fun cursor =>
  match scan cursor with
  | .ok found next => .ok (found, next)
  | .error error _ => reject [] error

/-! ## Sequences and atoms -/

/-- The operators behind an atom, each with its atom; at most `fuel` of them. -/
def operands (atom : Reader Spec) : Nat → Reader (List (Connective × Spec))
  | 0, cursor => .ok ([], cursor)
  | fuel + 1, cursor =>
      let next := cursor.skipBlank
      match next.peek.bind Connective.ofChar? with
      | none => .ok ([], cursor)
      | some connective => do
          let (item, cursor) ← atom next.step
          let (others, cursor) ← (operands atom fuel cursor).after [item]
          .ok ((connective, item) :: others, cursor)

/-- One atom, or the sequence that it begins. -/
def chain (atom : Reader Spec) : Reader Spec := fun cursor => do
  let (first, cursor) ← atom cursor
  let (others, cursor) ← (operands atom cursor.rest.length cursor).after [first]
  match others with
  | [] => .ok (first, cursor)
  | (connective, _) :: _ => .ok (.sequence connective (first :: others.map Prod.snd), cursor)

/-- What `inner` reads, with a closing parenthesis behind it. -/
def closed (inner : Reader Spec) : Reader Spec := fun cursor => do
  let (found, cursor) ← inner cursor
  match cursor.eat ')' with
  | some next => .ok (found, next)
  | none => reject [found] (cursor.fault .closingParenthesis)

/-- The argument of a keyword, if there is one. -/
def argument (inner : Reader Spec) : Reader (Option Spec) := fun cursor =>
  match cursor.eat '(' with
  | none => .ok (none, cursor)
  | some opened =>
      match opened.eat ')' with
      | some next => .ok (none, next)
      | none => do
          let (found, next) ← closed inner opened
          .ok (some found, next)

/-- The spec of a keyword that ends at the cursor. -/
def ofKeyword (inner : Reader Spec) (cursor : Cursor) :
    Name.Keyword → Reading (Spec × Cursor)
  | .scalar name => .ok (.scalar name, cursor)
  | .null => .ok (.constant .null, cursor)
  | .true => .ok (.constant (.boolean true), cursor)
  | .false => .ok (.constant (.boolean false), cursor)
  | .oneof => .ok (.sequence .oneof [], cursor)
  | .union => .ok (.sequence .union [], cursor)
  | .list => do
      let (item, next) ← argument inner cursor
      .ok (item.elim .list .listOf, next)
  | .reference => do
      let (target, next) ← argument inner cursor
      .ok (target.elim .reference .referenceTo, next)
  | .record => do
      let (field, next) ← argument inner cursor
      match field with
      | none => .ok (.record, next)
      | some found => reject [found] (.structure (.recordArgument (cursor.position + 1)))

/-- One atom; `inner` reads what stands in parentheses. -/
def atom (words : Words) (inner : Reader Spec) : Reader Spec := fun cursor =>
  let start := cursor.skipBlank
  if start.peek = some '(' then closed inner start.step
  else
    let symbol := Name.symbol start.rest
    if symbol.isEmpty then do
      let (value?, next) ← Reader.ofScan (Literal.constant? words) start
      match value? with
      | some value => .ok (.constant value, next)
      | none => reject [] (start.fault .missingType)
    else
      let name := words.aliases.resolve (String.ofList symbol)
      let next := start.forward symbol.length
      match Name.keyword? name with
      | some keyword => ofKeyword inner next keyword
      | none => .ok (.named name, next)

/-- A sequence with room for `depth` levels of parentheses. -/
def nested (words : Words) : Nat → Reader Spec
  | 0, cursor => reject [] (cursor.fault .missingType)
  | depth + 1, cursor => chain (atom words (nested words depth)) cursor

/-- The sequence at the cursor; every level takes a character, so the text bounds their number. -/
def sequenceAt (words : Words) : Reader Spec := fun cursor =>
  nested words (cursor.rest.length + 1) cursor

/-! ## Ends and qualifiers -/

/-- Nothing but a comment is left at a cursor. -/
def ended (words : Words) (cursor : Cursor) : Bool :=
  cursor.atEnd || words.marker.isPrefixOf cursor.rest

def expectEnd (words : Words) : Reader Unit := fun cursor =>
  let next := cursor.skipBlank
  if ended words next then .ok ((), next) else reject [] (next.fault .trailingText)

/-- The value of a qualifier whose key ends at the cursor. -/
def qualifierValue (words : Words) : Reader Literal := fun cursor =>
  match cursor.eat ':' with
  | some next => Reader.ofScan (Literal.value words) next.skipBlank
  | none => .ok (.boolean true, cursor)

/-- The qualifiers up to the end, at most `fuel` of them, added to those before. -/
def qualifiers (words : Words) : Nat → Qualifiers → Reader Qualifiers
  | 0, before, cursor => .ok (before, cursor)
  | fuel + 1, before, cursor =>
      let next := cursor.skipBlank
      if ended words next then .ok (before, next)
      else
        match next.eat ',' with
        | none => reject [] (next.fault .qualifierDelimiter)
        | some behind =>
            let start := behind.skipBlank
            let key := Name.qualifierKey start.rest
            if key.isEmpty then reject [] (start.fault .missingQualifier)
            else do
              let name := String.ofList key
              let (value, cursor) ← qualifierValue words (start.forward key.length)
              if before.contains name then reject [] (start.fault (.repeatedQualifier name))
              else qualifiers words fuel (before.set name value) cursor

/-! ## Whole texts -/

/-- The spec that a text begins with. -/
def readFront (words : Words) (text : String) : Reading (Spec × Cursor) :=
  sequenceAt words (.ofString text)

/-- The spec of a whole text. -/
def read (words : Words) (text : String) : Reading Spec := do
  let (spec, cursor) ← readFront words text
  let _ ← (expectEnd words cursor).after [spec]
  .ok spec

/-- The spec of a whole text with its qualifiers. -/
def readDeclaration (words : Words) (text : String) : Reading (Spec × Qualifiers) := do
  let (spec, cursor) ← readFront words text
  let (found, _) ← (qualifiers words (cursor.rest.length + 1) .empty cursor).after [spec]
  .ok (spec, found)

end DocShapes.Spec
