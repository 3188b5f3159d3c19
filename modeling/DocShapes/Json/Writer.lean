import DocShapes.Json.Basic
import DocShapes.Number.Shortest
import DocShapes.Text.Hex

/-! # JSON text of values

The compact form has no blanks. The wide form puts every item and member on a line of its own,
two spaces deeper than the container; an empty container stays on one line. In a string the
quote, the backslash and the control characters are escaped and all else is written as it is.
-/

namespace DocShapes.Json

def escaped (c : Char) : List Char :=
  if c = '"' then ['\\', '"']
  else if c = '\\' then ['\\', '\\']
  else if c.toNat = 8 then ['\\', 'b']
  else if c.toNat = 12 then ['\\', 'f']
  else if c = '\n' then ['\\', 'n']
  else if c = '\r' then ['\\', 'r']
  else if c = '\t' then ['\\', 't']
  else if c.toNat < 32 then
    ['\\', 'u', '0', '0', Text.hexDigit (c.toNat / 16), Text.hexDigit (c.toNat % 16)]
  else [c]

/-- A string between quotes. -/
def quote (text : List Char) : List Char := '"' :: text.flatMap escaped ++ ['"']

/-- The text of a whole number. -/
def wholeText (value : Int) : List Char :=
  if value < 0 then '-' :: Decimal.digits value.natAbs else Decimal.digits value.natAbs

def scalarText : Json → List Char
  | .null => "null".toList
  | .boolean true => "true".toList
  | .boolean false => "false".toList
  | .integer value => wholeText value
  | .number value => (Decimal.text value).toList
  | .string value => quote value.toList
  | _ => []

/-- Parts with a separator between each two of them. -/
def separated (separator : List Char) : List (List Char) → List Char
  | [] => []
  | [part] => part
  | part :: rest => part ++ separator ++ separated separator rest

/-! ## The compact form -/

def compactChars : Json → List Char
  | .array items => '[' :: separated [','] (eachItem items) ++ [']']
  | .object members => '\x7b' :: separated [','] (eachMember members) ++ ['\x7d']
  | other => scalarText other
where
  eachItem : List Json → List (List Char)
    | [] => []
    | item :: rest => compactChars item :: eachItem rest
  eachMember : List (String × Json) → List (List Char)
    | [] => []
    | (key, value) :: rest =>
        (quote key.toList ++ ':' :: compactChars value) :: eachMember rest

def compact (value : Json) : String := String.ofList (compactChars value)

/-! ## The wide form -/

def margin (depth : Nat) : List Char := '\n' :: List.replicate (2 * depth) ' '

/-- Parts of a container that is `depth` deep, each on a line of its own. -/
def spread (depth : Nat) (first last : Char) (parts : List (List Char)) : List Char :=
  if parts.isEmpty then [first, last]
  else
    first :: separated [','] (parts.map (margin (depth + 1) ++ ·)) ++ margin depth ++ [last]

def wideChars (depth : Nat) : Json → List Char
  | .array items => spread depth '[' ']' (eachItem items)
  | .object members => spread depth '\x7b' '\x7d' (eachMember members)
  | other => scalarText other
where
  eachItem : List Json → List (List Char)
    | [] => []
    | item :: rest => wideChars (depth + 1) item :: eachItem rest
  eachMember : List (String × Json) → List (List Char)
    | [] => []
    | (key, value) :: rest =>
        (quote key.toList ++ ':' :: ' ' :: wideChars (depth + 1) value) :: eachMember rest

def wide (value : Json) : String := String.ofList (wideChars 0 value)

end DocShapes.Json
