import DocShapes.Json.Writer

/-! # Literal values

The values of constant types and of qualifiers. A literal is written the way a spec writes it, and
has a view as JSON in which bytes become hexadecimal text. Two literals are the same when they
have the same parts; the order of the fields of a record does not count, nor does the sign of a
zero.
-/

namespace DocShapes

inductive Literal where
  | null
  | boolean (value : Bool)
  | integer (value : Int64)
  | number (value : Binary64)
  | string (value : String)
  | byte (value : UInt8)
  | bytes (values : List UInt8)
  | list (items : List Literal)
  | record (fields : List (String × Literal))
  deriving Repr, BEq, Inhabited

namespace Literal

/-- The word for the kind of a literal, which is also the name of a constant type that holds it. -/
def kind : Literal → String
  | .null => "null"
  | .boolean _ => "boolean"
  | .integer _ => "integer"
  | .number _ => "number"
  | .string _ => "string"
  | .byte _ => "byte"
  | .bytes _ => "bytes"
  | .list _ => "list"
  | .record _ => "record"

def asBool? : Literal → Option Bool
  | .boolean value => some value
  | _ => none

/-! ## Equality -/

/-- The same value, whatever the order of the fields of its records. A key counts with the first
value that it has, as in a look-up. -/
def same : Literal → Literal → Bool
  | .null, .null => true
  | .boolean left, .boolean right => left = right
  | .integer left, .integer right => left = right
  | .number left, .number right => left.same right
  | .string left, .string right => left = right
  | .byte left, .byte right => left = right
  | .bytes left, .bytes right => left = right
  | .list left, .list right => sameItems left right
  | .record left, .record right =>
      eachField [] left right && right.all fun field => (OrderedMap.find field.1 left).isSome
  | _, _ => false
where
  sameItems : List Literal → List Literal → Bool
    | [], [] => true
    | left :: lefts, right :: rights => same left right && sameItems lefts rights
    | _, _ => false
  /-- Every field with a key that was not seen before has a partner of the same key and value. -/
  eachField : List String → List (String × Literal) → List (String × Literal) → Bool
    | _, [], _ => true
    | seen, (key, value) :: rest, others =>
        (key ∈ seen || (OrderedMap.find key others).any (same value)) &&
          eachField (key :: seen) rest others

/-! ## Bytes -/

/-- One byte, or several bytes, of a run of hexadecimal digits. -/
def ofHex? (digits : List Char) : Option Literal :=
  match Text.bytesOfHex? digits with
  | some [only] => some (.byte only)
  | some (first :: rest) => some (.bytes (first :: rest))
  | _ => none

/-! ## Spec text -/

/-- The text of a literal in a spec. -/
def chars : Literal → List Char
  | .null => "null".toList
  | .boolean true => "true".toList
  | .boolean false => "false".toList
  | .integer value => Json.wholeText value.toInt
  | .number value => (Decimal.text value).toList
  | .string value => Json.quote value.toList
  | .byte value => '0' :: 'x' :: Text.hexOfBytes [value]
  | .bytes values => '0' :: 'x' :: Text.hexOfBytes values
  | .list items => '[' :: Json.separated [',', ' '] (eachItem items) ++ [']']
  | .record fields => '\x7b' :: Json.separated [',', ' '] (eachField fields) ++ ['\x7d']
where
  eachItem : List Literal → List (List Char)
    | [] => []
    | item :: rest => chars item :: eachItem rest
  eachField : List (String × Literal) → List (List Char)
    | [] => []
    | (key, value) :: rest =>
        (Json.quote key.toList ++ ':' :: ' ' :: chars value) :: eachField rest

def text (value : Literal) : String := String.ofList value.chars

/-! ## JSON -/

def ofJson : Json → Literal
  | .null => .null
  | .boolean value => .boolean value
  | .integer value =>
      if Int64.minValue.toInt ≤ value && value ≤ Int64.maxValue.toInt then .integer (Int64.ofInt value)
      else .number ((Binary64.ofRatio (value < 0) value.natAbs 1).getD (Binary64.zero false))
  | .number value => .number value
  | .string value => .string value
  | .array items => .list (eachItem items)
  | .object members => .record (eachMember members)
where
  eachItem : List Json → List Literal
    | [] => []
    | item :: rest => ofJson item :: eachItem rest
  eachMember : List (String × Json) → List (String × Literal)
    | [] => []
    | (key, value) :: rest => (key, ofJson value) :: eachMember rest

def toJson : Literal → Json
  | .null => .null
  | .boolean value => .boolean value
  | .integer value => .integer value.toInt
  | .number value => .number value
  | .string value => .string value
  | .byte value => .string (Literal.byte value).text
  | .bytes values => .string (Literal.bytes values).text
  | .list items => .array (eachItem items)
  | .record fields => .object (eachField fields)
where
  eachItem : List Literal → List Json
    | [] => []
    | item :: rest => toJson item :: eachItem rest
  eachField : List (String × Literal) → List (String × Json)
    | [] => []
    | (key, value) :: rest => (key, toJson value) :: eachField rest

end Literal

end DocShapes
