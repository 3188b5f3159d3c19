import DocShapes.Number.Binary64
import DocShapes.OrderedMap

/-! # JSON values

Objects keep the order of their members and hold each key once. Whole numbers within the
64-bit ranges stay exact; all other numbers are binary64.
-/

namespace DocShapes

inductive Json where
  | null
  | boolean (value : Bool)
  | integer (value : Int)
  | number (value : Binary64)
  | string (value : String)
  | array (items : List Json)
  | object (members : List (String × Json))
  deriving Repr, BEq, Inhabited

namespace Json

def member? (whole : Json) (key : String) : Option Json :=
  match whole with
  | .object members => OrderedMap.find key members
  | _ => none

/-- An object with one more member; other values are left alone. -/
def withMember (whole : Json) (key : String) (value : Json) : Json :=
  match whole with
  | .object members => .object (OrderedMap.put key value members)
  | other => other

/-- A member that is there only if its value is. -/
def withMember? (whole : Json) (key : String) (value : Option Json) : Json :=
  match value with
  | some value => whole.withMember key value
  | none => whole

end Json

end DocShapes
