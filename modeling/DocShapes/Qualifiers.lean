import DocShapes.Literal.Basic

/-! # Qualifiers

What a use of a type adds to it: `optional`, `default`, access flags, and any other key with a
literal. The keys keep the order in which they were set.
-/

namespace DocShapes

structure Qualifiers where
  values : OrderedMap String Literal
  deriving Repr, Inhabited

namespace Qualifiers

def empty : Qualifiers := ⟨.empty⟩

def isEmpty (qualifiers : Qualifiers) : Bool := qualifiers.values.isEmpty

def size (qualifiers : Qualifiers) : Nat := qualifiers.values.size

def get? (qualifiers : Qualifiers) (key : String) : Option Literal := qualifiers.values.get? key

def contains (qualifiers : Qualifiers) (key : String) : Bool := qualifiers.values.contains key

def set (qualifiers : Qualifiers) (key : String) (value : Literal) : Qualifiers :=
  ⟨qualifiers.values.set key value⟩

def erase (qualifiers : Qualifiers) (key : String) : Qualifiers := ⟨qualifiers.values.erase key⟩

/-- The value of a key that holds a truth value. -/
def flag? (qualifiers : Qualifiers) (key : String) : Option Bool :=
  (qualifiers.get? key).bind Literal.asBool?

def optional (qualifiers : Qualifiers) : Bool := (qualifiers.flag? "optional").getD false

def default? (qualifiers : Qualifiers) : Option Literal := qualifiers.get? "default"

/-- The same keys with the same values, in any order. -/
def same (left right : Qualifiers) : Bool :=
  (Literal.record left.values.entries).same (.record right.values.entries)

/-- The spec text of one qualifier behind others; a true flag has no value. -/
def entryText (key : String) (value : Literal) : String :=
  if value.asBool? = some true then ", " ++ key else ", " ++ key ++ ": " ++ value.text

/-- The spec text of qualifiers behind a type. -/
def text (qualifiers : Qualifiers) : String :=
  String.join (qualifiers.values.entries.map fun (key, value) => entryText key value)

def toJson (qualifiers : Qualifiers) : Json := (Literal.record qualifiers.values.entries).toJson

end Qualifiers

end DocShapes
