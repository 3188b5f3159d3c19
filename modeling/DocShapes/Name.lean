import DocShapes.Text.Split

/-! # Names

A symbol is a letter or an underscore with letters, digits, underscores and dots behind it; all
of them are ASCII. Some names are keywords of specs. A custom name is a dotted path of which the
last segment begins with a capital letter.
-/

namespace DocShapes.Name

def startsSymbol (c : Char) : Bool := c.isAlpha || c = '_'

def isWordChar (c : Char) : Bool := c.isAlphanum || c = '_'

def continuesSymbol (c : Char) : Bool := isWordChar c || c = '.'

/-- The name that a text begins with, made of a first character and others behind it. -/
def leading (more : Char → Bool) : List Char → List Char
  | [] => []
  | c :: rest => if startsSymbol c then c :: rest.takeWhile more else []

/-- The symbol that a text begins with; empty if there is none. -/
def symbol (text : List Char) : List Char := leading continuesSymbol text

/-- The key of a qualifier that a text begins with; it may hold hyphens. -/
def qualifierKey (text : List Char) : List Char :=
  leading (fun c => continuesSymbol c || c = '-') text

def isSymbol (text : String) : Bool := !text.isEmpty && symbol text.toList = text.toList

def isIdentifier : List Char → Bool
  | [] => false
  | c :: rest => startsSymbol c && rest.all isWordChar

/-- Every segment is an identifier, and the last one begins with a capital letter. -/
def isCustom (name : String) : Bool :=
  let parts := Text.split '.' name.toList
  parts.all isIdentifier && ((parts.getLast?.bind List.head?).map Char.isUpper).getD false

/-! ## Keywords -/

/-- Names of the scalar types. -/
def scalars : List String := ["any", "byte", "bytes", "boolean", "integer", "number", "string"]

inductive Keyword where
  | scalar (name : String)
  | null
  | true
  | false
  | list
  | reference
  | oneof
  | union
  | record
  deriving Repr, DecidableEq

def keyword? (name : String) : Option Keyword :=
  if name ∈ scalars then some (.scalar name)
  else
    match name with
    | "null" => some .null
    | "true" => some .true
    | "false" => some .false
    | "list" => some .list
    | "reference" => some .reference
    | "oneof" => some .oneof
    | "union" => some .union
    | "record" => some .record
    | _ => none

end DocShapes.Name
