import DocShapes.AliasTable
import DocShapes.Json.Reader
import DocShapes.Text.Blank

/-! # Settings

Settings are read from the front of a JSON text, field by field, and reading stops at the first
fault; the text behind the settings is not looked at. A fault is reported as the path to the part
of the settings that it stands in. The fields may be members of an object, where none is needed
and none may occur twice, or the first items of an array.
-/

namespace DocShapes

structure Config where
  /-- Spellings to add, by canonical name. -/
  aliases : OrderedMap String (List String)
  /-- The text that starts a comment behind a spec. -/
  marker : String
  /-- Capitalized names stand for record types that are still to come. -/
  customTypes : Bool
  deriving Repr, DecidableEq

namespace Config

def standard : Config where
  aliases := .empty
  marker := "#"
  customTypes := true

instance : Inhabited Config := ⟨standard⟩

/-! ## Paths -/

inductive Step where
  | key (name : String)
  | index (place : Nat)
  /-- A member whose name cannot be read. -/
  | unnamed
  deriving Repr, DecidableEq

/-- The text of a path, outermost step first. -/
def pathText : List Step → String
  | [] => "."
  | first :: rest => start first ++ String.join (rest.map follow)
where
  start : Step → String
    | .key name => name
    | .index place => "[" ++ toString place ++ "]"
    | .unnamed => "?"
  follow : Step → String
    | .key name => "." ++ name
    | .index place => "[" ++ toString place ++ "]"
    | .unnamed => ".?"

example : pathText [.key "aliases", .key "integer", .index 0] = "aliases.integer[0]" := by decide
example : pathText [.index 0, .unnamed] = "[0].?" := by decide

/-! ## Parts -/

/-- What is read, or the path to a fault in it. -/
abbrev Found := Except (List Step)

def readString (path : List Step) (text : List Char) : Found (String × List Char) :=
  match Json.skipSpace text with
  | '"' :: rest =>
      match Json.stringBody rest with
      | some (body, rest) => .ok (String.ofList body, rest)
      | none => .error path
  | _ => .error path

def readBoolean (path : List Step) (text : List Char) : Found (Bool × List Char) :=
  match Json.skipSpace text with
  | 't' :: rest =>
      match Json.word? "rue".toList rest with
      | some rest => .ok (true, rest)
      | none => .error path
  | 'f' :: rest =>
      match Json.word? "alse".toList rest with
      | some rest => .ok (false, rest)
      | none => .error path
  | _ => .error path

/-- The text of an item of an array. That there is none is a fault of the array. -/
def readItemStart (path : List Step) (text : List Char) : Found (List Char) :=
  match Json.skipSpace text with
  | [] => .error path
  | ']' :: _ => .error path
  | rest => .ok rest

/-- The strings of an array from the item with the given place on. -/
def readItems (path : List Step) : Nat → Nat → List Char → Found (List String × List Char)
  | 0, _, _ => .error path
  | fuel + 1, place, text => do
      let text ← readItemStart path text
      let (first, rest) ← readString (path ++ [.index place]) text
      match Json.skipSpace rest with
      | ',' :: rest =>
          let (others, rest) ← readItems path fuel (place + 1) rest
          .ok (first :: others, rest)
      | ']' :: rest => .ok ([first], rest)
      | _ => .error path

def readStrings (path : List Step) (text : List Char) : Found (List String × List Char) :=
  match Json.skipSpace text with
  | '[' :: rest =>
      match Json.skipSpace rest with
      | ']' :: rest => .ok ([], rest)
      | _ => readItems path (rest.length + 1) 0 rest
  | _ => .error path

/-- The name of a member. Where no name can be read, the fault is of a member without one, also
if the text ends there. -/
def readName (path : List Step) (text : List Char) : Found (String × List Char) :=
  readString (path ++ [.unnamed]) text

/-- The text behind the colon of a member. That there is none is a fault of the object. -/
def readColon (path : List Step) (text : List Char) : Found (List Char) :=
  match Json.skipSpace text with
  | ':' :: rest => .ok rest
  | _ => .error path

/-- The spellings by name from the first member of an object on. -/
def readAliasMembers (path : List Step) :
    Nat → OrderedMap String (List String) → List Char →
      Found (OrderedMap String (List String) × List Char)
  | 0, _, _ => .error path
  | fuel + 1, before, text => do
      let (name, rest) ← readName path text
      let rest ← readColon path rest
      let (words, rest) ← readStrings (path ++ [.key name]) rest
      match Json.skipSpace rest with
      | ',' :: rest => readAliasMembers path fuel (before.set name words) rest
      | '\x7d' :: rest => .ok (before.set name words, rest)
      | _ => .error (path ++ [.unnamed])

def readAliases (path : List Step) (text : List Char) :
    Found (OrderedMap String (List String) × List Char) :=
  match Json.skipSpace text with
  | '\x7b' :: rest =>
      match Json.skipSpace rest with
      | '\x7d' :: rest => .ok (.empty, rest)
      | _ => readAliasMembers path (rest.length + 1) .empty rest
  | _ => .error path

/-! ## Settings -/

def fieldNames : List String := ["aliases", "comment_marker", "custom_types"]

/-- Settings with the field of the given place read from a text. -/
def readField (path : List Step) (field : Nat) (config : Config) (text : List Char) :
    Found (Config × List Char) :=
  match field with
  | 0 => do
      let (aliases, rest) ← readAliases path text
      .ok ({ config with aliases := aliases }, rest)
  | 1 => do
      let (marker, rest) ← readString path text
      .ok ({ config with marker := marker }, rest)
  | _ => do
      let (customTypes, rest) ← readBoolean path text
      .ok ({ config with customTypes := customTypes }, rest)

/-- Settings from the first member of an object on; `seen` are the places of the fields before. -/
def readMembers : Nat → List Nat → Config → List Char → Found Config
  | 0, _, _, _ => .error []
  | fuel + 1, seen, config, text => do
      let (name, rest) ← readName [] text
      match fieldNames.idxOf? name with
      | none => .error [.key name]
      | some field =>
          if field ∈ seen then .error []
          else
            let rest ← readColon [] rest
            let (config, rest) ← readField [.key name] field config rest
            match Json.skipSpace rest with
            | ',' :: rest => readMembers fuel (field :: seen) config rest
            | '\x7d' :: _ => .ok config
            | _ => .error [.unnamed]

/-- Settings from the items of an array, the first of them with the given place; `fields` counts
the fields that are still to come. -/
def readPlaces : Nat → Nat → Config → List Char → Found Config
  | 0, _, _, _ => .error []
  | fields + 1, place, config, text => do
      let text ← readItemStart [] text
      let (config, rest) ← readField [.index place] place config text
      match Json.skipSpace rest with
      | ',' :: rest => readPlaces fields (place + 1) config rest
      | ']' :: _ => .ok config
      | _ => .error []

def readSettings (text : List Char) : Found Config :=
  match Json.skipSpace text with
  | '\x7b' :: rest =>
      match Json.skipSpace rest with
      | '\x7d' :: _ => .ok standard
      | _ => readMembers (rest.length + 1) [] standard rest
  | '[' :: rest =>
      match Json.skipSpace rest with
      | ']' :: _ => .ok standard
      | _ => readPlaces fieldNames.length 0 standard rest
  | _ => .error []

/-- The settings that a text begins with. A comment marker must not be blank. -/
def read (text : String) : Except Error Config :=
  match readSettings text.toList with
  | .error path => .error (.config .malformed (pathText path))
  | .ok config =>
      if Text.blank config.marker then
        .error (.config .blankMarker (pathText [.key "comment_marker"]))
      else .ok config

end Config

end DocShapes
