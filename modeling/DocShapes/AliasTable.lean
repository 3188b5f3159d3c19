import DocShapes.Error
import DocShapes.OrderedMap
import DocShapes.Sorted

/-! # Spellings of names

A table maps each spelling to the one canonical name that it stands for, and each canonical name
back to its spellings. A spelling is never the canonical name of another spelling, so resolving is
one look-up. `AliasTable.enter` makes all its checks before it writes to either map.
-/

namespace DocShapes

structure AliasTable where
  /-- The canonical name of each spelling. -/
  targets : OrderedMap String String
  /-- The spellings of each canonical name in alphabetical order. -/
  words : OrderedMap String (List String)
  deriving Repr, DecidableEq, Inhabited

namespace AliasTable

def empty : AliasTable := ⟨.empty, .empty⟩

/-- The canonical name of a spelling. -/
def target? (table : AliasTable) (name : String) : Option String := table.targets.get? name

def isSpelling (table : AliasTable) (name : String) : Bool := table.targets.contains name

/-- Some spelling stands for the name. -/
def hasSpellings (table : AliasTable) (name : String) : Bool := table.words.contains name

/-- The spellings of a canonical name in alphabetical order. -/
def spellings (table : AliasTable) (name : String) : List String :=
  (table.words.get? name).getD []

/-- The canonical name of a spelling, and any other name itself. -/
def resolve (table : AliasTable) (name : String) : String := (table.target? name).getD name

/-! ## Adding spellings -/

/-- A word among others in alphabetical order, once. -/
def insertWord (word : String) (others : List String) : List String :=
  if others.contains word then others
  else insertBy (fun left right => decide (left < right)) word others

/-- Make `spelling` stand for `target`. Repeating an entry changes nothing. -/
def enter (spelling target : String) : EStateM Error AliasTable Unit := do
  let table ← get
  if spelling.isEmpty || target.isEmpty then throw (.spellingConflict spelling .emptyName)
  if spelling = target then throw (.spellingConflict spelling .ownName)
  match table.target? spelling with
  | some existing =>
      unless existing = target do
        throw (.spellingConflict spelling (.otherTarget existing target))
  | none =>
      if table.hasSpellings spelling then throw (.spellingConflict spelling .hasSpellings)
      if let some existing := table.target? target then
        throw (.spellingConflict spelling (.targetIsSpelling target existing))
      modify fun table => { table with targets := table.targets.set spelling target }
      modify fun table =>
        { table with words := table.words.set target (insertWord spelling (table.spellings target)) }

/-- The table in which `spelling` stands for `target`. -/
def add (table : AliasTable) (spelling target : String) : Except Error AliasTable :=
  match enter spelling target table with
  | .ok _ grown => .ok grown
  | .error error _ => .error error

/-! ## Built-in spellings -/

/-- The spellings that every catalog starts with. -/
def builtinEntries : List (String × List String) :=
  [("integer", ["int", "long"]),
    ("number", ["num", "float", "double", "real", "decimal"]),
    ("string", ["str", "text"]),
    ("boolean", ["bool"]),
    ("bytes", ["binary", "blob"]),
    ("record", ["dict", "object", "map", "hash"]),
    ("list", ["array", "seq", "sequence"]),
    ("reference", ["ref"]),
    ("oneof", ["enum", "choice"]),
    ("null", ["nil", "None", "Null", "NULL"]),
    ("true", ["True", "TRUE"]),
    ("false", ["False", "FALSE"])]

def builtin : AliasTable where
  targets :=
    ⟨builtinEntries.flatMap fun (name, spellings) => spellings.map fun word => (word, name)⟩
  words := ⟨builtinEntries.map fun (name, spellings) =>
    (name, sortBy (fun left right => decide (left < right)) spellings)⟩

/-- Words that stand for a constant inside literal values only, so that they stay free as names
of types. -/
def constantWords : List (String × String) :=
  [("none", "null"), ("yes", "true"), ("Yes", "true"), ("on", "true"), ("no", "false"),
    ("No", "false"), ("off", "false")]

/-- The name that a word stands for inside a literal value. -/
def resolveWord (table : AliasTable) (word : String) : String :=
  match table.target? word with
  | some name => name
  | none => (OrderedMap.find word constantWords).getD word

end AliasTable

end DocShapes
