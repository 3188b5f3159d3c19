import DocShapes.Text.Split

/-! # Paths

A path is a text of pieces between slashes. Empty pieces say nothing, and neither does a point
except at the start of a relative path. Paths are ordered by their parts, so that a directory
comes right in front of what is in it.
-/

namespace DocShapes.Path

/-! ## Parts -/

inductive Part where
  | root
  | current
  | parent
  | name (text : String)
  deriving Repr, DecidableEq, Inhabited

def Part.text : Part → String
  | .root => "/"
  | .current => "."
  | .parent => ".."
  | .name text => text

def isAbsolute (path : String) : Bool := path.toList.head? = some '/'

def endsInSlash (path : String) : Bool := path.toList.getLast? = some '/'

def pieces (path : String) : List String := (Text.split '/' path.toList).map String.ofList

/-- What a piece that is not the first one says. -/
def part? : String → Option Part
  | "" => none
  | "." => none
  | ".." => some .parent
  | text => some (.name text)

def parts (path : String) : List Part :=
  let spelled := pieces path
  let named := spelled.filterMap part?
  if isAbsolute path then .root :: named
  else if spelled.head? = some "." then .current :: named
  else named

/-- The path is the directory that relative paths start from. -/
def isCurrent (path : String) : Bool := parts path = [.current]

/-! ## Building -/

/-- The second path as seen from the first one. -/
def join (front back : String) : String :=
  if isAbsolute back then back
  else if front.isEmpty || endsInSlash front then front ++ back
  else front ++ "/" ++ back

def ofParts (parts : List Part) : String := parts.foldl (fun path part => join path part.text) ""

/-! ## Order -/

/-- The place of a kind of part among the others. -/
def Part.rank : Part → Nat
  | .root => 0
  | .current => 1
  | .parent => 2
  | .name _ => 3

def Part.before : Part → Part → Bool
  | .name left, .name right => left < right
  | left, right => left.rank < right.rank

def partsBefore : List Part → List Part → Bool
  | _, [] => false
  | [], _ :: _ => true
  | left :: lefts, right :: rights =>
      left.before right || (left = right && partsBefore lefts rights)

def before (left right : String) : Bool := partsBefore (parts left) (parts right)

end DocShapes.Path
