import DocShapes.File.Access
import DocShapes.OrderedMap

/-! # Trees of files

The files below a working directory as a value. A directory is there once it was made or something
is in it. What is outside of the working directory is one more place of which nothing is known:
nothing is found there, and nothing can be written there.
-/

namespace DocShapes

structure FileTree where
  /-- Texts by the names on the way to them. -/
  files : OrderedMap (List String) String
  /-- The directories that were made. -/
  directories : List (List String)
  deriving Repr, DecidableEq, Inhabited

namespace FileTree

/-- Where a path leads. -/
inductive Place where
  | outside
  | inside (names : List String)
  deriving Repr, DecidableEq, Inhabited

/-- The tree of the files with given relative paths. -/
def ofFiles (files : List (String × String)) : FileTree where
  files := .ofList (files.map fun (path, text) => ((Path.parts path).map Path.Part.text, text))
  directories := []

/-! ## Places -/

def isDirectory (tree : FileTree) : Place → Bool
  | .outside => true
  | .inside names =>
      names.isEmpty || tree.directories.any names.isPrefixOf ||
        tree.files.keys.any fun key => key ≠ names && names.isPrefixOf key

def text? (tree : FileTree) : Place → Option String
  | .outside => none
  | .inside names => tree.files.get? names

/-- Why a place is not the directory that it should be. -/
def faultAt (tree : FileTree) (place : Place) : FileFault :=
  if (tree.text? place).isSome then .notDirectory else .notFound

/-- The place that one piece of a path leads to from a directory. -/
def enter : Place → String → Place
  | place, "" => place
  | place, "." => place
  | .outside, _ => .outside
  | .inside [], ".." => .outside
  | .inside names, ".." => .inside names.dropLast
  | .inside names, name => .inside (names ++ [name])

/-- The place that pieces lead to; all but the last one must stand in a directory. -/
def walk (tree : FileTree) : List String → Place → Except FileFault Place
  | [], place => .ok place
  | piece :: rest, place =>
      if !tree.isDirectory place then .error (tree.faultAt place)
      else if place = .outside && !(piece ∈ ["", ".", ".."]) then .error .notFound
      else walk tree rest (enter place piece)

def start (path : String) : Place := if Path.isAbsolute path then .outside else .inside []

def find (tree : FileTree) (path : String) : Except FileFault Place :=
  if path.isEmpty then .error .notFound else tree.walk (Path.pieces path) (start path)

/-! ## Operations -/

def read (tree : FileTree) (path : String) : Except FileFault String := do
  let place ← tree.find path
  match tree.text? place with
  | some text => .ok text
  | none => .error (if tree.isDirectory place then .isDirectory else .notFound)

def kind? (tree : FileTree) (path : String) : Option FileKind :=
  match tree.find path with
  | .error _ => none
  | .ok place =>
      if (tree.text? place).isSome then some .file
      else if tree.isDirectory place then some .directory
      else none

/-- The names in a place, each once. -/
def namesAt (tree : FileTree) : Place → List String
  | .outside => []
  | .inside names =>
      let below := (tree.files.keys ++ tree.directories).filter names.isPrefixOf
      (below.filterMap fun key => key[names.length]?).eraseDups

def names (tree : FileTree) (path : String) : List String :=
  match tree.find path with
  | .ok place => tree.namesAt place
  | .error _ => []

/-- The place of a new entry, whose last piece must be a name. -/
def findNew (tree : FileTree) (path : String) : Except FileFault Place := do
  if path.isEmpty then .error .notFound
  else
    let spelled := Path.pieces path
    let above ← tree.walk spelled.dropLast (start path)
    if !tree.isDirectory above then .error (tree.faultAt above)
    else
      match above, Path.part? (spelled.getLast?.getD "") with
      | .inside names, some (.name name) => .ok (.inside (names ++ [name]))
      | .outside, some (.name _) => .error .denied
      | _, _ => .error .isDirectory

def makeDirectory (tree : FileTree) (path : String) : Except FileFault FileTree := do
  match tree.findNew path with
  | .ok (.inside names) =>
      if (tree.kind? path).isSome then .error .alreadyExists
      else .ok { tree with directories := tree.directories ++ [names] }
  | .ok .outside => .error .denied
  | .error .isDirectory => .error .alreadyExists
  | .error fault => .error fault

/-- A path that ends in a slash names a directory, whatever is there. -/
def write (tree : FileTree) (path text : String) : Except FileFault FileTree := do
  let bare := String.ofList (path.toList.reverse.dropWhile (· = '/')).reverse
  match ← tree.findNew (if bare.isEmpty then path else bare) with
  | .outside => .error .denied
  | .inside names =>
      if tree.isDirectory (.inside names) || Path.endsInSlash path then .error .isDirectory
      else .ok { tree with files := tree.files.set names text }

/-! ## Access -/

/-- Make a change of the tree, or leave the tree as it is. -/
def change (step : FileTree → Except FileFault FileTree) :
    StateM FileTree (Except FileFault Unit) := do
  match step (← get) with
  | .ok tree =>
      set tree
      return .ok ()
  | .error fault => return .error fault

def access : FileAccess (StateM FileTree) where
  read path := return (← get).read path
  kind? path := return (← get).kind? path
  names path := return (← get).names path
  makeDirectory path := change fun tree => tree.makeDirectory path
  write path text := change fun tree => tree.write path text

end FileTree

end DocShapes
