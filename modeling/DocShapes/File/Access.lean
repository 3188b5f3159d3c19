import DocShapes.File.Path

/-! # Access to files

What a program asks of the files around it, as a record of operations in any monad. The same
program runs over files on a disk and over a `FileTree`.
-/

namespace DocShapes

inductive FileFault where
  | notFound
  | denied
  | alreadyExists
  | notDirectory
  | isDirectory
  | notText
  | other (text : String)
  deriving Repr, DecidableEq, Inhabited

def FileFault.message : FileFault → String
  | .notFound => "No such file or directory (os error 2)"
  | .denied => "Permission denied (os error 13)"
  | .alreadyExists => "File exists (os error 17)"
  | .notDirectory => "Not a directory (os error 20)"
  | .isDirectory => "Is a directory (os error 21)"
  | .notText => "stream did not contain valid UTF-8"
  | .other text => text

inductive FileKind where
  | file
  | directory
  deriving Repr, DecidableEq, Inhabited

/-- The operations on files; each takes the path that it is about first. -/
structure FileAccess (m : Type → Type) where
  read : String → m (Except FileFault String)
  /-- What is at a path, if anything is. -/
  kind? : String → m (Option FileKind)
  /-- The names in a directory, in any order. -/
  names : String → m (List String)
  /-- Make one directory in another one that is there. -/
  makeDirectory : String → m (Except FileFault Unit)
  /-- Replace the text of a file, or make the file. -/
  write : String → String → m (Except FileFault Unit)

namespace FileAccess

variable {m : Type → Type} [Monad m]

def isDirectory (files : FileAccess m) (path : String) : m Bool := do
  return (← files.kind? path) = some .directory

/-- Make a directory unless it is there. -/
def ensureDirectory (files : FileAccess m) (path : String) : m (Except FileFault Unit) := do
  match ← files.makeDirectory path with
  | .ok _ => return .ok ()
  | .error fault => if ← files.isDirectory path then return .ok () else return .error fault

/-- Make the directory of a path with those above it; the parts of the path come last one first. -/
def makeDirectories (files : FileAccess m) : List Path.Part → m (Except FileFault Unit)
  | [] => return .ok ()
  | part :: above => do
      let path := Path.ofParts (part :: above).reverse
      match ← files.ensureDirectory path with
      | .error .notFound =>
          match ← makeDirectories files above with
          | .ok _ => files.ensureDirectory path
          | .error fault => return .error fault
      | done => return done

/-- Write a file and make the directories that it stands in. The two outcomes are apart, as only
the second one is about the file. -/
def writeWithin (files : FileAccess m) (path text : String) :
    m (Except FileFault (Except FileFault Unit)) := do
  match ← files.makeDirectories (Path.parts path).reverse.tail with
  | .ok _ => return .ok (← files.write path text)
  | .error fault => return .error fault

end FileAccess

end DocShapes
