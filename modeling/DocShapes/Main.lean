import DocShapes.Command.Run

/-! # The program

The command line over the files of the machine. Directories are not listed here: a shell expands
the patterns among its arguments, and of a quoted pattern only components without marks are found.
-/

namespace DocShapes.Main

/-- The code of an operation on something that is no directory, as a number or its negation. -/
def isNotDirectory (code : UInt32) : Bool := code = 20 || code + 20 = 0

/-- The fault of a failed operation. -/
def faultOf : IO.Error → FileFault
  | .noFileOrDirectory .. => .notFound
  | .alreadyExists .. => .alreadyExists
  | .permissionDenied .. => .denied
  | .inappropriateType _ code _ => if isNotDirectory code then .notDirectory else .isDirectory
  | .userError _ => .notText
  | error => .other error.toString

/-- What an action gives, or the fault of it. -/
def guarded {α : Type} (action : IO α) : IO (Except FileFault α) := do
  match ← action.toBaseIO with
  | .ok found => return .ok found
  | .error error => return .error (faultOf error)

/-- What is at a path: a directory can be opened but not read. -/
def kind? (path : String) : IO (Option FileKind) := do
  match ← guarded (IO.FS.Handle.mk path .read) with
  | .error _ => return none
  | .ok handle =>
      match ← guarded (handle.read 1) with
      | .ok _ => return some .file
      | .error _ => return some .directory

def files : FileAccess IO where
  read path := guarded (IO.FS.readFile path)
  kind? := kind?
  names _ := return []
  makeDirectory path := guarded (IO.FS.createDir path)
  write path text := guarded (IO.FS.writeFile path text)

end DocShapes.Main

open DocShapes DocShapes.Command in
def main (arguments : List String) : IO UInt32 := do
  let report ← execute Main.files arguments
  IO.print report.output
  match report with
  | .done _ => pure ()
  | .failed failure => IO.eprintln ("error: " ++ failure.message)
  | .misused =>
      IO.eprintln ("error: the arguments make no request\n\nUsage: " ++ Topic.program.usage)
  return report.code.toUInt32
