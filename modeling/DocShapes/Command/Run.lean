import DocShapes.Catalog.Dump
import DocShapes.Catalog.Extension
import DocShapes.Catalog.Merge
import DocShapes.Command.Help
import DocShapes.File.Pattern

/-! # Running a request

A run reads files, builds a catalog from them and prints JSON or writes it to a file. It stops at
the first failure, and a failure names the stage that it happened in.
-/

namespace DocShapes.Command

/-! ## Failures -/

/-- What a run was about when it failed. -/
inductive Stage where
  | readingSettings (path : String)
  | settings (path : String)
  | readingSource (path : String)
  | extension (label : String)
  | documentation (label : String)
  | merging
  | writing (path : String)
  deriving Repr, DecidableEq, Inhabited

def Stage.text : Stage → String
  | .readingSettings path => "failed to read config file " ++ path
  | .settings path => "invalid config file " ++ path
  | .readingSource path => "failed to read source file " ++ path
  | .extension label => "failed to load extension file (" ++ label ++ ")"
  | .documentation label => "failed to parse documentation file (" ++ label ++ ")"
  | .merging => "failed to merge declarations"
  | .writing path => "failed to write " ++ path

inductive Cause where
  | catalog (error : Error)
  | file (fault : FileFault)
  | pattern (fault : Pattern.Fault)
  | noMatch (text : String)
  deriving Repr, DecidableEq, Inhabited

def Cause.message : Cause → String
  | .catalog error => error.message
  | .file fault => fault.message
  | .pattern fault => fault.message
  | .noMatch text => "glob pattern matched no files: " ++ text

structure Failure where
  stage : Option Stage
  cause : Cause
  deriving Repr, DecidableEq, Inhabited

def Failure.message (failure : Failure) : String :=
  match failure.stage with
  | some stage => stage.text ++ ": " ++ failure.cause.message
  | none => failure.cause.message

section

variable {m : Type → Type} [Monad m]

/-- A run: a program over files that can fail. -/
abbrev Run (m : Type → Type) := ExceptT Failure m

/-- What an operation on files gives, or the fault of it as the failure of a stage. -/
def onFiles {α : Type} (stage : Option Stage) (operation : m (Except FileFault α)) : Run m α := do
  match ← operation with
  | .ok found => return found
  | .error fault => throw ⟨stage, .file fault⟩

/-- A result without files. -/
def inStage {α : Type} (stage : Option Stage) : Except Error α → Run m α
  | .ok found => return found
  | .error error => throw ⟨stage, .catalog error⟩

/-- A step on the catalog. -/
def advance {α : Type} (stage : Option Stage) (step : CatalogM α) :
    StateT Catalog (Run m) α := fun catalog =>
  match step catalog with
  | .ok found catalog => return (found, catalog)
  | .error error _ => throw ⟨stage, .catalog error⟩

/-! ## Input -/

/-- The catalog that a run starts with. -/
def startCatalog (files : FileAccess m) : Option String → Run m Catalog
  | none => return Catalog.empty
  | some path => do
      let text ← onFiles (some (.readingSettings path)) (files.read path)
      let config ← inStage (some (.settings path)) (Config.read text)
      inStage none (Catalog.ofConfig config)

/-- The paths of a word, which is a path or a pattern; a pattern must match something. -/
def pathsOfWord (files : FileAccess m) (word : String) : Run m (List String) := do
  if !Pattern.isPattern word then return [word]
  match Pattern.read word with
  | .error fault => throw ⟨none, .pattern fault⟩
  | .ok pattern =>
      match ← ExceptT.lift (pattern.expand files) with
      | [] => throw ⟨none, .noMatch word⟩
      | found => return found

def pathsOfWords (files : FileAccess m) (words : List String) : Run m (List String) := do
  return (← words.mapM (pathsOfWord files)).flatten

def readSource (files : FileAccess m) (path : String) : Run m String :=
  onFiles (some (.readingSource path)) (files.read path)

/-- Load extension texts; each path is the label of what it defines. -/
def loadExtensions (files : FileAccess m) (words : List String) :
    StateT Catalog (Run m) Unit := do
  (← pathsOfWords files words).forM fun path => do
    let text ← readSource files path
    let _ ← advance (some (.extension path)) (Catalog.loadExtension text (some path))

/-- The declared slots of documentation texts. -/
def readDocumentation (files : FileAccess m) (mode : Catalog.Mode) (words : List String) :
    StateT Catalog (Run m) (List Slot) := do
  let found ← (← pathsOfWords files words).mapM fun path => do
    let text ← readSource files path
    let entries ← advance (some (.documentation path)) (Catalog.parseEntries mode text)
    return entries.filterMap Catalog.Entry.slot
  return found.flatten

/-! ## Commands -/

/-- The JSON of one declaration. -/
def parseJson (files : FileAccess m) (spec : String) (config : Option String) : Run m Json := do
  let start ← startCatalog files config
  let ((id, qualifiers), catalog) ← (advance none (Catalog.parseDeclaration spec)).run start
  let slot := Slot.sited { Site.plain id with qualifiers }
  return .object [("spec", .string (catalog.slotText slot)), ("type", catalog.slotJson slot)]

/-- Dereference a slot where a failure stops the run. -/
def settleSlot (slot : Slot) : CatalogM Unit := do
  match ← Catalog.dereference slot with
  | (_, some error) => throw error
  | (_, none) => return ()

/-- Everything that a request for a catalog does to the catalog. -/
def buildCatalog (files : FileAccess m) (request : CatalogRequest) :
    StateT Catalog (Run m) Unit := do
  loadExtensions files request.extensions
  let mode : Catalog.Mode := { channel := some request.channel, eager := request.eager }
  let roots ← readDocumentation files mode request.inputs
  advance (some .merging) Catalog.mergePending
  roots.forM fun root => advance none (settleSlot root)

/-- The dump of a catalog. -/
def catalogJson (files : FileAccess m) (request : CatalogRequest) : Run m Json := do
  let start ← startCatalog files request.config
  let (_, catalog) ← (buildCatalog files request).run start
  return catalog.toJson

/-- Write a text to a file with the directories above it. -/
def writeOutput (files : FileAccess m) (path text : String) : Run m Unit := do
  let written ← onFiles none (files.writeWithin path text)
  match written with
  | .ok _ => return ()
  | .error fault => throw ⟨some (.writing path), .file fault⟩

/-- The text that a request prints. -/
def output (files : FileAccess m) : Request → Run m String
  | .help topic => return topic.helpText ++ "\n"
  | .version => return versionText ++ "\n"
  | .parse spec config => return (← parseJson files spec config).wide ++ "\n"
  | .catalog request => do
      let text := (← catalogJson files request).wide
      match request.out with
      | some path =>
          writeOutput files path text
          return ""
      | none => return text ++ "\n"

/-! ## Reports -/

/-- How a call ends. -/
inductive Report where
  | done (output : String)
  | failed (failure : Failure)
  | misused
  deriving Repr, DecidableEq, Inhabited

/-- The exit code of a report. -/
def Report.code : Report → Nat
  | .done _ => 0
  | .failed _ => 1
  | .misused => 2

/-- What is printed of a report. -/
def Report.output : Report → String
  | .done output => output
  | .failed _ => ""
  | .misused => ""

def execute (files : FileAccess m) (arguments : List String) : m Report := do
  match Request.ofArguments arguments with
  | none => return .misused
  | some request =>
      match ← (output files request).run with
      | .ok text => return .done text
      | .error failure => return .failed failure

end

end DocShapes.Command
