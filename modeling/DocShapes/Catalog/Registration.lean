import DocShapes.Catalog.Basic

/-! # Registering names

Records and extensions are registered under their names. A canonical name is taken for good; a
provisional one can still be given its final definition, in the same place, so that earlier
references to it stay valid.
-/

namespace DocShapes.Catalog

/-- A named type whose name is neither a spelling nor canonical. -/
def checkRegistrable (definition : Definition) : CatalogM Unit := do
  let catalog ← get
  if !definition.isNamed then
    throw (.structure (.notNamed definition.base definition.name))
  if catalog.aliases.isSpelling definition.name then
    throw (.spellingConflict definition.name .isSpelling)
  if catalog.canonical.contains definition.name then
    throw (.duplicate definition.name)

def setCanonical (name : String) (id : TypeId) : CatalogM Unit :=
  modify fun catalog => { catalog with canonical := catalog.canonical.set name id }

def setProvisional (name : String) (id : TypeId) : CatalogM Unit :=
  modify fun catalog => { catalog with provisional := catalog.provisional.set name id }

def eraseProvisional (name : String) : CatalogM Unit :=
  modify fun catalog => { catalog with provisional := catalog.provisional.erase name }

/-- Make an id the provisional definition of a name that is not known yet. -/
def ensureProvisional (name : String) (id : TypeId) : CatalogM Unit := do
  unless (← get).isKnown name do setProvisional name id

/-- The canonical definition of a name. A provisional one becomes canonical. -/
def promote (name : String) : CatalogM (Option TypeId) := do
  let catalog ← get
  let name := catalog.resolveAlias name
  match catalog.canonical.get? name with
  | some id => return some id
  | none =>
      match catalog.provisional.get? name with
      | some id =>
          eraseProvisional name
          setCanonical name id
          return some id
      | none => return none

/-- Make a definition canonical; it takes the place of a provisional one. -/
def register (definition : Definition) : CatalogM TypeId := do
  checkRegistrable definition
  let name := definition.name
  match (← get).provisional.get? name with
  | some id =>
      eraseProvisional name
      setDefinition id definition
      setCanonical name id
      return id
  | none =>
      let id ← allocate definition
      setCanonical name id
      return id

/-- Make a definition provisional; its name must not be known. -/
def registerProvisional (definition : Definition) : CatalogM TypeId := do
  checkRegistrable definition
  let name := definition.name
  if (← get).provisional.contains name then throw (.duplicate name)
  let id ← allocate definition
  setProvisional name id
  return id

/-- A definition waits in a bucket. -/
def isStaged (catalog : Catalog) (id : TypeId) : Bool :=
  catalog.pending.values.any fun declarations =>
    declarations.any fun declaration => declaration.id = id

/-- Install a definition as the provisional one of its name. It takes the place of the definition
`origin` that it was made from and of one that says nothing; a staged definition stays where it
is, and the name leads to the new one. -/
def defineProvisional (definition : Definition) (origin : Option TypeId) : CatalogM TypeId := do
  checkRegistrable definition
  let name := definition.name
  let catalog ← get
  match catalog.provisional.get? name with
  | none =>
      let id ← allocate definition
      setProvisional name id
      return id
  | some present =>
      if origin = some present || (catalog.definition present).isShell then
        setDefinition present definition
        return present
      else if catalog.isStaged present then
        let id ← allocate definition
        setProvisional name id
        return id
      else throw (.duplicate name)

/-- Add a spelling that is not the name of a type. -/
def addAlias (spelling target : String) : CatalogM Unit := do
  let catalog ← get
  if catalog.isKnown spelling then throw (.spellingConflict spelling .registeredName)
  match AliasTable.enter spelling target catalog.aliases with
  | .ok _ aliases => set { catalog with aliases }
  | .error error aliases =>
      set { catalog with aliases }
      throw error

/-- The empty catalog with settings; its spellings are added in their order. -/
def ofConfig (config : Config) : Except Error Catalog :=
  let start := { empty with marker := config.marker, customTypes := config.customTypes }
  let entries := config.aliases.entries.flatMap fun (target, words) =>
    words.map fun word => (word, target)
  match (entries.forM fun (word, target) => addAlias word target : CatalogM Unit) start with
  | .ok _ catalog => .ok catalog
  | .error error _ => .error error

end DocShapes.Catalog
