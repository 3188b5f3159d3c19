import DocShapes.Catalog.Registration
import DocShapes.Spec.Reader

/-! # Types of specs

Each node of a spec becomes a definition of its own, the parts of a node before the node. A name
that the catalog knows becomes an empty definition of the same base; a custom name becomes an
empty record and is provisional from then on; any other name stays unknown.
-/

namespace DocShapes.Catalog

/-- The definition for a name that is no keyword. -/
def elaborateName (name : String) : CatalogM TypeId := do
  match (← get).meaning name with
  | .registered .extension => allocate (.ofShape (.extension name none))
  | .registered _ => allocate (.ofShape (.record name []))
  | .custom =>
      let id ← allocate (.ofShape (.record name []))
      ensureProvisional name id
      return id
  | _ => allocate (.ofShape (.unknown name))

def elaborate : Spec → CatalogM TypeId
  | .scalar name => allocate (.ofShape (.scalar name))
  | .constant value => allocate (.ofShape (.constant value))
  | .named name => elaborateName name
  | .list => allocate (.ofShape (.list none))
  | .listOf item => do
      let id ← elaborate item
      allocate (.ofShape (.list (some (.bare id))))
  | .reference => allocate (.ofShape (.reference none))
  | .referenceTo target => do
      let id ← elaborate target
      allocate (.ofShape (.reference (some (.bare id))))
  | .record => allocate (.ofShape (.anonymous []))
  | .sequence connective items => do
      let ids ← elaborateEach items
      allocate (.ofShape (.choice connective (ids.map .bare)))
where
  elaborateEach : List Spec → CatalogM (List TypeId)
    | [] => return []
    | item :: rest => do
        let first ← elaborate item
        let others ← elaborateEach rest
        return first :: others

/-- What a reading gives. A rejected text leaves the types of its completed specs behind. -/
def accept {α : Type} (reading : Spec.Reading α) : CatalogM α := do
  match reading with
  | .ok found => return found
  | .error rejection =>
      let _ ← elaborate.elaborateEach rejection.completed
      throw rejection.error

/-- The type of a whole spec. -/
def parseType (text : String) : CatalogM TypeId := do
  let spec ← accept (Spec.read (← get).words text)
  elaborate spec

/-- The type that a text begins with, and the text behind it. -/
def parseFront (text : String) : CatalogM (TypeId × String) := do
  let (spec, cursor) ← accept (Spec.readFront (← get).words text)
  let id ← elaborate spec
  return (id, String.ofList cursor.rest)

/-- The type of a declaration and its qualifiers. -/
def parseDeclaration (text : String) : CatalogM (TypeId × Qualifiers) := do
  let (spec, qualifiers) ← accept (Spec.readDeclaration (← get).words text)
  let id ← elaborate spec
  return (id, qualifiers)

end DocShapes.Catalog
