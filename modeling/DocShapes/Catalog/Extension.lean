import DocShapes.Catalog.Block

/-! # Extension texts

A text of declarations `Name : spec` defines the names. A definition is provisional until it is
used or merged. An anonymous record becomes a record of the name, a type of the same name defines
itself, and any other type becomes an extension around it. A lone type name defines itself too.
-/

namespace DocShapes.Catalog

/-- The definition that a declared site gives its name, and the definition that it was made
from, where that is the definition of the name itself. -/
def extensionOf (catalog : Catalog) (site : Site) : Definition × Option TypeId :=
  let inner := catalog.definition site.target
  match site.name with
  | none => (inner, some site.target)
  | some name =>
      if inner.isNamed && inner.name = name then (inner, some site.target)
      else
        match inner.shape with
        | .anonymous fields =>
            ({ Definition.ofShape (.record name fields) with doc := inner.doc }, none)
        | _ => (.ofShape (.extension name (some (.bare site.target))), none)

/-- A definition with a further doc and the label of its source. -/
def labelled (definition : Definition) (doc source : Option String) : Definition :=
  { definition with
    doc := Doc.join [definition.doc, doc]
    annotations :=
      match source with
      | some label => definition.annotations.set "source" label
      | none => definition.annotations }

/-- Define the names of entries one by one; an entry without a site defines nothing. -/
def defineEntries (source : Option String) : List Entry → CatalogM (List TypeId)
  | [] => return []
  | entry :: rest => do
      match entry.slot.bind Slot.site? with
      | none => defineEntries source rest
      | some site =>
          let (definition, origin) := (← get).extensionOf site
          let doc := Doc.join [entry.doc, site.doc]
          let id ← defineProvisional (labelled definition doc source) origin
          let others ← defineEntries source rest
          return id :: others

/-- Define the names of a text; `source` is the label of where it comes from. -/
def loadExtension (text : String) (source : Option String) : CatalogM (List TypeId) := do
  let entries ← parseEntries { channel := none, eager := true } text
  defineEntries source entries

end DocShapes.Catalog
