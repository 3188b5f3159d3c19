import DocShapes.Catalog.Basic
import DocShapes.Text.LowerCase

/-! # JSON of a catalog

Every canonical type is written once, under its name; elsewhere a named type is a reference of the
form `{"$ref": name}`, so that a cyclic catalog has a finite dump. The names are in the order
of their lower-case forms.
-/

namespace DocShapes.Catalog

/-- A use of a type, with the JSON of the type. -/
def useJson (type : Json) (site : Site) : Json :=
  (Json.object [("type", type)])
    |>.withMember? "doc" (site.doc.map .string)
    |>.withMember? "params"
      (if site.qualifiers.isEmpty then none else some site.qualifiers.toJson)

/-- A field of a record: its name, if it has one, in front of its use. -/
def fieldJson (part : TypeId → Json) (site : Site) : Json :=
  match useJson (part site.target) site with
  | .object members =>
      .object ((site.name.map fun name => ("name", .string name)).toList ++ members)
  | other => other

def slotJsonWith (part : TypeId → Json) : Slot → Json
  | .bare id => part id
  | .sited site => useJson (part site.target) site

/-- The view of a definition where it is used. -/
def inlineJson (part : TypeId → Json) (definition : Definition) : Json :=
  let slot := slotJsonWith part
  let documented (json : Json) : Json := json.withMember? "doc" (definition.doc.map .string)
  match definition.shape with
  | .scalar name => documented (.object [("type", .string name)])
  | .constant value =>
      documented (.object [("type", .string value.kind), ("const", value.toJson)])
  | .list item =>
      documented ((Json.object [("type", .string "list")]).withMember? "items" (item.map slot))
  | .reference target =>
      documented
        ((Json.object [("type", .string "reference")]).withMember? "target" (target.map slot))
  | .choice .oneof alternatives =>
      documented (.object [("oneOf", .array (alternatives.map slot))])
  | .choice .union alternatives =>
      documented (.object [("allOf", .array (alternatives.map slot))])
  | .anonymous fields =>
      documented (.object [("type", .string "record"),
        ("fields", .array (fields.map (fieldJson part)))])
  | .record name _ => .object [("$ref", .string name)]
  | .extension name _ => .object [("$ref", .string name)]
  | .unknown name => .object [("unresolved", .string name)]

/-- The inline view of a type to a depth. -/
def typeJsonWithin (catalog : Catalog) : Nat → TypeId → Json
  | 0, _ => .null
  | depth + 1, id =>
      inlineJson (typeJsonWithin catalog depth) (catalog.definition (catalog.follow id))

def typeJson (catalog : Catalog) (id : TypeId) : Json :=
  catalog.typeJsonWithin (catalog.arena.size + 1) id

def slotJson (catalog : Catalog) (slot : Slot) : Json := slotJsonWith catalog.typeJson slot

/-- The full view of a named type, with the label of its source if it has one. -/
def definitionJson (catalog : Catalog) (id : TypeId) : Json :=
  let definition := catalog.definition (catalog.follow id)
  let heading :=
    (Json.object [("base", .string definition.base.word), ("name", .string definition.name)])
      |>.withMember? "doc" (definition.doc.map .string)
  let source := (definition.annotations.get? "source").map Json.string
  match definition.shape with
  | .record _ fields =>
      (heading.withMember "fields" (.array (fields.map (fieldJson catalog.typeJson))))
        |>.withMember? "source" source
  | .extension _ value =>
      (heading.withMember? "value" (value.map catalog.slotJson)).withMember? "source" source
  | _ => catalog.typeJson id

/-- The order of names in a dump. -/
def namesBefore (left right : String) : Bool :=
  let leftKey := Text.lowerCase left
  let rightKey := Text.lowerCase right
  leftKey < rightKey || (leftKey = rightKey && left < right)

/-- The canonical names in their order. -/
def names (catalog : Catalog) : List String := sortBy namesBefore catalog.canonical.keys

/-- The dump: each canonical type under its name. -/
def toJson (catalog : Catalog) : Json :=
  .object (catalog.names.filterMap fun name =>
    (catalog.canonical? name).map fun id => (name, catalog.definitionJson id))

end DocShapes.Catalog
