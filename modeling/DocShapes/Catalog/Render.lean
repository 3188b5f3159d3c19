import DocShapes.Catalog.Basic

/-! # Spec text of types

A type is written the way a spec declares it: named types by their names, a choice in parentheses,
and an empty compound by its keyword. The text of a site has its qualifiers behind the type.
-/

namespace DocShapes.Catalog

/-- The text of a shape, with the texts of its parts made by `part`. -/
def shapeText (part : TypeId → String) (shape : Shape) : String :=
  match shape with
  | .constant value => value.text
  | .list (some item) => shape.name ++ "(" ++ part item.target ++ ")"
  | .reference (some target) => shape.name ++ "(" ++ part target.target ++ ")"
  | .choice connective (first :: others) =>
      "(" ++ connective.separator.intercalate
        ((first :: others).map fun slot => part slot.target) ++ ")"
  | _ => shape.name

/-- The text of a type to a depth. -/
def typeTextWithin (catalog : Catalog) : Nat → TypeId → String
  | 0, id => (catalog.shape (catalog.follow id)).name
  | depth + 1, id =>
      shapeText (typeTextWithin catalog depth) (catalog.shape (catalog.follow id))

def typeText (catalog : Catalog) (id : TypeId) : String :=
  catalog.typeTextWithin (catalog.arena.size + 1) id

def slotText (catalog : Catalog) : Slot → String
  | .bare id => catalog.typeText id
  | .sited site => catalog.typeText site.target ++ site.qualifiers.text

end DocShapes.Catalog
