import DocShapes.Catalog.Basic

/-! # Equivalence of types

Two types are equivalent when they lead to the same definition, when they are named, or unknown,
with the same base and name, or when they have the same structure, docs and uses throughout.
Annotations have no part in it. Types without a name contain one another only to the depth of the
arena, which bounds the descent.
-/

namespace DocShapes.Catalog

/-- Slots of the same use whose targets are related. -/
def slotsAgree (related : TypeId → TypeId → Bool) : List Slot → List Slot → Bool
  | [], [] => true
  | left :: lefts, right :: rights =>
      left.toSite.sameUse right.toSite && related left.target right.target &&
        slotsAgree related lefts rights
  | _, _ => false

/-- Shapes of one base and name whose parts are related. -/
def shapesAgree (related : TypeId → TypeId → Bool) (left right : Shape) : Bool :=
  match left, right with
  | .constant left, .constant right => left.same right
  | left, right => slotsAgree related left.slots right.slots

/-- Definitions that agree by name, or by doc and structure. -/
def definitionsAgree (related : TypeId → TypeId → Bool) (left right : Definition) : Bool :=
  left.base = right.base && left.name = right.name &&
    (left.isNamed || left.base = .unknown ||
      (left.doc = right.doc && shapesAgree related left.shape right.shape))

/-- Equivalence to a depth. -/
def equivalentWithin (catalog : Catalog) : Nat → TypeId → TypeId → Bool
  | 0, _, _ => false
  | depth + 1, left, right =>
      let left := catalog.follow left
      let right := catalog.follow right
      left = right ||
        definitionsAgree (equivalentWithin catalog depth) (catalog.definition left)
          (catalog.definition right)

def equivalent (catalog : Catalog) (left right : TypeId) : Bool :=
  catalog.equivalentWithin (catalog.arena.size + 1) left right

end DocShapes.Catalog
