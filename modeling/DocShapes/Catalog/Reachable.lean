import DocShapes.Catalog.Basic

/-! # Reachable definitions

The definitions that a definition is made of, directly or through others, in depth-first order. A
walk keeps a stack of ids that it has still to see; each definition puts its children on the stack
once, so that the slots of the arena bound the number of steps.
-/

namespace DocShapes.Catalog

/-- All slots of all definitions. -/
def slotCount (catalog : Catalog) : Nat :=
  (catalog.arena.toList.flatMap fun definition => definition.shape.slots).length

/-- The definitions seen by a walk of at most `fuel` steps, in the order in which it meets them,
behind the ones seen before. -/
def reachableFrom (catalog : Catalog) : Nat → List TypeId → List TypeId → List TypeId
  | fuel + 1, id :: stack, seen =>
      if id ∈ seen then reachableFrom catalog fuel stack seen
      else
        reachableFrom catalog fuel ((catalog.shape id).children ++ stack) (seen ++ [id])
  | _, _, seen => seen

/-- A definition and all that it is made of. -/
def reachable (catalog : Catalog) (id : TypeId) : List TypeId :=
  catalog.reachableFrom (catalog.slotCount + 1) [id] []

end DocShapes.Catalog
