import DocShapes.Catalog.Reachable

/-! # Staging declarations

A channel stages every named type that a declared slot is made of, in depth-first order, each in
the bucket of its name. A bare named slot becomes a site first, so that every staged root has room
for a doc.
-/

namespace DocShapes.Catalog

/-- Put a declaration behind the others of its name. -/
def stageDeclaration (declaration : Declaration) : CatalogM Unit :=
  modify fun catalog =>
    let name := (catalog.definition declaration.id).name
    let bucket := (catalog.pending.get? name).getD []
    { catalog with pending := catalog.pending.set name (bucket ++ [declaration]) }

/-- The named types that a definition is made of, itself included. -/
def namedReachable (catalog : Catalog) (id : TypeId) : List TypeId :=
  (catalog.reachable id).filter fun id => (catalog.definition id).isNamed

/-- The slot with room for a doc, if its type is named. -/
def stagedSlot (catalog : Catalog) : Slot → Slot
  | .bare id => if (catalog.definition id).isNamed then .sited (.plain id) else .bare id
  | slot => slot

def stage (channel : Channel) (slot : Slot) : CatalogM Slot := do
  let catalog ← get
  (catalog.namedReachable slot.target).forM fun id => stageDeclaration ⟨id, channel⟩
  return catalog.stagedSlot slot

end DocShapes.Catalog
