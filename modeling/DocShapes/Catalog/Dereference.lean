import DocShapes.Catalog.Reachable
import DocShapes.Catalog.Registration

/-! # Dereferencing

To resolve an id is to follow it past retired definitions and, where it leads to an unknown name,
to an empty named type or to a provisional one, to the canonical definition of the name. To settle
a definition is to resolve every slot of everything that it is made of. A doc that a retired site
kept for itself moves to the site that is resolved.
-/

namespace DocShapes.Catalog

/-! ## Resolving -/

/-- Where a chain of at most `fuel` retired definitions leads, with the first doc kept on it. -/
def landingFrom (catalog : Catalog) : Nat → TypeId → Option String → Landing
  | 0, id, doc => ⟨id, doc⟩
  | fuel + 1, id, doc =>
      match catalog.forward.get? id with
      | some next => landingFrom catalog fuel next.target (doc.or next.siteDoc)
      | none => ⟨id, doc⟩

def landing (catalog : Catalog) (id : TypeId) : Landing :=
  catalog.landingFrom catalog.forward.size id none

/-- The definition is a mention of its name: an unknown name, a named type that says nothing, or
the provisional definition of its name. -/
def mentionsName (catalog : Catalog) (id : TypeId) : Bool :=
  let definition := catalog.definition id
  definition.base = .unknown ||
    (definition.isNamed &&
      (definition.isShell || catalog.provisional.get? definition.name = some id))

/-- The final definition for an id, with the doc to put on its site. -/
def resolve (id : TypeId) : CatalogM Landing := do
  let catalog ← get
  let here := catalog.landing id
  if catalog.mentionsName here.target then
    let definition := catalog.definition here.target
    match ← promote definition.name with
    | some target =>
        if target = here.target then return here
        forwardTo here.target target none
        return { here with target := (← get).follow target }
    | none =>
        if definition.base = .unknown then throw (.unresolved definition.name)
        return here
  else return here

/-! ## Settling -/

/-- Resolve the slots of the definitions on a stack and of all that they are made of, in at most
`fuel` steps; `seen` are the definitions done before. -/
def settleFrom : Nat → List TypeId → List TypeId → CatalogM Unit
  | fuel + 1, id :: stack, seen => do
      if id ∈ seen then settleFrom fuel stack seen
      else
        let landings ← (← get).shape id |>.children.mapM resolve
        let definition := (← get).definition id
        setDefinition id { definition with shape := definition.shape.relink landings }
        settleFrom fuel (landings.map Landing.target ++ stack) (id :: seen)
  | _, _, _ => return

/-- Settle definitions and all that they are made of. -/
def settle (ids : List TypeId) : CatalogM Unit := do
  settleFrom (ids.length + (← get).slotCount) ids []

/-- Settle every canonical definition, in the order of the names. -/
def settleCanonical : CatalogM Unit := do
  let entries := sortBy (fun left right => decide (left.1 < right.1)) (← get).canonical.entries
  settle (entries.map Prod.snd)

/-! ## Slots outside the catalog -/

/-- The slot at its landing; a bare slot with a doc to take becomes a site. -/
def landOutside (slot : Slot) (landing : Landing) : Slot :=
  match slot, landing.siteDoc with
  | .bare _, some doc => .sited ((Site.plain landing.target).withDoc doc)
  | slot, _ => slot.land landing

/-- Run a step and keep its failure as a value. -/
def attempt {α : Type} (step : CatalogM α) : CatalogM (Except Error α) := fun catalog =>
  match step catalog with
  | .ok found catalog => .ok (.ok found) catalog
  | .error error catalog => .ok (.error error) catalog

/-- The slot with its target resolved and settled, and the failure that stopped this. -/
def dereference (slot : Slot) : CatalogM (Slot × Option Error) := do
  match ← attempt (resolve slot.target) with
  | .error error => return (slot, some error)
  | .ok landing =>
      let landed := landOutside slot landing
      match ← attempt (settle [landing.target]) with
      | .error error => return (landed, some error)
      | .ok _ => return (landed, none)

end DocShapes.Catalog
