import DocShapes.AliasTable
import DocShapes.Channel
import DocShapes.Config
import DocShapes.Literal.Reader
import DocShapes.Name
import DocShapes.Shape

/-! # Catalogs

A catalog owns every definition in the order in which they came into being. A name is canonical
once a definition of it is final, and provisional as long as it is only known; no name is both.
Declarations of a name that a channel has staged wait in its bucket until they are merged, and a
definition that a merge has retired forwards to the one that took its place.
-/

namespace DocShapes

/-- An occurrence of a named type in a channel. -/
structure Declaration where
  id : TypeId
  channel : Channel
  deriving Repr, DecidableEq, Inhabited

structure Catalog where
  arena : Array Definition
  canonical : OrderedMap String TypeId
  provisional : OrderedMap String TypeId
  aliases : AliasTable
  /-- Staged declarations by name. -/
  pending : OrderedMap String (List Declaration)
  /-- Where retired definitions lead. -/
  forward : OrderedMap TypeId Landing
  marker : String
  customTypes : Bool
  deriving Repr, Inhabited

/-- A step on a catalog. What it changes before a failure stays. -/
abbrev CatalogM := EStateM Error Catalog

namespace Catalog

/-- A result that no catalog is needed for. -/
def ofExcept {α : Type} : Except Error α → CatalogM α
  | .ok found => return found
  | .error error => throw error

/-- The catalog without definitions, with the built-in spellings. -/
def empty : Catalog where
  arena := #[]
  canonical := .empty
  provisional := .empty
  aliases := .builtin
  pending := .empty
  forward := .empty
  marker := Config.standard.marker
  customTypes := Config.standard.customTypes

/-! ## Definitions -/

def definition (catalog : Catalog) (id : TypeId) : Definition :=
  catalog.arena.getD id.index (.ofShape (.unknown ""))

def shape (catalog : Catalog) (id : TypeId) : Shape := (catalog.definition id).shape

def allocate (definition : Definition) : CatalogM TypeId := do
  let id : TypeId := ⟨(← get).arena.size⟩
  modify fun catalog => { catalog with arena := catalog.arena.push definition }
  return id

def setDefinition (id : TypeId) (definition : Definition) : CatalogM Unit :=
  modify fun catalog =>
    { catalog with arena := catalog.arena.setIfInBounds id.index definition }

/-- Change one definition; what the change does before it fails stays. -/
def edit (id : TypeId) (change : Edit Unit) : CatalogM Unit := do
  match change ((← get).definition id) with
  | .ok _ definition => setDefinition id definition
  | .error error definition =>
      setDefinition id definition
      throw error

/-! ## Names -/

def resolveAlias (catalog : Catalog) (name : String) : String := catalog.aliases.resolve name

/-- The canonical definition of a name under any of its spellings. -/
def canonical? (catalog : Catalog) (name : String) : Option TypeId :=
  catalog.canonical.get? (catalog.resolveAlias name)

def provisional? (catalog : Catalog) (name : String) : Option TypeId :=
  catalog.provisional.get? (catalog.resolveAlias name)

/-- The definition that a name has at the moment, a canonical one first. -/
def known? (catalog : Catalog) (name : String) : Option TypeId :=
  (catalog.canonical.get? name).or (catalog.provisional.get? name)

def isKnown (catalog : Catalog) (name : String) : Bool := (catalog.known? name).isSome

/-- What a name stands for in a spec. -/
inductive Meaning where
  | keyword (keyword : Name.Keyword)
  | registered (base : Base)
  | custom
  | unknown
  deriving Repr, DecidableEq

def meaning (catalog : Catalog) (name : String) : Meaning :=
  match Name.keyword? name with
  | some keyword => .keyword keyword
  | none =>
      match catalog.known? name with
      | some id => .registered (catalog.shape id).base
      | none => if catalog.customTypes && Name.isCustom name then .custom else .unknown

/-- The settings that literals and specs are read with. -/
def words (catalog : Catalog) : Literal.Words where
  aliases := catalog.aliases
  marker := catalog.marker.toList

/-! ## Forwarding -/

/-- The definition at the end of a chain of at most `fuel` retired ones. -/
def followFrom (catalog : Catalog) : Nat → TypeId → TypeId
  | 0, id => id
  | fuel + 1, id =>
      match catalog.forward.get? id with
      | some landing => followFrom catalog fuel landing.target
      | none => id

/-- The definition that stands for an id; a chain passes each retired definition once. -/
def follow (catalog : Catalog) (id : TypeId) : TypeId :=
  catalog.followFrom catalog.forward.size id

/-- Make a definition lead to another one. -/
def forwardTo (source target : TypeId) (siteDoc : Option String) : CatalogM Unit :=
  unless source = target do
    modify fun catalog => { catalog with forward := catalog.forward.set source ⟨target, siteDoc⟩ }

end Catalog

end DocShapes
