import DocShapes.Doc
import DocShapes.Error
import DocShapes.Qualifiers
import DocShapes.Spec.Basic

/-! # Shapes and definitions

A shape says what a type is made of; other types occur in it by their place in a catalog. A
definition is a shape with a doc and annotations. Where a type is used it stands in a slot, either
bare or at a site that adds a name, a doc and qualifiers. `slots_relink` says that relinking a
shape lands each of its slots and keeps their order.
-/

namespace DocShapes

/-- The place of a definition in a catalog. -/
structure TypeId where
  index : Nat
  deriving Repr, DecidableEq, Inhabited

/-! ## Sites and slots -/

/-- A use of a type with what the use adds to it. -/
structure Site where
  target : TypeId
  name : Option String
  doc : Option String
  qualifiers : Qualifiers
  deriving Repr, Inhabited

namespace Site

/-- A use that adds nothing. -/
def plain (target : TypeId) : Site where
  target := target
  name := none
  doc := none
  qualifiers := .empty

def named (name : String) (target : TypeId) : Site :=
  { plain target with name := some name }

/-- The site with a doc, which is left out if it is blank. -/
def withDoc (doc : String) (site : Site) : Site := { site with doc := Text.nonBlank doc }

/-- The same name, doc and qualifiers. -/
def sameUse (left right : Site) : Bool :=
  left.name = right.name && left.doc = right.doc && left.qualifiers.same right.qualifiers

def same (left right : Site) : Bool := left.target = right.target && left.sameUse right

end Site

/-- A place for a type: the type alone, or a site. -/
inductive Slot where
  | bare (target : TypeId)
  | sited (site : Site)
  deriving Repr, Inhabited

namespace Slot

def target : Slot → TypeId
  | .bare target => target
  | .sited site => site.target

def site? : Slot → Option Site
  | .bare _ => none
  | .sited site => some site

/-- The slot as a site. -/
def toSite : Slot → Site
  | .bare target => .plain target
  | .sited site => site

def same : Slot → Slot → Bool
  | .bare left, .bare right => left = right
  | .sited left, .sited right => left.same right
  | _, _ => false

end Slot

/-! ## Shapes -/

inductive Shape where
  | scalar (name : String)
  | constant (value : Literal)
  | choice (connective : Connective) (alternatives : List Slot)
  | list (item : Option Slot)
  | reference (target : Option Slot)
  | anonymous (fields : List Site)
  | record (name : String) (fields : List Site)
  | extension (name : String) (value : Option Slot)
  | unknown (name : String)
  deriving Repr, Inhabited

namespace Shape

def base : Shape → Base
  | .scalar _ => .scalar
  | .constant _ => .constant
  | .choice .. => .compound
  | .list _ => .compound
  | .reference _ => .compound
  | .anonymous _ => .compound
  | .record .. => .record
  | .extension .. => .extension
  | .unknown _ => .unknown

def name : Shape → String
  | .scalar name => name
  | .constant value => value.kind
  | .choice connective _ => connective.word
  | .list _ => "list"
  | .reference _ => "reference"
  | .anonymous _ => "record"
  | .record name _ => name
  | .extension name _ => name
  | .unknown name => name

/-- The empty compound of a kind. -/
def compound (kind : String) : Except Error Shape :=
  match kind with
  | "oneof" => .ok (.choice .oneof [])
  | "union" => .ok (.choice .union [])
  | "list" => .ok (.list none)
  | "reference" => .ok (.reference none)
  | "record" => .ok (.anonymous [])
  | other => .error (.structure (.unknownCompound other))

/-- The places of a shape for other types, in order. -/
def slots : Shape → List Slot
  | .choice _ alternatives => alternatives
  | .list item => item.toList
  | .reference target => target.toList
  | .anonymous fields => fields.map .sited
  | .record _ fields => fields.map .sited
  | .extension _ value => value.toList
  | _ => []

/-- The types that a shape is made of. -/
def children (shape : Shape) : List TypeId := shape.slots.map Slot.target

/-- The fields of a record shape. -/
def sites : Shape → List Site
  | .anonymous fields => fields
  | .record _ fields => fields
  | _ => []

def field? (shape : Shape) (name : String) : Option Site :=
  shape.sites.find? fun site => site.name = some name

/-- The one child that a shape can hold, if it holds one. -/
def inner? : Shape → Option Slot
  | .list item => item
  | .reference target => target
  | .extension _ value => value
  | _ => none

def alternatives : Shape → List Slot
  | .choice _ alternatives => alternatives
  | _ => []

/-- The types that have a name in the whole catalog. -/
def isNamed : Shape → Bool
  | .record .. => true
  | .extension .. => true
  | _ => false

def isRecordLike : Shape → Bool
  | .anonymous _ => true
  | .record .. => true
  | _ => false

/-- A body of declarations can be fed into the shape. -/
def supportsChildren : Shape → Bool
  | .list _ => true
  | shape => shape.isRecordLike

/-- The shape says more than its kind and its name. -/
def hasContent : Shape → Bool
  | .constant _ => true
  | shape => !shape.slots.isEmpty

/-- The same shape with slots of the same targets. -/
def same : Shape → Shape → Bool
  | .scalar left, .scalar right => left = right
  | .constant left, .constant right => left.same right
  | .choice left lefts, .choice right rights => left = right && sameSlots lefts rights
  | .list left, .list right => sameSlots left.toList right.toList
  | .reference left, .reference right => sameSlots left.toList right.toList
  | .anonymous lefts, .anonymous rights => sameSlots (lefts.map .sited) (rights.map .sited)
  | .record left lefts, .record right rights =>
      left = right && sameSlots (lefts.map .sited) (rights.map .sited)
  | .extension left lefts, .extension right rights =>
      left = right && sameSlots lefts.toList rights.toList
  | .unknown left, .unknown right => left = right
  | _, _ => false
where
  sameSlots (lefts rights : List Slot) : Bool :=
    lefts.length = rights.length && (lefts.zip rights).all fun (left, right) => left.same right

end Shape

/-! ## Relinking -/

/-- Where a slot leads after it has been resolved: a type, and the doc that a retired site keeps
for itself. -/
structure Landing where
  target : TypeId
  siteDoc : Option String
  deriving Repr, DecidableEq, Inhabited

/-- The site at its new target; a kept doc goes in front of its own. -/
def Site.land (site : Site) (landing : Landing) : Site :=
  { site with
    target := landing.target
    doc := if landing.siteDoc.isSome then Doc.join [landing.siteDoc, site.doc] else site.doc }

/-- The slot at its new target; a bare slot has no room for a doc. -/
def Slot.land : Slot → Landing → Slot
  | .bare _, landing => .bare landing.target
  | .sited site, landing => .sited (site.land landing)

namespace Shape

/-- The shape with each of its slots at the landing of the same place. -/
def relink (shape : Shape) (landings : List Landing) : Shape :=
  match shape with
  | .choice connective alternatives => .choice connective (alternatives.zipWith Slot.land landings)
  | .list item => .list (landSingle item landings)
  | .reference target => .reference (landSingle target landings)
  | .anonymous fields => .anonymous (fields.zipWith Site.land landings)
  | .record name fields => .record name (fields.zipWith Site.land landings)
  | .extension name value => .extension name (landSingle value landings)
  | other => other
where
  landSingle (slot : Option Slot) (landings : List Landing) : Option Slot :=
    match slot, landings with
    | some slot, landing :: _ => some (slot.land landing)
    | _, _ => none

theorem zipWith_land_map_sited (fields : List Site) (landings : List Landing) :
    (fields.zipWith Site.land landings).map Slot.sited =
      (fields.map Slot.sited).zipWith Slot.land landings := by
  rw [List.map_zipWith, List.zipWith_map_left]
  rfl

theorem slots_relink (shape : Shape) (landings : List Landing) :
    (shape.relink landings).slots = shape.slots.zipWith Slot.land landings := by
  cases shape with
  | scalar => simp [relink, slots]
  | constant => simp [relink, slots]
  | unknown => simp [relink, slots]
  | choice => rfl
  | anonymous fields => exact zipWith_land_map_sited fields landings
  | record _ fields => exact zipWith_land_map_sited fields landings
  | list item => cases item <;> cases landings <;> simp [relink, relink.landSingle, slots]
  | reference item => cases item <;> cases landings <;> simp [relink, relink.landSingle, slots]
  | extension _ item => cases item <;> cases landings <;> simp [relink, relink.landSingle, slots]

/-- The shape with every slot at one target. -/
def redirect (shape : Shape) (target : TypeId) : Shape :=
  shape.relink (shape.slots.map fun _ => ⟨target, none⟩)

end Shape

/-! ## Definitions -/

structure Definition where
  shape : Shape
  doc : Option String
  /-- Where the definition comes from, and other remarks that do not change what it means. -/
  annotations : OrderedMap String String
  deriving Repr, Inhabited

namespace Definition

def ofShape (shape : Shape) : Definition where
  shape := shape
  doc := none
  annotations := .empty

/-- The definition with a doc, which is left out if it is blank. -/
def withDoc (doc : String) (definition : Definition) : Definition :=
  { definition with doc := Text.nonBlank doc }

def name (definition : Definition) : String := definition.shape.name

def base (definition : Definition) : Base := definition.shape.base

def isNamed (definition : Definition) : Bool := definition.shape.isNamed

def hasContent (definition : Definition) : Bool := definition.shape.hasContent

/-- A definition that says nothing but its kind and name. -/
def isShell (definition : Definition) : Bool := definition.doc.isNone && !definition.hasContent

/-- Equality of meaning, which the annotations have no part in. -/
def same (left right : Definition) : Bool :=
  left.shape.same right.shape && left.doc = right.doc

end Definition

/-! ## Checked changes -/

/-- A change of a definition. What it changes before a failure stays. -/
abbrev Edit := EStateM Error Definition

namespace Edit

def fail {α : Type} (fault : StructureFault) : Edit α := throw (.structure fault)

def setShape (shape : Shape) : Edit Unit := modify fun definition => { definition with shape }

/-- Put a field behind the others; it needs a name that no other field has. -/
def pushField (field : Site) : Edit Unit := do
  let owner := (← get).shape
  let name := field.name.getD ""
  if name.isEmpty then fail (.unnamedField owner.name)
  let taken (fields : List Site) : Bool := fields.any fun other => other.name = some name
  match owner with
  | .anonymous fields =>
      if taken fields then fail (.repeatedField owner.name name)
      setShape (.anonymous (fields ++ [field]))
  | .record recordName fields =>
      if taken fields then fail (.repeatedField owner.name name)
      setShape (.record recordName (fields ++ [field]))
  | _ => fail (.noFields owner.name)

/-- Replace all fields of a record shape. -/
def setFields (fields : List Site) : Edit Unit := do
  let owner := (← get).shape
  match owner with
  | .anonymous _ => setShape (.anonymous [])
  | .record name _ => setShape (.record name [])
  | _ => fail (.noFields owner.name)
  fields.forM pushField

/-- Fill the single place of a shape. -/
def setInner (slot : Slot) : Edit Unit := do
  let owner := (← get).shape
  match owner with
  | .list none => setShape (.list (some slot))
  | .reference none => setShape (.reference (some slot))
  | .extension name none => setShape (.extension name (some slot))
  | .list (some _) => fail (.childPresent owner.name)
  | .reference (some _) => fail (.childPresent owner.name)
  | .extension _ (some _) => fail (.childPresent owner.name)
  | _ => fail (.noSingleChild owner.name)

def pushAlternative (slot : Slot) : Edit Unit := do
  let owner := (← get).shape
  match owner with
  | .choice connective alternatives => setShape (.choice connective (alternatives ++ [slot]))
  | _ => fail (.noAlternatives owner.name)

/-- Replace the single place of a shape by at most one child. -/
def setSingle (wrap : Option Slot → Shape) (children : List Slot) : Edit Unit := do
  if children.length > 1 then fail (.tooManyChildren (← get).name children.length)
  setShape (wrap children.head?)

/-- Replace all children by the rule of the kind. -/
def setChildren (children : List Slot) : Edit Unit := do
  let owner := (← get).shape
  match owner with
  | .anonymous _ => ofSites owner.name
  | .record .. => ofSites owner.name
  | .list _ => setSingle .list children
  | .reference _ => setSingle .reference children
  | .extension name _ => setSingle (.extension name) children
  | .choice connective _ => setShape (.choice connective children)
  | _ => unless children.isEmpty do fail (.noChildren owner.base owner.name)
where
  ofSites (owner : String) : Edit Unit := do
    match children.mapM Slot.site? with
    | some fields => setFields fields
    | none => fail (.bareField owner)

end Edit

end DocShapes
