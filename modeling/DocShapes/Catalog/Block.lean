import DocShapes.Catalog.Elaborate
import DocShapes.Catalog.Staging
import DocShapes.Outline

/-! # Documentation blocks

A block is read entry by entry. An entry is a declaration with the prose in front of it, or the
prose at the end of the block. The body of a declaration is fed into the type that it declares: a
record takes the declarations of the body as fields, a list without an item takes its item from
the body, and a body of any other type is documentation. Bodies are blocks of their own and have
fewer lines than the block around them, so the number of lines bounds their depth.
-/

namespace DocShapes.Catalog

open Outline (Line)

/-! ## Entries -/

/-- Prose and the declaration behind it; no declaration at the end of a block. -/
structure Entry where
  doc : Option String
  slot : Option Slot
  deriving Repr, Inhabited

/-- How a block is read: the channel that stages its declarations, if any, and whether a lone type
name between blank lines is a declaration of that type. -/
structure Mode where
  channel : Option Channel
  eager : Bool
  deriving Repr, DecidableEq

/-- A way to feed a body into a type; it gives the doc that is left for the site. -/
abbrev Feed := TypeId → List String → CatalogM (Option String)

/-- The lines that a line of prose adds to a doc; its body is indented again. -/
def proseLines (line : Line) : List String :=
  line.text :: line.body.map fun text => if text.isEmpty then text else "    " ++ text

/-- The line is a lone name that means a type. -/
def isStandalone (catalog : Catalog) (mode : Mode) (line : Line) : Bool :=
  mode.eager && line.blankBefore && line.blankAfter && Name.isSymbol line.text &&
    match catalog.meaning (catalog.resolveAlias line.text) with
    | .unknown => false
    | .keyword .null => false
    | .keyword .true => false
    | .keyword .false => false
    | _ => true

/-- The site of a line `name : spec` with its body. -/
def declare (feed : Feed) (name spec : String) (body : List String) : CatalogM Slot := do
  if Text.blank spec then
    let line := (name ++ " :").toList
    throw (Error.located (.declarationWithoutType name) line (Text.width line))
  let (id, qualifiers) ← parseDeclaration spec
  let doc ← feed id body
  return .sited { target := id, name := some name, doc, qualifiers }

/-- The slot of a lone type name with its body. -/
def declareAlone (feed : Feed) (text : String) (body : List String) : CatalogM Slot := do
  let id ← parseType text
  match ← feed id body with
  | some doc => return .sited ((Site.plain id).withDoc doc)
  | none => return .bare id

/-- The slot that a line declares, if it declares one. -/
def declaration? (feed : Feed) (mode : Mode) (line : Line) : CatalogM (Option Slot) := do
  match line.declaration with
  | some (name, spec) => some <$> declare feed name spec line.body
  | none =>
      if (← get).isStandalone mode line then some <$> declareAlone feed line.text line.body
      else return none

/-- The next entry of a block and the lines behind it; `prose` are the lines of text so far. -/
def nextEntry (feed : Feed) (mode : Mode) :
    List String → List Line → CatalogM (Option (Entry × List Line))
  | prose, [] =>
      return (Doc.ofLines prose).map fun doc => ({ doc := some doc, slot := none }, [])
  | prose, line :: rest => do
      if line.isBlank then
        nextEntry feed mode (if prose.isEmpty then [] else prose ++ [""]) rest
      else
        match ← declaration? feed mode line with
        | none => nextEntry feed mode (prose ++ proseLines line) rest
        | some slot =>
            let slot ← match mode.channel with
              | some channel => stage channel slot
              | none => pure slot
            return some ({ doc := Doc.ofLines prose, slot := some slot }, rest)

/-- At most `count` entries, and the failure that ended them early. -/
def drawEntries (feed : Feed) (mode : Mode) :
    Nat → List Line → CatalogM (List Entry × Option Error)
  | 0, _ => return ([], none)
  | count + 1, lines => fun catalog =>
      match nextEntry feed mode [] lines catalog with
      | .error error catalog => .ok ([], some error) catalog
      | .ok none catalog => .ok ([], none) catalog
      | .ok (some (entry, rest)) catalog =>
          (do
            let (others, error?) ← drawEntries feed mode count rest
            return (entry :: others, error?)) catalog

/-- All entries of a block. -/
def allEntries (feed : Feed) (mode : Mode) (lines : List Line) : CatalogM (List Entry) := do
  match ← drawEntries feed mode (lines.length + 1) lines with
  | (entries, none) => return entries
  | (_, some error) => throw error

/-! ## Bodies -/

/-- The type that takes the declarations of a body: the list without an item, or the record, at
the end of a chain of lists. -/
def bodyTarget? (catalog : Catalog) : Nat → TypeId → Option TypeId
  | 0, _ => none
  | depth + 1, id =>
      match catalog.shape id with
      | .list (some item) =>
          if (catalog.shape item.target).supportsChildren then
            bodyTarget? catalog depth item.target
          else none
      | shape => if shape.supportsChildren then some id else none

/-- What the entries of a body come to: the prose before the first declaration, the declared
slots, each with the prose before it, and the prose at the end. -/
structure Content where
  lead : Option String
  slots : List Slot
  tail : Option String

/-- A later slot of a body with the prose before it; a bare slot has no room for prose. -/
def withProse (doc : Option String) : Slot → Slot
  | .bare id => .bare id
  | .sited site => .sited { site with doc := Doc.join [doc, site.doc] }

def Content.add (content : Content) (entry : Entry) : Content :=
  match entry.slot with
  | none => { content with tail := entry.doc }
  | some slot =>
      if content.slots.isEmpty then { content with lead := entry.doc, slots := [slot] }
      else { content with slots := content.slots ++ [withProse entry.doc slot] }

def Content.ofEntries (entries : List Entry) : Content :=
  entries.foldl Content.add ⟨none, [], none⟩

/-- The slots as fields of a record. -/
def namedFields (owner : String) (slots : List Slot) : Except Error (List Site) :=
  slots.mapM fun slot =>
    match slot with
    | .sited site =>
        if site.name.isSome then .ok site else .error (.structure (.bodyWithoutNames owner))
    | .bare _ => .error (.structure (.bodyWithoutNames owner))

/-- The item of a list whose body declares the given slots: a single slot without a name, or else
a record of the slots. -/
def itemOfBody (slots : List Slot) : CatalogM Slot := do
  match slots with
  | [.bare id] => return .bare id
  | [.sited site] => if site.name.isNone then return .sited site else recordOf slots
  | slots => recordOf slots
where
  recordOf (slots : List Slot) : CatalogM Slot := do
    let fields ← ofExcept (namedFields "record" slots)
    match Edit.setFields fields (.ofShape (.anonymous [])) with
    | .ok _ record => return .bare (← allocate record)
    | .error error _ => throw error

/-- Feed a body into the type that takes its declarations. -/
def feedTarget (feed : Feed) (id : TypeId) (body : List String) : CatalogM (Option String) := do
  let before := (← get).definition id
  let recordLike := before.shape.isRecordLike
  let fresh := before.isNamed && recordLike && before.isShell
  let entries ← allEntries feed { channel := none, eager := !recordLike } (Outline.ofLines body)
  let content := Content.ofEntries entries
  let doc := Doc.join [content.lead, content.tail]
  if recordLike then
    let fields ← ofExcept (namedFields before.name content.slots)
    edit id (fields.forM Edit.pushField)
  else if !content.slots.isEmpty then
    let item ← itemOfBody content.slots
    edit id (Edit.setInner item)
  if fresh && doc.isSome then
    setDefinition id { (← get).definition id with doc }
    return none
  return doc

/-- Feed a body into a type; `feed` does so for the bodies inside it. -/
def feedBody (feed : Feed) : Feed := fun id body => do
  if body.isEmpty then return none
  let catalog ← get
  match catalog.bodyTarget? (catalog.arena.size + 1) id with
  | none => return Doc.ofLines body
  | some target => feedTarget feed target body

/-- Feed a body of at most `depth` lines into a type. -/
def feedWithin : Nat → Feed
  | 0 => fun _ body => return Doc.ofLines body
  | depth + 1 => feedBody (feedWithin depth)

/-! ## Whole blocks -/

/-- The first `count` entries of a block, and the failure that ended them early. -/
def parseBlock (mode : Mode) (count : Nat) (text : String) :
    CatalogM (List Entry × Option Error) :=
  drawEntries (feedWithin (Text.linesOf text).length) mode count (Outline.ofText text)

/-- All entries of a block. -/
def parseEntries (mode : Mode) (text : String) : CatalogM (List Entry) :=
  allEntries (feedWithin (Text.linesOf text).length) mode (Outline.ofText text)

/-- The entries of a block joined into one, at most `count` of them; there may be one declaration
among them. -/
def joinEntries (feed : Feed) (mode : Mode) (text : String) :
    Nat → List (Option String) → Option Slot → List Line → CatalogM Entry
  | 0, docs, slot, _ => return { doc := Doc.join docs, slot }
  | count + 1, docs, slot, lines => do
      match ← nextEntry feed mode [] lines with
      | none => return { doc := Doc.join docs, slot }
      | some (entry, rest) =>
          if entry.slot.isSome && slot.isSome then
            throw (Error.located .severalDeclarations text.toList 0)
          joinEntries feed mode text count (docs ++ [entry.doc]) (entry.slot.or slot) rest

/-- The one declaration of a block, with all prose of the block as its doc. -/
def parseSingle (mode : Mode) (text : String) : CatalogM Entry :=
  let lines := Outline.ofText text
  joinEntries (feedWithin (Text.linesOf text).length) mode text (lines.length + 1) [] none lines

end DocShapes.Catalog
