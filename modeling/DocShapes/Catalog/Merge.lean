import DocShapes.Catalog.Dereference
import DocShapes.Catalog.Equivalence
import DocShapes.Catalog.Render

/-! # Merging declarations

All staged declarations of a name become one canonical definition. Declarations that say nothing
are mentions; the others must agree in their base. The doc of the definition is what the docs of
its declarations end in, and what a declaration says beyond that stays with its site. The fields
of a record are the union of the declared ones: declarations of one field must not contradict one
another, and a field that only some channels declare is flagged with the channels that see it.
-/

namespace DocShapes.Catalog

/-! ## Documentation -/

/-- A definition made from declarations, and the docs that their sites keep. -/
structure Merged where
  definition : Definition
  siteDocs : OrderedMap TypeId String

/-- The docs of declarations, each with its id and with the word whether the declaration has
content. -/
def writtenDocs (catalog : Catalog) (declarations : List Declaration) :
    List (TypeId × Bool × String) :=
  declarations.filterMap fun declaration =>
    let definition := catalog.definition declaration.id
    definition.doc.map fun doc => (declaration.id, definition.hasContent, doc)

/-- What each doc says beyond a tail, by id. -/
def remainders (tail : String) (written : List (TypeId × Bool × String)) :
    OrderedMap TypeId String :=
  .ofList (written.filterMap fun (id, _, doc) =>
    (Doc.remainder doc tail).map fun rest => (id, rest))

/-- The docs that differ from a chosen one, by id. -/
def differing (chosen : String) (written : List (TypeId × Bool × String)) :
    OrderedMap TypeId String :=
  .ofList (written.filterMap fun (id, _, doc) => if doc = chosen then none else some (id, doc))

/-- The doc of the whole and the docs of the sites. With content in two or more declarations the
doc is the common tail of all docs; otherwise the first doc is chosen, those with content first,
and every other doc that differs from it stays with its site. -/
def mergeDocs (catalog : Catalog) (full : List Declaration) (contentCount : Nat) :
    Option String × OrderedMap TypeId String :=
  let written := catalog.writtenDocs full
  if contentCount ≥ 2 && written.length ≥ 2 then
    let tail := Doc.commonTail (written.map fun (_, _, doc) => doc)
    (Text.nonBlank tail, remainders tail written)
  else
    match sortBy (fun left right => left.2.1 && !right.2.1) written with
    | [] => (none, .empty)
    | (_, _, chosen) :: others => (some chosen, differing chosen others)

/-- The annotations of all declarations; the first one of a key wins. -/
def mergeAnnotations (catalog : Catalog) (full : List Declaration) : OrderedMap String String :=
  let entries := full.flatMap fun declaration =>
    (catalog.definition declaration.id).annotations.entries
  entries.foldl (fun map (key, value) => if map.contains key then map else map.set key value) .empty

/-- The declarations that have content. -/
def withContent (catalog : Catalog) (declarations : List Declaration) : List Declaration :=
  declarations.filter fun declaration => (catalog.definition declaration.id).hasContent

/-! ## Records -/

/-- A declared field with the channel that declares it. -/
structure Candidate where
  channel : Channel
  site : Site

/-- The candidates of each field name, in the order of their first declaration. -/
def candidates (catalog : Catalog) (content : List Declaration) :
    OrderedMap String (List Candidate) :=
  let all := content.flatMap fun declaration =>
    (catalog.shape declaration.id).sites.map fun site => (⟨declaration.channel, site⟩ : Candidate)
  all.foldl
    (fun map candidate =>
      let name := candidate.site.name.getD ""
      map.set name ((map.get? name).getD [] ++ [candidate]))
    .empty

/-- The doc of two declarations of a field. -/
def commonDoc (name field : String) : Option String → Option String → Except Error (Option String)
  | some left, some right =>
      if left = right then .ok (some left)
      else .error (.fieldConflict name field (Text.quoted left) (Text.quoted right))
  | left, right => .ok (left.or right)

/-- The qualifiers of two declarations of a field; empty ones say nothing. -/
def commonQualifiers (name field : String) (left right : Qualifiers) : Except Error Qualifiers :=
  if left.isEmpty then .ok right
  else if right.isEmpty || left.same right then .ok left
  else .error (.fieldConflict name field left.text right.text)

/-- One field of two declarations of it, unless they contradict each other. -/
def reconcile (catalog : Catalog) (name field : String) (winner other : Site) :
    Except Error Site := do
  if !catalog.equivalent winner.target other.target then
    throw (.fieldConflict name field (catalog.typeText winner.target)
      (catalog.typeText other.target))
  let doc ← commonDoc name field winner.doc other.doc
  let qualifiers ← commonQualifiers name field winner.qualifiers other.qualifiers
  return { winner with doc, qualifiers }

/-- Channels as a set: each at most once, in a fixed order. -/
def channelSet (channels : List Channel) : List Channel :=
  [.create, .read, .write, .unscoped].filter (· ∈ channels)

/-- A candidate carries the access flag of the channel. -/
def flaggedBy (channel : Channel) (candidate : Candidate) : Bool :=
  candidate.site.qualifiers.contains channel.word

/-- What the access flags of a field depend on beside the channels of the field itself. -/
structure Access where
  /-- The channels that declare content. -/
  channels : List Channel
  /-- Some field is flagged by hand for creating. -/
  explicitCreate : Bool
  /-- Some field is flagged by hand for writing. -/
  explicitWrite : Bool

/-- What the access flags depend on when the given declarations are merged. -/
def accessOf (catalog : Catalog) (content : List Declaration) : Access :=
  let explicit (channel : Channel) : Bool :=
    (catalog.candidates content).values.any fun all => all.any (flaggedBy channel)
  { channels := channelSet (content.map Declaration.channel)
    explicitCreate := explicit .create
    explicitWrite := explicit .write }

/-- The channel sees a field that the channels `present` declare. Creating and writing imply each
other unless some field is flagged for the other one by hand. -/
def Access.allows (access : Access) (present : List Channel) : Channel → Bool
  | .create => .create ∈ present || (.write ∈ present && !access.explicitCreate)
  | .write => .write ∈ present || (.create ∈ present && !access.explicitWrite)
  | channel => channel ∈ present

/-- The flags of a field that not all channels declare; none for a field that an unscoped
declaration has, or that is flagged by hand. -/
def Access.flags (access : Access) (fields : List Candidate) : List (Channel × Bool) :=
  let present := channelSet (fields.map Candidate.channel)
  let byHand := fields.any fun candidate => Channel.access.any fun key => flaggedBy key candidate
  if byHand || .unscoped ∈ present || present = access.channels then []
  else
    Channel.access.filterMap fun channel =>
      let allowed := access.allows present channel
      if allowed || channel ∈ access.channels then some (channel, allowed) else none

/-- The flags that a merge gives a field; declarations of one channel need none. -/
def Access.given (access : Access) (fields : List Candidate) : List (Channel × Bool) :=
  if access.channels.length > 1 then access.flags fields else []

def setFlags (flags : List (Channel × Bool)) (site : Site) : Site :=
  { site with
    qualifiers := flags.foldl
      (fun qualifiers (channel, on) => qualifiers.set channel.word (.boolean on))
      site.qualifiers }

/-- The field of the given candidates. -/
def mergeField (catalog : Catalog) (name field : String) (access : Access) :
    List Candidate → Except Error (Option Site)
  | [] => return none
  | first :: others => do
      let site ← others.foldlM
        (fun winner candidate => catalog.reconcile name field winner candidate.site) first.site
      return some (setFlags (access.given (first :: others)) site)

/-- The alphabetical order of fields. -/
def earlierName (left right : Site) : Bool := decide (left.name.getD "" < right.name.getD "")

/-- The record of a name with the given fields, each of which needs a name of its own. -/
def recordWith (name : String) (fields : List Site) : Except Error Definition :=
  match Edit.setFields fields (.ofShape (.record name [])) with
  | .ok _ record => .ok record
  | .error error _ => .error error

def mergeRecord (catalog : Catalog) (name : String) (full : List Declaration) :
    Except Error Merged := do
  let content := catalog.withContent full
  let (doc, siteDocs) := catalog.mergeDocs full content.length
  let access := catalog.accessOf content
  let sites ← (catalog.candidates content).entries.mapM fun (field, all) =>
    catalog.mergeField name field access all
  let record ← recordWith name (sortBy earlierName (sites.filterMap id))
  return {
    definition := { record with doc, annotations := catalog.mergeAnnotations full }
    siteDocs }

/-! ## Extensions -/

/-- The value that all declarations agree on. -/
def agreedValue (catalog : Catalog) (name : String) :
    Option Slot → List Slot → Except Error (Option Slot)
  | agreed, [] => return agreed
  | none, first :: rest => agreedValue catalog name (some first) rest
  | some agreed, next :: rest =>
      if catalog.equivalent agreed.target next.target then
        agreedValue catalog name (some agreed) rest
      else
        throw (.fieldConflict name "value" (catalog.slotText agreed) (catalog.slotText next))

def mergeExtension (catalog : Catalog) (name : String) (full : List Declaration) :
    Except Error Merged := do
  let content := catalog.withContent full
  let (doc, siteDocs) := catalog.mergeDocs full content.length
  let values := content.filterMap fun declaration => (catalog.shape declaration.id).inner?
  let value ← catalog.agreedValue name none values
  return {
    definition :=
      { shape := .extension name value
        doc
        annotations := catalog.mergeAnnotations full }
    siteDocs }

/-! ## Names -/

/-- The bases of declarations, each once, in alphabetical order. -/
def basesOf (catalog : Catalog) (full : List Declaration) : List Base :=
  let bases := full.map fun declaration => (catalog.definition declaration.id).base
  sortBy (fun left right => decide (left.word < right.word)) bases.eraseDups

/-- The staged declarations, with the definition that the name has already in front of them if
that says something and is not one of them. -/
def mergeSites (catalog : Catalog) (existing : Option TypeId) (staged : List Declaration) :
    List Declaration :=
  match existing with
  | some id =>
      if staged.any (·.id = id) || (catalog.definition id).isShell then staged
      else ⟨id, .unscoped⟩ :: staged
  | none => staged

/-- The definition that takes the merged content: the canonical one, or one that no channel has
staged. -/
def mergeTarget (canonical existing : Option TypeId) (staged : List Declaration) :
    Option TypeId :=
  match existing with
  | some id => if canonical.isSome || !staged.any (·.id = id) then some id else none
  | none => none

/-- A definition that keeps its own remainder, because it is not forwarded anywhere. -/
def keepRemainder (target : TypeId) (merged : Merged) : Definition :=
  match merged.siteDocs.get? target with
  | some own =>
      { merged.definition with doc := Doc.join [some own, merged.definition.doc] }
  | none => merged.definition

/-- The definition without content for a name of the given base. -/
def shellOf (base : Base) (name : String) : Definition :=
  .ofShape (if base = .extension then .extension name none else .record name [])

/-- The canonical id of a merged name, with its definition in place. -/
def installMerged (name : String) (base : Base) (target : Option TypeId)
    (merged : Option Merged) : CatalogM TypeId := do
  match target, merged with
  | some id, some merged =>
      setDefinition id (keepRemainder id merged)
      return id
  | some id, none => return id
  | none, some merged => allocate merged.definition
  | none, none => allocate (shellOf base name)

/-- Retire sites in favour of a definition; each takes the doc that it keeps, once. -/
def retire (target : TypeId) : List Declaration → OrderedMap TypeId String → CatalogM Unit
  | [], _ => return
  | site :: rest, siteDocs => do
      forwardTo site.id target (siteDocs.get? site.id)
      retire target rest (siteDocs.erase site.id)

/-- Merge the staged declarations of a name. -/
def mergeName (name : String) (staged : List Declaration) : CatalogM Unit := do
  let catalog ← get
  let canonical := catalog.canonical.get? name
  let existing := catalog.known? name
  let sites := catalog.mergeSites existing staged
  let full := sites.filter fun site => !(catalog.definition site.id).isShell
  let bases := catalog.basesOf full
  if bases.length > 1 then throw (.baseMismatch name bases)
  let base :=
    ((full.head?.or sites.head?).map fun site => (catalog.definition site.id).base).getD .record
  let merged : Option Merged ←
    if full.isEmpty then pure none
    else if base = .extension then some <$> ofExcept (catalog.mergeExtension name full)
    else some <$> ofExcept (catalog.mergeRecord name full)
  let target := mergeTarget canonical existing staged
  let id ← installMerged name base target merged
  eraseProvisional name
  setCanonical name id
  let siteDocs := ((merged.map Merged.siteDocs).getD .empty)
  retire id sites (if target.isSome then siteDocs.erase id else siteDocs)

/-- Merge everything that is staged, then settle the canonical definitions. The buckets are
emptied first, whatever the outcome. -/
def mergePending : CatalogM Unit := do
  let pending := (← get).pending
  modify fun catalog => { catalog with pending := .empty }
  pending.entries.forM fun (name, staged) => mergeName name staged
  settleCanonical

end DocShapes.Catalog
