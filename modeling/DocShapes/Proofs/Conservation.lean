import DocShapes.Proofs.Accounting

/-! # Blocks lose and double no line

A body hands its declarations to the type that takes it, and its prose to docs. With the feed of the
parser this closes the account of blocks: `Consistent.block_conserved` says of a whole block where
its headers and where its lines of prose have gone.
-/

namespace DocShapes

/-! ## Slots that a type takes -/

/-- A record with further fields. -/
def Shape.withFields : Shape → List Site → Shape
  | .anonymous fields, more => .anonymous (fields ++ more)
  | .record name fields, more => .record name (fields ++ more)
  | shape, _ => shape

namespace Shape

@[simp] theorem withFields_nil (shape : Shape) : shape.withFields [] = shape := by
  cases shape <;> simp [withFields]

theorem withFields_withFields (shape : Shape) (fields more : List Site) :
    (shape.withFields fields).withFields more = shape.withFields (fields ++ more) := by
  cases shape <;> simp [withFields]

theorem base_withFields (shape : Shape) (fields : List Site) :
    (shape.withFields fields).base = shape.base := by
  cases shape <;> rfl

theorem isRecordLike_withFields (shape : Shape) (fields : List Site) :
    (shape.withFields fields).isRecordLike = shape.isRecordLike := by
  cases shape <;> rfl

theorem slots_withFields {shape : Shape} (record : shape.isRecordLike = true) (fields : List Site) :
    (shape.withFields fields).slots = shape.slots ++ fields.map .sited := by
  cases shape with
  | anonymous | record => simp [withFields, slots]
  | _ => cases record

end Shape

/-- A definition with further fields. -/
def Definition.withFields (definition : Definition) (fields : List Site) : Definition :=
  { definition with shape := definition.shape.withFields fields }

/-- A definition of a list of the item. -/
def Definition.withItem (definition : Definition) (item : Slot) : Definition :=
  { definition with shape := .list (some item) }

namespace Definition

theorem docLines_of_plain {definition : Definition} (plain : definition.shape.slots = []) :
    definition.docLines = Doc.visible definition.doc := by
  rw [docLines, Shape.docLines, plain]
  exact List.append_nil _

theorem slots_withFields {definition : Definition}
    (record : definition.shape.isRecordLike = true) (plain : definition.shape.slots = [])
    (fields : List Site) : (definition.withFields fields).shape.slots = fields.map .sited := by
  rw [withFields, Shape.slots_withFields record, plain, List.nil_append]

theorem docLines_withFields {definition : Definition}
    (record : definition.shape.isRecordLike = true) (plain : definition.shape.slots = [])
    (fields : List Site) : (definition.withFields fields).docLines =
      Doc.visible definition.doc ++ (fields.map Slot.sited).flatMap Slot.docLines := by
  rw [docLines, Shape.docLines, slots_withFields record plain, withFields]

theorem docLines_withItem (definition : Definition) (item : Slot) :
    (definition.withItem item).docLines = Doc.visible definition.doc ++ item.docLines := by
  simp [docLines, Shape.docLines, withItem, Shape.slots]

end Definition

namespace Edit

theorem ends_pushField_withFields (field : Site) (definition : Definition) :
    Ends (pushField field) definition
      (fun _ after => after = definition.withFields [field])
      fun _ => True := by
  obtain ⟨owner, doc, annotations⟩ := definition
  simp only [pushField, ends_bind, ends_get]
  refine ends_ite (fun _ => trivial) fun _ => ?_
  cases owner with
  | anonymous | record => exact ends_ite (fun _ => trivial) fun _ => rfl
  | _ => trivial

/-- Fields that are all accepted stand behind the others, in their order. -/
theorem ends_pushFields_withFields (fields : List Site) (definition : Definition) :
    Ends (fields.forM pushField) definition
      (fun _ after => after = definition.withFields fields)
      fun _ => True := by
  induction fields generalizing definition with
  | nil =>
    rw [Definition.withFields, Shape.withFields_nil]
    exact rfl
  | cons field rest ih =>
    rw [List.forM, ends_bind]
    refine (ends_pushField_withFields field definition).imp fun _ middle made => ?_
    subst made
    refine (ih _).imp fun _ after more => more.trans ?_
    rw [Definition.withFields, Definition.withFields, Shape.withFields_withFields,
      List.singleton_append, ← Definition.withFields]

theorem setInner_list {definition : Definition} (item : Slot)
    (list : definition.shape = .list none) :
    setInner item definition = .ok () (definition.withItem item) := by
  obtain ⟨shape, doc, annotations⟩ := definition
  obtain rfl : shape = .list none := list
  rfl

end Edit

namespace Catalog

open Outline (Line)

variable {catalog before middle after : Catalog} {base depth : Nat} {feed : Feed}

/-! ## What a body comes to -/

/-- Later slots of a body have room for the prose in front of them. -/
def Roomy (slots : List Slot) : Prop := ∀ slot ∈ slots.tail, ∃ site, slot = .sited site

theorem roomy_sited (fields : List Site) : Roomy (fields.map .sited) := fun slot member => by
  obtain ⟨site, _, same⟩ := List.mem_map.mp (List.mem_of_mem_tail member)
  exact ⟨site, same.symm⟩

/-- The lines of the docs of a body. -/
def Content.docLines (content : Content) : List String :=
  Doc.visible content.lead ++ Doc.visible content.tail ++ content.slots.flatMap Slot.docLines

/-- The second slot is the first one with another doc. -/
def SameUnderDoc (slot other : Slot) : Prop :=
  other.target = slot.target ∧ other.toSite.name = slot.toSite.name

theorem sameUnderDoc_withProse (doc : Option String) (slot : Slot) :
    SameUnderDoc slot (withProse doc slot) := by
  cases slot <;> exact ⟨rfl, rfl⟩

theorem docLines_withProse (doc : Option String) (site : Site) :
    (withProse doc (.sited site)).docLines = Doc.visible doc ++ (Slot.sited site).docLines := by
  rw [withProse, Slot.docLines, Slot.toSite, Doc.visible_join]
  simp [Slot.docLines, Slot.toSite]

/-- So far all entries had slots. -/
structure Content.Unended (content : Content) : Prop where
  tail : content.tail = none
  lead : content.slots = [] → content.lead = none

theorem Content.add_first {content : Content} {entry : Entry} {slot : Slot}
    (same : entry.slot = some slot) (empty : content.slots = []) :
    content.add entry = { content with lead := entry.doc, slots := [slot] } := by
  rw [Content.add, same, empty]
  rfl

theorem Content.add_later {content : Content} {entry : Entry} {slot : Slot}
    (same : entry.slot = some slot) (filled : content.slots ≠ []) :
    content.add entry = { content with slots := content.slots ++ [withProse entry.doc slot] } := by
  rw [Content.add, same]
  simp [filled]

theorem Content.add_last {content : Content} {entry : Entry} (same : entry.slot = none) :
    content.add entry = { content with tail := entry.doc } := by
  rw [Content.add, same]

/-- Entries add their slots to a body, and their docs if there is room. -/
theorem Content.foldl_add {content : Content} (unended : content.Unended) {entries : List Entry}
    (ordered : Ordered entries) :
    ∃ more, (entries.foldl Content.add content).slots = content.slots ++ more ∧
      List.Forall₂ SameUnderDoc (entries.filterMap Entry.slot) more ∧
      (Roomy (content.slots ++ more) → ∀ line,
        (entries.foldl Content.add content).docLines.count line =
          content.docLines.count line + (entries.flatMap Entry.docLines).count line) := by
  induction entries generalizing content with
  | nil => exact ⟨[], by simp, .nil, fun _ _ => by simp⟩
  | cons entry rest ih =>
    obtain ⟨later, ordered⟩ := List.pairwise_cons.mp ordered
    rw [List.foldl_cons]
    cases same : entry.slot with
    | none =>
      have alone : rest = [] := List.eq_nil_iff_forall_not_mem.mpr fun other member => by
        simpa [same] using later other member
      subst alone
      refine ⟨[], by simp [Content.add_last same], by simp [same], fun _ line => ?_⟩
      simp [Content.add_last same, Content.docLines, Entry.docLines, same, unended.tail]
      omega
    | some slot =>
      by_cases empty : content.slots = []
      · rw [Content.add_first same empty]
        obtain ⟨more, slots, others, docs⟩ := @ih
          { content with lead := entry.doc, slots := [slot] } ⟨unended.tail, by simp⟩ ordered
        refine ⟨slot :: more, by simp [slots, empty], ?_, fun roomy line => ?_⟩
        · rw [List.filterMap_cons_some same]
          exact .cons ⟨rfl, rfl⟩ others
        · rw [docs (by simpa [empty] using roomy)]
          simp [Content.docLines, Entry.docLines, same, unended.tail, unended.lead empty, empty]
          omega
      · rw [Content.add_later same empty]
        obtain ⟨more, slots, others, docs⟩ := @ih
          { content with slots := content.slots ++ [withProse entry.doc slot] }
          ⟨unended.tail, fun none => absurd none (by simp)⟩ ordered
        refine ⟨withProse entry.doc slot :: more, by simp [slots], ?_, fun roomy line => ?_⟩
        · rw [List.filterMap_cons_some same]
          exact .cons (sameUnderDoc_withProse entry.doc slot) others
        · obtain ⟨site, sited⟩ := roomy (withProse entry.doc slot) (by
            rw [List.tail_append_of_ne_nil empty]
            exact List.mem_append_right _ List.mem_cons_self)
          have room : ∃ own, slot = .sited own := by
            cases slot with
            | bare => cases sited
            | sited own => exact ⟨own, rfl⟩
          obtain ⟨own, rfl⟩ := room
          rw [docs (by simpa using roomy)]
          simp [Content.docLines, Entry.docLines, same, docLines_withProse]
          omega

/-- The first entry with a slot gives a body its lead, and the entry without one gives its tail. -/
theorem Content.foldl_add_prose {content : Content} (unended : content.Unended)
    {entries : List Entry} (ordered : Ordered entries) :
    Doc.visible (entries.foldl Content.add content).lead =
        (if content.slots = [] then (entries.filterMap Entry.front?).headD []
          else Doc.visible content.lead) ∧
      Doc.visible (entries.foldl Content.add content).tail = entries.flatMap Entry.tail := by
  induction entries generalizing content with
  | nil =>
    refine ⟨?_, by simp [unended.tail]⟩
    split
    · rename_i empty
      simp [unended.lead empty]
    · rfl
  | cons entry rest ih =>
    obtain ⟨later, ordered⟩ := List.pairwise_cons.mp ordered
    rw [List.foldl_cons]
    cases same : entry.slot with
    | none =>
      have alone : rest = [] := List.eq_nil_iff_forall_not_mem.mpr fun other member => by
        simpa [same] using later other member
      subst alone
      rw [Content.add_last same]
      refine ⟨?_, by simp [Entry.tail, same]⟩
      split
      · rename_i empty
        simp [unended.lead empty, Entry.front?, same]
      · rfl
    | some slot =>
      have front : entry.front? = some (Doc.visible entry.doc) := by simp [Entry.front?, same]
      have tail : entry.tail = [] := by simp [Entry.tail, same]
      rw [List.filterMap_cons_some front, List.flatMap_cons, tail]
      by_cases empty : content.slots = []
      · rw [Content.add_first same empty, if_pos empty]
        exact @ih { content with lead := entry.doc, slots := [slot] } ⟨unended.tail, by simp⟩ ordered
      · rw [Content.add_later same empty, if_neg empty]
        obtain ⟨lead, tail⟩ := @ih
          { content with slots := content.slots ++ [withProse entry.doc slot] }
          ⟨unended.tail, fun none => absurd none (by simp)⟩ ordered
        rw [if_neg (by simp)] at lead
        exact ⟨lead, tail⟩

/-- A body has the slots of its entries, under other docs, and all lines of their docs. -/
theorem Content.ofEntries_conserves {entries : List Entry} (ordered : Ordered entries) :
    List.Forall₂ SameUnderDoc (entries.filterMap Entry.slot) (Content.ofEntries entries).slots ∧
      (Roomy (Content.ofEntries entries).slots → ∀ line,
        (Content.ofEntries entries).docLines.count line =
          (entries.flatMap Entry.docLines).count line) := by
  obtain ⟨more, slots, same, docs⟩ := @Content.foldl_add ⟨none, [], none⟩ ⟨rfl, fun _ => rfl⟩
    entries ordered
  rw [List.nil_append] at slots docs
  rw [Content.ofEntries, slots]
  refine ⟨same, fun roomy line => ?_⟩
  rw [docs roomy]
  simp [Content.docLines]

/-! ## Items -/

/-- The item that slots come to: the only slot, or a new record of all slots. -/
inductive ItemOf (before : Catalog) : List Slot → Slot → Catalog → Prop
  | single (item : Slot) : ItemOf before [item] item before
  | record (fields : List Site) : ItemOf before (fields.map .sited) (.bare before.next)
      (before.push (.ofShape (.anonymous fields)))

theorem ends_recordOf_itemOf (slots : List Slot) :
    Ends (itemOfBody.recordOf slots) catalog (catalog.ItemOf slots) fun _ => True := by
  rw [itemOfBody.recordOf, ends_bind, ends_ofExcept]
  cases named : namedFields "record" slots with
  | error => trivial
  | ok fields =>
    have filled : Ends (Edit.setFields fields) (.ofShape (.anonymous []))
        (fun _ after => after = .ofShape (.anonymous fields)) fun _ => True :=
      Edit.ends_pushFields_withFields fields (.ofShape (.anonymous []))
    unfold Ends at filled
    dsimp only
    split
    · rename_i record made
      rw [made] at filled
      subst filled
      rw [ends_bind, ends_allocate, ← sited_of_namedFields named]
      exact .record fields
    · trivial

theorem ends_itemOfBody_itemOf (slots : List Slot) :
    Ends (itemOfBody slots) catalog (catalog.ItemOf slots) fun _ => True := by
  unfold itemOfBody
  split
  · exact .single _
  · exact ends_ite (fun _ => .single _) fun _ => ends_recordOf_itemOf _
  · exact ends_recordOf_itemOf _

theorem ItemOf.roomy {slots : List Slot} {item : Slot} (made : before.ItemOf slots item after) :
    Roomy slots := by
  cases made with
  | single => simp [Roomy]
  | record fields => exact roomy_sited fields

theorem ItemOf.preserves {slots : List Slot} {item : Slot} (made : before.ItemOf slots item after)
    {id : TypeId} (held : before.Holds id) : after.definition id = before.definition id := by
  cases made with
  | single => rfl
  | record => rw [definition_push, if_neg (ne_next_of_holds held)]

theorem ItemOf.holds {slots : List Slot} {item : Slot} (made : before.ItemOf slots item after)
    {id : TypeId} (held : before.Holds id) : after.Holds id := by
  cases made with
  | single => exact held
  | record => simp [held]

/-- The lines of the slots go to the item or to its record. -/
theorem ItemOf.conserves {slots : List Slot} {item : Slot} (made : before.ItemOf slots item after)
    (consistent : before.Consistent) :
    before.Conserves (slots.flatMap Slot.docLines) item.docLines after := by
  cases made with
  | single =>
    rw [List.flatMap_cons, List.flatMap_nil, List.append_nil]
    exact .refl before item.docLines
  | record fields =>
    refine ⟨consistent.steady_push _, fun line => ?_⟩
    rw [docLines_push, Definition.docLines_ofShape, List.count_append]
    rfl

/-- A list takes the slots with the item that they come to. -/
theorem ItemOf.takes {slots : List Slot} {item : Slot} (made : before.ItemOf slots item after)
    {id : TypeId} (held : before.Holds id) {definition : Definition}
    (list : definition.shape = .list (some item)) :
    (after.put id definition).Takes id slots := by
  cases made with
  | single => exact .item (by rw [Catalog.shape, definition_put_self held, list])
  | record fields =>
    refine @Takes.record _ _ before.next fields ?_ ?_
    · rw [Catalog.shape, definition_put_self (by simp [held]), list]
    · rw [Catalog.shape, definition_put_of_ne (ne_next_of_holds held).symm, definition_push,
        if_pos rfl]
      rfl

/-! ## Bodies -/

/-- A type has taken the headers of a layout, and the prose has gone to docs or is given back, what
is for the type itself to its own doc. No other type has changed its shape. -/
structure Taken (before : Catalog) (id : TypeId) (layout : Layout) (given : List String)
    (after : Catalog) : Prop where
  conserves : before.Conserves layout.documentation given after
  own : given ++ Doc.visible (after.definition id).doc = layout.own
  others : ∀ other, before.Holds other → other ≠ id → after.shape other = before.shape other
  takes : ∃ slots, after.Takes id slots ∧ after.Declares layout slots

theorem shape_put_of_ne {id other : TypeId} (different : other ≠ id) (definition : Definition) :
    (catalog.put id definition).shape other = catalog.shape other := by
  rw [Catalog.shape, definition_put_of_ne different, ← Catalog.shape]

theorem shape_put_doc (catalog : Catalog) (id : TypeId) (doc : Option String) (other : TypeId) :
    (catalog.put id { catalog.definition id with doc }).shape other = catalog.shape other := by
  rw [Catalog.shape, definition_put]
  split
  · rename_i same
    rw [same.1, ← Catalog.shape]
  · rfl

/-- The type gets a doc for what is given back. -/
theorem Taken.document {id : TypeId} {layout : Layout} {given : List String}
    (taken : before.Taken id layout given after) (held : after.Holds id)
    (silent : (after.definition id).doc = none) {doc : Option String}
    (same : Doc.visible doc = given) :
    before.Taken id layout [] (after.put id { after.definition id with doc }) where
  conserves := taken.conserves.put held rfl fun line => by
    simp only [Definition.docLines, silent, same, Doc.visible_none, List.count_append,
      List.count_nil, List.nil_append]
    omega
  own := by
    have own := taken.own
    rw [silent, Doc.visible_none, List.append_nil] at own
    rw [definition_put_self held, List.nil_append, same, own]
  others other old different := by
    rw [shape_put_doc]
    exact taken.others other old different
  takes := by
    obtain ⟨slots, takes, declares⟩ := taken.takes
    have same (other : TypeId) (_ : True) := shape_put_doc after id doc other
    have closed : ∀ other, True → ∀ child ∈ (after.shape other).children, True := fun _ _ _ _ => trivial
    exact ⟨slots, (takes.kept closed same trivial).1, declares.kept closed same fun _ _ => trivial⟩

/-- The type that has taken a body gets the doc of the body, unless the doc is left for its slot. -/
theorem Taken.ends_document {id : TypeId} {layout : Layout} {doc : Option String}
    (taken : before.Taken id layout (Doc.visible doc) after) (held : after.Holds id)
    (silent : (after.definition id).doc = none) (fresh : Bool) :
    Ends (if (fresh && doc.isSome) = true then do
        setDefinition id { (← get).definition id with doc }
        return none
      else return doc) after
      (fun doc after => before.Taken id layout (Doc.visible doc) after) fun _ => True :=
  ends_ite (fun _ => taken.document held silent rfl) fun _ => taken

/-- The doc that a body has for the type that takes it. -/
def Content.doc (content : Content) : Option String := Doc.join [content.lead, content.tail]

/-- A body has been read for a type that says nothing of its own yet. -/
structure BodyRead (before : Catalog) (id : TypeId) (layout : Layout) (entries : List Entry)
    (after : Catalog) : Prop where
  drawn : before.Drawn layout entries .done after
  ordered : Ordered entries
  owned : ∀ entry ∈ entries, entry.OwnedFrom after before.arena.size
  held : before.Holds id
  plain : (after.definition id).shape.slots = []
  silent : (after.definition id).doc = none

section

variable {id : TypeId} {layout : Layout} {entries : List Entry}
  (read : before.BodyRead id layout entries middle)

include read

theorem BodyRead.heldStill : middle.Holds id := read.drawn.growth.holds read.held

/-- The doc of a body is the prose that the body has for the type. -/
theorem BodyRead.own : Doc.visible (Content.ofEntries entries).doc = layout.own := by
  obtain ⟨lead, tail⟩ :=
    @Content.foldl_add_prose ⟨none, [], none⟩ ⟨rfl, fun _ => rfl⟩ entries read.ordered
  rw [if_pos rfl] at lead
  rw [Content.doc, Doc.visible_join, Layout.own, read.drawn.fronts, read.drawn.tail]
  simp [Content.ofEntries, lead, tail, Layout.fronts, Layout.tail]

/-- What has been read is in the catalog, in the doc of the body or in the slots. -/
theorem BodyRead.account (roomy : Roomy (Content.ofEntries entries).slots) :
    before.Conserves layout.documentation (Doc.visible (Content.ofEntries entries).doc ++
      (Content.ofEntries entries).slots.flatMap Slot.docLines) middle :=
  read.drawn.conserves.congr fun line => by
    have same := (Content.ofEntries_conserves read.ordered).2 roomy line
    rw [Content.doc, Doc.visible_join]
    simp [Content.docLines, Layout.documentation] at same ⊢
    omega

/-- Once a type has taken the slots that were read, it has taken the body. -/
theorem BodyRead.taken
    (same : ∀ other, middle.Holds other → other ≠ id → after.shape other = middle.shape other)
    (conserves : before.Conserves layout.documentation
      (Doc.visible (Content.ofEntries entries).doc) after)
    (silent : (after.definition id).doc = none)
    (takes : after.Takes id (Content.ofEntries entries).slots) :
    before.Taken id layout (Doc.visible (Content.ofEntries entries).doc) after where
  conserves := conserves
  own := by rw [silent, Doc.visible_none, List.append_nil, read.own]
  others other old different := by
    rw [same other (read.drawn.growth.holds old) different, read.drawn.growth.shape_eq old]
  takes := by
    have declared := read.drawn.tells.declares.congr (Content.ofEntries_conserves read.ordered).1
    have later (other : TypeId) (inside : middle.HoldsFrom before.arena.size other) :
        after.shape other = middle.shape other := by
      refine same other inside.2 ?_
      rintro rfl
      exact absurd read.held (Nat.not_lt_of_le inside.1)
    exact ⟨_, takes, declared.kept (read.drawn.growth.closedFrom before.closedFrom_size) later
      (Content.forall_ofEntries entries read.owned)⟩

/-- A record takes the slots of a body as its fields. -/
theorem BodyRead.takenFields {fields : List Site}
    (record : (middle.definition id).shape.isRecordLike = true)
    (slots : fields.map .sited = (Content.ofEntries entries).slots) :
    before.Taken id layout (Doc.visible (Content.ofEntries entries).doc)
      (middle.put id ((middle.definition id).withFields fields)) := by
  have account := read.account (slots ▸ roomy_sited fields)
  refine read.taken (fun other _ different => shape_put_of_ne different _)
    (account.put read.heldStill (Shape.base_withFields _ _) fun line => ?_) ?_ ?_
  · rw [Definition.docLines_withFields record read.plain, Definition.docLines_of_plain read.plain,
      slots]
    simp only [List.count_append]
    omega
  · rw [definition_put_self read.heldStill]
    exact read.silent
  · rw [← slots, ← Definition.slots_withFields record read.plain fields]
    refine .fields (by rw [Catalog.shape, definition_put_self read.heldStill]) ?_
    rw [Definition.withFields, Shape.isRecordLike_withFields]
    exact record

/-- A list without an item takes the slots of a body as its item, or as the fields of its item. -/
theorem BodyRead.takenItem {item : Slot} (consistent : middle.Consistent)
    (list : (middle.definition id).shape = .list none)
    (made : middle.ItemOf (Content.ofEntries entries).slots item after) :
    before.Taken id layout (Doc.visible (Content.ofEntries entries).doc)
      (after.put id ((middle.definition id).withItem item)) := by
  have held := made.holds read.heldStill
  have same := made.preserves read.heldStill
  have account : before.Conserves layout.documentation
      (Doc.visible (Content.ofEntries entries).doc ++ item.docLines) after :=
    ((read.account made.roomy).trans (made.conserves consistent)).congr fun line => by
      simp only [List.count_append]
      omega
  refine read.taken (fun other old different => ?_) (account.put held ?_ fun line => ?_) ?_
    (made.takes read.heldStill rfl)
  · rw [shape_put_of_ne different, Catalog.shape, made.preserves old, ← Catalog.shape]
  · rw [Catalog.shape, same, list]
    rfl
  · rw [same, Definition.docLines_withItem, Definition.docLines_of_plain read.plain]
    simp only [List.count_append]
    omega
  · rw [definition_put_self held]
    exact read.silent

/-- A body that declares nothing is taken with its prose. -/
theorem BodyRead.takenNothing (none : (Content.ofEntries entries).slots = [])
    (takes : middle.Takes id []) :
    before.Taken id layout (Doc.visible (Content.ofEntries entries).doc) middle := by
  have account := read.account (by simp [none, Roomy])
  rw [none, List.flatMap_nil, List.append_nil] at account
  exact read.taken (fun _ _ _ => rfl) account read.silent (none ▸ takes)

end

/-- A type without slots and without a doc takes a body. -/
theorem ends_feedTarget_taken (grows : feed.Grows) (accounts : feed.Accounts depth)
    (consistent : catalog.Consistent) {id : TypeId} (held : catalog.Holds id) {intake : Intake}
    (empty : intake.Empty (catalog.shape id)) (silent : (catalog.definition id).doc = none)
    {body : List String} (tidy : ∀ line ∈ body, Text.Tidy line) :
    Ends (feedTarget feed id body) catalog
      (fun doc after =>
        catalog.Taken id (catalog.layoutWithin (depth + 1) (intake = .item) body)
          (Doc.visible doc) after)
      fun _ => True := by
  have recordLike := empty.isRecordLike
  have eager : (!(catalog.definition id).shape.isRecordLike) = decide (intake = .item) := by
    rw [show (catalog.definition id).shape.isRecordLike = _ from recordLike]
    cases intake <;> rfl
  simp only [feedTarget, ends_bind, ends_get, eager]
  refine ((ends_allEntries grows catalog.underway_size _ _).and
    (ends_allEntries_accounts grows accounts consistent _ (Outline.tidy_of_mem_ofLines tidy)
      Outline.cut_of_mem_ofLines)).mono (fun entries middle drawn => ?_) fun _ _ => trivial
  obtain ⟨⟨grown, owned⟩, drawn, ordered⟩ := drawn
  change catalog.Drawn (catalog.layoutWithin (depth + 1) (intake = .item) body) entries .done middle
    at drawn
  generalize catalog.layoutWithin (depth + 1) (intake = .item) body = layout at drawn ⊢
  have own : middle.definition id = catalog.definition id :=
    grown.definition_eq (Nat.le_refl _) held
  have shape : middle.shape id = catalog.shape id := drawn.growth.shape_eq held
  have read : catalog.BodyRead id layout entries middle :=
    ⟨drawn, ordered, owned, held, own ▸ empty.slots, own ▸ silent⟩
  have heldStill := read.heldStill
  refine ends_ite (fun record => ?_) fun unrecord => ends_ite (fun filled => ?_) fun none => ?_
  · rw [ends_bind, ends_ofExcept]
    split
    · rename_i fields named
      rw [ends_bind, ends_edit]
      have pushed := Edit.ends_pushFields_withFields fields (middle.definition id)
      unfold Ends at pushed
      split at pushed
      · rename_i edited
        simp only [edited]
        subst pushed
        refine (read.takenFields (own ▸ record) (sited_of_namedFields named)).ends_document
          (by simpa using heldStill) ?_ _
        rw [definition_put_self heldStill]
        exact read.silent
      · rename_i edited
        simp only [edited]
    · trivial
  · rw [ends_bind]
    refine (ends_itemOfBody_itemOf _).imp fun item further made => ?_
    have list : (middle.definition id).shape = .list none := by
      cases intake with
      | fields => exact absurd recordLike unrecord
      | item => exact shape.trans empty
    rw [ends_bind, ends_edit, made.preserves heldStill]
    simp only [Edit.setInner_list item list]
    refine (read.takenItem (grown.consistent consistent) list made).ends_document
      (by simpa using made.holds heldStill) ?_ _
    rw [definition_put_self (made.holds heldStill)]
    exact read.silent
  · have none : (Content.ofEntries entries).slots = [] := by
      simpa [List.isEmpty_iff] using none
    have takes : middle.Takes id [] := by
      cases intake with
      | fields => exact absurd recordLike unrecord
      | item => exact .nothing (shape.trans empty)
    exact (read.takenNothing none takes).ends_document heldStill read.silent _

/-- A body that no type takes is documentation. -/
theorem fed_ofLines {id : TypeId} (silent : (catalog.definition id).doc = none) {body : List String}
    (tidy : ∀ line ∈ body, Text.Tidy line) :
    catalog.Fed (proseLayout body) id (Doc.ofLines body) catalog where
  conserves := by
    rw [Doc.visible_ofLines tidy, proseLayout, Layout.documentation_behind, Layout.documentation,
      List.append_nil]
    exact .refl catalog _
  own := by
    refine ⟨id, .here id, ?_⟩
    rw [silent, Doc.visible_none, List.append_nil, Doc.visible_ofLines tidy, proseLayout,
      Layout.own_behind_done]
  declares text name slot _ named := .header named (Layout.names_behind _ _) .done

theorem accounts_feedWithin (depth : Nat) : (feedWithin depth).Accounts depth := by
  induction depth with
  | zero =>
    intro base catalog spec id body consistent reading own represents tidy
    have prose : bodyLayout (catalog.layoutWithin 0) (catalog.intake? spec) body = proseLayout body := by
      unfold bodyLayout
      split <;> rfl
    rw [prose]
    exact fed_ofLines represents.silent tidy
  | succ depth ih =>
    intro base catalog spec id body consistent reading own represents tidy
    rw [feedWithin, feedBody]
    refine ends_ite (fun empty => ?_) fun _ => ?_
    · have done : bodyLayout (catalog.layoutWithin (depth + 1)) (catalog.intake? spec) body = .done := by
        rw [List.isEmpty_iff.mp empty]
        unfold bodyLayout
        split <;> rfl
      rw [done]
      exact fed_ofLines represents.silent (fun _ member => absurd member List.not_mem_nil)
    · rw [ends_bind, ends_get]
      have target := represents.bodyTarget? (Nat.lt_succ_of_lt own.2)
      cases takes : catalog.intake? spec with
      | none =>
        rw [takes] at target
        simp only [target]
        exact fed_ofLines represents.silent tidy
      | some intake =>
        rw [takes] at target
        obtain ⟨target, found, innermost, empty, silent⟩ := target
        simp only [found]
        have held := (holdsFrom_bodyTarget? reading.closed own found).2
        refine (ends_feedTarget_taken (grows_feedWithin depth) ih consistent held empty silent
          tidy).imp fun doc after taken => ?_
        have innermost := innermost.of_others empty.ne_list taken.others
        refine ⟨taken.conserves, ⟨target, innermost, taken.own⟩, ?_⟩
        rintro text name slot rfl named
        obtain ⟨slots, children, inner⟩ := taken.takes
        exact .taken named innermost children inner .done

/-! ## Whole blocks -/

/-- The lines of the docs of the definitions from an index on. -/
def docLinesFrom (catalog : Catalog) (base : Nat) : List String :=
  (catalog.arena.toList.drop base).flatMap Definition.docLines

/-- A catalog that has grown has the lines that it had, and those of the new definitions. -/
theorem Growth.docLines_eq (growth : Growth before.arena.size before after) :
    after.docLines = before.docLines ++ after.docLinesFrom before.arena.size := by
  have size := growth.size_le
  have old : after.arena.toList.take before.arena.size = before.arena.toList := by
    refine List.ext_getElem (by simpa using size) fun index first second => ?_
    have held : index < before.arena.size := by simpa using second
    have same := @Growth.definition_eq _ _ _ growth (Nat.le_refl _) ⟨index⟩ held
    have heldStill : index < after.arena.size := Nat.lt_of_lt_of_le held size
    simpa [Catalog.definition, held, heldStill] using same
  rw [docLines, docLinesFrom, docLines, ← old, ← List.flatMap_append, List.take_append_drop]

/-- The entries of a block are drawn from the whole of its layout. -/
theorem Consistent.drawn_parseEntries (consistent : catalog.Consistent) {mode : Mode} {text : String}
    {entries : List Entry} (parsed : parseEntries mode text catalog = .ok entries after) :
    catalog.Drawn (catalog.layout mode.eager text) entries .done after :=
  ((ends_allEntries_accounts (grows_feedWithin _) (accounts_feedWithin _) consistent mode
    (Outline.tidy_of_mem_ofText text) Outline.cut_of_mem_ofLines).of_ok parsed).1

/-- A block that is read consists of its headers and of lines of prose. The headers are the entries
with a slot, one for each and under their names, and in a body that a type has taken they are its
fields or its item. Every line of prose stands in the docs of the entries and of the new
definitions and sites as often as it stands in the block. -/
theorem Consistent.block_conserved (consistent : catalog.Consistent) {mode : Mode} {text : String}
    {entries : List Entry} (parsed : parseEntries mode text catalog = .ok entries after) :
    (catalog.layout mode.eager text).lines = Text.visible (Text.linesOf text) ∧
      (entries.filterMap Entry.slot).map (fun slot => slot.toSite.name) =
        (catalog.layout mode.eager text).names ∧
      after.Declares (catalog.layout mode.eager text) (entries.filterMap Entry.slot) ∧
      (entries.flatMap Entry.docLines ++ after.docLinesFrom catalog.arena.size).Perm
        (catalog.layout mode.eager text).documentation := by
  have drawn := consistent.drawn_parseEntries parsed
  have declared := drawn.tells.declares
  refine ⟨catalog.lines_layout mode.eager text, declared.names, declared,
    List.perm_iff_count.mpr fun line => ?_⟩
  have account := drawn.conserves.count line
  rw [drawn.growth.docLines_eq] at account
  simp only [List.count_append, Layout.documentation, List.count_nil] at account ⊢
  omega

/-- A list takes a record from its body, another one takes a lone type name. -/
def petText : String := "Lead.\npets : list\n    Of each pet.\n    name : str\n        Short.\n" ++
  "    Between.\n    age : int\ntags : list\n    Of each tag.\n\n    string\nLast."

theorem block_conserved_petText :
    ∃ entries after, parseEntries ⟨none, false⟩ petText empty = .ok entries after ∧
      (empty.layout false petText).documentation = ["Lead.", "Of each pet.", "Short.", "Between.",
        "Of each tag.", "Last."] ∧
      (empty.layout false petText).lines = Text.visible (Text.linesOf petText) ∧
      (entries.filterMap Entry.slot).map (fun slot => slot.toSite.name) =
        (empty.layout false petText).names ∧
      after.Declares (empty.layout false petText) (entries.filterMap Entry.slot) ∧
      (entries.flatMap Entry.docLines ++ after.docLinesFrom empty.arena.size).Perm
        (empty.layout false petText).documentation := by
  have reads : succeeds (parseEntries ⟨none, false⟩ petText) empty = true := by decide +kernel
  obtain ⟨entries, parsed⟩ := eq_ok_of_succeeds reads
  have consistent : empty.Consistent := consistent_fresh .standard
  have prose : (empty.layout false petText).documentation = ["Lead.", "Of each pet.", "Short.",
      "Between.", "Of each tag.", "Last."] := by decide +kernel
  have conserved := consistent.block_conserved parsed
  exact ⟨entries, _, parsed, prose, conserved⟩

end Catalog

end DocShapes
