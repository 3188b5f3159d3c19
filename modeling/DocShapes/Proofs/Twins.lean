import DocShapes.Proofs.Simulating

/-! # Definitions that differ in their ids

Two definitions are twins if they are the same up to the types that they are made of, which are
linked: the second one has in each place what the first one has there. Whatever is done to twins
with linked types gives twins again.
-/

namespace DocShapes

variable {linked further : TypeId → TypeId → Prop}

/-! ## Uses -/

/-- The same use of linked types. -/
structure Site.Twin (linked : TypeId → TypeId → Prop) (left right : Site) : Prop where
  target : linked left.target right.target
  name : right.name = left.name
  doc : right.doc = left.doc
  qualifiers : right.qualifiers = left.qualifiers

theorem Site.Twin.imp {left right : Site} (twin : left.Twin linked right)
    (more : linked left.target right.target → further left.target right.target) :
    left.Twin further right :=
  ⟨more twin.target, twin.name, twin.doc, twin.qualifiers⟩

/-- The same kind of place with linked types. -/
inductive Slot.Twin (linked : TypeId → TypeId → Prop) : Slot → Slot → Prop
  | bare {left right : TypeId} (target : linked left right) : Twin linked (.bare left) (.bare right)
  | sited {left right : Site} (site : left.Twin linked right) :
      Twin linked (.sited left) (.sited right)

namespace Slot.Twin

variable {left right : Slot}

theorem target (twin : left.Twin linked right) : linked left.target right.target := by
  cases twin with
  | bare target => exact target
  | sited site => exact site.target

theorem toSite (twin : left.Twin linked right) : left.toSite.Twin linked right.toSite := by
  cases twin with
  | bare target => exact ⟨target, rfl, rfl, rfl⟩
  | sited site => exact site

theorem imp (twin : left.Twin linked right)
    (more : linked left.target right.target → further left.target right.target) :
    left.Twin further right := by
  cases twin with
  | bare target => exact .bare (more target)
  | sited site => exact .sited (site.imp more)

theorem sameUse_eq {other other' : Slot} (twin : left.Twin linked right)
    (twin' : other.Twin linked other') :
    right.toSite.sameUse other'.toSite = left.toSite.sameUse other.toSite := by
  have first := twin.toSite
  have second := twin'.toSite
  simp only [Site.sameUse, first.name, first.doc, first.qualifiers, second.name, second.doc,
    second.qualifiers]

end Slot.Twin

/-! ## Shapes -/

/-- The same shape of linked types. -/
inductive Shape.Twin (linked : TypeId → TypeId → Prop) : Shape → Shape → Prop
  | scalar (name : String) : Twin linked (.scalar name) (.scalar name)
  | constant (value : Literal) : Twin linked (.constant value) (.constant value)
  | choice (connective : Connective) {lefts rights : List Slot}
      (alternatives : List.Forall₂ (Slot.Twin linked) lefts rights) :
      Twin linked (.choice connective lefts) (.choice connective rights)
  | list {left right : Option Slot} (item : Option.Rel (Slot.Twin linked) left right) :
      Twin linked (.list left) (.list right)
  | reference {left right : Option Slot} (target : Option.Rel (Slot.Twin linked) left right) :
      Twin linked (.reference left) (.reference right)
  | anonymous {lefts rights : List Site} (fields : List.Forall₂ (Site.Twin linked) lefts rights) :
      Twin linked (.anonymous lefts) (.anonymous rights)
  | record (name : String) {lefts rights : List Site}
      (fields : List.Forall₂ (Site.Twin linked) lefts rights) :
      Twin linked (.record name lefts) (.record name rights)
  | extension (name : String) {left right : Option Slot}
      (value : Option.Rel (Slot.Twin linked) left right) :
      Twin linked (.extension name left) (.extension name right)
  | unknown (name : String) : Twin linked (.unknown name) (.unknown name)

theorem forall₂_toList {α β : Type} {related : α → β → Prop} {left : Option α} {right : Option β}
    (same : Option.Rel related left right) : List.Forall₂ related left.toList right.toList := by
  cases same with
  | some holds => exact .cons holds .nil
  | none => exact .nil

theorem forall₂_sited {lefts rights : List Site}
    (fields : List.Forall₂ (Site.Twin linked) lefts rights) :
    List.Forall₂ (Slot.Twin linked) (lefts.map .sited) (rights.map .sited) :=
  List.rel_map (fun _ _ site => .sited site) fields

namespace Shape.Twin

variable {left right : Shape}

theorem base (twin : left.Twin linked right) : right.base = left.base := by
  cases twin <;> rfl

theorem name (twin : left.Twin linked right) : right.name = left.name := by
  cases twin <;> rfl

theorem isNamed (twin : left.Twin linked right) : right.isNamed = left.isNamed := by
  cases twin <;> rfl

theorem isRecordLike (twin : left.Twin linked right) : right.isRecordLike = left.isRecordLike := by
  cases twin <;> rfl

theorem slots (twin : left.Twin linked right) :
    List.Forall₂ (Slot.Twin linked) left.slots right.slots := by
  cases twin with
  | choice _ alternatives => exact alternatives
  | list item => exact forall₂_toList item
  | reference target => exact forall₂_toList target
  | anonymous fields => exact forall₂_sited fields
  | record _ fields => exact forall₂_sited fields
  | extension _ value => exact forall₂_toList value
  | _ => exact .nil

theorem children (twin : left.Twin linked right) :
    List.Forall₂ linked left.children right.children :=
  List.rel_map (fun _ _ slot => slot.target) twin.slots

theorem sites (twin : left.Twin linked right) :
    List.Forall₂ (Site.Twin linked) left.sites right.sites := by
  cases twin with
  | anonymous fields => exact fields
  | record _ fields => exact fields
  | _ => exact .nil

theorem inner? (twin : left.Twin linked right) :
    Option.Rel (Slot.Twin linked) left.inner? right.inner? := by
  cases twin with
  | list item => exact item
  | reference target => exact target
  | extension _ value => exact value
  | _ => exact .none

theorem hasContent (twin : left.Twin linked right) : right.hasContent = left.hasContent := by
  have empty : right.slots.isEmpty = left.slots.isEmpty := by
    rw [Bool.eq_iff_iff, List.isEmpty_iff_length_eq_zero, List.isEmpty_iff_length_eq_zero,
      twin.slots.length_eq]
  cases twin with
  | constant => rfl
  | _ => exact congrArg Bool.not empty

theorem imp (twin : left.Twin linked right)
    (more : ∀ child child', linked child child' → further child child') :
    left.Twin further right := by
  have slot (one other : Slot) (twins : one.Twin linked other) : one.Twin further other :=
    twins.imp (more _ _)
  have site (one other : Site) (twins : one.Twin linked other) : one.Twin further other :=
    twins.imp (more _ _)
  have single {one other : Option Slot} (twins : Option.Rel (Slot.Twin linked) one other) :
      Option.Rel (Slot.Twin further) one other := by
    cases twins with
    | some twins => exact .some (slot _ _ twins)
    | none => exact .none
  cases twin with
  | scalar name => exact .scalar name
  | constant value => exact .constant value
  | choice connective alternatives => exact .choice connective (alternatives.imp slot)
  | list item => exact .list (single item)
  | reference target => exact .reference (single target)
  | anonymous fields => exact .anonymous (fields.imp site)
  | record name fields => exact .record name (fields.imp site)
  | extension name value => exact .extension name (single value)
  | unknown name => exact .unknown name

/-- Only what the shape is made of has to be linked. -/
theorem mem (twin : left.Twin linked right) :
    left.Twin (fun child child' => child ∈ left.children ∧ linked child child') right := by
  have slots {lefts rights : List Slot} (same : List.Forall₂ (Slot.Twin linked) lefts rights) :
      List.Forall₂ (Slot.Twin fun child child' => child ∈ lefts.map Slot.target ∧
        linked child child') lefts rights :=
    (forall₂_mem same).imp fun _ _ ⟨member, twins⟩ =>
      twins.imp fun link => ⟨List.mem_map_of_mem member, link⟩
  have sites {lefts rights : List Site} (same : List.Forall₂ (Site.Twin linked) lefts rights) :
      List.Forall₂ (Site.Twin fun child child' =>
        child ∈ (lefts.map Slot.sited).map Slot.target ∧ linked child child') lefts rights :=
    (forall₂_mem same).imp fun _ _ ⟨member, twins⟩ =>
      twins.imp fun link => ⟨List.mem_map_of_mem (List.mem_map_of_mem member), link⟩
  have single {one other : Option Slot} (same : Option.Rel (Slot.Twin linked) one other) :
      Option.Rel (Slot.Twin fun child child' => child ∈ one.toList.map Slot.target ∧
        linked child child') one other := by
    cases same with
    | some twins => exact .some (twins.imp fun link => ⟨List.mem_cons_self, link⟩)
    | none => exact .none
  cases twin with
  | scalar name => exact .scalar name
  | constant value => exact .constant value
  | choice connective alternatives => exact .choice connective (slots alternatives)
  | list item => exact .list (single item)
  | reference target => exact .reference (single target)
  | anonymous fields => exact .anonymous (sites fields)
  | record name fields => exact .record name (sites fields)
  | extension name value => exact .extension name (single value)
  | unknown name => exact .unknown name

end Shape.Twin

/-- The same shape without slots. -/
theorem Shape.twin_of_slots_eq_nil {shape : Shape} (empty : shape.slots = []) :
    shape.Twin linked shape := by
  cases shape with
  | scalar name => exact .scalar name
  | constant value => exact .constant value
  | choice connective alternatives =>
    obtain rfl : alternatives = [] := empty
    exact .choice connective .nil
  | list item | reference item | extension _ item =>
    obtain rfl : item = none := by simpa [Shape.slots] using empty
    constructor
    exact .none
  | anonymous fields | record _ fields =>
    obtain rfl : fields = [] := by simpa [Shape.slots] using empty
    constructor
    exact .nil
  | unknown name => exact .unknown name

/-! ## Relinked shapes -/

/-- Landings at related types, with the same doc to take along. -/
structure Landing.Twin (linked : TypeId → TypeId → Prop) (left right : Landing) : Prop where
  target : linked left.target right.target
  siteDoc : right.siteDoc = left.siteDoc

theorem Site.Twin.land {left right : Site} {landing landing' : Landing}
    (twin : left.Twin linked right) (landed : landing.Twin further landing') :
    (left.land landing).Twin further (right.land landing') where
  target := landed.target
  name := twin.name
  doc := by simp only [Site.land, twin.doc, landed.siteDoc]
  qualifiers := twin.qualifiers

theorem Slot.Twin.land {left right : Slot} {landing landing' : Landing}
    (twin : left.Twin linked right) (landed : landing.Twin further landing') :
    (left.land landing).Twin further (right.land landing') := by
  cases twin with
  | bare => exact .bare landed.target
  | sited site => exact .sited (site.land landed)

theorem forall₂_zipWith {α β γ α' β' γ' : Type} {first : α → α' → Prop} {second : β → β' → Prop}
    {made : γ → γ' → Prop} {join : α → β → γ} {join' : α' → β' → γ'}
    (each : ∀ {item item' other other'}, first item item' → second other other' →
      made (join item other) (join' item' other'))
    {items : List α} {items' : List α'} (same : List.Forall₂ first items items')
    {others : List β} {others' : List β'} (same' : List.Forall₂ second others others') :
    List.Forall₂ made (items.zipWith join others) (items'.zipWith join' others') := by
  induction same generalizing others others' with
  | nil => exact .nil
  | cons here _ ih =>
    cases same' with
    | nil => exact .nil
    | cons there rest => exact .cons (each here there) (ih rest)

theorem Shape.Twin.relink {left right : Shape} (twin : left.Twin linked right)
    {landings landings' : List Landing}
    (landed : List.Forall₂ (Landing.Twin further) landings landings') :
    (left.relink landings).Twin further (right.relink landings') := by
  have single {one other : Option Slot} (twins : Option.Rel (Slot.Twin linked) one other) :
      Option.Rel (Slot.Twin further) (Shape.relink.landSingle one landings)
        (Shape.relink.landSingle other landings') := by
    cases twins with
    | none => exact .none
    | some twins =>
      cases landed with
      | nil => exact .none
      | cons first _ => exact .some (twins.land first)
  cases twin with
  | scalar name => exact .scalar name
  | constant value => exact .constant value
  | choice connective alternatives =>
    exact .choice connective (forall₂_zipWith (fun slot => slot.land) alternatives landed)
  | list item => exact .list (single item)
  | reference target => exact .reference (single target)
  | anonymous fields => exact .anonymous (forall₂_zipWith (fun site => site.land) fields landed)
  | record name fields => exact .record name (forall₂_zipWith (fun site => site.land) fields landed)
  | extension name value => exact .extension name (single value)
  | unknown name => exact .unknown name

/-! ## Definitions -/

/-- The same definition of linked types. -/
structure Definition.Twin (linked : TypeId → TypeId → Prop) (left right : Definition) : Prop where
  shape : left.shape.Twin linked right.shape
  doc : right.doc = left.doc
  annotations : right.annotations = left.annotations

namespace Definition.Twin

variable {left right : Definition}

theorem base (twin : left.Twin linked right) : right.base = left.base := twin.shape.base

theorem name (twin : left.Twin linked right) : right.name = left.name := twin.shape.name

theorem isNamed (twin : left.Twin linked right) : right.isNamed = left.isNamed :=
  twin.shape.isNamed

theorem hasContent (twin : left.Twin linked right) : right.hasContent = left.hasContent :=
  twin.shape.hasContent

theorem isShell (twin : left.Twin linked right) : right.isShell = left.isShell := by
  rw [Definition.isShell, Definition.isShell, twin.doc, twin.hasContent]

theorem imp (twin : left.Twin linked right)
    (more : ∀ child child', linked child child' → further child child') :
    left.Twin further right :=
  ⟨twin.shape.imp more, twin.doc, twin.annotations⟩

theorem mem (twin : left.Twin linked right) :
    left.Twin (fun child child' => child ∈ left.shape.children ∧ linked child child') right :=
  ⟨twin.shape.mem, twin.doc, twin.annotations⟩

end Definition.Twin

theorem Definition.twin_ofShape {left right : Shape} (twin : left.Twin linked right) :
    (Definition.ofShape left).Twin linked (.ofShape right) := ⟨twin, rfl, rfl⟩

/-- Declarations of linked definitions by one channel. -/
structure Declaration.Linked (linked : TypeId → TypeId → Prop) (one other : Declaration) :
    Prop where
  id : linked one.id other.id
  channel : other.channel = one.channel

/-! ## Edits -/

namespace Edit

variable {definition definition' : Definition}

theorem simulates_setShape {shape shape' : Shape} (twin : definition.Twin linked definition')
    (twins : shape.Twin linked shape') :
    Simulates (setShape shape) definition (setShape shape') definition'
      fun _ after _ later => after.Twin linked later :=
  simulates_modify ⟨twins, twin.doc, twin.annotations⟩

theorem any_name_eq {fields fields' : List Site}
    (same : List.Forall₂ (Site.Twin linked) fields fields') (name : String) :
    (fields'.any fun other => other.name = some name) =
      fields.any fun other => other.name = some name := by
  induction same with
  | nil => rfl
  | cons first _ ih => rw [List.any_cons, List.any_cons, first.name, ih]

theorem simulates_pushField {field field' : Site} (twins : field.Twin linked field')
    (twin : definition.Twin linked definition') :
    Simulates (pushField field) definition (pushField field') definition'
      fun _ after _ later => after.Twin linked later := by
  obtain ⟨shape, doc, annotations⟩ := definition
  obtain ⟨shape', doc', annotations'⟩ := definition'
  have shapes : shape.Twin linked shape' := twin.shape
  refine simulates_get ?_
  dsimp only
  rw [twins.name]
  refine simulates_ite Iff.rfl (fun _ _ => simulates_throw _) fun _ _ => ?_
  cases shapes with
  | anonymous fields =>
    refine simulates_ite (by rw [any_name_eq fields]) (fun _ _ => simulates_throw _) fun _ _ => ?_
    exact simulates_setShape twin (.anonymous (List.rel_append fields (.cons twins .nil)))
  | record name fields =>
    refine simulates_ite (by rw [any_name_eq fields]) (fun _ _ => simulates_throw _) fun _ _ => ?_
    exact simulates_setShape twin (.record name (List.rel_append fields (.cons twins .nil)))
  | _ => exact simulates_throw _

theorem simulates_pushFields {fields fields' : List Site}
    (same : List.Forall₂ (Site.Twin linked) fields fields')
    (twin : definition.Twin linked definition') :
    Simulates (fields.forM pushField) definition (fields'.forM pushField) definition'
      fun _ after _ later => after.Twin linked later :=
  simulates_forM (fun _ _ _ _ twins twin => simulates_pushField twins twin) same twin

theorem simulates_setFields {fields fields' : List Site}
    (same : List.Forall₂ (Site.Twin linked) fields fields')
    (twin : definition.Twin linked definition') :
    Simulates (setFields fields) definition (setFields fields') definition'
      fun _ after _ later => after.Twin linked later := by
  obtain ⟨shape, doc, annotations⟩ := definition
  obtain ⟨shape', doc', annotations'⟩ := definition'
  have shapes : shape.Twin linked shape' := twin.shape
  refine simulates_get ?_
  dsimp only
  cases shapes with
  | anonymous =>
    refine (simulates_setShape twin (.anonymous .nil)).bind fun _ _ _ _ _ _ emptied => ?_
    exact simulates_pushFields same emptied
  | record name =>
    refine (simulates_setShape twin (.record name .nil)).bind fun _ _ _ _ _ _ emptied => ?_
    exact simulates_pushFields same emptied
  | _ => exact simulates_throw _

theorem simulates_setInner {slot slot' : Slot} (twins : slot.Twin linked slot')
    (twin : definition.Twin linked definition') :
    Simulates (setInner slot) definition (setInner slot') definition'
      fun _ after _ later => after.Twin linked later := by
  obtain ⟨shape, doc, annotations⟩ := definition
  obtain ⟨shape', doc', annotations'⟩ := definition'
  have shapes : shape.Twin linked shape' := twin.shape
  refine simulates_get ?_
  dsimp only
  cases shapes with
  | list item =>
    cases item with
    | none => exact simulates_setShape twin (.list (.some twins))
    | some => exact simulates_throw _
  | reference target =>
    cases target with
    | none => exact simulates_setShape twin (.reference (.some twins))
    | some => exact simulates_throw _
  | extension name value =>
    cases value with
    | none => exact simulates_setShape twin (.extension name (.some twins))
    | some => exact simulates_throw _
  | _ => exact simulates_throw _

end Edit

end DocShapes
