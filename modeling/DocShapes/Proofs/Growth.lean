import DocShapes.Catalog.Block
import DocShapes.Proofs.Arena
import Mathlib.Logic.Relation

/-! # Growth of a catalog

Reading a text lets a catalog grow: definitions come into being, those that came into being in the
same reading are completed and staged, and new names become provisional. `GrowthStep` lists the
single changes, with what the readers have made sure of. Growth from `base` on touches no
definition in front of `base` (`Growth.definition_eq`), no canonical name, no spelling and no
retired definition.
-/

namespace DocShapes

/-! ## Longer shapes -/

namespace Shape

/-- Every field has a name, and no two fields have the same one. -/
structure FieldsDistinct (shape : Shape) : Prop where
  named : ∀ site ∈ shape.sites, site.name.getD "" ≠ ""
  nodup : (shape.sites.map Site.name).Nodup

/-- A field of the shape has the name; a field without a name counts as one with the empty name. -/
def HasField (shape : Shape) (field : String) : Prop :=
  ∃ site ∈ shape.sites, site.name.getD "" = field

/-- A shape of the same kind and name, with more slots behind the others. -/
structure Extends (old new : Shape) (extra : List Slot) : Prop where
  base : new.base = old.base
  name : new.name = old.name
  slots : new.slots = old.slots ++ extra
  sites : old.sites ⊆ new.sites
  fields : old.FieldsDistinct → new.FieldsDistinct

theorem Extends.refl (shape : Shape) : shape.Extends shape [] :=
  ⟨rfl, rfl, (List.append_nil _).symm, List.Subset.refl _, id⟩

theorem Extends.trans {first second third : Shape} {extra more : List Slot}
    (left : first.Extends second extra) (right : second.Extends third more) :
    first.Extends third (extra ++ more) where
  base := right.base.trans left.base
  name := right.name.trans left.name
  slots := by rw [right.slots, left.slots, List.append_assoc]
  sites := List.Subset.trans left.sites right.sites
  fields := right.fields ∘ left.fields

theorem isNamed_iff_base (shape : Shape) :
    shape.isNamed = true ↔ shape.base = .record ∨ shape.base = .extension := by
  cases shape <;> simp [isNamed, Shape.base]

theorem fieldsDistinct_of_sites_eq_nil {shape : Shape} (none : shape.sites = []) :
    shape.FieldsDistinct := ⟨by simp [none], by simp [none]⟩

theorem FieldsDistinct.of_sublist {shape other : Shape} (distinct : shape.FieldsDistinct)
    (names : (other.sites.map Site.name).Sublist (shape.sites.map Site.name)) :
    other.FieldsDistinct where
  named site member := by
    obtain ⟨own, inside, same⟩ := List.mem_map.mp (names.subset (List.mem_map_of_mem member))
    rw [← same]
    exact distinct.named own inside
  nodup := distinct.nodup.sublist names

theorem Extends.isNamed {old new : Shape} {extra : List Slot} (grown : old.Extends new extra) :
    new.isNamed = old.isNamed := by
  rw [Bool.eq_iff_iff, isNamed_iff_base, isNamed_iff_base, grown.base]

theorem Extends.hasField {old new : Shape} {extra : List Slot} {field : String}
    (grown : old.Extends new extra) (declared : old.HasField field) : new.HasField field := by
  obtain ⟨site, member, same⟩ := declared
  exact ⟨site, grown.sites member, same⟩

theorem Extends.children {old new : Shape} {extra : List Slot}
    (grown : old.Extends new extra) :
    new.children = old.children ++ extra.map Slot.target := by
  simp [Shape.children, grown.slots]

end Shape

/-! ## Edits -/

/-- The definition with some of the given slots behind its own. -/
def Definition.Appended (before : Definition) (given : List Slot) (after : Definition) : Prop :=
  ∃ shape extra,
    after = { before with shape } ∧ before.shape.Extends shape extra ∧ extra ⊆ given

namespace Definition.Appended

theorem refl (definition : Definition) (given : List Slot) :
    definition.Appended given definition :=
  ⟨definition.shape, [], rfl, .refl _, List.nil_subset _⟩

theorem trans {first second third : Definition} {given : List Slot}
    (left : first.Appended given second) (right : second.Appended given third) :
    first.Appended given third := by
  obtain ⟨shape, extra, rfl, grown, within⟩ := left
  obtain ⟨shape', extra', rfl, grown', within'⟩ := right
  exact ⟨shape', extra ++ extra', rfl, grown.trans grown', List.append_subset.mpr ⟨within, within'⟩⟩

theorem weaken {before after : Definition} {given more : List Slot} (subset : given ⊆ more)
    (appended : before.Appended given after) : before.Appended more after := by
  obtain ⟨shape, extra, same, grown, within⟩ := appended
  exact ⟨shape, extra, same, grown, List.Subset.trans within subset⟩

end Definition.Appended

namespace Edit

/-- Fields with a further one whose name none of them has. -/
theorem fieldsDistinct_append {fields : List Site} {field : Site}
    (spelled : field.name.getD "" ≠ "")
    (fresh : ¬(fields.any fun other => other.name = some (field.name.getD "")) = true)
    (named : ∀ site ∈ fields, site.name.getD "" ≠ "")
    (nodup : (fields.map Site.name).Nodup) :
    (∀ site ∈ fields ++ [field], site.name.getD "" ≠ "") ∧
      ((fields ++ [field]).map Site.name).Nodup := by
  have full : field.name = some (field.name.getD "") := by
    cases name : field.name with
    | none => simp [name] at spelled
    | some => rfl
  refine ⟨by simpa [or_imp, forall_and, spelled] using named, ?_⟩
  rw [List.map_append, List.nodup_append]
  refine ⟨nodup, by simp, fun name member other last same => fresh ?_⟩
  obtain ⟨site, within, rfl⟩ := List.mem_map.mp member
  have equal : site.name = field.name := by simpa [same] using last
  exact List.any_eq_true.mpr ⟨site, within, by simpa [equal] using full⟩

theorem ends_pushField (field : Site) (definition : Definition) :
    Ends (pushField field) definition
      (fun _ after => definition.Appended [.sited field] after)
      (fun after => definition.Appended [.sited field] after) := by
  have kept := Definition.Appended.refl definition [.sited field]
  obtain ⟨owner, doc, annotations⟩ := definition
  simp only [pushField, ends_bind, ends_get]
  refine ends_ite (fun _ => kept) fun named => ?_
  have spelled : field.name.getD "" ≠ "" := by simpa using named
  cases owner with
  | anonymous fields =>
    refine ends_ite (fun _ => kept) fun fresh => ?_
    refine ⟨.anonymous (fields ++ [field]), [.sited field], rfl,
      ⟨rfl, rfl, ?_, List.subset_append_left _ _, ?_⟩,
      List.Subset.refl _⟩
    · simp [Shape.slots]
    · intro distinct
      have grown := fieldsDistinct_append spelled fresh distinct.named distinct.nodup
      exact ⟨grown.1, grown.2⟩
  | record name fields =>
    refine ends_ite (fun _ => kept) fun fresh => ?_
    refine ⟨.record name (fields ++ [field]), [.sited field], rfl,
      ⟨rfl, rfl, ?_, List.subset_append_left _ _, ?_⟩,
      List.Subset.refl _⟩
    · simp [Shape.slots]
    · intro distinct
      have grown := fieldsDistinct_append spelled fresh distinct.named distinct.nodup
      exact ⟨grown.1, grown.2⟩
  | _ => exact kept

theorem ends_pushFields (fields : List Site) (definition : Definition) :
    Ends (fields.forM pushField) definition
      (fun _ after => definition.Appended (fields.map .sited) after)
      (fun after => definition.Appended (fields.map .sited) after) := by
  refine ends_forM _ _ pushField fields (fun field member before appended => ?_) definition
    (.refl definition _)
  have within : [Slot.sited field] ⊆ fields.map .sited := by simpa using member
  exact (ends_pushField field before).mono
    (fun _ after grown => appended.trans (grown.weaken within))
    fun after grown => appended.trans (grown.weaken within)

theorem ends_setInner (slot : Slot) (definition : Definition) :
    Ends (setInner slot) definition
      (fun _ after => definition.Appended [slot] after)
      (fun after => definition.Appended [slot] after) := by
  have kept := Definition.Appended.refl definition [slot]
  obtain ⟨owner, doc, annotations⟩ := definition
  simp only [setInner, ends_bind, ends_get]
  cases owner with
  | list item =>
    cases item with
    | none => exact ⟨.list (some slot), [slot], rfl, ⟨rfl, rfl, rfl,
        List.Subset.refl _, fun _ => Shape.fieldsDistinct_of_sites_eq_nil rfl⟩,
        List.Subset.refl _⟩
    | some => exact kept
  | reference target =>
    cases target with
    | none => exact ⟨.reference (some slot), [slot], rfl, ⟨rfl, rfl, rfl,
        List.Subset.refl _, fun _ => Shape.fieldsDistinct_of_sites_eq_nil rfl⟩,
        List.Subset.refl _⟩
    | some => exact kept
  | extension name value =>
    cases value with
    | none =>
      exact ⟨.extension name (some slot), [slot], rfl, ⟨rfl, rfl, rfl,
        List.Subset.refl _, fun _ => Shape.fieldsDistinct_of_sites_eq_nil rfl⟩,
        List.Subset.refl _⟩
    | some => exact kept
  | _ => exact kept

end Edit

namespace Catalog

/-! ## Single changes -/

/-- The id stands for a definition that came into being at `base` or later. -/
def HoldsFrom (catalog : Catalog) (base : Nat) (id : TypeId) : Prop :=
  base ≤ id.index ∧ catalog.Holds id

/-- The definitions from `base` on are made of one another only. -/
def ClosedFrom (catalog : Catalog) (base : Nat) : Prop :=
  ∀ id, catalog.HoldsFrom base id → ∀ child ∈ (catalog.shape id).children,
    catalog.HoldsFrom base child

/-- A single change that a reading makes which started when there were `base` definitions. -/
inductive GrowthStep (base : Nat) : Catalog → Catalog → Prop
  /-- A definition that has no name of its own, made of earlier ones of the reading. -/
  | node {catalog : Catalog} {shape : Shape}
      (unnamed : shape.isNamed = false)
      (distinct : shape.FieldsDistinct)
      (children : ∀ child ∈ shape.children, catalog.HoldsFrom base child) :
      GrowthStep base catalog (catalog.push (.ofShape shape))
  /-- A mention of a known name. -/
  | mention {catalog : Catalog} {name : String} {shape : Shape}
      (known : catalog.isKnown name = true)
      (empty : shape = .record name [] ∨ shape = .extension name none) :
      GrowthStep base catalog (catalog.push (.ofShape shape))
  /-- The first mention of a custom name. -/
  | introduce {catalog : Catalog} {word name : String}
      (resolved : name = catalog.resolveAlias word)
      (unknown : catalog.isKnown name = false) :
      GrowthStep base catalog
        ((catalog.push (.ofShape (.record name []))).provide name catalog.next)
  /-- More slots for a definition of the reading. What they lead to came into being behind `cut`,
  from where on nothing leads back. -/
  | append {catalog : Catalog} {id : TypeId} {cut : Nat} {given : List Slot}
      {definition : Definition}
      (own : base ≤ id.index) (earlier : id.index < cut) (within : cut ≤ catalog.arena.size)
      (closed : catalog.ClosedFrom cut)
      (later : ∀ slot ∈ given, catalog.HoldsFrom cut slot.target)
      (appended : (catalog.definition id).Appended given definition) :
      GrowthStep base catalog (catalog.put id definition)
  /-- A doc for a definition of the reading. -/
  | document {catalog : Catalog} {id : TypeId} {doc : Option String}
      (own : catalog.HoldsFrom base id) :
      GrowthStep base catalog (catalog.put id { catalog.definition id with doc })
  /-- A named definition of the reading goes to the bucket of its name. -/
  | enlist {catalog : Catalog} {declaration : Declaration}
      (own : catalog.HoldsFrom base declaration.id)
      (named : (catalog.definition declaration.id).isNamed = true) :
      GrowthStep base catalog (catalog.enlist declaration)

/-- What a reading does to a catalog. -/
def Growth (base : Nat) : Catalog → Catalog → Prop := Relation.ReflTransGen (GrowthStep base)

theorem Growth.trans {base : Nat} {first second third : Catalog} (left : Growth base first second)
    (right : Growth base second third) : Growth base first third :=
  Relation.ReflTransGen.trans left right

theorem HoldsFrom.mono {catalog : Catalog} {base cut : Nat} {id : TypeId} (le : base ≤ cut)
    (held : catalog.HoldsFrom cut id) : catalog.HoldsFrom base id :=
  ⟨Nat.le_trans le held.1, held.2⟩

theorem GrowthStep.mono {base cut : Nat} {before after : Catalog} (le : base ≤ cut)
    (step : GrowthStep cut before after) : GrowthStep base before after := by
  cases step with
  | node unnamed distinct children =>
    exact .node unnamed distinct fun child member => (children child member).mono le
  | mention known empty => exact .mention known empty
  | introduce resolved unknown => exact .introduce resolved unknown
  | append own earlier within closed later appended =>
    exact .append (Nat.le_trans le own) earlier within closed later appended
  | document own => exact .document (own.mono le)
  | enlist own named => exact .enlist (own.mono le) named

theorem Growth.mono {base cut : Nat} {before after : Catalog} (le : base ≤ cut)
    (growth : Growth cut before after) : Growth base before after := by
  induction growth with
  | refl => exact .refl
  | tail _ step ih => exact ih.tail (step.mono le)

/-! ## What growth leaves alone -/

/-- The same canonical names, spellings, retired definitions and settings. -/
structure Untouched (before after : Catalog) : Prop where
  canonical : after.canonical = before.canonical
  aliases : after.aliases = before.aliases
  forward : after.forward = before.forward
  marker : after.marker = before.marker
  customTypes : after.customTypes = before.customTypes

theorem Untouched.trans {first second third : Catalog}
    (left : first.Untouched second) (right : second.Untouched third) :
    first.Untouched third where
  canonical := right.canonical.trans left.canonical
  aliases := right.aliases.trans left.aliases
  forward := right.forward.trans left.forward
  marker := right.marker.trans left.marker
  customTypes := right.customTypes.trans left.customTypes

section

variable {base : Nat} {before after : Catalog}

theorem GrowthStep.untouched (step : GrowthStep base before after) :
    before.Untouched after := by
  cases step <;> exact ⟨rfl, rfl, rfl, rfl, rfl⟩

theorem Growth.untouched (growth : Growth base before after) : before.Untouched after := by
  induction growth with
  | refl => exact ⟨rfl, rfl, rfl, rfl, rfl⟩
  | tail _ step ih => exact ih.trans step.untouched

theorem GrowthStep.size_le (step : GrowthStep base before after) :
    before.arena.size ≤ after.arena.size := by
  cases step <;> simp

theorem Growth.size_le (growth : Growth base before after) :
    before.arena.size ≤ after.arena.size := by
  induction growth with
  | refl => exact Nat.le_refl _
  | tail _ step ih => exact Nat.le_trans ih step.size_le

theorem Growth.holds {id : TypeId} (growth : Growth base before after)
    (held : before.Holds id) : after.Holds id :=
  Nat.lt_of_lt_of_le held growth.size_le

theorem Growth.holdsFrom {cut : Nat} {id : TypeId} (growth : Growth base before after)
    (held : before.HoldsFrom cut id) : after.HoldsFrom cut id :=
  ⟨held.1, growth.holds held.2⟩

theorem GrowthStep.definition_eq (step : GrowthStep base before after)
    (start : base ≤ before.arena.size) {id : TypeId} (old : id.index < base) :
    after.definition id = before.definition id := by
  have notNext : id ≠ before.next := fun same => by
    simp only [same, next] at old
    omega
  have notOwn : ∀ other : TypeId, base ≤ other.index → id ≠ other := fun other own same => by
    subst same
    omega
  cases step with
  | node | mention | introduce => simp [definition_push, notNext]
  | append own => simp [definition_put, notOwn _ own]
  | document own => simp [definition_put, notOwn _ own.1]
  | enlist => simp

/-- Growth from `base` on changes no definition in front of `base`. -/
theorem Growth.definition_eq (growth : Growth base before after)
    (start : base ≤ before.arena.size) {id : TypeId} (old : id.index < base) :
    after.definition id = before.definition id := by
  induction growth with
  | refl => rfl
  | tail grown step ih =>
    exact (step.definition_eq (Nat.le_trans start (Growth.size_le grown)) old).trans ih

theorem GrowthStep.holdsFrom {cut : Nat} {id : TypeId} (step : GrowthStep base before after)
    (held : before.HoldsFrom cut id) : after.HoldsFrom cut id :=
  ⟨held.1, Nat.lt_of_lt_of_le held.2 step.size_le⟩

theorem GrowthStep.closedFrom (step : GrowthStep base before after)
    (closed : before.ClosedFrom base) : after.ClosedFrom base := by
  intro id held child member
  refine GrowthStep.holdsFrom step ?_
  have older (other : TypeId) (shape : Shape) (old : before.HoldsFrom base other)
      (same : shape = before.shape other) (within : child ∈ shape.children) :
      before.HoldsFrom base child := closed other old child (same ▸ within)
  cases step with
  | @node shape _ _ children =>
    simp only [Catalog.shape, definition_push] at member
    split at member
    · exact children child member
    · rename_i notNext
      exact older id _ ⟨held.1, by simpa [notNext] using held.2⟩ rfl member
  | @mention _ shape _ empty =>
    simp only [Catalog.shape, definition_push] at member
    split at member
    · rcases empty with rfl | rfl <;>
        simp [Definition.ofShape, Shape.children, Shape.slots] at member
    · rename_i notNext
      exact older id _ ⟨held.1, by simpa [notNext] using held.2⟩ rfl member
  | introduce =>
    simp only [Catalog.shape, definition_provide, definition_push] at member
    split at member
    · simp [Definition.ofShape, Shape.children, Shape.slots] at member
    · rename_i notNext
      exact older id _ ⟨held.1, by simpa [notNext] using held.2⟩ rfl member
  | @append id' cut given definition own earlier within _ later appended =>
    simp only [Catalog.shape, definition_put] at member
    split at member
    · rename_i same
      obtain ⟨shape, extra, rfl, grown, subset⟩ := appended
      rw [show Shape.children _ = _ from grown.children, List.mem_append] at member
      rcases member with member | member
      · exact older id' _ ⟨own, same.2⟩ rfl member
      · obtain ⟨slot, slotMember, rfl⟩ := List.mem_map.mp member
        exact (later slot (subset slotMember)).mono (by omega)
    · exact older id _ ⟨held.1, by simpa using held.2⟩ rfl member
  | @document id' doc own =>
    simp only [Catalog.shape, definition_put] at member
    split at member
    · exact older id' _ own rfl member
    · exact older id _ ⟨held.1, by simpa using held.2⟩ rfl member
  | enlist => exact older id _ ⟨held.1, by simpa using held.2⟩ rfl member

theorem Growth.closedFrom (growth : Growth base before after)
    (closed : before.ClosedFrom base) : after.ClosedFrom base := by
  induction growth with
  | refl => exact closed
  | tail _ step ih => exact step.closedFrom ih

/-- Nothing came into being behind the last definition. -/
theorem closedFrom_size (catalog : Catalog) : catalog.ClosedFrom catalog.arena.size :=
  fun _ held => absurd held.2 (Nat.not_lt_of_le held.1)

end

end Catalog

end DocShapes
