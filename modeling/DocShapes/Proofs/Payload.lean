import DocShapes.Proofs.Conservation
import DocShapes.Proofs.Framing
import DocShapes.Proofs.Reconciling

/-! # Payloads match kinds

What a shape holds is what its base and its name allow (`Shape.Fits`). Shapes are made so that only
one part of this can go wrong: the fields of a record must have names, and distinct ones. Every
checked change and every relinking keeps such fields apart, also where it fails, and whatever keeps
them apart can be made in this way (`Definition.built_iff`). So does every operation on a catalog
that registers only such definitions (`payloads_fit`).
-/

namespace DocShapes

/-! ## Shapes -/

namespace Shape

/-- The payload of a shape is of the kind that its base and its name say. -/
structure Fits (shape : Shape) : Prop where
  fields : shape.base = .record ∨ (shape.base = .compound ∧ shape.name = "record") →
    shape.slots = shape.sites.map .sited ∧ shape.FieldsDistinct
  single : shape.base = .extension ∨
      (shape.base = .compound ∧ (shape.name = "list" ∨ shape.name = "reference")) →
    shape.slots = shape.inner?.toList
  alternatives : shape.base = .compound ∧ (shape.name = "oneof" ∨ shape.name = "union") →
    shape.slots = shape.alternatives
  literal : shape.base = .constant → ∃ value, shape = .constant value ∧ value.kind = shape.name
  nothing : shape.base = .scalar ∨ shape.base = .unknown → shape.hasContent = false
  compound : shape.base = .compound →
    shape.name ∈ ["oneof", "union", "list", "reference", "record"]

/-- Distinct fields are all that a payload needs beyond the form of its shape. -/
theorem FieldsDistinct.fits {shape : Shape} (distinct : shape.FieldsDistinct) : shape.Fits where
  fields kind := by
    refine ⟨?_, distinct⟩
    cases shape with
    | anonymous | record => rfl
    | choice connective =>
      cases connective <;> simp [Shape.base, Shape.name, Connective.word] at kind
    | _ => simp [Shape.base, Shape.name] at kind
  single kind := by
    cases shape with
    | list | reference | extension => rfl
    | choice connective =>
      cases connective <;> simp [Shape.base, Shape.name, Connective.word] at kind
    | _ => simp [Shape.base, Shape.name] at kind
  alternatives kind := by
    cases shape with
    | choice => rfl
    | _ => simp [Shape.base, Shape.name] at kind
  literal kind := by
    cases shape with
    | constant value => exact ⟨value, rfl, rfl⟩
    | _ => cases kind
  nothing kind := by
    cases shape with
    | scalar | unknown => rfl
    | _ => simp [Shape.base] at kind
  compound kind := by
    cases shape with
    | choice connective => cases connective <;> simp [Shape.name, Connective.word]
    | list | reference | anonymous => simp [Shape.name]
    | _ => cases kind

/-- Some of the fields of a shape with distinct fields are distinct. -/
theorem names_zipWith_land_sublist (fields : List Site) (landings : List Landing) :
    ((fields.zipWith Site.land landings).map Site.name).Sublist (fields.map Site.name) := by
  induction fields generalizing landings with
  | nil => simp
  | cons first rest ih =>
    cases landings with
    | nil => simp
    | cons landing others => exact (ih others).cons_cons first.name

/-- A relinked shape has no other names, even if it is given too few landings. -/
theorem FieldsDistinct.relink {shape : Shape} (distinct : shape.FieldsDistinct)
    (landings : List Landing) : (shape.relink landings).FieldsDistinct := by
  apply distinct.of_sublist
  cases shape with
  | anonymous fields => exact names_zipWith_land_sublist fields landings
  | record name fields => exact names_zipWith_land_sublist fields landings
  | _ => exact List.Sublist.refl _

theorem sites_withFields {shape : Shape} (record : shape.isRecordLike = true)
    (fields : List Site) : (shape.withFields fields).sites = shape.sites ++ fields := by
  cases shape with
  | anonymous | record => rfl
  | _ => cases record

end Shape

/-! ## Checked changes -/

theorem Definition.Appended.fieldsDistinct {before after : Definition} {given : List Slot}
    (appended : before.Appended given after) (distinct : before.shape.FieldsDistinct) :
    after.shape.FieldsDistinct := by
  obtain ⟨shape, extra, rfl, grown, _⟩ := appended
  exact grown.fields distinct

namespace Edit

/-- The changes that check what they are given. -/
inductive Checked : Edit Unit → Prop
  | pushField (field : Site) : Checked (pushField field)
  | setFields (fields : List Site) : Checked (setFields fields)
  | setInner (slot : Slot) : Checked (setInner slot)
  | pushAlternative (slot : Slot) : Checked (pushAlternative slot)
  | setChildren (children : List Slot) : Checked (setChildren children)

variable {definition : Definition}

theorem ends_pushFields_distinct (fields : List Site) (distinct : definition.shape.FieldsDistinct) :
    Ends (fields.forM Edit.pushField) definition (fun _ after => after.shape.FieldsDistinct)
      fun after => after.shape.FieldsDistinct :=
  (ends_pushFields fields definition).mono (fun _ _ appended => appended.fieldsDistinct distinct)
    fun _ appended => appended.fieldsDistinct distinct

/-- The old fields go first, so that a failure leaves some of the new ones only. -/
theorem ends_setFields_distinct (fields : List Site) (distinct : definition.shape.FieldsDistinct) :
    Ends (Edit.setFields fields) definition (fun _ after => after.shape.FieldsDistinct)
      fun after => after.shape.FieldsDistinct := by
  obtain ⟨owner, doc, annotations⟩ := definition
  simp only [Edit.setFields, ends_bind, ends_get]
  cases owner with
  | anonymous | record =>
    exact ends_pushFields_distinct fields (Shape.fieldsDistinct_of_sites_eq_nil rfl)
  | _ => exact distinct

theorem ends_setSingle_distinct (wrap : Option Slot → Shape) (children : List Slot)
    (plain : ∀ slot, (wrap slot).sites = []) (distinct : definition.shape.FieldsDistinct) :
    Ends (setSingle wrap children) definition (fun _ after => after.shape.FieldsDistinct)
      fun after => after.shape.FieldsDistinct := by
  simp only [setSingle]
  exact ends_ite (fun _ => distinct) fun _ => Shape.fieldsDistinct_of_sites_eq_nil (plain _)

theorem ends_setChildren_distinct (children : List Slot)
    (distinct : definition.shape.FieldsDistinct) :
    Ends (Edit.setChildren children) definition (fun _ after => after.shape.FieldsDistinct)
      fun after => after.shape.FieldsDistinct := by
  have ofSites (owner : String) :
      Ends (setChildren.ofSites children owner) definition
        (fun _ after => after.shape.FieldsDistinct) fun after => after.shape.FieldsDistinct := by
    rw [setChildren.ofSites]
    split
    · exact ends_setFields_distinct _ distinct
    · exact distinct
  simp only [Edit.setChildren, ends_bind, ends_get]
  split
  · exact ofSites _
  · exact ofSites _
  · exact ends_setSingle_distinct _ children (fun _ => rfl) distinct
  · exact ends_setSingle_distinct _ children (fun _ => rfl) distinct
  · exact ends_setSingle_distinct _ children (fun _ => rfl) distinct
  · exact Shape.fieldsDistinct_of_sites_eq_nil rfl
  · exact ends_ite (fun _ => distinct) fun _ => distinct

theorem Checked.ends_distinct {change : Edit Unit} (checked : Checked change)
    (distinct : definition.shape.FieldsDistinct) :
    Ends change definition (fun _ after => after.shape.FieldsDistinct)
      fun after => after.shape.FieldsDistinct := by
  cases checked with
  | pushField field =>
    exact (ends_pushField field definition).mono
      (fun _ _ appended => appended.fieldsDistinct distinct)
      fun _ appended => appended.fieldsDistinct distinct
  | setFields fields => exact ends_setFields_distinct fields distinct
  | setInner slot =>
    exact (ends_setInner slot definition).mono
      (fun _ _ appended => appended.fieldsDistinct distinct)
      fun _ appended => appended.fieldsDistinct distinct
  | pushAlternative slot =>
    simp only [Edit.pushAlternative, ends_bind, ends_get]
    split
    · exact Shape.fieldsDistinct_of_sites_eq_nil rfl
    · exact distinct
  | setChildren children => exact ends_setChildren_distinct children distinct

/-- A record takes a field that has a name, and one of its own. -/
theorem leaves_pushField {field : Site} (record : definition.shape.isRecordLike = true)
    (distinct : (definition.withFields [field]).shape.FieldsDistinct) :
    leaves (Edit.pushField field) definition = definition.withFields [field] := by
  obtain ⟨named, nodup⟩ := distinct
  rw [Definition.withFields, Shape.sites_withFields record] at named nodup
  rw [List.map_append, List.nodup_append] at nodup
  have spelled : field.name.getD "" ≠ "" := named field (by simp)
  have filled : ¬(field.name.getD "").isEmpty = true := by simpa using spelled
  have free : ¬(definition.shape.sites.any
      fun other => other.name = some (field.name.getD "")) = true := by
    intro taken
    obtain ⟨other, member, same⟩ := List.any_eq_true.mp taken
    refine nodup.2.2 other.name (List.mem_map_of_mem member) field.name (by simp) ?_
    rw [of_decide_eq_true same]
    cases name : field.name with
    | none => simp [name] at spelled
    | some => rfl
  suffices ends : Ends (Edit.pushField field) definition
      (fun _ after => after = definition.withFields [field])
      fun after => after = definition.withFields [field] from ends_leaves_iff.mp ends
  obtain ⟨owner, doc, annotations⟩ := definition
  simp only [Edit.pushField, ends_bind, ends_get]
  refine ends_ite (fun empty => absurd empty filled) fun _ => ?_
  cases owner with
  | anonymous | record => exact ends_ite (fun taken => absurd taken free) fun _ => rfl
  | _ => cases record

end Edit

/-! ## Definitions -/

/-- Definitions as they can be made: an empty one of some kind, its doc and its annotations
replaced, and then changed by checked changes, which may fail, and by relinking. -/
inductive Definition.Built : Definition → Prop
  | scalar (name : String) : Built (.ofShape (.scalar name))
  | constant (value : Literal) : Built (.ofShape (.constant value))
  | compound {kind : String} {shape : Shape} (made : Shape.compound kind = .ok shape) :
      Built (.ofShape shape)
  | record (name : String) : Built (.ofShape (.record name []))
  | extension (name : String) (value : Option Slot) : Built (.ofShape (.extension name value))
  | unknown (name : String) : Built (.ofShape (.unknown name))
  | document {definition : Definition} (doc : Option String)
      (annotations : OrderedMap String String) (built : Built definition) :
      Built { definition with doc, annotations }
  | change {definition : Definition} {change : Edit Unit} (checked : Edit.Checked change)
      (built : Built definition) : Built (leaves change definition)
  | relink {definition : Definition} (landings : List Landing) (built : Built definition) :
      Built { definition with shape := definition.shape.relink landings }

theorem Shape.sites_of_compound {kind : String} {shape : Shape}
    (made : Shape.compound kind = .ok shape) : shape.sites = [] := by
  unfold Shape.compound at made
  split at made <;> cases made <;> rfl

theorem Definition.Built.fieldsDistinct {definition : Definition} (built : definition.Built) :
    definition.shape.FieldsDistinct := by
  induction built with
  | compound made => exact Shape.fieldsDistinct_of_sites_eq_nil (Shape.sites_of_compound made)
  | document doc annotations built ih => exact ih
  | change checked built ih => exact ends_leaves_iff.mp (checked.ends_distinct ih)
  | relink landings built ih => exact ih.relink landings
  | _ => exact Shape.fieldsDistinct_of_sites_eq_nil rfl

theorem Definition.Built.withFields {definition : Definition} (built : definition.Built)
    (record : definition.shape.isRecordLike = true) (fields : List Site)
    (distinct : (definition.withFields fields).shape.FieldsDistinct) :
    (definition.withFields fields).Built := by
  induction fields generalizing definition with
  | nil =>
    rw [Definition.withFields, Shape.withFields_nil]
    exact built
  | cons field rest ih =>
    have split : definition.withFields (field :: rest) =
        (definition.withFields [field]).withFields rest := by
      simp only [Definition.withFields, Shape.withFields_withFields, List.singleton_append]
    rw [split] at distinct ⊢
    have first : (definition.withFields [field]).shape.FieldsDistinct := by
      apply distinct.of_sublist
      have single := (Shape.isRecordLike_withFields definition.shape [field]).trans record
      rw [Definition.withFields, Definition.withFields, Shape.sites_withFields single]
      exact (List.sublist_append_left _ _).map _
    refine ih ?_ ?_ distinct
    · rw [← Edit.leaves_pushField record first]
      exact .change (.pushField field) built
    · exact (Shape.isRecordLike_withFields _ _).trans record

namespace Catalog

variable {catalog before after : Catalog} {name : String}

/-! ## Catalogs -/

/-- The fields of each definition have names, and distinct ones. -/
def KeepsApart (catalog : Catalog) : Prop := ∀ id, (catalog.shape id).FieldsDistinct

theorem KeepsApart.of_arena (apart : before.KeepsApart) (same : after.arena = before.arena) :
    after.KeepsApart := by
  intro id
  rw [Catalog.shape, Catalog.definition, same]
  exact apart id

theorem KeepsApart.push (apart : catalog.KeepsApart) {definition : Definition}
    (distinct : definition.shape.FieldsDistinct) : (catalog.push definition).KeepsApart := by
  intro id
  rw [Catalog.shape, definition_push]
  split
  · exact distinct
  · exact apart id

theorem KeepsApart.put (apart : catalog.KeepsApart) (id : TypeId) {definition : Definition}
    (distinct : definition.shape.FieldsDistinct) : (catalog.put id definition).KeepsApart := by
  intro other
  rw [Catalog.shape, definition_put]
  split
  · exact distinct
  · exact apart other

theorem keepsApart_of_arena_eq_empty (none : catalog.arena = #[]) : catalog.KeepsApart := by
  intro id
  have absent : ¬catalog.Holds id := by simp [Holds, none]
  rw [Catalog.shape, definition_of_not_holds absent]
  exact Shape.fieldsDistinct_of_sites_eq_nil rfl

/-- Old definitions stay as they are, and new ones are made with distinct fields. -/
theorem Growth.keepsApart (growth : Growth before.arena.size before after)
    (apart : before.KeepsApart) : after.KeepsApart := by
  intro id
  by_cases old : id.index < before.arena.size
  · rw [Catalog.shape, growth.definition_eq (Nat.le_refl _) old]
    exact apart id
  · by_cases held : after.Holds id
    · exact growth.fieldsDistinct (Nat.le_refl _) id ⟨Nat.le_of_not_lt old, held⟩
    · rw [Catalog.shape, definition_of_not_holds held]
      exact Shape.fieldsDistinct_of_sites_eq_nil rfl

theorem Settling.keepsApart (settling : Settling before after) (apart : before.KeepsApart) :
    after.KeepsApart := by
  induction settling with
  | refl => exact apart
  | tail _ step ih =>
    cases step with
    | promote => exact ih.of_arena rfl
    | withdraw => exact ih.of_arena rfl
    | relink => exact ih.put _ ((ih _).relink _)

/-! ## Names -/

theorem ends_register_apart {definition : Definition} (apart : catalog.KeepsApart)
    (distinct : definition.shape.FieldsDistinct) :
    Ends (register definition) catalog (fun _ after => after.KeepsApart) KeepsApart := by
  refine ends_registrable apart fun _ => ?_
  rw [ends_bind, ends_get]
  split
  · exact (apart.put _ distinct).of_arena rfl
  · exact (apart.push distinct).of_arena rfl

theorem ends_registerProvisional_apart {definition : Definition} (apart : catalog.KeepsApart)
    (distinct : definition.shape.FieldsDistinct) :
    Ends (registerProvisional definition) catalog (fun _ after => after.KeepsApart) KeepsApart := by
  refine ends_registrable apart fun _ => ?_
  rw [ends_bind, ends_get]
  exact ends_ite (fun _ => apart) fun _ => (apart.push distinct).of_arena rfl

theorem ends_defineProvisional_apart {definition : Definition} (origin : Option TypeId)
    (apart : catalog.KeepsApart) (distinct : definition.shape.FieldsDistinct) :
    Ends (defineProvisional definition origin) catalog (fun _ after => after.KeepsApart)
      KeepsApart := by
  refine ends_registrable apart fun _ => ?_
  rw [ends_bind, ends_get]
  split
  · exact (apart.push distinct).of_arena rfl
  · refine ends_ite (fun _ => apart.put _ distinct) fun _ => ?_
    exact ends_ite (fun _ => (apart.push distinct).of_arena rfl) fun _ => apart

/-- A record takes the fields of an anonymous one over. -/
theorem fieldsDistinct_extensionOf (apart : catalog.KeepsApart) (site : Site) :
    (catalog.extensionOf site).1.shape.FieldsDistinct := by
  unfold extensionOf
  split
  · exact apart site.target
  · dsimp only
    split
    · exact apart site.target
    · split
      · rename_i fields anonymous
        have own := apart site.target
        rw [show catalog.shape site.target = .anonymous fields from anonymous] at own
        exact ⟨own.named, own.nodup⟩
      · exact Shape.fieldsDistinct_of_sites_eq_nil rfl

theorem ends_defineEntries_apart (source : Option String) (entries : List Entry)
    (apart : catalog.KeepsApart) :
    Ends (defineEntries source entries) catalog (fun _ after => after.KeepsApart) KeepsApart := by
  induction entries generalizing catalog with
  | nil => exact apart
  | cons entry rest ih =>
    rw [defineEntries]
    split
    · exact ih apart
    · rename_i site _
      have distinct := fieldsDistinct_extensionOf apart site
      rw [ends_bind, ends_get]
      rcases pair : catalog.extensionOf site with ⟨definition, origin⟩
      rw [pair] at distinct
      simp only [ends_bind]
      exact (@ends_defineProvisional_apart _ (labelled definition _ source) origin apart
        distinct).mono (fun _ _ further => ih further) fun _ further => further

/-! ## Merges -/

theorem fieldsDistinct_of_mergeExtension {full : List Declaration} {merged : Merged}
    (succeeds : catalog.mergeExtension name full = .ok merged) :
    merged.definition.shape.FieldsDistinct := by
  rw [mergeExtension] at succeeds
  obtain ⟨value, _, succeeds⟩ := exists_of_bind_eq_ok succeeds
  cases succeeds
  exact Shape.fieldsDistinct_of_sites_eq_nil rfl

theorem ends_installMerged_apart (apart : catalog.KeepsApart) (base : Base)
    (target : Option TypeId) {merged : Option Merged}
    (distinct : ∀ content ∈ merged, content.definition.shape.FieldsDistinct) :
    Ends (installMerged name base target merged) catalog (fun _ after => after.KeepsApart)
      KeepsApart := by
  unfold installMerged
  split
  · rename_i id content
    rw [ends_bind, ends_setDefinition]
    apply apart.put id
    rw [shape_keepRemainder]
    exact distinct content rfl
  · exact apart
  · rename_i content
    rw [ends_allocate]
    exact apart.push (distinct content rfl)
  · rw [ends_allocate, shellOf]
    apply apart.push
    split <;> exact Shape.fieldsDistinct_of_sites_eq_nil rfl

theorem ends_retire_apart (target : TypeId) (sites : List Declaration)
    (siteDocs : OrderedMap TypeId String) (apart : catalog.KeepsApart) :
    Ends (retire target sites siteDocs) catalog (fun _ after => after.KeepsApart) KeepsApart := by
  induction sites generalizing catalog siteDocs with
  | nil => exact apart
  | cons site rest ih =>
    simp only [retire, forwardTo, ends_bind]
    refine ends_ite (fun _ => ih _ apart) fun _ => ?_
    exact ih _ (apart.of_arena rfl)

theorem ends_installRetiring_apart (apart : catalog.KeepsApart) (base : Base)
    (target : Option TypeId) {merged : Option Merged} (sites : List Declaration)
    (siteDocs : TypeId → OrderedMap TypeId String)
    (distinct : ∀ content ∈ merged, content.definition.shape.FieldsDistinct) :
    Ends (do
        let id ← installMerged name base target merged
        eraseProvisional name
        setCanonical name id
        retire id sites (siteDocs id)) catalog (fun _ after => after.KeepsApart) KeepsApart := by
  rw [ends_bind]
  refine (ends_installMerged_apart apart base target distinct).imp fun id installed further => ?_
  simp only [ends_bind, eraseProvisional, setCanonical, ends_modify]
  exact ends_retire_apart id sites (siteDocs id) (further.of_arena rfl)

theorem ends_mergeName_apart (staged : List Declaration) (apart : catalog.KeepsApart) :
    Ends (mergeName name staged) catalog (fun _ after => after.KeepsApart) KeepsApart := by
  simp only [mergeName, ends_bind, ends_get]
  refine ends_ite (fun _ => apart) fun _ => ends_ite (fun _ => ?_) fun _ =>
    ends_ite (fun _ => ?_) fun _ => ?_
  · rw [ends_bind, ends_pure]
    exact ends_installRetiring_apart apart _ _ _ _ (by simp)
  · rw [ends_bind, ends_map, ends_ofExcept]
    split
    · rename_i content made
      exact ends_installRetiring_apart apart _ _ _ _
        (by simpa using fieldsDistinct_of_mergeExtension made)
    · exact apart
  · rw [ends_bind, ends_map, ends_ofExcept]
    split
    · rename_i content made
      exact ends_installRetiring_apart apart _ _ _ _
        (by simpa using fieldsDistinct_of_mergeRecord made)
    · exact apart

theorem ends_mergePending_apart (consistent : catalog.Consistent) (apart : catalog.KeepsApart) :
    Ends mergePending catalog (fun _ after => after.KeepsApart) KeepsApart := by
  simp only [mergePending, ends_bind, ends_get, ends_modify]
  have merges := ends_forM KeepsApart KeepsApart
    (fun entry : String × List Declaration => mergeName entry.1 entry.2) catalog.pending.entries
    (fun entry _ state further => ends_mergeName_apart entry.2 further) catalog.discharge
    (apart.of_arena rfl)
  refine ((ends_mergeNames catalog.pending.entries consistent.discharge
    consistent.mergeable_discharge consistent.distinctStaged).and merges).mono
      (fun _ middle merged => ?_) fun _ kept => kept.2
  obtain ⟨buckets, further⟩ := merged
  refine (ends_settleCanonical (buckets.merging.consistent consistent.discharge)).mono
    (fun _ after settled => ?_) fun _ settling => settling.keepsApart further
  obtain ⟨_, walked, _⟩ := settled
  exact walked.settling.keepsApart further

/-! ## Operations -/

/-- The definition that an operation registers, if it registers one, is built. -/
def Operation.RegistersBuilt : Operation → Prop
  | .register definition => definition.Built
  | .registerProvisional definition => definition.Built
  | _ => True

theorem KeepsApart.perform (apart : catalog.KeepsApart) (consistent : catalog.Consistent)
    {operation : Operation} (allowed : operation.Allowed catalog)
    (built : Operation.RegistersBuilt operation) :
    (leaves operation.perform catalog).KeepsApart := by
  cases operation with
  | loadExtension text source =>
    refine ends_leaves_iff.mp ?_
    rw [Operation.perform, ends_map, loadExtension, ends_bind]
    exact (ends_parseEntries catalog.underway_size _ text).mono
      (fun entries _ grown => ends_defineEntries_apart source entries (grown.1.keepsApart apart))
      fun _ grown => grown.keepsApart apart
  | register definition =>
    refine ends_leaves_iff.mp ?_
    rw [Operation.perform, ends_map]
    exact ends_register_apart apart (Definition.Built.fieldsDistinct built)
  | registerProvisional definition =>
    refine ends_leaves_iff.mp ?_
    rw [Operation.perform, ends_map]
    exact ends_registerProvisional_apart apart (Definition.Built.fieldsDistinct built)
  | addAlias spelling target =>
    refine ends_leaves_iff.mp ?_
    rw [Operation.perform]
    simp only [addAlias, ends_bind, ends_get]
    refine ends_ite (fun _ => apart) fun _ => ?_
    split
    · exact apart.of_arena rfl
    · exact apart.of_arena rfl
  | dereference slot =>
    refine ends_leaves_iff.mp ?_
    rw [Operation.perform, ends_bind]
    exact (ends_dereference consistent slot allowed).mono
      (fun _ _ settled => ends_failWith _ (settled.keepsApart apart)) fun _ ended => ended.elim
  | mergePending => exact ends_leaves_iff.mp (ends_mergePending_apart consistent apart)
  | _ =>
    refine Growth.keepsApart (growth_of_isReading ?_ catalog) apart
    trivial

theorem KeepsApart.run {operations : List Operation} (apart : catalog.KeepsApart)
    (reachable : catalog.Reachable) (permits : catalog.Permits operations)
    (built : ∀ operation ∈ operations, Operation.RegistersBuilt operation) :
    (catalog.run operations).KeepsApart := by
  induction operations generalizing catalog with
  | nil => exact apart
  | cons operation rest ih =>
    obtain ⟨first, others⟩ := List.forall_mem_cons.mp built
    have move : Move catalog (leaves operation.perform catalog) := ⟨operation, permits.1, rfl⟩
    exact ih (apart.perform reachable.consistent permits.1 first) (reachable.move move)
      permits.2 others

theorem keepsApart_of_ofConfig {config : Config} {start : Catalog}
    (made : ofConfig config = .ok start) : start.KeepsApart := by
  obtain ⟨aliases, rfl⟩ := respell_of_ofConfig made
  exact keepsApart_of_arena_eq_empty rfl

end Catalog

end DocShapes
