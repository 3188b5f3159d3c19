import DocShapes.Catalog.Extension
import DocShapes.Proofs.Blocks
import DocShapes.Proofs.Consistency

/-! # Registering names keeps a catalog consistent

`NamingStep` lists what registering a type, loading a text of definitions and adding a spelling
can do to a catalog. A failure of any of them comes before its change.
-/

namespace DocShapes.Catalog

variable {catalog : Catalog}

/-! ## Single changes -/

/-- A definition can be registered under its name. -/
structure Registrable (catalog : Catalog) (definition : Definition) : Prop where
  named : definition.isNamed = true
  unspelled : catalog.aliases.isSpelling definition.name = false
  free : catalog.canonical.get? definition.name = none

inductive NamingStep : Catalog → Catalog → Prop
  /-- A new provisional definition; the one before it, if any, is staged. -/
  | provide {catalog : Catalog} {definition : Definition}
      (registrable : catalog.Registrable definition)
      (children : ∀ child ∈ definition.shape.children, catalog.Holds child)
      (displaced : ∀ present, catalog.provisional.get? definition.name = some present →
        catalog.isStaged present = true) :
      NamingStep catalog ((catalog.push definition).provide definition.name catalog.next)
  /-- Another definition in the place of a provisional one that said nothing, or that had the same
  shape. -/
  | redefine {catalog : Catalog} {id : TypeId} {definition : Definition}
      (registrable : catalog.Registrable definition)
      (children : ∀ child ∈ definition.shape.children, catalog.Holds child)
      (present : catalog.provisional.get? definition.name = some id)
      (replaceable : (catalog.definition id).isShell = true ∨
        definition.shape = catalog.shape id) :
      NamingStep catalog (catalog.put id definition)
  /-- A new canonical definition. -/
  | establish {catalog : Catalog} {definition : Definition}
      (registrable : catalog.Registrable definition)
      (children : ∀ child ∈ definition.shape.children, catalog.Holds child)
      (unknown : catalog.provisional.get? definition.name = none) :
      NamingStep catalog ((catalog.push definition).establish definition.name catalog.next)
  /-- One more spelling. -/
  | respell {catalog : Catalog} {spelling target : String} {aliases : AliasTable}
      (unknown : catalog.isKnown spelling = false)
      (added : catalog.aliases.add spelling target = .ok aliases) :
      NamingStep catalog (catalog.respell aliases)

/-- A canonical definition in the place `id` of a provisional one, whatever that said. -/
structure Replaced (definition : Definition) (id : TypeId) (before after : Catalog) : Prop where
  registrable : before.Registrable definition
  children : ∀ child ∈ definition.shape.children, before.Holds child
  present : before.provisional.get? definition.name = some id
  change : after = (before.put id definition).establish definition.name id

/-- What a text of definitions does to a catalog once it has been read. -/
def Naming : Catalog → Catalog → Prop := Relation.ReflTransGen NamingStep

theorem known?_of_provisional {name : String} {id : TypeId}
    (free : catalog.canonical.get? name = none)
    (present : catalog.provisional.get? name = some id) : catalog.known? name = some id := by
  simp [known?, free, present]

theorem Consistent.putProvisional (consistent : catalog.Consistent) {id : TypeId}
    {definition : Definition} (registrable : catalog.Registrable definition)
    (children : ∀ child ∈ definition.shape.children, catalog.Holds child)
    (present : catalog.provisional.get? definition.name = some id) :
    (catalog.put id definition).Consistent := by
  have names := consistent.owned _ id (known?_of_provisional registrable.free present)
  exact consistent.put (registrable.named.trans names.named.symm) names.same.symm children

theorem Consistent.known?_of_provisional (consistent : catalog.Consistent) {name : String}
    {id : TypeId} (present : catalog.provisional.get? name = some id) :
    catalog.known? name = some id := by
  cases found : catalog.canonical.get? name with
  | none => exact Catalog.known?_of_provisional found present
  | some other => simp [consistent.disjoint name other found] at present

theorem NamingStep.consistent {before after : Catalog} (step : NamingStep before after)
    (consistent : before.Consistent) : after.Consistent := by
  cases step with
  | provide registrable children =>
    exact consistent.install registrable.named registrable.unspelled children
      (consistent.installs_provide registrable.free)
  | redefine registrable children present =>
    exact consistent.putProvisional registrable children present
  | establish registrable children =>
    exact consistent.install registrable.named registrable.unspelled children
      (consistent.installs_establish registrable.free)
  | respell unknown added => exact consistent.respell unknown added

theorem Replaced.consistent {definition : Definition} {id : TypeId} {before after : Catalog}
    (replaced : Replaced definition id before after) (consistent : before.Consistent) :
    after.Consistent := by
  obtain ⟨registrable, children, present, rfl⟩ := replaced
  exact (consistent.putProvisional registrable children present).establish
    (known?_of_provisional registrable.free present)

/-- What outlasts every step in consistent catalogs outlasts naming. -/
theorem Naming.induction {holds : Catalog → Prop} {before after : Catalog}
    (naming : Naming before after) (consistent : before.Consistent) (start : holds before)
    (step : ∀ before after : Catalog, before.Consistent → holds before → NamingStep before after →
      holds after) : after.Consistent ∧ holds after := by
  induction naming with
  | refl => exact ⟨consistent, start⟩
  | tail _ change ih => exact ⟨change.consistent ih.1, step _ _ ih.1 ih.2 change⟩

theorem Naming.consistent {before after : Catalog} (naming : Naming before after)
    (consistent : before.Consistent) : after.Consistent :=
  (naming.induction consistent trivial fun _ _ _ _ _ => trivial).1

/-! ## Types -/

theorem ends_checkRegistrable (definition : Definition) :
    Ends (checkRegistrable definition) catalog
      (fun _ after => after = catalog ∧ catalog.Registrable definition) (· = catalog) := by
  simp only [checkRegistrable, ends_bind, ends_get]
  refine ends_ite (fun _ => rfl) fun named => ends_ite (fun _ => rfl) fun unspelled =>
    ends_ite (fun _ => rfl) fun free => ⟨rfl, ?_, ?_, ?_⟩
  · simpa using named
  · simpa using unspelled
  · exact OrderedMap.get?_eq_none_of_not_contains free

/-- Where a definition is refused nothing has changed, and where it is accepted neither. -/
theorem ends_registrable {α : Type} {definition : Definition} {next : CatalogM α}
    {done : α → Catalog → Prop} {failed : Catalog → Prop} (refused : failed catalog)
    (accepted : catalog.Registrable definition → Ends next catalog done failed) :
    Ends (checkRegistrable definition >>= fun _ => next) catalog done failed := by
  rw [ends_bind]
  refine (ends_checkRegistrable definition).mono ?_ fun _ same => same ▸ refused
  rintro _ _ ⟨rfl, registrable⟩
  exact accepted registrable

theorem ends_register (definition : Definition)
    (children : ∀ child ∈ definition.shape.children, catalog.Holds child) :
    Ends (register definition) catalog
      (fun id after => NamingStep catalog after ∨ Replaced definition id catalog after)
      (· = catalog) := by
  refine ends_registrable rfl fun registrable => ?_
  rw [ends_bind, ends_get]
  split
  · rename_i id present
    exact .inr ⟨registrable, children, present, rfl⟩
  · rename_i unknown
    have step := NamingStep.establish registrable children unknown
    simp only [ends_bind, ends_allocate, setCanonical, ends_modify]
    rw [establish, push_provisional, OrderedMap.erase_of_get?_eq_none unknown] at step
    exact .inl step

theorem ends_registerProvisional (definition : Definition)
    (children : ∀ child ∈ definition.shape.children, catalog.Holds child) :
    Ends (registerProvisional definition) catalog (fun _ => NamingStep catalog) (· = catalog) := by
  refine ends_registrable rfl fun registrable => ?_
  rw [ends_bind, ends_get]
  refine ends_ite (fun _ => rfl) fun absent => ?_
  have unknown := OrderedMap.get?_eq_none_of_not_contains absent
  simp only [ends_bind, ends_allocate, setProvisional, ends_modify]
  exact .provide registrable children (by simp [unknown])

theorem ends_defineProvisional (definition : Definition) (origin : Option TypeId)
    (children : ∀ child ∈ definition.shape.children, catalog.Holds child)
    (copied : ∀ id ∈ origin, definition.shape = catalog.shape id) :
    Ends (defineProvisional definition origin) catalog (fun _ => NamingStep catalog)
      (· = catalog) := by
  refine ends_registrable rfl fun registrable => ?_
  rw [ends_bind, ends_get]
  split
  · rename_i unknown
    simp only [ends_bind, ends_allocate, setProvisional, ends_modify]
    exact .provide registrable children (by simp [unknown])
  · rename_i present found
    refine ends_ite (fun replaceable => ?_) fun _ => ends_ite (fun staged => ?_) fun _ => rfl
    · refine .redefine registrable children found ?_
      rcases Bool.or_eq_true_iff.mp replaceable with same | shell
      · exact .inr (copied present (by simpa using same))
      · exact .inl shell
    · simp only [ends_bind, ends_allocate, setProvisional, ends_modify]
      refine .provide registrable children fun other same => ?_
      cases found.symm.trans same
      exact staged

/-! ## Texts of definitions -/

/-- Whatever a site gives its name is made of held definitions, and has the shape of its origin. -/
theorem extensionOf_spec (consistent : catalog.Consistent) {site : Site}
    (held : catalog.Holds site.target) :
    (∀ child ∈ (catalog.extensionOf site).1.shape.children, catalog.Holds child) ∧
      ∀ id ∈ (catalog.extensionOf site).2,
        (catalog.extensionOf site).1.shape = catalog.shape id := by
  have own := consistent.linked site.target held
  have itself : ∀ id ∈ some site.target, catalog.shape site.target = catalog.shape id := by
    rintro _ ⟨⟩
    rfl
  unfold extensionOf
  split
  · exact ⟨own, itself⟩
  · dsimp only
    split
    · exact ⟨own, itself⟩
    · split
      · rename_i fields anonymous
        refine ⟨fun child member => own child ?_, by simp⟩
        rw [show catalog.shape site.target = .anonymous fields from anonymous]
        exact member
      · refine ⟨fun child member => ?_, by simp⟩
        have same : child = site.target := by
          simpa [Definition.ofShape, Shape.children, Shape.slots, Slot.target] using member
        exact same ▸ held

theorem NamingStep.holds {before after : Catalog} (step : NamingStep before after) {id : TypeId}
    (held : before.Holds id) : after.Holds id := by
  cases step <;> simp [held]

theorem sited_of_site? {entry : Entry} {site : Site}
    (sited : entry.slot.bind Slot.site? = some site) : entry.slot = some (.sited site) := by
  obtain ⟨slot, same, isSite⟩ := Option.bind_eq_some_iff.mp sited
  cases slot with
  | bare => cases isSite
  | sited =>
    cases isSite
    exact same

theorem ends_defineEntries (source : Option String) (entries : List Entry)
    (consistent : catalog.Consistent)
    (held : ∀ entry ∈ entries, ∀ slot ∈ entry.slot, catalog.Holds slot.target) :
    Ends (defineEntries source entries) catalog (fun _ => Naming catalog) (Naming catalog) := by
  induction entries generalizing catalog with
  | nil => exact .refl
  | cons entry rest ih =>
    obtain ⟨first, others⟩ := List.forall_mem_cons.mp held
    rw [defineEntries]
    split
    · exact ih consistent others
    · rename_i site sited
      have siteHeld : catalog.Holds site.target := first _ (sited_of_site? sited)
      obtain ⟨children, copied⟩ := extensionOf_spec consistent siteHeld
      rw [ends_bind, ends_get]
      rcases pair : catalog.extensionOf site with ⟨definition, origin⟩
      rw [pair] at children copied
      simp only [ends_bind]
      refine (ends_defineProvisional (labelled definition _ source) origin children copied).mono
        (fun id middle step => ?_) ?_
      · refine (ih (step.consistent consistent) fun other member slot within =>
          step.holds (others other member slot within)).mono (fun _ _ more => ?_) fun _ more => ?_
        · exact Relation.ReflTransGen.head step more
        · exact Relation.ReflTransGen.head step more
      · rintro _ rfl
        exact .refl

/-- A text of definitions is read as a whole before the first of its names is defined. -/
theorem ends_loadExtension (consistent : catalog.Consistent) (text : String)
    (source : Option String) :
    Ends (loadExtension text source) catalog
      (fun _ after => ∃ read, Growth catalog.arena.size catalog read ∧ Naming read after)
      fun after => ∃ read, Growth catalog.arena.size catalog read ∧ Naming read after := by
  rw [loadExtension, ends_bind]
  refine (ends_parseEntries catalog.underway_size _ text).mono (fun entries read grown => ?_)
    fun after grown => ⟨after, grown, .refl⟩
  exact (ends_defineEntries source entries (grown.1.consistent consistent)
    fun entry member slot within => (grown.2 entry member slot within).2).mono
      (fun _ _ naming => ⟨read, grown.1, naming⟩) fun _ naming => ⟨read, grown.1, naming⟩

/-! ## Spellings -/

theorem ends_addAlias (spelling target : String) :
    Ends (addAlias spelling target) catalog (fun _ => NamingStep catalog) (· = catalog) := by
  simp only [addAlias, ends_bind, ends_get]
  refine ends_ite (fun _ => rfl) fun unknown => ?_
  cases called : AliasTable.enter spelling target catalog.aliases with
  | error error aliases =>
    have same := (AliasTable.ends_enter spelling target catalog.aliases).of_error called
    subst same
    exact rfl
  | ok done aliases =>
    exact NamingStep.respell (by simpa using unknown) (AliasTable.add_eq_ok_iff.mpr called)

theorem consistent_of_empty {start : Catalog} (arena : start.arena = #[])
    (canonical : start.canonical = .empty) (provisional : start.provisional = .empty)
    (pending : start.pending = .empty) (forward : start.forward = .empty)
    (flat : start.aliases.Flat) : start.Consistent := by
  have unknown : ∀ name, start.known? name = none := by simp [known?, canonical, provisional]
  have none : ∀ id, ¬start.Holds id := by simp [Holds, arena]
  refine ⟨flat, ?_, ?_, ?_, ?_, ?_, ?_, ?_, ?_, ?_⟩
  · simp [canonical, OrderedMap.empty, OrderedMap.keys]
  · simp [pending, OrderedMap.empty, OrderedMap.keys]
  · simp [canonical]
  · simp [unknown]
  · simp [Catalog.isKnown, unknown]
  · exact fun id held => absurd held (none id)
  · simp [pending, OrderedMap.empty]
  · simp [forward]
  · exact fun id held => absurd held (none id)

/-- The catalog with the settings of a configuration, before its spellings are added. -/
def fresh (config : Config) : Catalog :=
  { empty with marker := config.marker, customTypes := config.customTypes }

theorem consistent_fresh (config : Config) : (fresh config).Consistent :=
  consistent_of_empty rfl rfl rfl rfl rfl AliasTable.flat_builtin

/-- A configuration gives spellings to a fresh catalog. -/
theorem naming_ofConfig {config : Config} {start : Catalog}
    (made : ofConfig config = .ok start) : Naming (fresh config) start := by
  have step (entry : String × String) (state : Catalog) (naming : Naming (fresh config) state) :
      Ends (addAlias entry.1 entry.2) state (fun _ => Naming (fresh config)) fun _ => True :=
    (ends_addAlias entry.1 entry.2).mono (fun _ _ change => naming.tail change) fun _ _ => trivial
  have fill (entries : List (String × String)) :=
    ends_forM _ _ _ entries (fun entry _ => step entry) (fresh config) .refl
  unfold ofConfig at made
  dsimp only at made
  split at made
  · rename_i filled
    cases made
    exact (fill _).of_ok filled
  · cases made

end DocShapes.Catalog
