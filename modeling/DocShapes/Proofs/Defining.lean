import DocShapes.Proofs.Combining
import DocShapes.Proofs.Conservation
import DocShapes.Proofs.Registering

/-! # Texts define their names

A text of definitions is read as a block, and then its names are defined one by one. A definition
takes the place of one that says nothing or that it was made from, so that nothing that the block
has said is lost on the way (`Retains`). At the end each name leads to what its entry has declared
(`Consistent.loaded_means`). A lone type name is left to the reading of the block, which makes its
type the definition of the name only where it is the first type of this name.
-/

namespace DocShapes

/-! ## Definitions that say more -/

/-- A definition of the same name that says no less. What has no name stays as it is. -/
structure Definition.Kept (before after : Definition) : Prop where
  name : after.name = before.name
  named : after.isNamed = before.isNamed
  unnamed : before.isNamed = false → after = before
  shape : before.hasContent = true → after.shape = before.shape
  lines : Doc.visible before.doc ⊆ Doc.visible after.doc

namespace Definition

theorem Kept.refl (definition : Definition) : definition.Kept definition :=
  ⟨rfl, rfl, fun _ => rfl, fun _ => rfl, List.Subset.refl _⟩

theorem Kept.trans {first second third : Definition} (left : first.Kept second)
    (right : second.Kept third) : first.Kept third where
  name := right.name.trans left.name
  named := right.named.trans left.named
  unnamed unnamed := (right.unnamed (left.named.trans unnamed)).trans (left.unnamed unnamed)
  shape content := by
    have same := left.shape content
    refine (right.shape ?_).trans same
    rw [Definition.hasContent, same]
    exact content
  lines := List.Subset.trans left.lines right.lines

theorem Kept.sites {before after : Definition} (kept : before.Kept after) :
    before.shape.sites ⊆ after.shape.sites := by
  cases content : before.hasContent with
  | true => rw [kept.shape content]; exact List.Subset.refl _
  | false => rw [Shape.sites_eq_nil_of_not_hasContent content]; exact List.nil_subset _

/-- A definition that says nothing but its name gives way to any other one of the name. -/
theorem kept_of_isShell {before after : Definition} (shell : before.isShell = true)
    (beforeNamed : before.isNamed = true) (afterNamed : after.isNamed = true)
    (name : after.name = before.name) : before.Kept after := by
  obtain ⟨silent, bare⟩ := Bool.and_eq_true_iff.mp shell
  rw [Option.isNone_iff_eq_none] at silent
  refine ⟨name, afterNamed.trans beforeNamed.symm, by simp [beforeNamed], fun content => ?_, ?_⟩
  · simp [content] at bare
  · simp [silent]

end Definition

namespace Catalog

variable {catalog read before middle after : Catalog} {name : String}

theorem visible_doc_labelled (definition : Definition) (doc source : Option String) :
    Doc.visible (labelled definition doc source).doc =
      Doc.visible definition.doc ++ Doc.visible doc := by
  simp [labelled, Doc.visible_join]

theorem kept_labelled {definition : Definition} (named : definition.isNamed = true)
    (doc source : Option String) : definition.Kept (labelled definition doc source) where
  name := rfl
  named := rfl
  unnamed unnamed := by simp [named] at unnamed
  shape _ := rfl
  lines := by
    rw [visible_doc_labelled]
    exact List.subset_append_left _ _

/-! ## Catalogs that say more -/

/-- Every definition says no less, and every name without staged declarations has its definition
where it was. -/
structure Retains (before after : Catalog) : Prop where
  holds : ∀ id, before.Holds id → after.Holds id
  kept : ∀ id, before.Holds id → (before.definition id).Kept (after.definition id)
  pending : after.pending = before.pending
  names : ∀ name id, before.pending.get? name = none → before.provisional.get? name = some id →
    after.provisional.get? name = some id

theorem Retains.refl (catalog : Catalog) : catalog.Retains catalog :=
  ⟨fun _ held => held, fun _ _ => .refl _, rfl, fun _ _ _ found => found⟩

theorem Retains.trans (first : before.Retains middle) (second : middle.Retains after) :
    before.Retains after where
  holds id held := second.holds id (first.holds id held)
  kept id held := (first.kept id held).trans (second.kept id (first.holds id held))
  pending := second.pending.trans first.pending
  names name id unstaged found :=
    second.names name id (first.pending ▸ unstaged) (first.names name id unstaged found)

/-- A staged definition waits in the bucket of its name. -/
theorem Consistent.bucket_of_isStaged (consistent : catalog.Consistent) {id : TypeId}
    {name : String} (names : catalog.Names id name) (staged : catalog.isStaged id = true) :
    catalog.pending.get? name ≠ none := by
  obtain ⟨bucket, member, inside⟩ := List.any_eq_true.mp staged
  obtain ⟨⟨other, _⟩, entry, rfl⟩ := List.mem_map.mp member
  obtain ⟨declaration, within, same⟩ := List.any_eq_true.mp inside
  have own := (consistent.staged other _ entry).2 declaration within
  rw [of_decide_eq_true same] at own
  have same : other = name := own.same.symm.trans names.same
  rw [← same, OrderedMap.get?_of_mem_entries consistent.distinctStaged entry]
  simp

/-- A definition stands at the id that its name leads to, and nothing has been lost for it. -/
structure Defines (before : Catalog) (definition : Definition) (id : TypeId) (after : Catalog) :
    Prop where
  retains : before.Retains after
  found : after.provisional.get? definition.name = some id
  held : after.Holds id
  same : after.definition id = definition
  named : definition.isNamed = true

/-- A new definition; the one that its name has led to, if any, is staged. -/
theorem Consistent.defines_provide (consistent : catalog.Consistent) {definition : Definition}
    (registrable : catalog.Registrable definition)
    (displaced : ∀ present, catalog.provisional.get? definition.name = some present →
      catalog.isStaged present = true) :
    catalog.Defines definition catalog.next
      ((catalog.push definition).provide definition.name catalog.next) := by
  refine ⟨⟨fun id held => by simp [held], fun id held => ?_, rfl, fun name id unstaged found => ?_⟩,
    ?_, by simp, by simp [definition_push], registrable.named⟩
  · simpa [definition_push, ne_next_of_holds held] using Definition.Kept.refl _
  · have different : definition.name ≠ name := by
      rintro rfl
      have names := consistent.owned _ id (consistent.known?_of_provisional found)
      exact consistent.bucket_of_isStaged names (displaced id found) unstaged
    simpa [OrderedMap.get?_set, different] using found
  · simp [OrderedMap.get?_set]

/-- A definition in the place of one that says no more. -/
theorem Consistent.defines_put (consistent : catalog.Consistent) {definition : Definition}
    {id : TypeId} (registrable : catalog.Registrable definition)
    (present : catalog.provisional.get? definition.name = some id)
    (kept : (catalog.definition id).Kept definition) :
    catalog.Defines definition id (catalog.put id definition) := by
  have held := (consistent.owned _ id (consistent.known?_of_provisional present)).held
  refine ⟨⟨fun other held => by simpa using held, fun other _ => ?_, rfl, fun _ _ _ found => found⟩,
    present, by simpa using held, definition_put_self held definition, registrable.named⟩
  by_cases here : other = id
  · rw [here, definition_put_self held]
    exact kept
  · rw [definition_put_of_ne here]
    exact .refl _

theorem ends_defineProvisional_defines (consistent : catalog.Consistent) (definition : Definition)
    (doc source origin : Option _) (own : ∀ id ∈ origin, definition = catalog.definition id) :
    Ends (defineProvisional (labelled definition doc source) origin) catalog
      (fun id after => catalog.Defines (labelled definition doc source) id after)
      fun _ => True := by
  refine ends_registrable trivial fun registrable => ?_
  rw [ends_bind, ends_get]
  split
  · rename_i unknown
    simp only [ends_bind, ends_allocate, setProvisional, ends_modify]
    exact consistent.defines_provide registrable (by simp [unknown])
  · rename_i present found
    have names := consistent.owned _ present (consistent.known?_of_provisional found)
    refine ends_ite (fun replaceable => ?_) fun _ => ends_ite (fun staged => ?_) fun _ => trivial
    · have named : definition.isNamed = true := registrable.named
      refine consistent.defines_put registrable found ?_
      rcases Bool.or_eq_true_iff.mp replaceable with same | shell
      · rw [← own present (of_decide_eq_true same)]
        exact kept_labelled named doc source
      · exact Definition.kept_of_isShell shell names.named registrable.named names.same.symm
    · simp only [ends_bind, ends_allocate, setProvisional, ends_modify]
      refine consistent.defines_provide registrable fun other same => ?_
      cases found.symm.trans same
      exact staged

/-! ## What a slot defines -/

/-- The name that a slot of a text defines: the name of the slot, or that of its type. -/
def definedName (catalog : Catalog) (slot : Slot) : String :=
  slot.toSite.name.getD (catalog.definition slot.target).name

/-- The name comes to mean the type of the slot, which is a record without a name or has this name.
Around any other type there is an extension. -/
def Becomes (catalog : Catalog) (slot : Slot) : Prop :=
  ((catalog.definition slot.target).isNamed = true ∧
    (catalog.definition slot.target).name = catalog.definedName slot) ∨
  ∃ fields, catalog.shape slot.target = .anonymous fields

/-- The definition says what the slot has declared: it has the fields and the doc of the type of the
slot, or it is an extension around this type. -/
inductive Carries (read : Catalog) (slot : Slot) (definition : Definition) : Prop
  | itself (becomes : read.Becomes slot)
      (fields : (read.shape slot.target).sites ⊆ definition.shape.sites)
      (lines : Doc.visible (read.definition slot.target).doc ⊆ Doc.visible definition.doc)
  | around (other : ¬read.Becomes slot)
      (wraps : definition.shape = .extension (read.definedName slot) (some (.bare slot.target)))

theorem Carries.kept {slot : Slot} {definition further : Definition}
    (carries : read.Carries slot definition) (kept : definition.Kept further) :
    read.Carries slot further := by
  cases carries with
  | itself becomes fields lines =>
    exact .itself becomes (List.Subset.trans fields kept.sites) (List.Subset.trans lines kept.lines)
  | around other wraps =>
    refine .around other ((kept.shape ?_).trans wraps)
    rw [Definition.hasContent, wraps]
    rfl

/-- A definition that is made from another one is that one. -/
theorem extensionOf_origin (catalog : Catalog) (site : Site) :
    ∀ id ∈ (catalog.extensionOf site).2, (catalog.extensionOf site).1 = catalog.definition id := by
  have itself : ∀ id ∈ some site.target, catalog.definition site.target = catalog.definition id := by
    rintro _ ⟨⟩
    rfl
  unfold extensionOf
  split
  · exact itself
  · dsimp only
    split
    · exact itself
    · split <;> simp

/-- The type of a site that has the name of the site says what the site has declared. -/
theorem Retains.carries_target (retains : read.Retains catalog) {site : Site}
    (held : read.Holds site.target) (named : (catalog.definition site.target).isNamed = true)
    (name : (catalog.definition site.target).name = read.definedName (.sited site)) :
    read.Carries (.sited site) (catalog.definition site.target) := by
  have kept := retains.kept site.target held
  exact .itself (.inl ⟨kept.named ▸ named, kept.name.symm.trans name⟩) kept.sites kept.lines

/-- A record without a name is still what has been read. -/
theorem Retains.anonymous_eq (retains : read.Retains catalog) {id : TypeId} (held : read.Holds id)
    {fields : List Site} (anonymous : (catalog.definition id).shape = .anonymous fields) :
    read.shape id = .anonymous fields := by
  have kept := retains.kept id held
  have unnamed : (read.definition id).isNamed = false := by
    rw [← kept.named, Definition.isNamed, anonymous]
    rfl
  rw [Catalog.shape, ← kept.unnamed unnamed, anonymous]

/-- The definition that is made of a site has the name of the site, and says what the site has
declared. -/
theorem Retains.extensionOf (retains : read.Retains catalog) {site : Site}
    (held : read.Holds site.target) (named : (catalog.extensionOf site).1.isNamed = true) :
    (catalog.extensionOf site).1.name = read.definedName (.sited site) ∧
      read.Carries (.sited site) (catalog.extensionOf site).1 := by
  have kept := retains.kept site.target held
  unfold Catalog.extensionOf at named ⊢
  cases name : site.name with
  | none =>
    rw [name] at named
    have defined : (catalog.definition site.target).name = read.definedName (.sited site) := by
      rw [kept.name, definedName, Slot.toSite, name]
      rfl
    exact ⟨defined, retains.carries_target held named defined⟩
  | some name' =>
    have defined : name' = read.definedName (.sited site) := by
      rw [definedName, Slot.toSite, name]
      rfl
    subst defined
    dsimp only
    split
    · rename_i same
      obtain ⟨named, same⟩ := Bool.and_eq_true_iff.mp same
      have same := of_decide_eq_true same
      exact ⟨same, retains.carries_target held named same⟩
    · rename_i different
      split
      · rename_i fields anonymous
        have shape := retains.anonymous_eq held anonymous
        refine ⟨rfl, .itself (.inr ⟨fields, shape⟩) ?_ kept.lines⟩
        rw [Slot.target, shape]
        exact List.Subset.refl _
      · rename_i other
        refine ⟨rfl, .around ?_ rfl⟩
        rintro (⟨named, same⟩ | ⟨fields, anonymous⟩)
        · rw [Slot.target, ← kept.named] at named
          rw [Slot.target, ← kept.name] at same
          simp [named, same] at different
        · have unnamed : (read.definition site.target).isNamed = false := by
            rw [Definition.isNamed, show (read.definition site.target).shape = _ from anonymous]
            rfl
          refine other fields ?_
          rw [kept.unnamed unnamed]
          exact anonymous

/-! ## What an entry defines -/

/-- The id is that of a definition of the name of the slot, which says what the slot has declared,
and the doc of the slot with the prose in front of it. -/
structure Means (read : Catalog) (entry : Entry) (slot : Slot) (id : TypeId) (after : Catalog) :
    Prop where
  found : after.provisional.get? (read.definedName slot) = some id
  names : after.Names id (read.definedName slot)
  carries : read.Carries slot (after.definition id)
  lines : slot.docLines ⊆ Doc.visible (after.definition id).doc
  front : slot.site?.isSome = true → Doc.visible entry.doc ⊆ Doc.visible (after.definition id).doc

theorem Means.retained {entry : Entry} {slot : Slot} {id : TypeId}
    (means : read.Means entry slot id middle) (retains : middle.Retains after)
    (unstaged : middle.pending.get? (read.definedName slot) = none) :
    read.Means entry slot id after := by
  have kept := retains.kept id means.names.held
  exact ⟨retains.names _ id unstaged means.found,
    ⟨retains.holds id means.names.held, kept.named.trans means.names.named,
      kept.name.trans means.names.same⟩,
    means.carries.kept kept, List.Subset.trans means.lines kept.lines,
    fun sited => List.Subset.trans (means.front sited) kept.lines⟩

/-- Defining the name of a site loses nothing, and the name comes to mean what the site has
declared. -/
theorem ends_defineSite (consistent : catalog.Consistent) (retains : read.Retains catalog)
    (source : Option String) (entry : Entry) {site : Site} (held : read.Holds site.target) :
    Ends (defineProvisional (labelled (catalog.extensionOf site).1 (Doc.join [entry.doc, site.doc])
        source) (catalog.extensionOf site).2) catalog
      (fun id after => catalog.Retains after ∧ after.Consistent ∧
        read.Means entry (.sited site) id after)
      fun _ => True := by
  obtain ⟨children, copied⟩ := extensionOf_spec consistent (retains.holds _ held)
  have own := extensionOf_origin catalog site
  have made := @Retains.extensionOf _ _ retains _ held
  generalize catalog.extensionOf site = pair at children copied own made
  obtain ⟨definition, origin⟩ := pair
  have step := ends_defineProvisional (labelled definition (Doc.join [entry.doc, site.doc])
    source) origin children copied
  refine ((ends_defineProvisional_defines consistent definition _ source origin own).and
    step).mono (fun id after defines => ?_) fun _ _ => trivial
  obtain ⟨defines, step⟩ := defines
  refine ⟨defines.retains, step.consistent consistent, ?_⟩
  have named : definition.isNamed = true := defines.named
  obtain ⟨name, carries⟩ := made named
  have said := visible_doc_labelled definition (Doc.join [entry.doc, site.doc]) source
  rw [Doc.visible_join] at said
  refine ⟨name ▸ defines.found, ⟨defines.held, ?_, ?_⟩, ?_, ?_, fun _ => ?_⟩
  · rw [defines.same]
    exact named
  · rw [defines.same]
    exact name
  · rw [defines.same]
    exact carries.kept (kept_labelled named _ source)
  · rw [defines.same, said]
    simp [Slot.docLines, Slot.toSite]
  · rw [defines.same, said]
    simp

/-- Defining the names of entries one by one loses nothing, and each name comes to mean what its
site has declared. -/
theorem ends_defineEntries_means (source : Option String) {entries : List Entry}
    (consistent : catalog.Consistent) (retains : read.Retains catalog)
    (held : ∀ entry ∈ entries, ∀ slot ∈ entry.slot, read.Holds slot.target) :
    Ends (defineEntries source entries) catalog
      (fun _ after => catalog.Retains after ∧
        ∀ entry ∈ entries, ∀ site, entry.slot = some (.sited site) →
          read.pending.get? (read.definedName (.sited site)) = none →
          ∃ id, read.Means entry (.sited site) id after)
      fun _ => True := by
  induction entries generalizing catalog with
  | nil => exact ⟨.refl catalog, by simp⟩
  | cons entry rest ih =>
    obtain ⟨first, others⟩ := List.forall_mem_cons.mp held
    rw [defineEntries]
    split
    · rename_i bare
      refine (ih consistent retains others).imp fun _ after means => ⟨means.1, ?_⟩
      refine List.forall_mem_cons.mpr ⟨fun site sited => ?_, means.2⟩
      simp [sited, Slot.site?] at bare
    · rename_i site sited
      have sited := sited_of_site? sited
      simp only [ends_bind, ends_get]
      refine (ends_defineSite consistent retains source entry (first _ sited)).imp
        fun id middle defined => ?_
      obtain ⟨step, sound, means⟩ := defined
      refine (ih sound (retains.trans step) others).imp fun _ after later =>
        ⟨step.trans later.1, ?_⟩
      refine List.forall_mem_cons.mpr ⟨fun other same unstaged => ?_, later.2⟩
      obtain rfl : site = other := by simpa [sited] using same
      refine ⟨id, means.retained later.1 ?_⟩
      rw [(retains.trans step).pending]
      exact unstaged

/-! ## First mentions -/

/-- If the name is provisional, it leads to the first definition that has it. -/
def LeadsFirst (catalog : Catalog) (name : String) : Prop :=
  ∀ id, catalog.provisional.get? name = some id →
    ∀ other, catalog.Names other name → id.index ≤ other.index

theorem names_push {definition : Definition} {id : TypeId} {name : String}
    (names : (catalog.push definition).Names id name) :
    catalog.Names id name ∨
      id = catalog.next ∧ definition.isNamed = true ∧ definition.name = name := by
  by_cases new : id = catalog.next
  · refine .inr ⟨new, ?_, ?_⟩
    · simpa [definition_push, new] using names.named
    · simpa [definition_push, new] using names.same
  · refine .inl ⟨by simpa [new] using names.held, ?_, ?_⟩
    · simpa [definition_push, new] using names.named
    · simpa [definition_push, new] using names.same

theorem names_put {id other : TypeId} {definition : Definition}
    (names : (catalog.put id definition).Names other name)
    (sameKind : definition.isNamed = (catalog.definition id).isNamed)
    (sameName : definition.name = (catalog.definition id).name) : catalog.Names other name := by
  have held : catalog.Holds other := by simpa using names.held
  by_cases here : other = id
  · subst here
    have own := definition_put_self held definition
    exact ⟨held, sameKind ▸ own ▸ names.named, sameName ▸ own ▸ names.same⟩
  · have own : (catalog.put id definition).definition other = catalog.definition other :=
      definition_put_of_ne here definition
    exact ⟨held, own ▸ names.named, own ▸ names.same⟩

theorem LeadsFirst.push (leads : catalog.LeadsFirst name) (consistent : catalog.Consistent)
    (definition : Definition) : (catalog.push definition).LeadsFirst name := by
  intro id found other names
  rcases names_push names with old | ⟨rfl, _⟩
  · exact leads id found other old
  · exact Nat.le_of_lt (consistent.owned name id (consistent.known?_of_provisional found)).held

theorem LeadsFirst.put (leads : catalog.LeadsFirst name) {id : TypeId} {definition : Definition}
    (sameKind : definition.isNamed = (catalog.definition id).isNamed)
    (sameName : definition.name = (catalog.definition id).name) :
    (catalog.put id definition).LeadsFirst name := fun first found other names =>
  leads first found other (names_put names sameKind sameName)

theorem GrowthStep.leadsFirst {base : Nat} (step : GrowthStep base before after)
    (consistent : before.Consistent) (leads : before.LeadsFirst name) : after.LeadsFirst name := by
  cases step with
  | node | mention => exact leads.push consistent _
  | @introduce word own resolved unknown =>
    intro id found other names
    rcases names_push (names.of_arena rfl) with old | ⟨rfl, _, same⟩
    · by_cases same : own = name
      · -- Nothing has had the name so far.
        have known := consistent.named other old.held old.named
        rw [old.same, ← same, unknown] at known
        cases known
      · exact leads id (by simpa [OrderedMap.get?_set, same] using found) other old
    · obtain rfl : own = name := same
      simp [OrderedMap.get?_set] at found
      exact Nat.le_of_eq (congrArg TypeId.index found.symm)
  | append _ _ _ _ _ appended =>
    obtain ⟨shape, _, rfl, grown, _⟩ := appended
    exact leads.put grown.isNamed grown.name
  | document => exact leads.put rfl rfl
  | enlist => exact fun id found other names => leads id found other (names.of_arena rfl)

theorem Growth.leadsFirst {base : Nat} (growth : Growth base before after)
    (consistent : before.Consistent) (leads : before.LeadsFirst name) : after.LeadsFirst name := by
  induction growth with
  | refl => exact leads
  | tail grown step ih => exact step.leadsFirst (Growth.consistent grown consistent) ih

/-! ## Texts -/

/-- What the slot has declared is left to its name: the slot is a site, or its type is the first
definition that has the name. -/
def Registers (catalog : Catalog) : Slot → Prop
  | .sited _ => True
  | .bare id => (catalog.definition id).isNamed = true ∧
      ∀ other, catalog.Names other (catalog.definition id).name → id.index ≤ other.index

instance (catalog : Catalog) : (slot : Slot) → Decidable (catalog.Registers slot)
  | .sited _ => .isTrue trivial
  | .bare id => decidable_of_iff
      ((catalog.definition id).isNamed = true ∧ ∀ index < catalog.arena.size,
        (catalog.definition ⟨index⟩).isNamed = true →
        (catalog.definition ⟨index⟩).name = (catalog.definition id).name → id.index ≤ index)
      ⟨fun first => ⟨first.1, fun other names =>
          first.2 other.index names.held names.named names.same⟩,
        fun first => ⟨first.1, fun index held named same => first.2 ⟨index⟩ ⟨held, named, same⟩⟩⟩

/-- The type of a bare slot that comes first is the definition of its name once a block is read. -/
theorem Growth.registered (growth : Growth before.arena.size before after)
    (consistent : before.Consistent) {id : TypeId} (own : after.HoldsFrom before.arena.size id)
    (registers : after.Registers (.bare id)) :
    after.provisional.get? (after.definition id).name = some id := by
  obtain ⟨named, first⟩ := registers
  have sound := growth.consistent consistent
  -- A definition of the name from before the block would come first.
  have unknown : before.known? (after.definition id).name = none := by
    refine Option.eq_none_iff_forall_ne_some.mpr fun other found => ?_
    have names := consistent.owned _ other found
    have same := growth.definition_eq (Nat.le_refl _) names.held
    have later := first other ⟨growth.holds names.held, same ▸ names.named, same ▸ names.same⟩
    exact absurd (Nat.lt_of_le_of_lt later names.held) (Nat.not_lt_of_le own.1)
  have leads : after.LeadsFirst (after.definition id).name := by
    refine growth.leadsFirst consistent fun other found => ?_
    simp [consistent.known?_of_provisional found] at unknown
  obtain ⟨other, found⟩ := (isKnown_iff _ _).mp (sound.named id own.2 named)
  rcases canonical_or_provisional_of_known? found with canonical | provisional
  · rw [growth.untouched.canonical] at canonical
    simp [known?_of_canonical canonical] at unknown
  · have names := sound.owned _ other found
    have same : other.index = id.index :=
      Nat.le_antisymm (leads other provisional id ⟨own.2, named, rfl⟩) (first other names)
    rw [provisional]
    exact congrArg some (congrArg TypeId.mk same)

/-- The type of such a slot is what its name means. -/
theorem means_of_registered {entry : Entry} {id : TypeId} (held : read.Holds id)
    (named : (read.definition id).isNamed = true)
    (found : read.provisional.get? (read.definition id).name = some id) :
    read.Means entry (.bare id) id read where
  found := found
  names := ⟨held, named, rfl⟩
  carries := .itself (.inl ⟨named, rfl⟩) (List.Subset.refl _) (List.Subset.refl _)
  lines := List.nil_subset _
  front sited := by cases sited

/-- A text of definitions is read as a block before its names are defined. -/
theorem exists_of_loadExtension {text : String} {source : Option String} {ids : List TypeId}
    (loaded : loadExtension text source catalog = .ok ids after) :
    ∃ entries read, parseEntries ⟨none, true⟩ text catalog = .ok entries read ∧
      defineEntries source entries read = .ok ids after := by
  simp only [loadExtension, bind, EStateM.bind] at loaded
  split at loaded
  · exact ⟨_, _, ‹_›, loaded⟩
  · cases loaded

/-- A text of definitions that is accepted is a block, and nothing that the block says is lost when
its names are defined. Afterwards a name without staged declarations leads to a type with the fields
and the doc lines that an entry has declared for it, or to an extension around the type that the
entry has declared, with its doc lines. For a lone type name without a doc of its own this holds if
it is the first mention of the name. -/
theorem Consistent.loaded_means (consistent : catalog.Consistent) {text : String}
    {source : Option String} {ids : List TypeId}
    (loaded : loadExtension text source catalog = .ok ids after) :
    ∃ entries read, parseEntries ⟨none, true⟩ text catalog = .ok entries read ∧
      read.Tells (catalog.layout true text) entries ∧ read.Retains after ∧
      ∀ entry ∈ entries, ∀ slot ∈ entry.slot, read.Registers slot →
        catalog.pending.get? (read.definedName slot) = none →
        ∃ id, after.provisional? (read.definedName slot) = some id ∧
          read.Means entry slot id after := by
  obtain ⟨entries, read, parsed, defined⟩ := exists_of_loadExtension loaded
  have drawn := consistent.drawn_parseEntries parsed
  obtain ⟨growth, owned⟩ :=
    (ends_parseEntries catalog.underway_size ⟨none, true⟩ text).of_ok parsed
  have gains := ((ends_allEntries_gains (fills_feedWithin _) true
    (Outline.tidy_of_mem_ofText text)).of_ok parsed).1
  have sound := growth.consistent consistent
  obtain ⟨retains, means⟩ := (ends_defineEntries_means source sound (.refl read)
    fun entry member slot within => (owned entry member slot within).2).of_ok defined
  obtain ⟨_, grown, naming⟩ := (ends_loadExtension consistent text source).of_ok loaded
  have final : after.Consistent := naming.consistent (grown.consistent consistent)
  refine ⟨entries, read, parsed, drawn.tells, retains,
    fun entry member slot within registers unstaged => ?_⟩
  rw [← gains.pending] at unstaged
  obtain ⟨id, means⟩ : ∃ id, read.Means entry slot id after := by
    cases slot with
    | sited site => exact means entry member site within unstaged
    | bare id =>
      have own := owned entry member _ within
      exact ⟨id, (means_of_registered own.2 registers.1
        (growth.registered consistent own registers)).retained retains unstaged⟩
  refine ⟨id, ?_, means⟩
  have known : after.isKnown (read.definedName slot) = true :=
    (isKnown_iff _ _).mpr ⟨id, final.known?_of_provisional means.found⟩
  rw [provisional?, resolveAlias, AliasTable.resolve_of_not_isSpelling (final.unspelled _ known)]
  exact means.found

/-- A lone name that comes first, a record with a mention of it, and a name for a scalar. -/
def kindsText : String :=
  "Pet\n    Wags.\n    name : str\n\nOwner : record\n    pet : Pet\n\nTag : string\n    Short."

theorem loaded_means_kindsText :
    ∃ entries read ids after, parseEntries ⟨none, true⟩ kindsText empty = .ok entries read ∧
      loadExtension kindsText none empty = .ok ids after ∧
      (entries.filterMap Entry.slot).map read.definedName = ["Pet", "Owner", "Tag"] ∧
      ∀ entry ∈ entries, ∀ slot ∈ entry.slot,
        ∃ id, after.provisional? (read.definedName slot) = some id ∧
          read.Means entry slot id after := by
  let reading := parseEntries ⟨none, true⟩ kindsText
  let read := leaves reading empty
  have reads : succeedsWith (fun entries =>
      (entries.filterMap Entry.slot).map read.definedName == ["Pet", "Owner", "Tag"] &&
        entries.all fun entry => entry.slot.all fun slot => decide (read.Registers slot))
      reading empty = true := by decide +kernel
  have loads : succeeds (loadExtension kindsText none) empty = true := by decide +kernel
  obtain ⟨entries, parsed, named⟩ := eq_ok_of_succeedsWith reads
  obtain ⟨ids, loaded⟩ := eq_ok_of_succeeds loads
  obtain ⟨named, registers⟩ := Bool.and_eq_true_iff.mp named
  have consistent : empty.Consistent := consistent_fresh .standard
  obtain ⟨others, state, same, _, _, means⟩ := consistent.loaded_means loaded
  obtain ⟨rfl, rfl⟩ := EStateM.Result.ok.inj (parsed.symm.trans same)
  refine ⟨entries, read, ids, _, parsed, loaded, beq_iff_eq.mp named,
    fun entry member slot within => means entry member slot within ?_ rfl⟩
  have all := List.all_eq_true.mp registers entry member
  rw [Option.mem_def.mp within] at all
  exact of_decide_eq_true all

/-- A mention in front of a lone name keeps the name: what the lone name declares is left out. -/
def mentionedText : String :=
  "Owner : record\n    pet : Pet\n\nPet\n    Wags.\n    name : str\n"

theorem shell_left_mentionedText :
    ∃ entries read ids after, parseEntries ⟨none, true⟩ mentionedText empty = .ok entries read ∧
      loadExtension mentionedText none empty = .ok ids after ∧
      (∃ slot ∈ entries.filterMap Entry.slot, read.definedName slot = "Pet" ∧
        (read.shape slot.target).sites.map Site.name = [some "name"] ∧
        (read.definition slot.target).doc = some "Wags.") ∧
      ∃ id, after.provisional? "Pet" = some id ∧ (after.definition id).isShell = true := by
  let reading := parseEntries ⟨none, true⟩ mentionedText
  let read := leaves reading empty
  let loading := loadExtension mentionedText none
  let after := leaves loading empty
  have reads : succeedsWith (fun entries => (entries.filterMap Entry.slot).any fun slot =>
      read.definedName slot == "Pet" &&
        (read.shape slot.target).sites.map Site.name == [some "name"] &&
        (read.definition slot.target).doc == some "Wags.") reading empty = true := by
    decide +kernel
  have loads : succeeds loading empty = true := by decide +kernel
  have shell : (after.provisional? "Pet").any (fun id => (after.definition id).isShell) = true := by
    decide +kernel
  obtain ⟨entries, parsed, declared⟩ := eq_ok_of_succeedsWith reads
  obtain ⟨ids, loaded⟩ := eq_ok_of_succeeds loads
  obtain ⟨slot, member, content⟩ := List.any_eq_true.mp declared
  obtain ⟨id, found, shell⟩ := (Option.any_eq_true _ _).mp shell
  simp only [Bool.and_eq_true, beq_iff_eq, and_assoc] at content
  exact ⟨entries, read, ids, after, parsed, loaded, ⟨slot, member, content⟩, id, found, shell⟩

end Catalog

end DocShapes
