import DocShapes.Proofs.Growth
import DocShapes.Proofs.Reading

/-! # Reading specs grows a catalog

Every definition that a spec makes is new, and is made of new ones only.
-/

namespace DocShapes.Catalog

variable {base : Nat} {catalog : Catalog}

/-! ## Names -/

theorem isKnown_of_meaning_registered {name : String} {kind : Base}
    (meaning : catalog.meaning name = .registered kind) : catalog.isKnown name = true := by
  unfold Catalog.meaning at meaning
  split at meaning
  · cases meaning
  · split at meaning
    · rename_i found
      simp [isKnown, found]
    · split at meaning <;> cases meaning

theorem not_isKnown_of_meaning_custom {name : String}
    (meaning : catalog.meaning name = .custom) : catalog.isKnown name = false := by
  unfold Catalog.meaning at meaning
  split at meaning
  · cases meaning
  · split at meaning
    · cases meaning
    · rename_i found
      simp [isKnown, found]

theorem holdsFrom_next (start : base ≤ catalog.arena.size) (definition : Definition) :
    (catalog.push definition).HoldsFrom base catalog.next :=
  ⟨start, by simp⟩

theorem ends_elaborateName (start : base ≤ catalog.arena.size) (word : String) :
    Ends (elaborateName (catalog.resolveAlias word)) catalog
      (fun id after => Growth base catalog after ∧ after.HoldsFrom base id) fun _ => False := by
  have known {kind : Base} (meaning : catalog.meaning (catalog.resolveAlias word) = .registered kind)
      {shape : Shape} (empty : shape = .record (catalog.resolveAlias word) [] ∨
        shape = .extension (catalog.resolveAlias word) none) :
      GrowthStep base catalog (catalog.push (.ofShape shape)) :=
    .mention (isKnown_of_meaning_registered meaning) empty
  have unknown : GrowthStep base catalog
      (catalog.push (.ofShape (.unknown (catalog.resolveAlias word)))) :=
    .node rfl (Shape.fieldsDistinct_of_sites_eq_nil rfl) (by simp [Shape.children, Shape.slots])
  simp only [elaborateName, ends_bind, ends_get]
  split
  · rename_i meaning
    rw [ends_allocate]
    exact ⟨.single (known meaning (.inr rfl)), holdsFrom_next start _⟩
  · rename_i meaning
    rw [ends_allocate]
    exact ⟨.single (known meaning (.inl rfl)), holdsFrom_next start _⟩
  · rename_i meaning
    have new := not_isKnown_of_meaning_custom meaning
    have step : GrowthStep base catalog _ := @GrowthStep.introduce _ _ word _ rfl new
    simp only [ends_bind, ends_allocate, ensureProvisional, ends_get, ends_pure, setProvisional]
    simp only [isKnown, known?_push] at new ⊢
    simp only [new, Bool.false_eq_true, if_false, ends_modify]
    exact ⟨.single step, holdsFrom_next start _⟩
  · rw [ends_allocate]
    exact ⟨.single unknown, holdsFrom_next start _⟩

/-! ## Specs -/

/-- One more definition without a name, made of ids that are there. -/
theorem ends_allocate_unnamed {shape : Shape} {before : Catalog}
    (start : base ≤ before.arena.size) (growth : Growth base before catalog)
    (unnamed : shape.isNamed = false) (distinct : shape.FieldsDistinct)
    (children : ∀ child ∈ shape.children, catalog.HoldsFrom base child) :
    Ends (allocate (.ofShape shape)) catalog
      (fun id after => Growth base before after ∧ after.HoldsFrom base id) fun _ => False := by
  rw [ends_allocate]
  exact ⟨growth.tail (.node unnamed distinct children),
    holdsFrom_next (Nat.le_trans start growth.size_le) _⟩

mutual

theorem ends_elaborate (spec : Spec) {catalog : Catalog} (start : base ≤ catalog.arena.size)
    (canonical : spec.Canonical catalog.aliases) :
    Ends (elaborate spec) catalog
      (fun id after => Growth base catalog after ∧ after.HoldsFrom base id) fun _ => False := by
  cases spec with
  | named name =>
    obtain ⟨_, word, _, rfl⟩ := canonical
    exact ends_elaborateName start word
  | listOf item =>
    rw [elaborate, ends_bind]
    refine (ends_elaborate item start canonical).imp fun id after found => ?_
    exact ends_allocate_unnamed start found.1 rfl (Shape.fieldsDistinct_of_sites_eq_nil rfl)
      (by simpa [Shape.children, Shape.slots, Slot.target] using found.2)
  | referenceTo target =>
    rw [elaborate, ends_bind]
    refine (ends_elaborate target start canonical).imp fun id after found => ?_
    exact ends_allocate_unnamed start found.1 rfl (Shape.fieldsDistinct_of_sites_eq_nil rfl)
      (by simpa [Shape.children, Shape.slots, Slot.target] using found.2)
  | sequence connective items =>
    rw [elaborate, ends_bind]
    refine (ends_elaborateEach items start canonical.2).imp fun ids after found => ?_
    exact ends_allocate_unnamed start found.1 rfl (Shape.fieldsDistinct_of_sites_eq_nil rfl)
      (by simpa [Shape.children, Shape.slots, Slot.target] using found.2)
  | _ =>
    exact ends_allocate_unnamed start .refl rfl (Shape.fieldsDistinct_of_sites_eq_nil rfl)
      (by simp [Shape.children, Shape.slots])

theorem ends_elaborateEach (specs : List Spec) {catalog : Catalog}
    (start : base ≤ catalog.arena.size) (canonical : Spec.Canonical.each catalog.aliases specs) :
    Ends (elaborate.elaborateEach specs) catalog
      (fun ids after => Growth base catalog after ∧ ∀ id ∈ ids, after.HoldsFrom base id)
      fun _ => False := by
  cases specs with
  | nil => exact ⟨.refl, by simp⟩
  | cons spec rest =>
    rw [elaborate.elaborateEach, ends_bind]
    refine (ends_elaborate spec start canonical.1).imp fun first middle found => ?_
    have restCanonical : Spec.Canonical.each middle.aliases rest := by
      rw [found.1.untouched.aliases]
      exact canonical.2
    rw [ends_bind]
    refine (ends_elaborateEach rest (Nat.le_trans start found.1.size_le) restCanonical).imp
      fun others after foundOthers => ?_
    exact ⟨found.1.trans foundOthers.1, List.forall_mem_cons.mpr
      ⟨foundOthers.1.holdsFrom found.2, foundOthers.2⟩⟩

end

/-! ## Texts -/

/-- What a reading gives, or the definitions of the specs that it completed. -/
theorem ends_accept {α : Type} {reading : Spec.Reading α} {done : α → Prop}
    (start : base ≤ catalog.arena.size)
    (reads : Spec.Reads (Spec.Canonical catalog.aliases) reading done) :
    Ends (accept reading) catalog (fun found after => after = catalog ∧ done found)
      (Growth base catalog) := by
  cases reading with
  | ok found => exact ⟨rfl, reads⟩
  | error rejection =>
    simp only [accept, ends_bind, ends_throw]
    exact (ends_elaborateEach rejection.completed start (Spec.canonical_each_iff.mpr reads)).mono
      (fun _ _ found => found.1) fun _ ended => ended.elim

theorem ends_parseType (start : base ≤ catalog.arena.size) (text : String) :
    Ends (parseType text) catalog
      (fun id after => Growth base catalog after ∧ after.HoldsFrom base id)
      (Growth base catalog) := by
  simp only [parseType, ends_bind, ends_get]
  refine (ends_accept start (Spec.reads_read catalog.words text)).mono ?_ fun _ grown => grown
  rintro spec _ ⟨rfl, canonical⟩
  exact (ends_elaborate spec start canonical).mono (fun _ _ found => found)
    fun _ ended => ended.elim

theorem ends_parseFront (start : base ≤ catalog.arena.size) (text : String) :
    Ends (parseFront text) catalog
      (fun found after => Growth base catalog after ∧ after.HoldsFrom base found.1)
      (Growth base catalog) := by
  simp only [parseFront, ends_bind, ends_get]
  refine (ends_accept start (Spec.reads_readFront catalog.words text)).mono ?_ fun _ grown => grown
  rintro ⟨spec, cursor⟩ _ ⟨rfl, canonical⟩
  exact (ends_elaborate spec start canonical).mono (fun _ _ found => found)
    fun _ ended => ended.elim

theorem ends_parseDeclaration (start : base ≤ catalog.arena.size) (text : String) :
    Ends (parseDeclaration text) catalog
      (fun found after => Growth base catalog after ∧ after.HoldsFrom base found.1)
      (Growth base catalog) := by
  simp only [parseDeclaration, ends_bind, ends_get]
  refine (ends_accept start (Spec.reads_readDeclaration catalog.words text)).mono ?_
    fun _ grown => grown
  rintro ⟨spec, qualifiers⟩ _ ⟨rfl, canonical, _⟩
  exact (ends_elaborate spec start canonical).mono (fun _ _ found => found)
    fun _ ended => ended.elim

end DocShapes.Catalog
