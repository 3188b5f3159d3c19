import DocShapes.Proofs.Runs

/-! # Declared fields outlast everything but a registration in their place

A merge gives a canonical definition the fields that its name has been offered until then. No
reading, no new name and no settling takes a field from a definition or a declaration out of its
bucket, so a declared field is still there when its name is merged, unless `register` has put
another definition in the place of the declaration.
-/

namespace DocShapes

/-! ## Shapes -/

namespace Shape

theorem names_zipWith_land {fields : List Site} {landings : List Landing}
    (length : landings.length = fields.length) :
    (fields.zipWith Site.land landings).map Site.name = fields.map Site.name := by
  induction fields generalizing landings with
  | nil => simp
  | cons first rest ih =>
    cases landings with
    | nil => cases length
    | cons landing others =>
      rw [List.zipWith_cons_cons, List.map_cons, ih (by simpa using length)]
      rfl

theorem hasField_iff_names {shape : Shape} {field : String} :
    shape.HasField field ↔ ∃ name ∈ shape.sites.map Site.name, name.getD "" = field := by
  simp [HasField]

theorem hasField_relink {shape : Shape} {landings : List Landing} {field : String}
    (length : landings.length = shape.slots.length) :
    (shape.relink landings).HasField field ↔ shape.HasField field := by
  have names : (shape.relink landings).sites.map Site.name = shape.sites.map Site.name := by
    cases shape with
    | anonymous fields => exact names_zipWith_land (by simpa [slots] using length)
    | record _ fields => exact names_zipWith_land (by simpa [slots] using length)
    | _ => rfl
  rw [hasField_iff_names, hasField_iff_names, names]

end Shape

namespace Catalog

variable {before after : Catalog} {id : TypeId} {field name : String} {declared : Shape}

/-! ## Single changes -/

theorem GrowthStep.hasField {base : Nat} (step : GrowthStep base before after)
    (held : before.Holds id) (has : (before.shape id).HasField field) :
    (after.shape id).HasField field := by
  have notNext := ne_next_of_holds held
  cases step with
  | node | mention | introduce => simpa [Catalog.shape, definition_push, notNext] using has
  | @append target cut given definition _ _ _ _ _ appended =>
    obtain ⟨shape, extra, rfl, grown, _⟩ := appended
    rw [Catalog.shape, definition_put]
    split
    · rename_i same
      exact grown.hasField (same.1 ▸ has)
    · exact has
  | @document target =>
    rw [Catalog.shape, definition_put]
    split
    · rename_i same
      rw [same.1] at has
      exact has
    · exact has
  | enlist => exact has

theorem NamingStep.hasField (step : NamingStep before after)
    (held : before.Holds id) (has : (before.shape id).HasField field) :
    (after.shape id).HasField field := by
  have notNext := ne_next_of_holds held
  cases step with
  | provide | establish => simpa [Catalog.shape, definition_push, notNext] using has
  | @redefine target definition _ _ _ replaceable =>
    rw [Catalog.shape, definition_put]
    split
    · rename_i same
      rw [same.1] at has
      rcases replaceable with shell | sameShape
      · exact absurd has (not_hasField_of_isShell shell)
      · rwa [sameShape]
    · exact has
  | respell => exact has

theorem Replaced.hasField {definition : Definition} {target : TypeId}
    (replaced : Replaced definition target before after) (other : target ≠ id)
    (has : (before.shape id).HasField field) : (after.shape id).HasField field := by
  obtain ⟨_, _, _, rfl⟩ := replaced
  simpa [Catalog.shape, definition_put, other.symm] using has

theorem SettlingStep.hasField (step : SettlingStep before after) :
    (after.shape id).HasField field ↔ (before.shape id).HasField field := by
  cases step with
  | promote | withdraw => exact Iff.rfl
  | @relink target landings _ leads =>
    rw [Catalog.shape, definition_put]
    split
    · rename_i same
      rw [same.1]
      exact Shape.hasField_relink (length_of_leads leads)
    · exact Iff.rfl

theorem Settling.hasField (settling : Settling before after) :
    (after.shape id).HasField field ↔ (before.shape id).HasField field := by
  induction settling with
  | refl => exact Iff.rfl
  | tail _ step ih => exact step.hasField.trans ih

/-- The declarations in the bucket of a name. -/
def bucket (catalog : Catalog) (name : String) : List Declaration :=
  (catalog.pending.get? name).getD []

theorem GrowthStep.staged {base : Nat} {declaration : Declaration}
    (step : GrowthStep base before after) (member : declaration ∈ before.bucket name) :
    declaration ∈ after.bucket name := by
  cases step with
  | @enlist other =>
    rw [bucket, enlist_pending, OrderedMap.get?_set]
    split
    · rename_i same
      subst same
      exact List.mem_append_left _ member
    · exact member
  | _ => exact member

/-- The definitions of a reading have named fields with distinct names. -/
theorem GrowthStep.fieldsDistinct {base : Nat} (step : GrowthStep base before after)
    (distinct : ∀ id, before.HoldsFrom base id → (before.shape id).FieldsDistinct) :
    ∀ id, after.HoldsFrom base id → (after.shape id).FieldsDistinct := by
  intro id held
  have old (notNext : id ≠ before.next) (pushed : before.Holds id ∨ id = before.next) :
      before.HoldsFrom base id := ⟨held.1, pushed.resolve_right notNext⟩
  cases step with
  | node _ fresh =>
    simp only [Catalog.shape, definition_push]
    split
    · exact fresh
    · rename_i notNext
      exact distinct id (old notNext (by simpa using held.2))
  | mention _ empty =>
    simp only [Catalog.shape, definition_push]
    split
    · rcases empty with rfl | rfl <;> exact Shape.fieldsDistinct_of_sites_eq_nil rfl
    · rename_i notNext
      exact distinct id (old notNext (by simpa using held.2))
  | introduce =>
    simp only [Catalog.shape, definition_provide, definition_push]
    split
    · exact Shape.fieldsDistinct_of_sites_eq_nil rfl
    · rename_i notNext
      exact distinct id (old notNext (by simpa using held.2))
  | @append target cut given definition own earlier within _ _ appended =>
    obtain ⟨shape, extra, rfl, grown, _⟩ := appended
    simp only [Catalog.shape, definition_put]
    split
    · exact grown.fields (distinct target ⟨own, Nat.lt_of_lt_of_le earlier within⟩)
    · exact distinct id ⟨held.1, by simpa using held.2⟩
  | @document target _ own =>
    simp only [Catalog.shape, definition_put]
    split
    · exact distinct target own
    · exact distinct id ⟨held.1, by simpa using held.2⟩
  | enlist => exact distinct id ⟨held.1, by simpa using held.2⟩

theorem Growth.fieldsDistinct {base : Nat} (growth : Growth base before after)
    (start : before.arena.size ≤ base) :
    ∀ id, after.HoldsFrom base id → (after.shape id).FieldsDistinct := by
  induction growth with
  | refl =>
    exact fun id held => absurd held.2 (Nat.not_lt_of_le (Nat.le_trans start held.1))
  | tail _ step ih => exact step.fieldsDistinct ih

/-! ## Changes without a merge -/

/-- A single change of an operation that does not merge, and registers types only in the given
places. -/
inductive QuietChange (places : TypeId → Prop) (before after : Catalog) : Prop
  | growth {base : Nat} (step : GrowthStep base before after)
  | naming (step : NamingStep before after)
  | settling (step : SettlingStep before after)
  | replacing {definition : Definition} {id : TypeId} (step : Replaced definition id before after)
      (inside : places id)

theorem QuietChange.consistent {places : TypeId → Prop} (change : QuietChange places before after)
    (consistent : before.Consistent) : after.Consistent := by
  cases change with
  | growth step => exact step.consistent consistent
  | naming step => exact step.consistent consistent
  | settling step => exact step.consistent consistent
  | replacing step => exact step.consistent consistent

/-- Without a merge a declaration stays in its bucket. -/
theorem QuietChange.staged {places : TypeId → Prop} {declaration : Declaration}
    (change : QuietChange places before after) (member : declaration ∈ before.bucket name) :
    declaration ∈ after.bucket name := by
  cases change with
  | growth step => exact step.staged member
  | naming step => cases step <;> exact member
  | settling step => cases step <;> exact member
  | replacing step =>
    obtain ⟨_, _, _, rfl⟩ := step
    exact member

theorem QuietChange.hasField (change : QuietChange (· ≠ id) before after)
    (held : before.Holds id) (has : (before.shape id).HasField field) :
    (after.shape id).HasField field := by
  cases change with
  | growth step => exact step.hasField held has
  | naming step => exact step.hasField held has
  | settling step => exact step.hasField.mpr has
  | replacing step other => exact step.hasField other has

theorem Consistent.names_of_bucket {catalog : Catalog} (consistent : catalog.Consistent)
    {declaration : Declaration} (member : declaration ∈ catalog.bucket name) :
    catalog.Names declaration.id name := by
  unfold bucket at member
  cases found : catalog.pending.get? name with
  | none => simp [found] at member
  | some declarations =>
    rw [found] at member
    exact (consistent.staged name _ (OrderedMap.mem_entries_of_get? found)).2 declaration member

/-! ## Runs up to a merge -/

/-- The operations register types only in the given places. -/
def RegistersWithin (places : TypeId → Prop) : Catalog → List Operation → Prop
  | _, [] => True
  | catalog, operation :: rest =>
      (∀ definition id after, operation = .register definition →
        Catalog.register definition catalog = .ok id after → places id) ∧
      RegistersWithin places (leaves operation.perform catalog) rest

theorem registersWithin_true (catalog : Catalog) (operations : List Operation) :
    RegistersWithin (fun _ => True) catalog operations := by
  induction operations generalizing catalog with
  | nil => trivial
  | cons operation rest ih => exact ⟨fun _ _ _ _ _ => trivial, ih _⟩

/-- What outlasts the single changes outlasts a run without a merge. -/
theorem run_induction {places : TypeId → Prop} {holds : Catalog → Prop}
    {operations : List Operation} (permits : before.Permits operations)
    (unmerged : .mergePending ∉ operations) (within : RegistersWithin places before operations)
    (change : ∀ before after : Catalog, before.Consistent → holds before →
      QuietChange places before after → holds after)
    (consistent : before.Consistent) (start : holds before) :
    (before.run operations).Consistent ∧ holds (before.run operations) := by
  induction operations generalizing before with
  | nil => exact ⟨consistent, start⟩
  | cons operation rest ih =>
    obtain ⟨notMerge, unmerged⟩ := List.ne_and_not_mem_of_not_mem_cons unmerged
    have covers : Covers (QuietChange places) operation before :=
      { growth := .growth
        naming := .naming
        settling := .settling
        replacing := fun same registered step =>
          .replacing step (within.1 _ _ _ same registered)
        merging := fun same => absurd same.symm notMerge }
    have changes := ends_leaves_iff.mp (ends_perform operation consistent permits.1 covers)
    have next : (leaves operation.perform before).Consistent ∧
        holds (leaves operation.perform before) := by
      generalize leaves operation.perform before = after at changes
      induction changes with
      | refl => exact ⟨consistent, start⟩
      | tail _ step earlier =>
        exact ⟨step.consistent earlier.1, change _ _ earlier.1 earlier.2 step⟩
    exact ih permits.2 unmerged within.2 next.1 next.2

/-- The operation reads a block of declarations. -/
def Operation.IsBlock : Operation → Prop
  | .parseBlock .. => True
  | .parseEntries .. => True
  | .parseSingle .. => True
  | _ => False

theorem growth_of_isBlock {operation : Operation} (block : Operation.IsBlock operation)
    (catalog : Catalog) :
    Growth catalog.arena.size catalog (leaves operation.perform catalog) := by
  have reading := catalog.underway_size
  refine ends_leaves_iff.mp ?_
  cases operation with
  | parseBlock mode count text =>
    rw [Operation.perform, ends_bind]
    exact (ends_parseBlock reading mode count text).mono
      (fun _ _ grown => ends_failWith _ grown.1) fun _ ended => ended.elim
  | parseEntries mode text =>
    rw [Operation.perform, ends_map]
    exact (ends_parseEntries reading mode text).mono (fun _ _ grown => grown.1) fun _ grown => grown
  | parseSingle mode text =>
    rw [Operation.perform, ends_map]
    exact (ends_parseSingle reading mode text).mono (fun _ _ grown => grown.1) fun _ grown => grown
  | _ => exact absurd block id

/-- A block that declares a record. -/
def noteBlock : Operation := .parseEntries ⟨some .read, false⟩ "x : Note\n    a : int"

end Catalog

end DocShapes
