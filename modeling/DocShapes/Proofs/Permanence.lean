import DocShapes.Proofs.Identity

/-! # What a canonical name keeps for good

No operation gives a canonical name another definition, makes a provisional name unknown or takes a
field from a canonical definition (`lasting_of_reachable`). A merge puts its result in the place of
the canonical definition and keeps its fields, because that definition is among those that are
combined; whatever else replaces a definition as a whole replaces a provisional one, and no
provisional definition is canonical.
-/

namespace DocShapes.Catalog

variable {catalog before after : Catalog} {base : Nat} {name : String}

/-! ## Lasting names -/

/-- Names keep their canonical definitions with all of their fields, and provisional names stay
known. -/
structure Lasting (before after : Catalog) : Prop where
  canonical : ∀ name id, before.canonical.get? name = some id →
    after.canonical.get? name = some id
  provisional : ∀ name id, before.provisional.get? name = some id →
    ∃ other, after.provisional.get? name = some other ∨ after.canonical.get? name = some other
  fields : ∀ name id, before.canonical.get? name = some id → ∀ field,
    (before.shape id).HasField field → (after.shape id).HasField field

theorem Lasting.refl (catalog : Catalog) : Lasting catalog catalog where
  canonical _ _ found := found
  provisional _ id found := ⟨id, .inl found⟩
  fields _ _ _ _ has := has

theorem Lasting.trans {first second third : Catalog} (left : Lasting first second)
    (right : Lasting second third) : Lasting first third where
  canonical name id found := right.canonical name id (left.canonical name id found)
  provisional name id found := by
    obtain ⟨other, found | found⟩ := left.provisional name id found
    · exact right.provisional name other found
    · exact ⟨other, .inr (right.canonical name other found)⟩
  fields name id found field has :=
    right.fields name id (left.canonical name id found) field (left.fields name id found field has)

/-- A provisional name that stays known is provisional or canonical afterwards. -/
theorem exists_of_isKnown (known : catalog.isKnown name = true) :
    ∃ id, catalog.provisional.get? name = some id ∨ catalog.canonical.get? name = some id := by
  obtain ⟨id, found⟩ := (catalog.isKnown_iff name).mp known
  exact ⟨id, (canonical_or_provisional_of_known? found).symm⟩

theorem isKnown_of_provisional {id : TypeId} (found : catalog.provisional.get? name = some id) :
    catalog.isKnown name = true := by
  simp [isKnown, known?, found]

/-! ## Changes without a merge -/

theorem isKnown_provide {other : String} {id : TypeId} (known : catalog.isKnown name = true) :
    (catalog.provide other id).isKnown name = true := by
  simp only [isKnown, known?, provide_canonical, provide_provisional, OrderedMap.get?_set] at known ⊢
  split
  · simp
  · exact known

theorem isKnown_establish {other : String} {id : TypeId} (known : catalog.isKnown name = true) :
    (catalog.establish other id).isKnown name = true := by
  rw [isKnown, known?_establish]
  split
  · rfl
  · exact known

theorem GrowthStep.isKnown (step : GrowthStep base before after)
    (known : before.isKnown name = true) : after.isKnown name = true := by
  cases step with
  | introduce => exact isKnown_provide known
  | _ => exact known

theorem NamingStep.isKnown (step : NamingStep before after)
    (known : before.isKnown name = true) : after.isKnown name = true := by
  cases step with
  | provide => exact isKnown_provide known
  | establish => exact isKnown_establish known
  | _ => exact known

theorem Replaced.isKnown {definition : Definition} {place : TypeId}
    (replaced : Replaced definition place before after) (known : before.isKnown name = true) :
    after.isKnown name = true := by
  rw [replaced.change]
  exact isKnown_establish known

theorem SettlingStep.isKnown (step : SettlingStep before after)
    (known : before.isKnown name = true) : after.isKnown name = true := by
  cases step with
  | promote => exact isKnown_establish known
  | _ => exact known

/-- A registration takes the place of a provisional definition, which is never canonical. -/
theorem Replaced.place_ne {definition : Definition} {place id : TypeId}
    (replaced : Replaced definition place before after) (consistent : before.Consistent)
    (found : before.canonical.get? name = some id) : place ≠ id := by
  rintro rfl
  have free := replaced.registrable.free
  have present := consistent.owned _ _ (known?_of_provisional free replaced.present)
  have own := consistent.owned name _ (known?_of_canonical found)
  rw [← present.same, own.same, found] at free
  cases free

theorem QuietChange.lasting {places : TypeId → Prop} (change : QuietChange places before after)
    (consistent : before.Consistent) : Lasting before after := by
  have known {name : String} {id : TypeId} (found : before.provisional.get? name = some id) :
      before.isKnown name = true := isKnown_of_provisional found
  have held {name : String} {id : TypeId} (found : before.canonical.get? name = some id) :
      before.Holds id := (consistent.owned name id (known?_of_canonical found)).held
  cases change with
  | growth step =>
    exact ⟨fun _ _ found => step.untouched.canonical.symm ▸ found,
      fun _ _ found => exists_of_isKnown (step.isKnown (known found)),
      fun _ _ found _ => step.hasField (held found)⟩
  | naming step =>
    exact ⟨fun _ _ => step.canonical,
      fun _ _ found => exists_of_isKnown (step.isKnown (known found)),
      fun _ _ found _ => step.hasField (held found)⟩
  | settling step =>
    exact ⟨fun _ _ => step.canonical,
      fun _ _ found => exists_of_isKnown (step.isKnown (known found)),
      fun _ _ _ _ => step.hasField.mpr⟩
  | replacing step =>
    exact ⟨fun _ _ => step.canonical,
      fun _ _ found => exists_of_isKnown (step.isKnown (known found)),
      fun _ _ found _ => step.hasField (step.place_ne consistent found)⟩

theorem lasting_of_quiet {places : TypeId → Prop} (consistent : before.Consistent)
    (changes : Relation.ReflTransGen (QuietChange places) before after) :
    after.Consistent ∧ Lasting before after := by
  induction changes with
  | refl => exact ⟨consistent, .refl before⟩
  | tail _ change ih =>
    exact ⟨change.consistent ih.1, ih.2.trans (change.lasting ih.1)⟩

theorem Settling.lasting (settling : Settling before after) (consistent : before.Consistent) :
    Lasting before after := by
  have changes : Relation.ReflTransGen (QuietChange fun _ => True) before after :=
    Relation.ReflTransGen.mono (fun _ _ step => .settling step) _ _ settling
  exact (lasting_of_quiet consistent changes).2

/-! ## Merges -/

/-- A merged name takes the fields of its canonical definition over; other names keep theirs. -/
theorem MergedName.lasting {staged : List Declaration}
    (merged : MergedName catalog name staged after) (consistent : catalog.Consistent)
    (known : catalog.isKnown name = true)
    (names : ∀ declaration ∈ staged, catalog.Names declaration.id name) :
    Lasting catalog after where
  canonical _ _ found := (merged.merging consistent known names).canonical found
  provisional _ _ found :=
    exists_of_isKnown ((merged.merging consistent known names).isKnown (isKnown_of_provisional found))
  fields other id found field has := by
    by_cases same : other = name
    · subst same
      obtain ⟨target, canonical, fields⟩ := merged.fields consistent
      have kept := (merged.merging consistent known names).canonical found
      obtain rfl : target = id := Option.some.inj (canonical.symm.trans kept)
      exact (fields field).mpr ⟨target, .inl (known?_of_canonical found), has⟩
    · have own := consistent.owned other id (known?_of_canonical found)
      rwa [merged.shape_eq consistent own same]

/-- Each name that is merged is lasting, also if a later one fails. -/
theorem ends_mergeNames_lasting (buckets : List (String × List Declaration))
    (consistent : catalog.Consistent) (mergeable : catalog.Mergeable buckets) :
    Ends (buckets.forM fun (name, bucket) => mergeName name bucket) catalog
      (fun _ after => after.Consistent ∧ Lasting catalog after) (Lasting catalog) := by
  induction buckets generalizing catalog with
  | nil => exact ⟨consistent, .refl catalog⟩
  | cons first rest ih =>
    obtain ⟨name, bucket⟩ := first
    obtain ⟨known, names⟩ := mergeable name bucket List.mem_cons_self
    have others : catalog.Mergeable rest := fun other staged member =>
      mergeable other staged (List.mem_cons_of_mem _ member)
    rw [List.forM, ends_bind]
    refine (ends_mergeName consistent known names).mono (fun _ middle merged => ?_)
      fun after same => same ▸ .refl catalog
    have merging := merged.merging consistent known names
    have kept := merged.lasting consistent known names
    exact (ih (merging.consistent consistent) (others.merging consistent merging)).mono
      (fun _ _ more => ⟨more.1, kept.trans more.2⟩) fun _ more => kept.trans more

theorem ends_mergePending_lasting (consistent : catalog.Consistent) :
    Ends mergePending catalog (fun _ => Lasting catalog) (Lasting catalog) := by
  simp only [mergePending, ends_bind, ends_get, ends_modify]
  have emptied : Lasting catalog catalog.discharge :=
    ⟨fun _ _ found => found, fun _ id found => ⟨id, .inl found⟩, fun _ _ _ _ has => has⟩
  refine (ends_mergeNames_lasting catalog.pending.entries consistent.discharge
    consistent.mergeable_discharge).mono (fun _ middle merged => ?_)
      fun _ kept => emptied.trans kept
  obtain ⟨further, kept⟩ := merged
  refine (ends_settleCanonical further).mono (fun _ after settled => ?_)
    fun _ settling => (emptied.trans kept).trans (settling.lasting further)
  obtain ⟨_, walked, _⟩ := settled
  exact (emptied.trans kept).trans (walked.settling.lasting further)

/-! ## Operations -/

theorem Move.lasting (move : Move before after) (consistent : before.Consistent) :
    Lasting before after := by
  obtain ⟨operation, allowed, rfl⟩ := move
  by_cases merges : operation = .mergePending
  · subst merges
    exact ends_leaves_iff.mp (ends_mergePending_lasting consistent)
  · have covers : Covers (QuietChange fun _ => True) operation before :=
      { growth := .growth
        naming := .naming
        settling := .settling
        replacing := fun _ _ step => .replacing step trivial
        merging := fun same => absurd same merges }
    exact (lasting_of_quiet consistent
      (ends_leaves_iff.mp (ends_perform operation consistent allowed covers))).2

/-- Whatever is done to a reachable catalog, and whether it succeeds or fails, a canonical name
keeps its definition, a provisional name stays known, and a canonical definition keeps its
fields. -/
theorem lasting_of_reachable {operations : List Operation} (reachable : catalog.Reachable)
    (permits : catalog.Permits operations) : Lasting catalog (catalog.run operations) := by
  induction operations generalizing catalog with
  | nil => exact .refl catalog
  | cons operation rest ih =>
    have move : Move catalog (leaves operation.perform catalog) := ⟨operation, permits.1, rfl⟩
    exact (move.lasting reachable.consistent).trans (ih (reachable.move move) permits.2)

/-- A name with a canonical definition, and one with a provisional definition. -/
def taskSetup : List Operation :=
  [.parseEntries ⟨some .read, false⟩ "x : Note\n    a : int", .mergePending,
    .loadExtension "Task : record\n    c : int" none]

/-- More declarations of both names; the second one contradicts what the name stands for. -/
def taskConflict : Operation :=
  .parseEntries ⟨some .write, false⟩ "y : Note\n    b : list(Task)\nz : Task\n    c : string"

theorem lasting_taskConflict :
    (empty.run taskSetup).canonical.get? "Note" = some ⟨2⟩ ∧
      (empty.run taskSetup).provisional.get? "Task" = some ⟨5⟩ ∧
      succeeds mergePending ((empty.run taskSetup).run [taskConflict]) = false ∧
      Lasting (empty.run taskSetup) ((empty.run taskSetup).run [taskConflict, .mergePending]) := by
  have reachable : (empty.run taskSetup).Reachable :=
    @reachable_run .standard _ taskSetup rfl ⟨trivial, trivial, trivial, trivial⟩
  have permits : (empty.run taskSetup).Permits [taskConflict, .mergePending] :=
    ⟨trivial, trivial, trivial⟩
  exact ⟨by decide +kernel, by decide +kernel, by decide +kernel,
    lasting_of_reachable reachable permits⟩

end DocShapes.Catalog
