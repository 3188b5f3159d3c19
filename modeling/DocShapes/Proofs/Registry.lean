import DocShapes.Proofs.Runs

/-! # Names and retired definitions in every reachable catalog

The two main results say what no operation can break: retired definitions lead to canonical ones
in one hop, and the names of a catalog agree with its definitions, its spellings and its buckets.
-/

namespace DocShapes.Catalog

variable {catalog : Catalog}

/-- No canonical definition is retired and every retired one leads to a canonical one, so the
loops that follow retired definitions end after at most one hop from any id, with the same result
whatever the number of rounds they are given beyond that. -/
theorem Reachable.forwarding_flat (reachable : catalog.Reachable) :
    (∀ name id, catalog.canonical.get? name = some id → id ∉ catalog.forward.keys) ∧
      (∀ id landing, catalog.forward.get? id = some landing →
        ∃ name, catalog.canonical.get? name = some landing.target) ∧
      (∀ id, catalog.follow id ∉ catalog.forward.keys ∧
        (catalog.follow id = id ∨ catalog.Hop (catalog.follow id) id)) ∧
      WellFounded catalog.Hop ∧
      ∀ id fuel, catalog.forward.size ≤ fuel →
        catalog.followFrom fuel id = catalog.follow id ∧
          catalog.landingFrom fuel id none = catalog.landing id ∧
          (catalog.landing id).target = catalog.follow id := by
  have consistent := reachable.consistent
  have unforwarded {id : TypeId} (none : catalog.forward.get? id = none) :
      id ∉ catalog.forward.keys := by
    rw [OrderedMap.mem_keys_iff]
    rintro ⟨landing, found⟩
    simp [none] at found
  refine ⟨fun name id found => unforwarded (consistent.forward_of_canonical found),
    fun id landing found => (consistent.retired id landing found).2.2, fun id => ?_,
    consistent.wellFounded_hop, fun id fuel enough => ⟨?_, ?_, target_landing id⟩⟩
  · refine ⟨unforwarded (consistent.forward_follow id), ?_⟩
    rw [consistent.follow_eq]
    cases found : catalog.forward.get? id with
    | none => exact .inl rfl
    | some landing => exact .inr ⟨landing, found, rfl⟩
  · rw [consistent.followFrom_eq id enough, consistent.follow_eq]
  · rw [consistent.landingFrom_eq id enough, consistent.landing_eq]

/-- Two channels declare one name; their merge retires both declarations. -/
def twoChannels : List Operation :=
  [.parseEntries ⟨some .read, false⟩ "x : Foo\n    a : int",
    .parseEntries ⟨some .write, false⟩ "y : Foo\n    b : int",
    .mergePending]

theorem forwarding_flat_twoChannels :
    (empty.run twoChannels).forward.size = 2 ∧
      ∀ id, (empty.run twoChannels).follow id ∉ (empty.run twoChannels).forward.keys :=
  have reachable : (empty.run twoChannels).Reachable :=
    @reachable_run .standard _ _ rfl ⟨trivial, trivial, trivial, trivial⟩
  ⟨by decide +kernel, fun id => (reachable.forwarding_flat.2.2.1 id).1⟩

/-- The names of a catalog: no name is both canonical and provisional, each leads to a record or an
extension of exactly this name, none is a spelling, and the names of all buckets and of all records
and extensions of the arena are among them. -/
theorem Reachable.names_agree (reachable : catalog.Reachable) :
    (∀ name, name ∈ catalog.canonical.keys → name ∉ catalog.provisional.keys) ∧
      (∀ name id,
        catalog.canonical.get? name = some id ∨ catalog.provisional.get? name = some id →
          catalog.Holds id ∧
            ((catalog.definition id).base = .record ∨ (catalog.definition id).base = .extension) ∧
            (catalog.definition id).name = name) ∧
      (∀ name, name ∈ catalog.canonical.keys ∨ name ∈ catalog.provisional.keys →
        catalog.aliases.isSpelling name = false) ∧
      (∀ name ∈ catalog.pending.keys,
        name ∈ catalog.canonical.keys ∨ name ∈ catalog.provisional.keys) ∧
      ∀ id, catalog.Holds id →
        (catalog.definition id).base = .record ∨ (catalog.definition id).base = .extension →
          (catalog.definition id).name ∈ catalog.canonical.keys ∨
            (catalog.definition id).name ∈ catalog.provisional.keys := by
  have consistent := reachable.consistent
  have provisional {name : String} {id : TypeId}
      (found : catalog.provisional.get? name = some id) : catalog.known? name = some id := by
    refine known?_of_provisional
      (Option.eq_none_iff_forall_ne_some.mpr fun other canonical => ?_) found
    rw [consistent.disjoint name other canonical] at found
    cases found
  have owned (name : String) (id : TypeId)
      (found : catalog.canonical.get? name = some id ∨ catalog.provisional.get? name = some id) :
      catalog.Names id name := consistent.owned name id (found.elim known?_of_canonical provisional)
  have listed (name : String) : catalog.isKnown name = true ↔
      name ∈ catalog.canonical.keys ∨ name ∈ catalog.provisional.keys := by
    rw [isKnown_iff, OrderedMap.mem_keys_iff, OrderedMap.mem_keys_iff, ← exists_or]
    exact exists_congr fun id => ⟨canonical_or_provisional_of_known?,
      fun found => found.elim known?_of_canonical provisional⟩
  refine ⟨fun name canonical other => ?_, fun name id found => ?_, fun name registered =>
    consistent.unspelled name ((listed name).mpr registered), fun name pending => ?_,
    fun id held kind => ?_⟩
  · obtain ⟨id, found⟩ := OrderedMap.mem_keys_iff.mp canonical
    obtain ⟨_, present⟩ := OrderedMap.mem_keys_iff.mp other
    rw [consistent.disjoint name id found] at present
    cases present
  · have names := owned name id found
    exact ⟨names.held, (Shape.isNamed_iff_base _).mp names.named, names.same⟩
  · obtain ⟨⟨_, bucket⟩, member, rfl⟩ := List.mem_map.mp pending
    exact (listed _).mp (consistent.staged _ bucket member).1
  · exact (listed _).mp (consistent.named id held ((Shape.isNamed_iff_base _).mpr kind))

/-- A text of definitions, a spelling and a block, none of them merged yet. -/
def beforeMerge : List Operation :=
  [.loadExtension "Unit : string" none,
    .addAlias "Amount" "number",
    .parseEntries ⟨some .read, false⟩
      "price : Amount\n\nunit : Unit\n\nsize : Size\n    width : int"]

theorem names_agree_beforeMerge :
    (empty.run beforeMerge).provisional.keys = ["Unit", "Size"] ∧
      ∀ name, name ∈ (empty.run beforeMerge).canonical.keys ∨
        name ∈ (empty.run beforeMerge).provisional.keys →
          (empty.run beforeMerge).aliases.isSpelling name = false :=
  have reachable : (empty.run beforeMerge).Reachable :=
    @reachable_run .standard _ _ rfl ⟨trivial, trivial, trivial, trivial⟩
  ⟨by decide +kernel, reachable.names_agree.2.2.1⟩

end DocShapes.Catalog
