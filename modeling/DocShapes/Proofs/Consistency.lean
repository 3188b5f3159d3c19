import DocShapes.Proofs.Growth
import DocShapes.Proofs.Spellings

/-! # Consistent catalogs

A catalog is consistent when its names, its spellings, its staged and its retired definitions agree
with the arena. Each single change keeps a catalog consistent if what the change is about fits in.
-/

namespace DocShapes

namespace Catalog

/-! ## The invariant -/

/-- The id stands for a definition of the name. -/
structure Names (catalog : Catalog) (id : TypeId) (name : String) : Prop where
  held : catalog.Holds id
  named : (catalog.definition id).isNamed = true
  same : (catalog.definition id).name = name

structure Consistent (catalog : Catalog) : Prop where
  flat : catalog.aliases.Flat
  distinct : catalog.canonical.keys.Nodup
  distinctStaged : catalog.pending.keys.Nodup
  /-- No canonical name is provisional. -/
  disjoint : ∀ name id, catalog.canonical.get? name = some id →
    catalog.provisional.get? name = none
  /-- A known name leads to a definition of this name. -/
  owned : ∀ name id, catalog.known? name = some id → catalog.Names id name
  /-- No known name is a spelling. -/
  unspelled : ∀ name, catalog.isKnown name = true → catalog.aliases.isSpelling name = false
  /-- The name of every named definition is known. -/
  named : ∀ id, catalog.Holds id → (catalog.definition id).isNamed = true →
    catalog.isKnown (catalog.definition id).name = true
  /-- The buckets have known names and hold definitions of these names. -/
  staged : ∀ name bucket, (name, bucket) ∈ catalog.pending.entries →
    catalog.isKnown name = true ∧ ∀ declaration ∈ bucket, catalog.Names declaration.id name
  /-- A retired definition has no name any more, and leads to a canonical one. -/
  retired : ∀ id landing, catalog.forward.get? id = some landing →
    catalog.Holds id ∧ (∀ name, catalog.known? name ≠ some id) ∧
      ∃ name, catalog.canonical.get? name = some landing.target
  /-- Definitions are made of definitions. -/
  linked : ∀ id, catalog.Holds id → ∀ child ∈ (catalog.shape id).children, catalog.Holds child

variable {catalog : Catalog}

theorem known?_of_canonical {name : String} {id : TypeId}
    (found : catalog.canonical.get? name = some id) : catalog.known? name = some id := by
  simp [known?, found]

theorem canonical_or_provisional_of_known? {name : String} {id : TypeId}
    (found : catalog.known? name = some id) :
    catalog.canonical.get? name = some id ∨ catalog.provisional.get? name = some id := by
  unfold known? at found
  cases canonical : catalog.canonical.get? name with
  | some other => exact .inl (by simpa [canonical] using found)
  | none => exact .inr (by simpa [canonical] using found)

theorem known?_provide {name : String} (free : catalog.canonical.get? name = none) (id : TypeId)
    (other : String) :
    (catalog.provide name id).known? other =
      if name = other then some id else catalog.known? other := by
  simp only [known?, provide_canonical, provide_provisional, OrderedMap.get?_set]
  split
  · rename_i same
    subst same
    simp [free]
  · rfl

theorem known?_establish (name : String) (id : TypeId) (other : String) :
    (catalog.establish name id).known? other =
      if name = other then some id else catalog.known? other := by
  simp only [known?, establish_canonical, establish_provisional, OrderedMap.get?_set,
    OrderedMap.get?_erase]
  split <;> simp

/-- A canonical name is looked up as it is. -/
theorem Consistent.canonical?_eq (consistent : catalog.Consistent) {name : String} {id : TypeId}
    (found : catalog.canonical.get? name = some id) : catalog.canonical? name = some id := by
  rw [canonical?, resolveAlias, AliasTable.resolve_of_not_isSpelling
    (consistent.unspelled name ((catalog.isKnown_iff name).mpr ⟨id, known?_of_canonical found⟩))]
  exact found

/-! ## Changes of definitions -/

theorem Names.push {id : TypeId} {name : String} (names : catalog.Names id name)
    (definition : Definition) : (catalog.push definition).Names id name := by
  have old := ne_next_of_holds names.held
  exact ⟨by simp [names.held], by simpa [definition_push, old] using names.named,
    by simpa [definition_push, old] using names.same⟩

theorem Names.put {id other : TypeId} {name : String} {definition : Definition}
    (names : catalog.Names id name)
    (sameKind : definition.isNamed = (catalog.definition other).isNamed)
    (sameName : definition.name = (catalog.definition other).name) :
    (catalog.put other definition).Names id name := by
  refine ⟨by simpa using names.held, ?_, ?_⟩
  · rw [definition_put]
    split
    · rename_i same
      rw [sameKind, ← same.1]
      exact names.named
    · exact names.named
  · rw [definition_put]
    split
    · rename_i same
      rw [sameName, ← same.1]
      exact names.same
    · exact names.same

/-- What an id stands for depends on the arena alone. -/
theorem Names.of_arena {id : TypeId} {name : String} {after : Catalog}
    (names : catalog.Names id name) (arena : after.arena = catalog.arena) :
    after.Names id name := by
  refine ⟨by simpa [Holds, arena] using names.held, ?_, ?_⟩
  · simpa [Catalog.definition, arena] using names.named
  · simpa [Catalog.definition, arena] using names.same

/-- One more definition; if it has a name, the name is known. -/
theorem Consistent.push (consistent : catalog.Consistent) {definition : Definition}
    (registered : definition.isNamed = true → catalog.isKnown definition.name = true)
    (children : ∀ child ∈ definition.shape.children, catalog.Holds child) :
    (catalog.push definition).Consistent where
  flat := consistent.flat
  distinct := consistent.distinct
  distinctStaged := consistent.distinctStaged
  disjoint := consistent.disjoint
  owned name id found := (consistent.owned name id found).push definition
  unspelled := consistent.unspelled
  named id held named := by
    rw [definition_push] at named ⊢
    split at named
    · rw [if_pos ‹_›]
      exact registered named
    · rename_i notNext
      rw [if_neg notNext]
      exact consistent.named id (by simpa [notNext] using held) named
  staged name bucket member := by
    obtain ⟨known, names⟩ := consistent.staged name bucket member
    exact ⟨known, fun declaration within => (names declaration within).push definition⟩
  retired id landing found := by
    obtain ⟨held, unknown, canonical⟩ := consistent.retired id landing found
    exact ⟨by simp [held], unknown, canonical⟩
  linked id held child member := by
    rw [holds_push]
    simp only [shape, definition_push] at member
    split at member
    · exact .inl (children child member)
    · rename_i notNext
      exact .inl (consistent.linked id (by simpa [notNext] using held) child member)

theorem Consistent.put (consistent : catalog.Consistent) {id : TypeId} {definition : Definition}
    (sameKind : definition.isNamed = (catalog.definition id).isNamed)
    (sameName : definition.name = (catalog.definition id).name)
    (children : ∀ child ∈ definition.shape.children, catalog.Holds child) :
    (catalog.put id definition).Consistent where
  flat := consistent.flat
  distinct := consistent.distinct
  distinctStaged := consistent.distinctStaged
  disjoint := consistent.disjoint
  owned name other found := (consistent.owned name other found).put sameKind sameName
  unspelled := consistent.unspelled
  named other held named := by
    rw [definition_put] at named ⊢
    split at named
    · rename_i same
      rw [if_pos same, sameName]
      exact consistent.named id same.2 (sameKind ▸ named)
    · rename_i different
      rw [if_neg different]
      exact consistent.named other (by simpa using held) named
  staged name bucket member := by
    obtain ⟨known, names⟩ := consistent.staged name bucket member
    exact ⟨known, fun declaration within => (names declaration within).put sameKind sameName⟩
  retired other landing found := by
    obtain ⟨held, unknown, canonical⟩ := consistent.retired other landing found
    exact ⟨by simp [held], unknown, canonical⟩
  linked other held child member := by
    rw [holds_put]
    simp only [shape, definition_put] at member
    split at member
    · exact children child member
    · exact consistent.linked other (by simpa using held) child member

/-! ## Changes of names -/

/-- The next definition is installed under its name, be it as the provisional or as the canonical
one. -/
structure Installs (catalog : Catalog) (definition : Definition) (after : Catalog) : Prop where
  arena : after.arena = (catalog.push definition).arena
  aliases : after.aliases = catalog.aliases
  pending : after.pending = catalog.pending
  forward : after.forward = catalog.forward
  known : ∀ name, after.known? name =
    if definition.name = name then some catalog.next else catalog.known? name
  distinct : after.canonical.keys.Nodup
  disjoint : ∀ name id, after.canonical.get? name = some id → after.provisional.get? name = none
  kept : ∀ name id, catalog.canonical.get? name = some id → after.canonical.get? name = some id

theorem Consistent.installs_provide (consistent : catalog.Consistent) {definition : Definition}
    (free : catalog.canonical.get? definition.name = none) :
    catalog.Installs definition
      ((catalog.push definition).provide definition.name catalog.next) where
  arena := rfl
  aliases := rfl
  pending := rfl
  forward := rfl
  known := known?_provide free _
  distinct := consistent.distinct
  disjoint name id found := by
    have different : definition.name ≠ name := by
      rintro rfl
      simp [free] at found
    simpa [OrderedMap.get?_set, different] using consistent.disjoint name id found
  kept _ _ found := found

theorem Consistent.installs_establish (consistent : catalog.Consistent) {definition : Definition}
    (free : catalog.canonical.get? definition.name = none) :
    catalog.Installs definition
      ((catalog.push definition).establish definition.name catalog.next) where
  arena := rfl
  aliases := rfl
  pending := rfl
  forward := rfl
  known := known?_establish _ _
  distinct := OrderedMap.nodup_keys_set consistent.distinct _ _
  disjoint name id found := by
    simp only [establish_canonical, establish_provisional, OrderedMap.get?_set,
      OrderedMap.get?_erase] at found ⊢
    split
    · rfl
    · rename_i different
      rw [if_neg different] at found
      exact consistent.disjoint name id found
  kept name id found := by
    have different : definition.name ≠ name := by
      rintro rfl
      simp [free] at found
    simpa [OrderedMap.get?_set, different] using found

section

variable {definition : Definition} {after : Catalog}

theorem Installs.names (installs : catalog.Installs definition after) {id : TypeId} {name : String}
    (names : catalog.Names id name) : after.Names id name :=
  (names.push definition).of_arena installs.arena

theorem Installs.definition_eq (installs : catalog.Installs definition after) (id : TypeId) :
    after.definition id = if id = catalog.next then definition else catalog.definition id := by
  rw [← definition_push, Catalog.definition, Catalog.definition, installs.arena]

theorem Installs.holds_iff (installs : catalog.Installs definition after) (id : TypeId) :
    after.Holds id ↔ catalog.Holds id ∨ id = catalog.next := by
  rw [← holds_push, Holds, Holds, installs.arena]

theorem Installs.isKnown (installs : catalog.Installs definition after) {name : String}
    (known : catalog.isKnown name = true) : after.isKnown name = true := by
  rw [Catalog.isKnown, installs.known]
  split
  · rfl
  · exact known

theorem Consistent.install (consistent : catalog.Consistent) (named : definition.isNamed = true)
    (unspelled : catalog.aliases.isSpelling definition.name = false)
    (children : ∀ child ∈ definition.shape.children, catalog.Holds child)
    (installs : catalog.Installs definition after) : after.Consistent where
  flat := installs.aliases ▸ consistent.flat
  distinct := installs.distinct
  distinctStaged := installs.pending ▸ consistent.distinctStaged
  disjoint := installs.disjoint
  owned name id found := by
    rw [installs.known] at found
    split at found
    · rename_i same
      cases found
      exact ⟨by simp [installs.holds_iff], by simp [installs.definition_eq, named],
        by simp [installs.definition_eq, same]⟩
    · exact installs.names (consistent.owned name id found)
  unspelled name found := by
    rw [installs.aliases]
    rw [Catalog.isKnown, installs.known] at found
    split at found
    · rename_i same
      rwa [← same]
    · exact consistent.unspelled name found
  named id held isNamed := by
    rw [installs.definition_eq] at isNamed ⊢
    split
    · simp [Catalog.isKnown, installs.known]
    · rename_i notNext
      rw [if_neg notNext] at isNamed
      have old := ((installs.holds_iff id).mp held).resolve_right notNext
      exact installs.isKnown (consistent.named id old isNamed)
  staged name bucket member := by
    rw [installs.pending] at member
    obtain ⟨registered, owners⟩ := consistent.staged name bucket member
    exact ⟨installs.isKnown registered,
      fun declaration within => installs.names (owners declaration within)⟩
  retired id landing found := by
    rw [installs.forward] at found
    obtain ⟨held, unknown, name, canonical⟩ := consistent.retired id landing found
    refine ⟨(installs.holds_iff id).mpr (.inl held), fun other => ?_, name,
      installs.kept name _ canonical⟩
    rw [installs.known]
    split
    · simpa using (ne_next_of_holds held).symm
    · exact unknown other
  linked id held child member := by
    rw [installs.holds_iff]
    rw [Catalog.shape, installs.definition_eq] at member
    split at member
    · exact .inl (children child member)
    · rename_i notNext
      have old := ((installs.holds_iff id).mp held).resolve_right notNext
      exact .inl (consistent.linked id old child member)

end

theorem Consistent.establish (consistent : catalog.Consistent) {name : String} {id : TypeId}
    (found : catalog.known? name = some id) : (catalog.establish name id).Consistent := by
  have known (other : String) :
      (catalog.establish name id).known? other = catalog.known? other := by
    rw [known?_establish]
    split
    · rename_i same
      rw [← same, found]
    · rfl
  have isKnown (other : String) :
      (catalog.establish name id).isKnown other = catalog.isKnown other := by
    rw [Catalog.isKnown, known, Catalog.isKnown]
  have kept {other : String} {target : TypeId}
      (canonical : catalog.canonical.get? other = some target) :
      (catalog.establish name id).canonical.get? other = some target := by
    rw [establish_canonical, OrderedMap.get?_set]
    split
    · rename_i same
      rw [← found, same]
      exact known?_of_canonical canonical
    · exact canonical
  refine ⟨consistent.flat, OrderedMap.nodup_keys_set consistent.distinct _ _,
    consistent.distinctStaged, ?_, ?_, ?_, ?_, ?_, ?_, consistent.linked⟩
  · intro other target canonical
    simp only [establish_canonical, establish_provisional, OrderedMap.get?_set,
      OrderedMap.get?_erase] at canonical ⊢
    split
    · rfl
    · rename_i different
      rw [if_neg different] at canonical
      exact consistent.disjoint other target canonical
  · intro other target registered
    rw [known] at registered
    exact (consistent.owned other target registered).of_arena rfl
  · intro other registered
    exact consistent.unspelled other (isKnown other ▸ registered)
  · intro other held named
    rw [isKnown]
    exact consistent.named other held named
  · intro other bucket member
    obtain ⟨registered, owners⟩ := consistent.staged other bucket member
    exact ⟨(isKnown other).trans registered,
      fun declaration within => (owners declaration within).of_arena rfl⟩
  · intro other landing leads
    obtain ⟨held, unknown, name', canonical⟩ := consistent.retired other landing leads
    refine ⟨held, fun name'' => ?_, name', kept canonical⟩
    rw [known]
    exact unknown name''

/-! ## Changes of spellings, buckets and retired definitions -/

/-- More spellings, none of them a known name. -/
theorem Consistent.respell (consistent : catalog.Consistent) {spelling target : String}
    {aliases : AliasTable} (unknown : catalog.isKnown spelling = false)
    (added : catalog.aliases.add spelling target = .ok aliases) :
    (catalog.respell aliases).Consistent where
  flat := AliasTable.flat_add consistent.flat added
  distinct := consistent.distinct
  distinctStaged := consistent.distinctStaged
  disjoint := consistent.disjoint
  owned name id found := (consistent.owned name id found).of_arena rfl
  unspelled name found := by
    have different : spelling ≠ name := by
      rintro rfl
      exact absurd found (by simpa [Catalog.isKnown] using unknown)
    rw [respell_aliases, AliasTable.isSpelling_add added different]
    exact consistent.unspelled name found
  named := consistent.named
  staged name bucket member := by
    obtain ⟨known, names⟩ := consistent.staged name bucket member
    exact ⟨known, fun declaration within => (names declaration within).of_arena rfl⟩
  retired := consistent.retired
  linked := consistent.linked

theorem Consistent.enlist (consistent : catalog.Consistent) {declaration : Declaration}
    (held : catalog.Holds declaration.id)
    (named : (catalog.definition declaration.id).isNamed = true) :
    (catalog.enlist declaration).Consistent where
  flat := consistent.flat
  distinct := consistent.distinct
  distinctStaged := OrderedMap.nodup_keys_set consistent.distinctStaged _ _
  disjoint := consistent.disjoint
  owned name id found := (consistent.owned name id found).of_arena rfl
  unspelled := consistent.unspelled
  named := consistent.named
  staged name bucket member := by
    have old {bucket : List Declaration} (within : (name, bucket) ∈ catalog.pending.entries) :
        ∀ other ∈ bucket, (catalog.enlist declaration).Names other.id name := fun other inside =>
      ((consistent.staged name bucket within).2 other inside).of_arena rfl
    rcases OrderedMap.mem_entries_set member with same | within
    · cases same
      refine ⟨consistent.named declaration.id held named, fun other inside => ?_⟩
      rcases List.mem_append.mp inside with inside | inside
      · cases found : catalog.pending.get? (catalog.definition declaration.id).name with
        | none => simp [found] at inside
        | some present =>
          rw [found] at inside
          exact old (OrderedMap.mem_entries_of_get? found) other inside
      · rw [List.mem_singleton.mp inside]
        exact ⟨held, named, rfl⟩
    · exact ⟨(consistent.staged name bucket within).1, old within⟩
  retired := consistent.retired
  linked := consistent.linked

theorem Consistent.discharge (consistent : catalog.Consistent) : catalog.discharge.Consistent where
  flat := consistent.flat
  distinct := consistent.distinct
  distinctStaged := List.nodup_nil
  disjoint := consistent.disjoint
  owned name id found := (consistent.owned name id found).of_arena rfl
  unspelled := consistent.unspelled
  named := consistent.named
  staged _ _ member := absurd member List.not_mem_nil
  retired := consistent.retired
  linked := consistent.linked

theorem Consistent.withdraw (consistent : catalog.Consistent) {source : TypeId} {landing : Landing}
    (held : catalog.Holds source) (unknown : ∀ name, catalog.known? name ≠ some source)
    {name : String} (canonical : catalog.canonical.get? name = some landing.target) :
    (catalog.withdraw source landing).Consistent where
  flat := consistent.flat
  distinct := consistent.distinct
  distinctStaged := consistent.distinctStaged
  disjoint := consistent.disjoint
  owned name id found := (consistent.owned name id found).of_arena rfl
  unspelled := consistent.unspelled
  named := consistent.named
  staged name bucket member := by
    obtain ⟨known, names⟩ := consistent.staged name bucket member
    exact ⟨known, fun declaration within => (names declaration within).of_arena rfl⟩
  retired id other found := by
    simp only [withdraw_forward, OrderedMap.get?_set] at found
    split at found
    · rename_i same
      cases found
      exact ⟨same ▸ held, same ▸ unknown, name, canonical⟩
    · exact consistent.retired id other found
  linked := consistent.linked

/-! ## Growth -/

theorem not_canonical_of_not_isKnown {name : String} (unknown : catalog.isKnown name = false) :
    catalog.canonical.get? name = none := by
  cases found : catalog.canonical.get? name with
  | none => rfl
  | some id => simp [Catalog.isKnown, known?_of_canonical found] at unknown

theorem GrowthStep.consistent {base : Nat} {before after : Catalog}
    (step : GrowthStep base before after) (consistent : before.Consistent) :
    after.Consistent := by
  cases step with
  | @node shape unnamed _ children =>
    exact consistent.push (fun named => absurd named (by simp [Definition.isNamed,
      Definition.ofShape, unnamed])) fun child member => (children child member).2
  | @mention name shape known empty =>
    refine consistent.push (fun _ => ?_) ?_
    · rcases empty with rfl | rfl <;> exact known
    · rcases empty with rfl | rfl <;> simp [Definition.ofShape, Shape.children, Shape.slots]
  | @introduce word name resolved unknown =>
    have free : before.canonical.get? name = none := not_canonical_of_not_isKnown unknown
    have unspelled : before.aliases.isSpelling name = false := by
      rw [resolved]
      exact consistent.flat.not_isSpelling_resolve word
    have installs := @Consistent.installs_provide _ consistent (.ofShape (.record name [])) free
    refine @Consistent.install _ (.ofShape (.record name [])) _ consistent rfl unspelled ?_ installs
    simp [Definition.ofShape, Shape.children, Shape.slots]
  | @append id cut given definition _ earlier within _ later appended =>
    obtain ⟨shape, extra, rfl, grown, subset⟩ := appended
    refine consistent.put grown.isNamed grown.name fun child member => ?_
    rw [show Shape.children _ = _ from grown.children, List.mem_append] at member
    rcases member with member | member
    · exact consistent.linked id (Nat.lt_of_lt_of_le earlier within) child member
    · obtain ⟨slot, inside, rfl⟩ := List.mem_map.mp member
      exact (later slot (subset inside)).2
  | @document id doc own =>
    exact consistent.put rfl rfl fun child member => consistent.linked id own.2 child member
  | enlist own named => exact consistent.enlist own.2 named

theorem Growth.consistent {base : Nat} {before after : Catalog} (growth : Growth base before after)
    (consistent : before.Consistent) : after.Consistent := by
  induction growth with
  | refl => exact consistent
  | tail _ step ih => exact step.consistent ih

end Catalog

end DocShapes
