import DocShapes.Proofs.Merging
import DocShapes.Proofs.Registering

/-! # Runs of public operations

A run starts from the catalog of a configuration and performs operations in any order; an operation
that fails leaves what it changed before. Whatever a run does is a sequence of the single changes
listed for readings, registrations, settling and merging, and it comes to consistent catalogs only
(`Reachable.consistent`).
-/

namespace DocShapes

/-- What a user can do with a catalog. -/
inductive Operation where
  | parseType (text : String)
  | parseFront (text : String)
  | parseDeclaration (text : String)
  /-- Draw the first `count` entries of a block. -/
  | parseBlock (mode : Catalog.Mode) (count : Nat) (text : String)
  | parseEntries (mode : Catalog.Mode) (text : String)
  | parseSingle (mode : Catalog.Mode) (text : String)
  | loadExtension (text : String) (source : Option String)
  | register (definition : Definition)
  | registerProvisional (definition : Definition)
  | addAlias (spelling target : String)
  | dereference (slot : Slot)
  | mergePending

namespace Operation

/-- A failure that came with a result. -/
def failWith : Option Error → CatalogM Unit
  | none => return
  | some error => throw error

def perform : Operation → CatalogM Unit
  | parseType text => (fun _ => ()) <$> Catalog.parseType text
  | parseFront text => (fun _ => ()) <$> Catalog.parseFront text
  | parseDeclaration text => (fun _ => ()) <$> Catalog.parseDeclaration text
  | parseBlock mode count text => do failWith (← Catalog.parseBlock mode count text).2
  | parseEntries mode text => (fun _ => ()) <$> Catalog.parseEntries mode text
  | parseSingle mode text => (fun _ => ()) <$> Catalog.parseSingle mode text
  | loadExtension text source => (fun _ => ()) <$> Catalog.loadExtension text source
  | register definition => (fun _ => ()) <$> Catalog.register definition
  | registerProvisional definition => (fun _ => ()) <$> Catalog.registerProvisional definition
  | addAlias spelling target => Catalog.addAlias spelling target
  | dereference slot => do failWith (← Catalog.dereference slot).2
  | mergePending => Catalog.mergePending

/-- The ids that the operation is given belong to the catalog. -/
def Allowed (catalog : Catalog) : Operation → Prop
  | register definition => ∀ child ∈ definition.shape.children, catalog.Holds child
  | registerProvisional definition => ∀ child ∈ definition.shape.children, catalog.Holds child
  | dereference slot => catalog.Holds slot.target
  | _ => True

end Operation

namespace Catalog

/-- An operation that is allowed before takes the first catalog to the second. -/
def Move (before after : Catalog) : Prop :=
  ∃ operation : Operation, operation.Allowed before ∧ after = leaves operation.perform before

/-- Some run comes to the catalog. -/
def Reachable (catalog : Catalog) : Prop :=
  ∃ config start, ofConfig config = .ok start ∧ Relation.ReflTransGen Move start catalog

/-- The catalog after some operations, whether they succeed or fail. -/
def run (start : Catalog) (operations : List Operation) : Catalog :=
  operations.foldl (fun catalog operation => leaves operation.perform catalog) start

/-- Each operation is allowed when its turn comes. -/
def Permits : Catalog → List Operation → Prop
  | _, [] => True
  | catalog, operation :: rest =>
      operation.Allowed catalog ∧ Permits (leaves operation.perform catalog) rest

theorem reflTransGen_move_run {start : Catalog} {operations : List Operation}
    (permits : start.Permits operations) :
    Relation.ReflTransGen Move start (start.run operations) := by
  induction operations generalizing start with
  | nil => exact .refl
  | cons operation rest ih => exact .head ⟨operation, permits.1, rfl⟩ (ih permits.2)

theorem reachable_run {config : Config} {start : Catalog} {operations : List Operation}
    (made : ofConfig config = .ok start) (permits : start.Permits operations) :
    (start.run operations).Reachable :=
  ⟨config, start, made, reflTransGen_move_run permits⟩

/-! ## Single changes -/

/-- A relation has all single changes that an operation can make from a catalog on. -/
structure Covers (changes : Catalog → Catalog → Prop) (operation : Operation)
    (catalog : Catalog) : Prop where
  growth : ∀ {base before after}, GrowthStep base before after → changes before after
  naming : ∀ {before after}, NamingStep before after → changes before after
  settling : ∀ {before after}, SettlingStep before after → changes before after
  /-- Only registering a type replaces a definition. -/
  replacing : ∀ {definition id after}, operation = .register definition →
    Catalog.register definition catalog = .ok id after → Replaced definition id catalog after →
      changes catalog after
  /-- Only a merge merges. -/
  merging : operation = .mergePending → ∀ {before after}, MergingStep before after →
    changes before after

theorem ends_failWith (error? : Option Error) {catalog : Catalog} {holds : Catalog → Prop}
    (kept : holds catalog) :
    Ends (Operation.failWith error?) catalog (fun _ => holds) holds := by
  cases error? <;> exact kept

/-- Whatever an operation does is a sequence of single changes, also if it fails. -/
theorem ends_perform {changes : Catalog → Catalog → Prop} (operation : Operation)
    {catalog : Catalog} (consistent : catalog.Consistent) (allowed : operation.Allowed catalog)
    (covers : Covers changes operation catalog) :
    Ends operation.perform catalog (fun _ => Relation.ReflTransGen changes catalog)
      (Relation.ReflTransGen changes catalog) := by
  have start := Nat.le_refl catalog.arena.size
  have reading := catalog.underway_size
  have same : ∀ after, after = catalog → Relation.ReflTransGen changes catalog after :=
    fun after same => same ▸ .refl
  have growth {base : Nat} {before after : Catalog} (growth : Growth base before after) :
      Relation.ReflTransGen changes before after :=
    Relation.ReflTransGen.mono (fun _ _ step => covers.growth step) _ _ growth
  have naming {before after : Catalog} (naming : Naming before after) :
      Relation.ReflTransGen changes before after :=
    Relation.ReflTransGen.mono (fun _ _ step => covers.naming step) _ _ naming
  have settling {before after : Catalog} (settling : Settling before after) :
      Relation.ReflTransGen changes before after :=
    Relation.ReflTransGen.mono (fun _ _ step => covers.settling step) _ _ settling
  cases operation with
  | parseType text =>
    rw [Operation.perform, ends_map]
    exact (ends_parseType start text).mono (fun _ _ grown => growth grown.1)
      fun _ grown => growth grown
  | parseFront text =>
    rw [Operation.perform, ends_map]
    exact (ends_parseFront start text).mono (fun _ _ grown => growth grown.1)
      fun _ grown => growth grown
  | parseDeclaration text =>
    rw [Operation.perform, ends_map]
    exact (ends_parseDeclaration start text).mono (fun _ _ grown => growth grown.1)
      fun _ grown => growth grown
  | parseBlock mode count text =>
    rw [Operation.perform, ends_bind]
    exact (ends_parseBlock reading mode count text).mono
      (fun _ _ grown => ends_failWith _ (growth grown.1)) fun _ ended => ended.elim
  | parseEntries mode text =>
    rw [Operation.perform, ends_map]
    exact (ends_parseEntries reading mode text).mono (fun _ _ grown => growth grown.1)
      fun _ grown => growth grown
  | parseSingle mode text =>
    rw [Operation.perform, ends_map]
    exact (ends_parseSingle reading mode text).mono (fun _ _ grown => growth grown.1)
      fun _ grown => growth grown
  | loadExtension text source =>
    rw [Operation.perform, ends_map]
    have loaded {after : Catalog} (made : ∃ middle,
        Growth catalog.arena.size catalog middle ∧ Naming middle after) :
        Relation.ReflTransGen changes catalog after := by
      obtain ⟨_, grown, named⟩ := made
      exact (growth grown).trans (naming named)
    exact (ends_loadExtension consistent text source).mono (fun _ _ made => loaded made)
      fun _ made => loaded made
  | register definition =>
    have registers := ends_register definition allowed
    rw [Operation.perform, ends_map]
    unfold Ends at registers ⊢
    split
    · rename_i id after registered
      rw [registered] at registers
      rcases registers with step | replaced
      · exact .single (covers.naming step)
      · exact .single (covers.replacing rfl registered replaced)
    · rename_i failed
      rw [failed] at registers
      exact same _ registers
  | registerProvisional definition =>
    rw [Operation.perform, ends_map]
    exact (ends_registerProvisional definition allowed).mono
      (fun _ _ step => .single (covers.naming step)) same
  | addAlias spelling target =>
    exact (ends_addAlias spelling target).mono (fun _ _ step => .single (covers.naming step)) same
  | dereference slot =>
    rw [Operation.perform, ends_bind]
    exact (ends_dereference consistent slot allowed).mono
      (fun _ _ settled => ends_failWith _ (settling settled)) fun _ ended => ended.elim
  | mergePending =>
    have merging {before after : Catalog} (merging : Merging before after) :
        Relation.ReflTransGen changes before after :=
      Relation.ReflTransGen.mono (fun _ _ step => covers.merging rfl step) _ _ merging
    refine (ends_mergePending consistent).mono (fun _ after merged => ?_) fun after merged => ?_
    · obtain ⟨middle, merged⟩ := merged
      exact (merging merged.merging).trans (settling merged.settling)
    · obtain ⟨middle, merged, settled⟩ := merged
      exact (merging merged).trans (settling settled)

/-- A single change of any kind. -/
inductive Change (before after : Catalog) : Prop
  | growth {base : Nat} (step : GrowthStep base before after)
  | naming (step : NamingStep before after)
  | replacing {definition : Definition} {id : TypeId} (step : Replaced definition id before after)
  | settling (step : SettlingStep before after)
  | merging (step : MergingStep before after)

theorem covers_change (operation : Operation) (catalog : Catalog) :
    Covers Change operation catalog where
  growth := .growth
  naming := .naming
  settling := .settling
  replacing _ _ := .replacing
  merging _ := .merging

theorem Change.consistent {before after : Catalog} (change : Change before after)
    (consistent : before.Consistent) : after.Consistent := by
  cases change with
  | growth step => exact step.consistent consistent
  | naming step => exact step.consistent consistent
  | replacing step => exact step.consistent consistent
  | settling step => exact step.consistent consistent
  | merging step => exact step.consistent consistent

theorem Move.changes {before after : Catalog} (move : Move before after)
    (consistent : before.Consistent) : Relation.ReflTransGen Change before after := by
  obtain ⟨operation, allowed, rfl⟩ := move
  exact ends_leaves_iff.mp (ends_perform operation consistent allowed (covers_change _ _))

/-! ## Reachable catalogs -/

theorem Reachable.move {before after : Catalog} (reachable : before.Reachable)
    (move : Move before after) : after.Reachable := by
  obtain ⟨config, start, made, run⟩ := reachable
  exact ⟨config, start, made, run.tail move⟩

/-- What holds of every starting catalog and outlasts every single change in consistent catalogs
holds of every reachable catalog. -/
theorem Reachable.induction {holds : Catalog → Prop}
    (start : ∀ config catalog, ofConfig config = .ok catalog → holds catalog)
    (change : ∀ before after : Catalog, before.Consistent → holds before → Change before after →
      holds after) {catalog : Catalog} (reachable : catalog.Reachable) :
    catalog.Consistent ∧ holds catalog := by
  obtain ⟨config, first, made, run⟩ := reachable
  induction run with
  | refl =>
    exact ⟨(naming_ofConfig made).consistent (consistent_fresh config), start config first made⟩
  | tail _ move ih =>
    have changes := move.changes ih.1
    clear move
    induction changes with
    | refl => exact ih
    | tail _ step inner => exact ⟨step.consistent inner.1, change _ _ inner.1 inner.2 step⟩

theorem Reachable.consistent {catalog : Catalog} (reachable : catalog.Reachable) :
    catalog.Consistent :=
  (reachable.induction (fun _ _ _ => trivial) fun _ _ _ _ _ => trivial).1

end Catalog

end DocShapes
