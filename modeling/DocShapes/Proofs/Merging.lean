import DocShapes.Proofs.Combining
import DocShapes.Proofs.Walking

/-! # Merging declarations keeps a catalog consistent

`MergingStep` lists what a merge can do to a catalog. Merging the declarations of a name fails
before its first change, or leaves a canonical definition that they are combined into
(`ends_mergeName`).
-/

namespace DocShapes.Catalog

variable {catalog before after : Catalog} {name : String}

/-! ## Single changes -/

inductive MergingStep : Catalog → Catalog → Prop
  /-- The declarations are taken out of their buckets. -/
  | discharge {catalog : Catalog} : MergingStep catalog catalog.discharge
  /-- The merged definition in the place of the one that the name has. -/
  | fill {catalog : Catalog} {id : TypeId} {definition : Definition}
      (named : definition.isNamed = true)
      (known : catalog.known? definition.name = some id)
      (children : ∀ child ∈ definition.shape.children, catalog.Holds child) :
      MergingStep catalog (catalog.put id definition)
  /-- A new canonical definition. -/
  | introduce {catalog : Catalog} {definition : Definition}
      (named : definition.isNamed = true)
      (unspelled : catalog.aliases.isSpelling definition.name = false)
      (free : catalog.canonical.get? definition.name = none)
      (children : ∀ child ∈ definition.shape.children, catalog.Holds child) :
      MergingStep catalog ((catalog.push definition).establish definition.name catalog.next)
  /-- The definition that the name has becomes canonical, if it is not yet. -/
  | promote {catalog : Catalog} {name : String} {id : TypeId}
      (known : catalog.known? name = some id) : MergingStep catalog (catalog.establish name id)
  /-- Another definition of a canonical name leads to the canonical one from now on. -/
  | retire {catalog : Catalog} {source : TypeId} {name : String} {landing : Landing}
      (names : catalog.Names source name)
      (canonical : catalog.canonical.get? name = some landing.target)
      (different : source ≠ landing.target) :
      MergingStep catalog (catalog.withdraw source landing)

/-- What merging does to a catalog. -/
def Merging : Catalog → Catalog → Prop := Relation.ReflTransGen MergingStep

theorem MergingStep.consistent (step : MergingStep before after) (consistent : before.Consistent) :
    after.Consistent := by
  cases step with
  | discharge => exact consistent.discharge
  | fill named known children =>
    have names := consistent.owned _ _ known
    exact consistent.put (named.trans names.named.symm) names.same.symm children
  | introduce named unspelled free children =>
    exact consistent.install named unspelled children (consistent.installs_establish free)
  | promote known => exact consistent.establish known
  | @retire source _ landing names canonical different =>
    refine consistent.withdraw names.held (fun other known => ?_) canonical
    have same := (consistent.owned other source known).same.symm.trans names.same
    rw [same, known?_of_canonical canonical] at known
    exact different (Option.some.inj known).symm

theorem MergingStep.names (step : MergingStep before after) (consistent : before.Consistent)
    {id : TypeId} (names : before.Names id name) : after.Names id name := by
  cases step with
  | discharge => exact names.of_arena rfl
  | fill named known =>
    have present := consistent.owned _ _ known
    exact names.put (named.trans present.named.symm) present.same.symm
  | introduce => exact (names.push _).of_arena rfl
  | promote => exact names.of_arena rfl
  | retire => exact names.of_arena rfl

theorem MergingStep.isKnown (step : MergingStep before after)
    (known : before.isKnown name = true) : after.isKnown name = true := by
  have established (id : TypeId) (other : String) :
      (before.establish other id).isKnown name = true := by
    rw [Catalog.isKnown, known?_establish]
    split
    · rfl
    · exact known
  cases step with
  | introduce =>
    rw [Catalog.isKnown, known?_establish]
    split
    · rfl
    · exact known
  | promote => exact established _ _
  | _ => exact known

theorem MergingStep.canonical (step : MergingStep before after) {id : TypeId}
    (found : before.canonical.get? name = some id) : after.canonical.get? name = some id := by
  cases step with
  | @introduce definition _ _ free =>
    have different : definition.name ≠ name := by
      rintro rfl
      simp [free] at found
    simpa [OrderedMap.get?_set, different] using found
  | @promote promoted target known =>
    rw [establish_canonical, OrderedMap.get?_set]
    split
    · rename_i same
      rw [← known, same]
      exact known?_of_canonical found
    · exact found
  | _ => exact found

theorem Merging.isKnown (merging : Merging before after)
    (known : before.isKnown name = true) : after.isKnown name = true := by
  induction merging with
  | refl => exact known
  | tail _ step ih => exact step.isKnown ih

theorem Merging.canonical (merging : Merging before after) {id : TypeId}
    (found : before.canonical.get? name = some id) : after.canonical.get? name = some id := by
  induction merging with
  | refl => exact found
  | tail _ step ih => exact step.canonical ih

theorem Merging.pending (merging : Merging before after) (empty : before.pending = .empty) :
    after.pending = .empty := by
  induction merging with
  | refl => exact empty
  | tail _ step ih => cases step <;> first | rfl | exact ih

theorem Merging.consistent (merging : Merging before after) (consistent : before.Consistent) :
    after.Consistent := by
  induction merging with
  | refl => exact consistent
  | tail _ step ih => exact step.consistent ih

theorem Merging.names (merging : Merging before after) (consistent : before.Consistent)
    {id : TypeId} (names : before.Names id name) : after.Names id name := by
  induction merging with
  | refl => exact names
  | tail others step ih => exact step.names (Merging.consistent others consistent) ih

/-! ## Definitions that stand for a name -/

/-- The id has the name, and leads to the canonical definition of it. -/
structure StandsFor (catalog : Catalog) (id : TypeId) (name : String) : Prop where
  names : catalog.Names id name
  canonical : catalog.canonical.get? name = some (catalog.follow id)

theorem StandsFor.of_forward {id : TypeId} (stands : before.StandsFor id name)
    (forward : after.forward = before.forward) (names : after.Names id name)
    (canonical : ∀ {target : TypeId}, before.canonical.get? name = some target →
      after.canonical.get? name = some target) :
    after.StandsFor id name :=
  ⟨names, (follow_congr forward id).symm ▸ canonical stands.canonical⟩

theorem Consistent.follow_withdraw (consistent : catalog.Consistent) {source : TypeId}
    {landing : Landing} (withdrawn : (catalog.withdraw source landing).Consistent) (id : TypeId) :
    (catalog.withdraw source landing).follow id =
      if source = id then landing.target else catalog.follow id := by
  rw [withdrawn.follow_eq, consistent.follow_eq, withdraw_forward, OrderedMap.get?_set]
  split <;> rfl

/-- Retiring a definition of a name in favour of the canonical one leaves the others alone. -/
theorem StandsFor.withdraw {source id : TypeId} {landing : Landing}
    (stands : catalog.StandsFor id name) (consistent : catalog.Consistent)
    (withdrawn : (catalog.withdraw source landing).Consistent)
    (canonical : source = id → catalog.canonical.get? name = some landing.target) :
    (catalog.withdraw source landing).StandsFor id name := by
  refine ⟨stands.names.of_arena rfl, ?_⟩
  rw [consistent.follow_withdraw withdrawn]
  split
  · exact canonical ‹_›
  · exact stands.canonical

theorem MergingStep.standsFor (step : MergingStep before after) (consistent : before.Consistent)
    {id : TypeId} (stands : before.StandsFor id name) : after.StandsFor id name := by
  have names := step.names consistent stands.names
  have canonical {target : TypeId} (found : before.canonical.get? name = some target) :
      after.canonical.get? name = some target := step.canonical found
  have further := step.consistent consistent
  cases step with
  | @retire source other landing owner found =>
    refine stands.withdraw consistent further fun same => ?_
    subst same
    rwa [← stands.names.same, owner.same]
  | _ => exact stands.of_forward rfl names canonical

theorem Merging.standsFor (merging : Merging before after) (consistent : before.Consistent)
    {id : TypeId} (stands : before.StandsFor id name) : after.StandsFor id name := by
  induction merging with
  | refl => exact stands
  | tail others step ih => exact step.standsFor (Merging.consistent others consistent) ih

/-! ## Retiring declarations -/

/-- A merge that retires declarations of a name and changes no definition and no name. -/
structure Retired (name : String) (sites : List Declaration) (before after : Catalog) : Prop where
  merging : Merging before after
  arena : after.arena = before.arena
  canonical : after.canonical = before.canonical
  provisional : after.provisional = before.provisional
  stand : ∀ site ∈ sites, after.StandsFor site.id name

theorem Retired.head {site : Declaration} {rest : List Declaration} {landing : Landing}
    (step : MergingStep before (before.withdraw site.id landing))
    (consistent : before.Consistent)
    (first : (before.withdraw site.id landing).StandsFor site.id name)
    (others : Retired name rest (before.withdraw site.id landing) after) :
    Retired name (site :: rest) before after where
  merging := .head step others.merging
  arena := others.arena
  canonical := others.canonical
  provisional := others.provisional
  stand := List.forall_mem_cons.mpr
    ⟨others.merging.standsFor (step.consistent consistent) first, others.stand⟩

/-- The definition that the declarations are retired for stands for its name already. -/
theorem Retired.skip {site : Declaration} {rest : List Declaration}
    (consistent : before.Consistent) (first : before.StandsFor site.id name)
    (others : Retired name rest before after) : Retired name (site :: rest) before after where
  merging := others.merging
  arena := others.arena
  canonical := others.canonical
  provisional := others.provisional
  stand := List.forall_mem_cons.mpr
    ⟨others.merging.standsFor consistent first, others.stand⟩

theorem Consistent.standsFor_canonical (consistent : catalog.Consistent) {id : TypeId}
    (canonical : catalog.canonical.get? name = some id) : catalog.StandsFor id name := by
  refine ⟨consistent.owned name id (known?_of_canonical canonical), ?_⟩
  rwa [follow_of_forward_eq_none (consistent.forward_of_canonical canonical)]

theorem ends_retire {target : TypeId} (sites : List Declaration)
    (siteDocs : OrderedMap TypeId String) (consistent : catalog.Consistent)
    (names : ∀ site ∈ sites, catalog.Names site.id name)
    (canonical : catalog.canonical.get? name = some target) :
    Ends (retire target sites siteDocs) catalog (fun _ after => Retired name sites catalog after)
      fun _ => False := by
  induction sites generalizing catalog siteDocs with
  | nil => exact ⟨.refl, rfl, rfl, rfl, by simp⟩
  | cons site rest ih =>
    obtain ⟨first, others⟩ := List.forall_mem_cons.mp names
    simp only [retire, forwardTo, ends_bind]
    refine ends_ite (fun same => ?_) fun different => ?_
    · exact (ih _ consistent others canonical).imp fun _ _ retired =>
        retired.skip consistent (consistent.standsFor_canonical (same ▸ canonical))
    · let middle := catalog.withdraw site.id ⟨target, siteDocs.get? site.id⟩
      have step : MergingStep catalog middle := .retire first canonical different
      have further := step.consistent consistent
      have names : ∀ site ∈ rest, middle.Names site.id name :=
        fun other member => (others other member).of_arena rfl
      have stands : middle.StandsFor site.id name := by
        refine ⟨first.of_arena rfl, ?_⟩
        rw [consistent.follow_withdraw further, if_pos rfl]
        exact canonical
      rw [ends_modify]
      exact (ih (siteDocs.erase site.id) further names canonical).imp
        fun _ _ retired => Retired.head step consistent stands retired

/-! ## Installing the merged definition -/

/-- What installing the merged definition of a name leaves, and the id that it has then. -/
inductive Installed (catalog : Catalog) (name : String) (declarations : List Declaration) :
    TypeId → Catalog → Prop
  /-- The declarations say nothing, and the name keeps its definition. -/
  | kept {id : TypeId}
      (known : catalog.known? name = some id)
      (silent : ∀ declaration ∈ declarations,
        (catalog.definition declaration.id).isShell = true) :
      Installed catalog name declarations id catalog
  | filled {id : TypeId} {definition : Definition}
      (known : catalog.known? name = some id)
      (combined : catalog.Combined name declarations definition.shape) :
      Installed catalog name declarations id (catalog.put id definition)
  | added {definition : Definition}
      (free : catalog.canonical.get? name = none)
      (combined : catalog.Combined name declarations definition.shape) :
      Installed catalog name declarations catalog.next (catalog.push definition)

variable {declarations : List Declaration}

theorem Combined.holds {shape : Shape} (combined : catalog.Combined name declarations shape)
    (consistent : catalog.Consistent)
    (names : ∀ declaration ∈ declarations, catalog.Names declaration.id name) :
    ∀ child ∈ shape.children, catalog.Holds child := by
  intro child member
  obtain ⟨declaration, inside, within⟩ := combined.children child member
  exact consistent.linked declaration.id (names declaration inside).held child within

theorem Installed.merging {id : TypeId} {installed : Catalog} (consistent : catalog.Consistent)
    (known : catalog.isKnown name = true)
    (names : ∀ declaration ∈ declarations, catalog.Names declaration.id name)
    (install : Installed catalog name declarations id installed) :
    Merging catalog (installed.establish name id) := by
  cases install with
  | kept found => exact .single (.promote found)
  | @filled _ definition found combined =>
    have sameName : definition.name = name := combined.name
    exact .tail (.single (.fill combined.named (sameName.symm ▸ found)
      (combined.holds consistent names))) (.promote found)
  | @added definition free combined =>
    have sameName : definition.name = name := combined.name
    subst sameName
    exact .single (.introduce combined.named (consistent.unspelled _ known) free
      (combined.holds consistent names))

theorem Installed.names {id other : TypeId} {installed : Catalog} (consistent : catalog.Consistent)
    (install : Installed catalog name declarations id installed)
    (names : catalog.Names other name) : (installed.establish name id).Names other name := by
  cases install with
  | kept => exact names.of_arena rfl
  | filled found combined =>
    have present := consistent.owned name _ found
    exact (names.put (combined.named.trans present.named.symm)
      (Eq.trans combined.name present.same.symm)).of_arena rfl
  | added => exact (names.push _).of_arena rfl

theorem combined_shellOf (base : Base)
    (silent : ∀ declaration ∈ declarations,
      (catalog.definition declaration.id).isShell = true) :
    catalog.Combined name declarations (shellOf base name).shape := by
  refine .of_full ?_
  have none : declarations.filter (fun site => !(catalog.definition site.id).isShell) = [] := by
    simpa [List.filter_eq_nil_iff] using silent
  rw [none, shellOf]
  split <;> exact ⟨rfl, rfl, by simp [Definition.ofShape, Shape.children, Shape.slots],
    by simp [Definition.ofShape, Shape.HasField, Shape.sites]⟩

theorem shape_keepRemainder (id : TypeId) (merged : Merged) :
    (keepRemainder id merged).shape = merged.definition.shape := by
  unfold keepRemainder
  split <;> rfl

theorem ends_installMerged {existing : TypeId} {staged : List Declaration}
    (found : catalog.known? name = some existing) (base : Base) (merged : Option Merged)
    (combined : ∀ content ∈ merged,
      catalog.Combined name declarations content.definition.shape)
    (silent : merged = none → ∀ declaration ∈ declarations,
      (catalog.definition declaration.id).isShell = true) :
    Ends (installMerged name base
        (mergeTarget (catalog.canonical.get? name) (catalog.known? name) staged) merged) catalog
      (fun id installed => Installed catalog name declarations id installed) fun _ => False := by
  have free (outside : mergeTarget (catalog.canonical.get? name) (catalog.known? name) staged =
      none) : catalog.canonical.get? name = none := by
    cases canonical : catalog.canonical.get? name with
    | none => rfl
    | some id => simp [mergeTarget, found, canonical] at outside
  have own {id : TypeId} (inside : mergeTarget (catalog.canonical.get? name)
      (catalog.known? name) staged = some id) : catalog.known? name = some id := by
    simp only [mergeTarget, found] at inside
    split at inside
    · exact found.trans inside
    · cases inside
  unfold installMerged
  cases target : mergeTarget (catalog.canonical.get? name) (catalog.known? name) staged with
  | none =>
    cases merged with
    | none =>
      rw [ends_allocate]
      exact .added (free target) (combined_shellOf base (silent rfl))
    | some content =>
      rw [ends_allocate]
      exact .added (free target) (combined content rfl)
  | some id =>
    cases merged with
    | none => exact .kept (own target) (silent rfl)
    | some content =>
      rw [ends_bind, ends_setDefinition]
      refine .filled (own target) ?_
      rw [shape_keepRemainder]
      exact combined content rfl

/-! ## Merging a name -/

theorem mergeSites_names (consistent : catalog.Consistent) {existing : TypeId}
    (found : catalog.known? name = some existing) {staged : List Declaration}
    (names : ∀ declaration ∈ staged, catalog.Names declaration.id name) :
    ∀ site ∈ catalog.mergeSites (catalog.known? name) staged, catalog.Names site.id name := by
  rw [found]
  unfold mergeSites
  dsimp only
  split
  · exact names
  · exact List.forall_mem_cons.mpr ⟨consistent.owned name existing found, names⟩

/-- The definition that the name has is one of the merged ones, unless it says nothing. -/
theorem mem_mergeSites_of_known (staged : List Declaration) (existing : TypeId)
    (found : catalog.known? name = some existing) :
    (catalog.definition existing).isShell = true ∨
      ∃ site ∈ catalog.mergeSites (catalog.known? name) staged, site.id = existing := by
  rw [found]
  unfold mergeSites
  dsimp only
  split
  · rename_i covered
    rcases Bool.or_eq_true_iff.mp covered with inside | shell
    · obtain ⟨site, member, same⟩ := List.any_eq_true.mp inside
      exact .inr ⟨site, member, by simpa using same⟩
    · exact .inl shell
  · exact .inr ⟨_, List.mem_cons_self, rfl⟩

theorem subset_mergeSites (catalog : Catalog) (existing : Option TypeId)
    (staged : List Declaration) : staged ⊆ catalog.mergeSites existing staged := by
  unfold mergeSites
  split
  · split
    · exact List.Subset.refl _
    · exact List.subset_cons_self _ _
  · exact List.Subset.refl _

theorem mem_mergeSites {existing : Option TypeId} {staged : List Declaration} {site : Declaration}
    (member : site ∈ catalog.mergeSites existing staged) :
    existing = some site.id ∨ site ∈ staged := by
  unfold mergeSites at member
  split at member
  · split at member
    · exact .inr member
    · rcases List.mem_cons.mp member with rfl | member
      · exact .inl rfl
      · exact .inr member
  · exact .inr member

/-- The definition that the name has, or one of its declarations, has the field. -/
def Offers (catalog : Catalog) (name : String) (staged : List Declaration) (field : String) :
    Prop :=
  ∃ id, (catalog.known? name = some id ∨ ∃ declaration ∈ staged, declaration.id = id) ∧
    (catalog.shape id).HasField field

theorem offers_iff_mergeSites {staged : List Declaration} {field : String} :
    catalog.Offers name staged field ↔
      ∃ site ∈ catalog.mergeSites (catalog.known? name) staged,
        (catalog.shape site.id).HasField field := by
  constructor
  · rintro ⟨id, found | ⟨declaration, member, rfl⟩, has⟩
    · rcases mem_mergeSites_of_known staged id found with shell | ⟨site, member, rfl⟩
      · exact absurd has (not_hasField_of_isShell shell)
      · exact ⟨site, member, has⟩
    · exact ⟨declaration, subset_mergeSites catalog _ staged member, has⟩
  · rintro ⟨site, member, has⟩
    exact ⟨site.id, (mem_mergeSites member).imp_right fun inside => ⟨site, inside, rfl⟩, has⟩

/-- Declarations of at most one base have the same base. -/
theorem base_eq_of_basesOf {full : List Declaration} (agree : ¬(catalog.basesOf full).length > 1)
    {first other : Declaration} (firstMember : first ∈ full) (otherMember : other ∈ full) :
    (catalog.definition other.id).base = (catalog.definition first.id).base := by
  have listed {declaration : Declaration} (member : declaration ∈ full) :
      (catalog.definition declaration.id).base ∈ catalog.basesOf full :=
    (perm_sortBy _ _).mem_iff.mpr (List.mem_eraseDups.mpr (List.mem_map_of_mem member))
  have left := listed firstMember
  have right := listed otherMember
  generalize catalog.basesOf full = bases at agree left right
  cases bases with
  | nil => exact absurd left List.not_mem_nil
  | cons base others =>
    cases others with
    | nil => rw [List.mem_singleton.mp left, List.mem_singleton.mp right]
    | cons => simp at agree

/-- What merging the declarations of a name leaves. -/
def MergedName (catalog : Catalog) (name : String) (staged : List Declaration)
    (after : Catalog) : Prop :=
  ∃ id installed,
    Installed catalog name (catalog.mergeSites (catalog.known? name) staged) id installed ∧
      Retired name (catalog.mergeSites (catalog.known? name) staged) (installed.establish name id)
        after

/-- Once the declarations are combined, nothing fails any more: the definition is installed under
its name, and the declarations are retired. -/
theorem ends_installRetiring (consistent : catalog.Consistent) {existing : TypeId}
    (found : catalog.known? name = some existing) {staged : List Declaration}
    (names : ∀ declaration ∈ staged, catalog.Names declaration.id name) (base : Base)
    (merged : Option Merged) (siteDocs : TypeId → OrderedMap TypeId String)
    (combined : ∀ content ∈ merged,
      catalog.Combined name (catalog.mergeSites (catalog.known? name) staged)
        content.definition.shape)
    (silent : merged = none → ∀ site ∈ catalog.mergeSites (catalog.known? name) staged,
      (catalog.definition site.id).isShell = true) :
    Ends (do
        let id ← installMerged name base
          (mergeTarget (catalog.canonical.get? name) (catalog.known? name) staged) merged
        eraseProvisional name
        setCanonical name id
        retire id (catalog.mergeSites (catalog.known? name) staged) (siteDocs id)) catalog
      (fun _ after => MergedName catalog name staged after) fun _ => False := by
  have owners := mergeSites_names consistent found names
  rw [ends_bind]
  refine (ends_installMerged found base merged combined silent).imp
    fun id installed install => ?_
  simp only [ends_bind, eraseProvisional, setCanonical, ends_modify]
  have canonical : (installed.establish name id).canonical.get? name = some id := by
    simp [OrderedMap.get?_set]
  have known : catalog.isKnown name = true := (catalog.isKnown_iff name).mpr ⟨existing, found⟩
  exact (ends_retire _ (siteDocs id) ((install.merging consistent known owners).consistent consistent)
    (fun site member => install.names consistent (owners site member)) canonical).imp
      fun _ _ retired => ⟨id, installed, install, retired⟩

theorem ends_mergeName (consistent : catalog.Consistent) (known : catalog.isKnown name = true)
    {staged : List Declaration}
    (names : ∀ declaration ∈ staged, catalog.Names declaration.id name) :
    Ends (mergeName name staged) catalog (fun _ after => MergedName catalog name staged after)
      (· = catalog) := by
  obtain ⟨existing, found⟩ := (catalog.isKnown_iff name).mp known
  simp only [mergeName, ends_bind, ends_get]
  -- The three kinds of content: nothing is said, an extension's value, a record's fields.
  refine ends_ite (fun _ => rfl) fun agree => ends_ite (fun empty => ?_) fun full =>
    ends_ite (fun extension => ?_) fun _ => ?_
  · rw [ends_bind, ends_pure]
    have silent : ∀ site ∈ catalog.mergeSites (catalog.known? name) staged,
        (catalog.definition site.id).isShell = true := by
      simpa [List.filter_eq_nil_iff] using empty
    exact (ends_installRetiring consistent found names _ none _ (by simp) fun _ => silent).mono
      (fun _ _ merged => merged) fun _ ended => ended.elim
  · rw [ends_bind, ends_map, ends_ofExcept]
    split
    · rename_i content made
      have extensions : ∀ declaration ∈ (catalog.mergeSites (catalog.known? name) staged).filter
          (fun site => !(catalog.definition site.id).isShell),
          (catalog.definition declaration.id).base = .extension := by
        intro declaration member
        cases same : (catalog.mergeSites (catalog.known? name) staged).filter
          (fun site => !(catalog.definition site.id).isShell) with
        | nil => simp [same] at full
        | cons first rest =>
          rw [same] at agree extension member
          exact (base_eq_of_basesOf agree List.mem_cons_self member).trans extension
      have combined := (combined_of_mergeExtension extensions made).of_full
      exact (ends_installRetiring consistent found names _ (some content) _
        (by simpa using combined) (by simp)).mono (fun _ _ merged => merged)
          fun _ ended => ended.elim
    · rfl
  · rw [ends_bind, ends_map, ends_ofExcept]
    split
    · rename_i content made
      have combined := (combined_of_mergeRecord made).of_full
      exact (ends_installRetiring consistent found names _ (some content) _
        (by simpa using combined) (by simp)).mono (fun _ _ merged => merged)
          fun _ ended => ended.elim
    · rfl

theorem MergedName.merging {staged : List Declaration}
    (merged : MergedName catalog name staged after)
    (consistent : catalog.Consistent) (known : catalog.isKnown name = true)
    (names : ∀ declaration ∈ staged, catalog.Names declaration.id name) :
    Merging catalog after := by
  obtain ⟨id, installed, install, retired⟩ := merged
  obtain ⟨existing, found⟩ := (catalog.isKnown_iff name).mp known
  exact (install.merging consistent known (mergeSites_names consistent found names)).trans
    retired.merging

/-- The declarations of a merged name stand for it. -/
theorem MergedName.standsFor {staged : List Declaration}
    (merged : MergedName catalog name staged after) {declaration : Declaration}
    (member : declaration ∈ staged) : after.StandsFor declaration.id name := by
  obtain ⟨_, _, _, retired⟩ := merged
  exact retired.stand declaration (subset_mergeSites catalog _ staged member)

/-- The canonical definition of a merged name has the fields that were offered for it. -/
theorem MergedName.fields {staged : List Declaration}
    (merged : MergedName catalog name staged after) (consistent : catalog.Consistent) :
    ∃ id, after.canonical.get? name = some id ∧ ∀ field,
      (after.shape id).HasField field ↔ catalog.Offers name staged field := by
  obtain ⟨id, installed, install, retired⟩ := merged
  have canonical : after.canonical.get? name = some id := by
    simp [retired.canonical, OrderedMap.get?_set]
  have shape : after.shape id = installed.shape id := by
    rw [Catalog.shape, Catalog.definition, retired.arena]
    rfl
  refine ⟨id, canonical, fun field => ?_⟩
  rw [shape, offers_iff_mergeSites]
  cases install with
  | kept found silent =>
    have shell : (catalog.definition id).isShell = true := by
      rcases mem_mergeSites_of_known staged id found with shell | ⟨site, member, rfl⟩
      · exact shell
      · exact silent site member
    refine iff_of_false (not_hasField_of_isShell shell) ?_
    rintro ⟨site, member, has⟩
    exact not_hasField_of_isShell (silent site member) has
  | filled found combined =>
    have held := (consistent.owned name id found).held
    rw [Catalog.shape, definition_put_self held]
    exact combined.fields field
  | added _ combined =>
    rw [Catalog.shape, definition_push, if_pos rfl]
    exact combined.fields field

/-- Merging a name leaves the definitions of other names alone. -/
theorem MergedName.shape_eq {staged : List Declaration} {id : TypeId} {other : String}
    (merged : MergedName catalog name staged after) (consistent : catalog.Consistent)
    (names : catalog.Names id other) (different : other ≠ name) :
    after.shape id = catalog.shape id := by
  obtain ⟨_, installed, install, retired⟩ := merged
  have shape : after.shape id = installed.shape id := by
    rw [Catalog.shape, Catalog.definition, retired.arena]
    rfl
  rw [shape]
  cases install with
  | kept => rfl
  | filled found =>
    rw [Catalog.shape, definition_put_of_ne]
    · rfl
    · rintro rfl
      exact different (names.same.symm.trans (consistent.owned name _ found).same)
  | added =>
    rw [Catalog.shape, definition_push, if_neg (ne_next_of_holds names.held)]
    rfl

theorem MergedName.known?_eq {staged : List Declaration} {other : String}
    (merged : MergedName catalog name staged after) (different : other ≠ name) :
    after.known? other = catalog.known? other := by
  obtain ⟨id, installed, install, retired⟩ := merged
  have same : installed.known? other = catalog.known? other := by cases install <;> rfl
  rw [known?, retired.canonical, retired.provisional, ← known?, known?_establish,
    if_neg different.symm, same]

theorem MergedName.offers_iff {staged others : List Declaration} {other field : String}
    (merged : MergedName catalog name staged after) (consistent : catalog.Consistent)
    (names : ∀ declaration ∈ others, catalog.Names declaration.id other)
    (different : other ≠ name) :
    after.Offers other others field ↔ catalog.Offers other others field := by
  rw [Offers, Offers, merged.known?_eq different]
  refine exists_congr fun id => and_congr_right fun offered => ?_
  have own : catalog.Names id other := by
    rcases offered with found | ⟨declaration, member, rfl⟩
    · exact consistent.owned other id found
    · exact names declaration member
  rw [merged.shape_eq consistent own different]

/-! ## Merging everything -/

/-- What merging the buckets of several names leaves, one after the other. -/
structure MergedBuckets (before : Catalog) (buckets : List (String × List Declaration))
    (after : Catalog) : Prop where
  merging : Merging before after
  fields : ∀ name bucket, (name, bucket) ∈ buckets → ∃ id, after.canonical.get? name = some id ∧
    ∀ field, (after.shape id).HasField field ↔ before.Offers name bucket field
  /-- The definitions of other names stay as they are. -/
  frame : ∀ id name, before.Names id name → name ∉ buckets.map Prod.fst →
    after.shape id = before.shape id
  stand : ∀ name bucket, (name, bucket) ∈ buckets → ∀ declaration ∈ bucket,
    after.StandsFor declaration.id name

/-- The buckets have known names and hold definitions of these names. -/
def Mergeable (catalog : Catalog) (buckets : List (String × List Declaration)) : Prop :=
  ∀ name bucket, (name, bucket) ∈ buckets →
    catalog.isKnown name = true ∧ ∀ declaration ∈ bucket, catalog.Names declaration.id name

theorem Mergeable.merging {buckets : List (String × List Declaration)}
    (mergeable : before.Mergeable buckets) (consistent : before.Consistent)
    (merging : Merging before after) : after.Mergeable buckets := by
  intro name bucket member
  obtain ⟨known, names⟩ := mergeable name bucket member
  exact ⟨merging.isKnown known,
    fun declaration within => merging.names consistent (names declaration within)⟩

/-- What is staged can be merged once it is taken out of the buckets. -/
theorem Consistent.mergeable_discharge (consistent : catalog.Consistent) :
    catalog.discharge.Mergeable catalog.pending.entries := by
  intro name bucket member
  obtain ⟨known, names⟩ := consistent.staged name bucket member
  exact ⟨known, fun declaration within => (names declaration within).of_arena rfl⟩

theorem ends_mergeNames (buckets : List (String × List Declaration))
    (consistent : catalog.Consistent) (mergeable : catalog.Mergeable buckets)
    (distinct : (buckets.map Prod.fst).Nodup) :
    Ends (buckets.forM fun (name, bucket) => mergeName name bucket) catalog
      (fun _ after => MergedBuckets catalog buckets after) (Merging catalog) := by
  induction buckets generalizing catalog with
  | nil => exact ⟨.refl, by simp, fun _ _ _ _ => rfl, by simp⟩
  | cons first rest ih =>
    obtain ⟨name, bucket⟩ := first
    obtain ⟨fresh, distinct⟩ := List.nodup_cons.mp distinct
    obtain ⟨known, names⟩ := mergeable name bucket List.mem_cons_self
    have others : catalog.Mergeable rest := fun other staged member =>
      mergeable other staged (List.mem_cons_of_mem _ member)
    rw [List.forM, ends_bind]
    refine (ends_mergeName consistent known names).mono (fun _ middle merged => ?_)
      fun after same => same ▸ .refl
    have merging := merged.merging consistent known names
    have further := merging.consistent consistent
    refine (ih further (others.merging consistent merging) distinct).mono
      (fun _ after more => ?_) fun _ more => merging.trans more
    -- The names are distinct: no later merge touches what this one has made, and this one
    -- touches nothing that a later one takes in.
    refine ⟨merging.trans more.merging, fun other staged member => ?_,
      fun id other own absent => ?_, fun other staged member declaration inside => ?_⟩
    · rcases List.mem_cons.mp member with same | within
      · cases same
        obtain ⟨id, canonical, fields⟩ := merged.fields consistent
        have own := further.owned name id (known?_of_canonical canonical)
        refine ⟨id, more.merging.canonical canonical, fun field => ?_⟩
        rw [more.frame id name own fresh]
        exact fields field
      · obtain ⟨id, canonical, fields⟩ := more.fields other staged within
        have different : other ≠ name := by
          rintro rfl
          exact fresh (List.mem_map.mpr ⟨_, within, rfl⟩)
        exact ⟨id, canonical, fun field => (fields field).trans
          (merged.offers_iff consistent (others other staged within).2 different)⟩
    · obtain ⟨different, absent⟩ := List.ne_and_not_mem_of_not_mem_cons absent
      exact (more.frame id other (merging.names consistent own) absent).trans
        (merged.shape_eq consistent own different)
    · rcases List.mem_cons.mp member with same | within
      · cases same
        exact more.merging.standsFor further (merged.standsFor inside)
      · exact more.stand other staged within declaration inside

/-- What a merge leaves: everything staged is merged, and then all that the canonical definitions
are made of is settled. -/
structure MergedAll (before middle after : Catalog) : Prop where
  merged : MergedBuckets before.discharge before.pending.entries middle
  settled : ∃ ids, Walked middle ids [] after ∧
    ∀ name id, middle.canonical.get? name = some id → id ∈ ids

theorem MergedAll.merging {middle : Catalog} (merged : MergedAll before middle after) :
    Merging before middle := .head .discharge merged.merged.merging

theorem MergedAll.settling {middle : Catalog} (merged : MergedAll before middle after) :
    Settling middle after := by
  obtain ⟨_, walked, _⟩ := merged.settled
  exact walked.settling

theorem MergedAll.consistent {middle : Catalog} (merged : MergedAll before middle after)
    (consistent : before.Consistent) : after.Consistent :=
  merged.settling.consistent (merged.merging.consistent consistent)

theorem ends_settleCanonical (consistent : catalog.Consistent) :
    Ends settleCanonical catalog
      (fun _ after => ∃ ids, Walked catalog ids [] after ∧
        ∀ name id, catalog.canonical.get? name = some id → id ∈ ids)
      (Settling catalog) := by
  have listed (name : String) (id : TypeId) :
      (name, id) ∈ sortBy (fun left right => decide (left.1 < right.1)) catalog.canonical.entries ↔
        catalog.canonical.get? name = some id := by
    rw [(perm_sortBy _ _).mem_iff]
    exact ⟨OrderedMap.get?_of_mem_entries consistent.distinct, OrderedMap.mem_entries_of_get?⟩
  simp only [settleCanonical, ends_bind, ends_get]
  refine (ends_settle consistent _ (fun id member => ?_) fun id member => ?_).mono
    (fun _ after walked => ⟨_, walked, fun name id found => ?_⟩) fun _ settling => settling
  · obtain ⟨⟨name, _⟩, entry, rfl⟩ := List.mem_map.mp member
    exact (consistent.owned name _ (known?_of_canonical ((listed name _).mp entry))).held
  · obtain ⟨⟨name, _⟩, entry, rfl⟩ := List.mem_map.mp member
    exact consistent.settled_of_canonical ((listed name _).mp entry)
  · exact List.mem_map.mpr ⟨_, (listed name id).mpr found, rfl⟩

theorem ends_mergePending (consistent : catalog.Consistent) :
    Ends mergePending catalog (fun _ after => ∃ middle, MergedAll catalog middle after)
      (fun after => ∃ middle, Merging catalog middle ∧ Settling middle after) := by
  simp only [mergePending, ends_bind, ends_get, ends_modify]
  have emptied : Merging catalog catalog.discharge := .single .discharge
  refine (ends_mergeNames catalog.pending.entries consistent.discharge
    consistent.mergeable_discharge consistent.distinctStaged).mono (fun _ middle merged => ?_)
      fun after merging => ⟨after, emptied.trans merging, .refl⟩
  refine (ends_settleCanonical (merged.merging.consistent consistent.discharge)).mono
    (fun _ after settled => ⟨middle, merged, settled⟩)
    fun after settling => ⟨middle, emptied.trans merged.merging, settling⟩

end DocShapes.Catalog
