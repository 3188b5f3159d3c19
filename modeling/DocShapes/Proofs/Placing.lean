import DocShapes.Proofs.Delivering
import DocShapes.Proofs.Gathering

/-! # Merging gathered declarations

When blocks of channels are all that has been read, the merge makes a new canonical definition for
each name. Every declaration of the name is retired in favour of it and keeps what the merge has
left for its site (`Placed`); no definition that was there before changes.
-/

namespace DocShapes

namespace OrderedMap

variable {κ α : Type} [DecidableEq κ]

theorem find_append (key : κ) (left right : List (κ × α)) :
    find key (left ++ right) = (find key left).or (find key right) := by
  induction left with
  | nil => rfl
  | cons entry rest ih =>
    simp only [List.cons_append, find]
    split
    · rfl
    · exact ih

/-- The last pair of a key gives its value. -/
theorem get?_ofList (pairs : List (κ × α)) (key : κ) :
    (ofList pairs).get? key = find key pairs.reverse := by
  have fold (map : OrderedMap κ α) :
      (pairs.foldl (fun map pair => map.set pair.1 pair.2) map).get? key =
        (find key pairs.reverse).or (map.get? key) := by
    induction pairs generalizing map with
    | nil => rfl
    | cons pair rest ih =>
      rw [List.foldl_cons, ih, List.reverse_cons, find_append, get?_set]
      cases find key rest.reverse with
      | some => rfl
      | none =>
        simp only [Option.none_or, find]
        split <;> rfl
  rw [ofList, fold, get?_empty, Option.or_none]

/-- A map of what some items with different keys have. -/
theorem get?_ofList_filterMap {ι : Type} {items : List ι} (key : ι → κ) (value : ι → Option α)
    (distinct : (items.map key).Nodup) {item : ι} (member : item ∈ items) :
    (ofList (items.filterMap fun item => (value item).map fun found => (key item, found))).get?
      (key item) = value item := by
  rw [get?_ofList, ← List.filterMap_reverse]
  replace member := List.mem_reverse.mpr member
  have distinct : (items.reverse.map key).Nodup := by
    rw [List.map_reverse]
    exact List.nodup_reverse.mpr distinct
  generalize items.reverse = items at member distinct
  induction items with
  | nil => cases member
  | cons first rest ih =>
    obtain ⟨fresh, others⟩ := List.nodup_cons.mp distinct
    rcases List.mem_cons.mp member with rfl | later
    · cases found : value item with
      | some => simp [found, find]
      | none =>
        have absent : ∀ (rest : List ι), key item ∉ rest.map key →
            find (key item) (rest.filterMap fun item =>
              (value item).map fun found => (key item, found)) = none := by
          intro rest
          induction rest with
          | nil => simp [find]
          | cons other more ih =>
            intro absent
            obtain ⟨apart, absent⟩ := List.ne_and_not_mem_of_not_mem_cons absent
            cases own : value other <;> simp [own, find, Ne.symm apart, ih absent]
        simpa [found] using absent rest fresh
    · have apart : key first ≠ key item := fun same =>
        fresh (same ▸ List.mem_map.mpr ⟨item, later, rfl⟩)
      cases own : value first <;> simp [own, find, apart, ih later others]

end OrderedMap

namespace Catalog

variable {catalog before middle after : Catalog} {name : String} {staged : List Declaration}

/-! ## Retiring -/

/-- Declarations that are retired once each keep what is left for them. -/
structure Withdrawn (before : Catalog) (target : TypeId) (sites : List Declaration)
    (siteDocs : OrderedMap TypeId String) (after : Catalog) : Prop where
  arena : after.arena = before.arena
  canonical : after.canonical = before.canonical
  provisional : after.provisional = before.provisional
  places : ∀ site ∈ sites,
    after.forward.get? site.id = some ⟨target, siteDocs.get? site.id⟩
  beside : ∀ id, id ∉ sites.map Declaration.id → after.forward.get? id = before.forward.get? id

theorem ends_retire_withdrawn {target : TypeId} (sites : List Declaration)
    (siteDocs : OrderedMap TypeId String) (once : (sites.map Declaration.id).Nodup)
    (others : ∀ site ∈ sites, site.id ≠ target) :
    Ends (retire target sites siteDocs) catalog
      (fun _ after => catalog.Withdrawn target sites siteDocs after) fun _ => False := by
  induction sites generalizing catalog siteDocs with
  | nil => exact ⟨rfl, rfl, rfl, by simp, fun _ _ => rfl⟩
  | cons site rest ih =>
    obtain ⟨fresh, restOnce⟩ := List.nodup_cons.mp once
    obtain ⟨different, restOthers⟩ := List.forall_mem_cons.mp others
    simp only [retire, forwardTo, ends_bind, if_neg different, ends_modify]
    refine (ih (siteDocs.erase site.id) restOnce restOthers).imp fun _ after retired => ?_
    refine ⟨retired.arena, retired.canonical, retired.provisional,
      List.forall_mem_cons.mpr ⟨?_, fun other member => ?_⟩, fun id absent => ?_⟩
    · rw [retired.beside site.id fresh, OrderedMap.get?_set, if_pos rfl]
    · have apart : site.id ≠ other.id := fun same =>
        fresh (same ▸ List.mem_map.mpr ⟨other, member, rfl⟩)
      rw [retired.places other member, OrderedMap.get?_erase, if_neg apart]
    · obtain ⟨apart, absent⟩ := List.ne_and_not_mem_of_not_mem_cons absent
      rw [retired.beside id absent, OrderedMap.get?_set, if_neg (Ne.symm apart)]

/-! ## Merged names -/

/-- Declarations of a name for which nothing is merged yet; the definition that the name has at the
moment is one of them. -/
structure Unmerged (catalog : Catalog) (name : String) (staged : List Declaration) : Prop where
  free : catalog.canonical.get? name = none
  known : ∃ declaration ∈ staged, catalog.known? name = some declaration.id
  names : ∀ declaration ∈ staged, catalog.Names declaration.id name
  once : (staged.map Declaration.id).Nodup

theorem Unmerged.isKnown (unmerged : catalog.Unmerged name staged) :
    catalog.isKnown name = true := by
  obtain ⟨declaration, _, found⟩ := unmerged.known
  exact (catalog.isKnown_iff name).mpr ⟨declaration.id, found⟩

theorem Unmerged.mergeSites_eq (unmerged : catalog.Unmerged name staged) :
    catalog.mergeSites (catalog.known? name) staged = staged := by
  obtain ⟨declaration, member, found⟩ := unmerged.known
  have present : (staged.any fun other => other.id = declaration.id) = true :=
    List.any_eq_true.mpr ⟨declaration, member, by simp⟩
  simp [mergeSites, found, present]

theorem Unmerged.mergeTarget_eq (unmerged : catalog.Unmerged name staged) :
    mergeTarget (catalog.canonical.get? name) (catalog.known? name) staged = none := by
  obtain ⟨declaration, member, found⟩ := unmerged.known
  have present : (staged.any fun other => other.id = declaration.id) = true :=
    List.any_eq_true.mpr ⟨declaration, member, by simp⟩
  simp [mergeTarget, found, unmerged.free, present]

/-- What is made of declarations: their docs are factored, and each field leads where its first
declaration leads. -/
structure Made (catalog : Catalog) (staged : List Declaration) (merged : Merged) : Prop where
  docs : (merged.definition.doc, merged.siteDocs) =
    catalog.mergeDocs staged (catalog.withContent staged).length
  leading : ∀ field first others,
    (catalog.candidates (catalog.withContent staged)).get? field = some (first :: others) →
      ∃ site ∈ merged.definition.shape.sites, site.target = first.site.target

/-- A merged definition in its place, with its declarations retired. -/
structure Placed (catalog : Catalog) (name : String) (staged : List Declaration) (id : TypeId)
    (merged : Merged) : Prop where
  held : catalog.Holds id
  canonical : catalog.canonical.get? name = some id
  definition : catalog.definition id = merged.definition
  forward : ∀ declaration ∈ staged,
    catalog.forward.get? declaration.id = some ⟨id, merged.siteDocs.get? declaration.id⟩

/-! ## What is made -/

theorem isShell_eq_false_of_hasContent {definition : Definition}
    (content : definition.hasContent = true) : definition.isShell = false := by
  simp [Definition.isShell, content]

theorem withContent_full (catalog : Catalog) (staged : List Declaration) :
    catalog.withContent (staged.filter fun site => !(catalog.definition site.id).isShell) =
      catalog.withContent staged := by
  rw [withContent, withContent, List.filter_filter]
  refine List.filter_congr fun site _ => ?_
  cases content : (catalog.definition site.id).hasContent with
  | false => rfl
  | true => simp [isShell_eq_false_of_hasContent content]

theorem writtenDocs_full (catalog : Catalog) (staged : List Declaration) :
    catalog.writtenDocs (staged.filter fun site => !(catalog.definition site.id).isShell) =
      catalog.writtenDocs staged := by
  induction staged with
  | nil => rfl
  | cons site rest ih =>
    unfold writtenDocs at ih ⊢
    cases shell : (catalog.definition site.id).isShell with
    | false =>
      rw [List.filter_cons_of_pos (by simp [shell]), List.filterMap_cons, List.filterMap_cons, ih]
    | true =>
      have none : (catalog.definition site.id).doc = none := by
        simpa using (Bool.and_eq_true_iff.mp shell).1
      rw [List.filter_cons_of_neg (by simp [shell]), ih, List.filterMap_cons_none (by simp [none])]

theorem mergeDocs_full (catalog : Catalog) (staged : List Declaration) (count : Nat) :
    catalog.mergeDocs (staged.filter fun site => !(catalog.definition site.id).isShell) count =
      catalog.mergeDocs staged count := by
  simp only [mergeDocs, writtenDocs_full]

theorem made_of_mergeRecord {merged : Merged}
    (succeeds : catalog.mergeRecord name
      (staged.filter fun site => !(catalog.definition site.id).isShell) = .ok merged) :
    catalog.Made staged merged := by
  obtain ⟨results, merges, _, rfl⟩ := mergeRecord_eq_ok_iff.mp succeeds
  simp only [withContent_full, mergeDocs_full] at merges ⊢
  refine ⟨rfl, fun field first others found => ?_⟩
  obtain ⟨result, member, made⟩ :=
    (mem_of_mapM_eq_ok merges).2 _ (OrderedMap.mem_entries_of_get? found)
  obtain ⟨site, rfl, target, _⟩ := mergeField_use made
  refine ⟨site, ?_, target⟩
  change site ∈ sortBy _ _
  rw [(perm_sortBy _ _).mem_iff]
  simpa using member

/-- Declarations that have no fields have no candidates for one. -/
theorem get?_candidates_eq_none {content : List Declaration}
    (bare : ∀ declaration ∈ content, (catalog.shape declaration.id).sites = [])
    (field : String) : (catalog.candidates content).get? field = none := by
  cases found : (catalog.candidates content).get? field with
  | none => rfl
  | some group =>
    have grouped := grouped_candidates catalog content
    have entry := OrderedMap.mem_entries_of_get? found
    cases group with
    | nil => exact absurd rfl (grouped.nonempty field [] entry)
    | cons first others =>
      obtain ⟨inside, _⟩ := grouped.sound field _ entry first List.mem_cons_self
      obtain ⟨declaration, member, _, within⟩ := mem_declared.mp inside
      rw [bare declaration member] at within
      exact absurd within List.not_mem_nil

theorem made_of_mergeExtension {merged : Merged}
    (extensions : ∀ declaration ∈ catalog.withContent staged,
      (catalog.definition declaration.id).base = .extension)
    (succeeds : catalog.mergeExtension name
      (staged.filter fun site => !(catalog.definition site.id).isShell) = .ok merged) :
    catalog.Made staged merged := by
  rw [mergeExtension] at succeeds
  simp only [withContent_full, mergeDocs_full] at succeeds
  obtain ⟨value, _, succeeds⟩ := exists_of_bind_eq_ok succeeds
  cases succeeds
  refine ⟨rfl, fun field first others found => ?_⟩
  rw [get?_candidates_eq_none fun declaration member =>
    Shape.sites_eq_nil_of_extension (extensions declaration member)] at found
  cases found

theorem made_of_silent (base : Base)
    (silent : ∀ site ∈ staged, (catalog.definition site.id).isShell = true) :
    catalog.Made staged ⟨shellOf base name, .empty⟩ := by
  have full : (staged.filter fun site => !(catalog.definition site.id).isShell) = [] := by
    simpa [List.filter_eq_nil_iff] using silent
  have content : catalog.withContent staged = [] := by
    rw [← withContent_full, full]
    rfl
  refine ⟨?_, fun field first others found => ?_⟩
  · rw [← mergeDocs_full, full, content, shellOf]
    split <;> rfl
  · rw [content] at found
    cases found

/-! ## Merging one name -/

/-- What merging the declarations of a name leaves. -/
structure Placing (before : Catalog) (name : String) (staged : List Declaration)
    (after : Catalog) : Prop where
  placed : ∃ id merged, before.Made staged merged ∧ after.Placed name staged id merged
  held : ∀ id, before.Holds id → after.Holds id
  definition : ∀ id, before.Holds id → after.definition id = before.definition id
  forward : ∀ id, id ∉ staged.map Declaration.id → after.forward.get? id = before.forward.get? id
  canonical : ∀ other, other ≠ name → after.canonical.get? other = before.canonical.get? other
  known : ∀ other, other ≠ name → after.known? other = before.known? other

theorem ends_place {merged : Merged} (unmerged : catalog.Unmerged name staged)
    (made : catalog.Made staged merged) :
    Ends (do
        let id ← allocate merged.definition
        eraseProvisional name
        setCanonical name id
        retire id staged merged.siteDocs) catalog
      (fun _ after => catalog.Placing name staged after) fun _ => False := by
  have old : ∀ site ∈ staged, site.id ≠ catalog.next :=
    fun site member => ne_next_of_holds (unmerged.names site member).held
  simp only [ends_bind, ends_allocate, eraseProvisional, setCanonical, ends_modify]
  refine (ends_retire_withdrawn staged merged.siteDocs unmerged.once old).imp
    fun _ after retired => ?_
  have definition (id : TypeId) :
      after.definition id = (catalog.push merged.definition).definition id := by
    rw [Catalog.definition, retired.arena]
    rfl
  have known (other : String) :
      after.known? other = ((catalog.push merged.definition).establish name catalog.next).known?
        other := by
    rw [known?, retired.canonical, retired.provisional]
    rfl
  have held (id : TypeId) : after.Holds id ↔ (catalog.push merged.definition).Holds id := by
    rw [Holds, retired.arena]
    rfl
  refine ⟨⟨catalog.next, merged, made, (held _).mpr (by simp), ?_, ?_, retired.places⟩,
    fun id old => (held id).mpr (by simp [old]), fun id held => ?_,
    retired.beside, fun other different => ?_, fun other different => ?_⟩
  · simp [retired.canonical, OrderedMap.get?_set]
  · rw [definition, definition_push, if_pos rfl]
  · rw [definition, definition_push, if_neg (ne_next_of_holds held)]
  · simp [retired.canonical, OrderedMap.get?_set, Ne.symm different]
  · rw [known, known?_establish, if_neg (Ne.symm different)]
    rfl

theorem ends_mergeName_placing (unmerged : catalog.Unmerged name staged) :
    Ends (mergeName name staged) catalog (fun _ after => catalog.Placing name staged after)
      fun _ => True := by
  simp only [mergeName, ends_bind, ends_get, unmerged.mergeSites_eq, unmerged.mergeTarget_eq]
  refine ends_ite (fun _ => trivial) fun agree => ends_ite (fun empty => ?_) fun _ =>
    ends_ite (fun extension => ?_) fun _ => ?_
  · rw [ends_bind, ends_pure]
    have silent : ∀ site ∈ staged, (catalog.definition site.id).isShell = true := by
      simpa [List.filter_eq_nil_iff] using empty
    exact (ends_place unmerged (made_of_silent _ silent)).mono (fun _ _ placing => placing)
      fun _ ended => ended.elim
  · rw [ends_bind, ends_map, ends_ofExcept]
    split
    · rename_i merged succeeds
      refine (ends_place unmerged (made_of_mergeExtension (fun declaration member => ?_)
        succeeds)).mono (fun _ _ placing => placing) fun _ ended => ended.elim
      rw [← withContent_full] at member
      have inside := (List.mem_filter.mp member).1
      cases same : staged.filter fun site => !(catalog.definition site.id).isShell with
      | nil => simp [same] at inside
      | cons first rest =>
        rw [same] at agree extension inside
        exact (base_eq_of_basesOf agree List.mem_cons_self inside).trans extension
    · trivial
  · rw [ends_bind, ends_map, ends_ofExcept]
    split
    · rename_i merged succeeds
      exact (ends_place unmerged (made_of_mergeRecord succeeds)).mono
        (fun _ _ placing => placing) fun _ ended => ended.elim
    · trivial

/-! ## Merging everything -/

/-- What is made of declarations depends on their definitions alone. -/
theorem Made.congr {merged : Merged} (made : after.Made staged merged)
    (same : ∀ declaration ∈ staged,
      after.definition declaration.id = before.definition declaration.id) :
    before.Made staged merged := by
  have content : after.withContent staged = before.withContent staged :=
    List.filter_congr fun declaration member => by rw [same declaration member]
  have written : after.writtenDocs staged = before.writtenDocs staged :=
    List.filterMap_congr fun declaration member => by rw [same declaration member]
  have groups : after.candidates (before.withContent staged) =
      before.candidates (before.withContent staged) := by
    have all : after.declared (before.withContent staged) =
        before.declared (before.withContent staged) :=
      List.flatMap_congr fun declaration member => by
        rw [Catalog.shape, same declaration (List.mem_filter.mp member).1]
        rfl
    change List.foldl _ _ (after.declared _) = List.foldl _ _ (before.declared _)
    rw [all]
  refine ⟨?_, fun field first others found => made.leading field first others ?_⟩
  · rw [made.docs, content]
    simp only [mergeDocs, written]
  · rw [content, groups]
    exact found

theorem Placing.names (placing : before.Placing name staged after) {id : TypeId} {other : String}
    (names : before.Names id other) : after.Names id other := by
  have same := placing.definition id names.held
  exact ⟨placing.held id names.held, by rw [same]; exact names.named,
    by rw [same]; exact names.same⟩

theorem Placing.unmerged (placing : before.Placing name staged after) {other : String}
    {others : List Declaration} (different : other ≠ name)
    (unmerged : before.Unmerged other others) : after.Unmerged other others where
  free := (placing.canonical other different).trans unmerged.free
  known := by
    obtain ⟨declaration, member, found⟩ := unmerged.known
    exact ⟨declaration, member, (placing.known other different).trans found⟩
  names declaration member := placing.names (unmerged.names declaration member)
  once := unmerged.once

theorem not_mem_of_names {others : List Declaration} {id : TypeId} {other : String}
    (names : ∀ declaration ∈ others, catalog.Names declaration.id other)
    (own : catalog.Names id name) (different : name ≠ other) :
    id ∉ others.map Declaration.id := by
  intro member
  obtain ⟨declaration, inside, rfl⟩ := List.mem_map.mp member
  exact different (own.same.symm.trans (names declaration inside).same)

/-- What merging the buckets of several names leaves. -/
structure PlacedAll (before : Catalog) (buckets : List (String × List Declaration))
    (after : Catalog) : Prop where
  placed : ∀ name staged, (name, staged) ∈ buckets →
    ∃ id merged, before.Made staged merged ∧ after.Placed name staged id merged
  held : ∀ id, before.Holds id → after.Holds id
  definition : ∀ id, before.Holds id → after.definition id = before.definition id
  forward : ∀ id, (∀ name staged, (name, staged) ∈ buckets → id ∉ staged.map Declaration.id) →
    after.forward.get? id = before.forward.get? id
  canonical : ∀ name, name ∉ buckets.map Prod.fst →
    after.canonical.get? name = before.canonical.get? name

/-- Merging other names leaves a placed one where it is. -/
theorem Placed.placedAll {id : TypeId} {merged : Merged}
    {buckets : List (String × List Declaration)} (placed : before.Placed name staged id merged)
    (all : PlacedAll before buckets after) (fresh : name ∉ buckets.map Prod.fst)
    (apart : ∀ declaration ∈ staged, ∀ other others, (other, others) ∈ buckets →
      declaration.id ∉ others.map Declaration.id) :
    after.Placed name staged id merged where
  held := all.held id placed.held
  canonical := (all.canonical name fresh).trans placed.canonical
  definition := (all.definition id placed.held).trans placed.definition
  forward declaration member :=
    (all.forward declaration.id (apart declaration member)).trans
      (placed.forward declaration member)

theorem ends_mergeNames_placed (buckets : List (String × List Declaration))
    (unmerged : ∀ name staged, (name, staged) ∈ buckets → catalog.Unmerged name staged)
    (distinct : (buckets.map Prod.fst).Nodup) :
    Ends (buckets.forM fun (name, bucket) => mergeName name bucket) catalog
      (fun _ after => PlacedAll catalog buckets after) fun _ => True := by
  induction buckets generalizing catalog with
  | nil => exact ⟨by simp, fun _ held => held, fun _ _ => rfl, fun _ _ => rfl, fun _ _ => rfl⟩
  | cons bucket rest ih =>
    obtain ⟨name, staged⟩ := bucket
    obtain ⟨fresh, distinct⟩ := List.nodup_cons.mp distinct
    have here := unmerged name staged List.mem_cons_self
    have different (other : String) (others : List Declaration) (member : (other, others) ∈ rest) :
        other ≠ name := by
      rintro rfl
      exact fresh (List.mem_map.mpr ⟨_, member, rfl⟩)
    have later (other : String) (others : List Declaration) (member : (other, others) ∈ rest) :=
      unmerged other others (List.mem_cons_of_mem _ member)
    rw [List.forM, ends_bind]
    refine (ends_mergeName_placing here).imp fun _ middle placing => ?_
    refine (ih (fun other others member => placing.unmerged (different other others member)
      (later other others member)) distinct).imp fun _ after all => ?_
    refine ⟨fun other others member => ?_, fun id held => all.held id (placing.held id held),
      fun id held => (all.definition id (placing.held id held)).trans (placing.definition id held),
      fun id absent => ?_, fun other absent => ?_⟩
    · rcases List.mem_cons.mp member with same | member
      · cases same
        obtain ⟨id, merged, made, placed⟩ := placing.placed
        refine ⟨id, merged, made, placed.placedAll all fresh fun declaration inside other others
          member => ?_⟩
        exact not_mem_of_names (later other others member).names (here.names declaration inside)
          (Ne.symm (different other others member))
      · obtain ⟨id, merged, made, placed⟩ := all.placed other others member
        exact ⟨id, merged, made.congr fun declaration inside => placing.definition _
          ((later other others member).names declaration inside).held, placed⟩
    · exact (all.forward id fun other others member =>
        absent other others (List.mem_cons_of_mem _ member)).trans
          (placing.forward id (absent name staged List.mem_cons_self))
    · obtain ⟨apart, absent⟩ := List.ne_and_not_mem_of_not_mem_cons absent
      exact (all.canonical other absent).trans (placing.canonical other apart)

theorem PlacedAll.of_discharge {buckets : List (String × List Declaration)}
    (all : PlacedAll before.discharge buckets after) : PlacedAll before buckets after where
  placed name staged member := by
    obtain ⟨id, merged, made, placed⟩ := all.placed name staged member
    exact ⟨id, merged, made.congr fun _ _ => rfl, placed⟩
  held := all.held
  definition := all.definition
  forward := all.forward
  canonical := all.canonical

/-- Gathered declarations are not merged yet. -/
theorem Gathered.unmerged (gathered : catalog.Gathered) {bucket : List Declaration}
    (member : (name, bucket) ∈ catalog.pending.entries) :
    catalog.discharge.Unmerged name bucket := by
  have consistent := gathered.consistent
  have found := OrderedMap.get?_of_mem_entries consistent.distinctStaged member
  have own : catalog.bucket name = bucket := by
    rw [Catalog.bucket, found]
    rfl
  obtain ⟨known, names⟩ := consistent.staged name bucket member
  obtain ⟨id, present⟩ := (catalog.isKnown_iff name).mp known
  have owner := consistent.owned name id present
  obtain ⟨channel, inside⟩ := gathered.whole id owner.held owner.named
  rw [owner.same, own] at inside
  refine ⟨?_, ⟨_, inside, present⟩,
    fun declaration within => (names declaration within).of_arena rfl, own ▸ gathered.once name⟩
  rw [discharge_canonical, gathered.canonical]
  rfl

/-- A merge after blocks: each name is placed, and settling delivers what is left for the sites. -/
structure MergedBlocks (before middle after : Catalog) : Prop where
  merged : MergedAll before middle after
  placed : PlacedAll before before.pending.entries middle
  delivers : Delivers middle after

theorem Gathered.merge (gathered : before.Gathered)
    (merges : mergePending before = .ok () after) :
    ∃ middle, MergedBlocks before middle after := by
  suffices ends : Ends mergePending before (fun _ after => ∃ middle, MergedBlocks before middle after)
      fun _ => True from ends.of_ok merges
  have consistent := gathered.consistent
  simp only [mergePending, ends_bind, ends_get, ends_modify]
  refine ((ends_mergeNames before.pending.entries consistent.discharge
    consistent.mergeable_discharge consistent.distinctStaged).and (ends_mergeNames_placed before.pending.entries
      (fun name bucket member => gathered.unmerged member) consistent.distinctStaged)).mono
        (fun _ middle merged => ?_) fun _ _ => trivial
  have further := merged.1.merging.consistent consistent.discharge
  exact ((ends_settleCanonical further).and (ends_settleCanonical_delivers further)).mono
    (fun _ _ settled => ⟨middle, ⟨merged.1, settled.1⟩, merged.2.of_discharge, settled.2⟩) fun _ _ => trivial

end Catalog

end DocShapes
