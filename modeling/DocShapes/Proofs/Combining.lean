import DocShapes.Catalog.Merge
import DocShapes.Proofs.Growth
import Mathlib.Data.List.Nodup
import Mathlib.Data.Option.Basic

/-! # Combining declarations

The definition that declarations are combined into is made of what they are made of, and has the
fields that they declare (`Combined`).
-/

namespace DocShapes

theorem exists_of_bind_eq_ok {ε α β : Type} {step : Except ε α} {next : α → Except ε β} {result : β}
    (succeeds : step >>= next = .ok result) :
    ∃ found, step = .ok found ∧ next found = .ok result := by
  cases step with
  | error => cases succeeds
  | ok found => exact ⟨found, rfl, succeeds⟩

/-- Each result comes of an item, and each item has a result. -/
theorem mem_of_mapM_eq_ok {ε α β : Type} {step : α → Except ε β} {items : List α}
    {results : List β} (succeeds : items.mapM step = .ok results) :
    (∀ result ∈ results, ∃ item ∈ items, step item = .ok result) ∧
      ∀ item ∈ items, ∃ result ∈ results, step item = .ok result := by
  induction items generalizing results with
  | nil =>
    cases succeeds
    simp
  | cons item rest ih =>
    rw [List.mapM_cons] at succeeds
    obtain ⟨first, made, succeeds⟩ := exists_of_bind_eq_ok succeeds
    obtain ⟨others, madeOthers, succeeds⟩ := exists_of_bind_eq_ok succeeds
    cases succeeds
    obtain ⟨sound, complete⟩ := ih madeOthers
    refine ⟨fun result member => ?_, fun other member => ?_⟩
    · rcases List.mem_cons.mp member with rfl | member
      · exact ⟨item, List.mem_cons_self, made⟩
      · obtain ⟨other, within, same⟩ := sound result member
        exact ⟨other, List.mem_cons_of_mem _ within, same⟩
    · rcases List.mem_cons.mp member with rfl | member
      · exact ⟨first, List.mem_cons_self, made⟩
      · obtain ⟨result, within, same⟩ := complete other member
        exact ⟨result, List.mem_cons_of_mem _ within, same⟩

namespace Shape

theorem target_mem_children_of_mem_sites {shape : Shape} {site : Site}
    (member : site ∈ shape.sites) : site.target ∈ shape.children := by
  cases shape <;> simp only [sites, List.not_mem_nil] at member <;>
    exact List.mem_map.mpr ⟨.sited site, by simpa [slots] using member, rfl⟩

theorem target_mem_children_of_inner? {shape : Shape} {slot : Slot}
    (found : shape.inner? = some slot) : slot.target ∈ shape.children := by
  cases shape <;> simp only [inner?, reduceCtorEq] at found <;>
    exact List.mem_map.mpr ⟨slot, by simp [slots, found], rfl⟩

theorem sites_eq_nil_of_not_hasContent {shape : Shape} (silent : shape.hasContent = false) :
    shape.sites = [] := by
  cases shape <;> simp_all [hasContent, slots, sites]

theorem sites_eq_nil_of_extension {shape : Shape} (extension : shape.base = .extension) :
    shape.sites = [] := by
  cases shape <;> first | rfl | cases extension

end Shape

/-! ## Fields of a record -/

namespace Edit

variable {name : String} {present : List Site}

theorem ends_pushField_record (field : Site)
    (distinct : (Shape.record name present).FieldsDistinct) :
    Ends (pushField field) (.ofShape (.record name present))
      (fun _ after => (Shape.record name (present ++ [field])).FieldsDistinct ∧
        after = .ofShape (.record name (present ++ [field])))
      (fun _ => ¬(Shape.record name (present ++ [field])).FieldsDistinct) := by
  simp only [pushField, ends_bind, ends_get]
  apply ends_ite
  · intro unnamed grown
    have spelled := grown.named field (List.mem_append_right present List.mem_cons_self)
    exact spelled (by simpa using unnamed)
  intro named
  have spelled : field.name.getD "" ≠ "" := by simpa using named
  have full : field.name = some (field.name.getD "") := by
    cases name : field.name with
    | none => simp [name] at spelled
    | some => rfl
  apply ends_ite
  · intro taken grown
    obtain ⟨other, member, same⟩ := List.any_eq_true.mp taken
    have nodup : ((present ++ [field]).map Site.name).Nodup := grown.nodup
    rw [List.map_append, List.nodup_append] at nodup
    apply nodup.2.2 other.name (List.mem_map_of_mem member) field.name (by simp)
    rw [full]
    exact of_decide_eq_true same
  · intro fresh
    have grown := fieldsDistinct_append spelled fresh distinct.named distinct.nodup
    exact ⟨⟨grown.1, grown.2⟩, rfl⟩

theorem ends_pushFields_record (fields : List Site)
    (distinct : (Shape.record name present).FieldsDistinct) :
    Ends (fields.forM pushField) (.ofShape (.record name present))
      (fun _ after => (Shape.record name (present ++ fields)).FieldsDistinct ∧
        after = .ofShape (.record name (present ++ fields)))
      (fun _ => ¬(Shape.record name (present ++ fields)).FieldsDistinct) := by
  induction fields generalizing present with
  | nil =>
    rw [List.append_nil]
    exact ⟨distinct, rfl⟩
  | cons field rest ih =>
    have split : present ++ field :: rest = present ++ [field] ++ rest := by simp
    rw [List.forM, ends_bind, split]
    apply (ends_pushField_record field distinct).mono
    · intro _ after pushed
      rw [pushed.2]
      exact ih pushed.1
    · intro _ repeated grown
      apply repeated
      apply grown.of_sublist
      exact (List.sublist_append_left _ _).map _

end Edit

namespace Catalog

variable {catalog : Catalog} {name field : String}

/-- A record takes fields that have names of their own, and no others. -/
theorem recordWith_eq_ok_iff {fields : List Site} {record : Definition} :
    recordWith name fields = .ok record ↔
      (Shape.record name fields).FieldsDistinct ∧ record = .ofShape (.record name fields) := by
  have none : (Shape.record name []).FieldsDistinct := Shape.fieldsDistinct_of_sites_eq_nil rfl
  have ends : Ends (Edit.setFields fields) (.ofShape (.record name []))
      (fun _ after => (Shape.record name fields).FieldsDistinct ∧
        after = .ofShape (.record name fields))
      (fun _ => ¬(Shape.record name fields).FieldsDistinct) :=
    Edit.ends_pushFields_record fields none
  unfold recordWith
  unfold Ends at ends
  split
  · rename_i after filled
    rw [filled] at ends
    constructor
    · rintro ⟨⟩
      exact ends
    · intro made
      rw [made.2, ends.2]
  · rename_i error after failed
    rw [failed] at ends
    simp [ends]

/-- A record is merged if each of its fields is, and the fields have names of their own. -/
theorem mergeRecord_eq_ok_iff {full : List Declaration} {merged : Merged} :
    catalog.mergeRecord name full = .ok merged ↔ ∃ results,
      (catalog.candidates (catalog.withContent full)).entries.mapM (fun (field, all) =>
        catalog.mergeField name field (catalog.accessOf (catalog.withContent full)) all) =
          .ok results ∧
      (Shape.record name (sortBy earlierName (results.filterMap id))).FieldsDistinct ∧
      merged = {
        definition :=
          { shape := .record name (sortBy earlierName (results.filterMap id))
            doc := (catalog.mergeDocs full (catalog.withContent full).length).1
            annotations := catalog.mergeAnnotations full }
        siteDocs := (catalog.mergeDocs full (catalog.withContent full).length).2 } := by
  rw [mergeRecord]
  constructor
  · intro succeeds
    obtain ⟨results, merges, succeeds⟩ := exists_of_bind_eq_ok succeeds
    obtain ⟨record, filled, succeeds⟩ := exists_of_bind_eq_ok succeeds
    obtain ⟨distinct, rfl⟩ := recordWith_eq_ok_iff.mp filled
    cases succeeds
    exact ⟨results, merges, distinct, rfl⟩
  · rintro ⟨results, merges, distinct, rfl⟩
    simp only [merges, recordWith_eq_ok_iff.mpr ⟨distinct, rfl⟩, bind, Except.bind]
    rfl

/-! ## Candidates -/

/-- A map of the given candidates by the names of their fields. -/
structure Grouped (groups : OrderedMap String (List Candidate)) (all : List Candidate) :
    Prop where
  nonempty : ∀ field group, (field, group) ∈ groups.entries → group ≠ []
  sound : ∀ field group, (field, group) ∈ groups.entries → ∀ candidate ∈ group,
    candidate ∈ all ∧ candidate.site.name.getD "" = field
  complete : ∀ candidate ∈ all, ∃ group,
    groups.get? (candidate.site.name.getD "") = some group ∧ candidate ∈ group

theorem Grouped.add {groups : OrderedMap String (List Candidate)} {all : List Candidate}
    (grouped : Grouped groups all) (candidate : Candidate) :
    Grouped (groups.set (candidate.site.name.getD "")
      ((groups.get? (candidate.site.name.getD "")).getD [] ++ [candidate]))
      (all ++ [candidate]) where
  nonempty field group member := by
    rcases OrderedMap.mem_entries_set member with same | member
    · cases same
      simp
    · exact grouped.nonempty field group member
  sound field group member other within := by
    rcases OrderedMap.mem_entries_set member with same | member
    · cases same
      rcases List.mem_append.mp within with within | within
      · cases found : groups.get? (candidate.site.name.getD "") with
        | none => simp [found] at within
        | some present =>
          rw [found] at within
          obtain ⟨inside, sameName⟩ :=
            grouped.sound _ _ (OrderedMap.mem_entries_of_get? found) other within
          exact ⟨List.mem_append_left _ inside, sameName⟩
      · rw [List.mem_singleton.mp within]
        exact ⟨by simp, rfl⟩
    · obtain ⟨inside, sameName⟩ := grouped.sound field group member other within
      exact ⟨List.mem_append_left _ inside, sameName⟩
  complete other member := by
    rw [OrderedMap.get?_set]
    split
    · rename_i sameName
      refine ⟨_, rfl, ?_⟩
      rcases List.mem_append.mp member with member | member
      · obtain ⟨group, found, within⟩ := grouped.complete other member
        rw [sameName, found]
        exact List.mem_append_left _ within
      · rw [List.mem_singleton.mp member]
        simp
    · rename_i different
      rcases List.mem_append.mp member with member | member
      · exact grouped.complete other member
      · exact absurd (by rw [List.mem_singleton.mp member]) different

/-- The fields that declarations declare. -/
def declared (catalog : Catalog) (content : List Declaration) : List Candidate :=
  content.flatMap fun declaration =>
    (catalog.shape declaration.id).sites.map fun site => ⟨declaration.channel, site⟩

theorem grouped_candidates (catalog : Catalog) (content : List Declaration) :
    Grouped (catalog.candidates content) (catalog.declared content) := by
  have fold (more : List Candidate) :
      ∀ (groups : OrderedMap String (List Candidate)) (all : List Candidate), Grouped groups all →
        Grouped (more.foldl (fun map candidate =>
          map.set (candidate.site.name.getD "")
            ((map.get? (candidate.site.name.getD "")).getD [] ++ [candidate])) groups)
          (all ++ more) := by
    induction more with
    | nil => exact fun groups all grouped => by simpa using grouped
    | cons candidate rest ih =>
      exact fun groups all grouped => by simpa using ih _ _ (grouped.add candidate)
  have none : Grouped .empty [] := ⟨by simp [OrderedMap.empty], by simp [OrderedMap.empty], by simp⟩
  simpa using! fold (catalog.declared content) .empty [] none

theorem mem_declared {content : List Declaration} {candidate : Candidate} :
    candidate ∈ catalog.declared content ↔
      ∃ declaration ∈ content, declaration.channel = candidate.channel ∧
        candidate.site ∈ (catalog.shape declaration.id).sites := by
  obtain ⟨channel, site⟩ := candidate
  simp only [declared, List.mem_flatMap, List.mem_map, Candidate.mk.injEq]
  constructor
  · rintro ⟨declaration, member, _, within, rfl, rfl⟩
    exact ⟨declaration, member, rfl, within⟩
  · rintro ⟨declaration, member, rfl, within⟩
    exact ⟨declaration, member, site, within, rfl, rfl⟩

/-! ## Fields -/

/-- Two declarations of a field do not contradict each other. -/
structure Compatible (catalog : Catalog) (left right : Site) : Prop where
  type : catalog.equivalent left.target right.target = true
  doc : ∀ first ∈ left.doc, ∀ second ∈ right.doc, first = second
  qualifiers : left.qualifiers.isEmpty = false → right.qualifiers.isEmpty = false →
    left.qualifiers.same right.qualifiers = true

/-- A declaration completed by what another one says beyond it. -/
def complete (winner other : Site) : Site where
  target := winner.target
  name := winner.name
  doc := winner.doc.or other.doc
  qualifiers := if winner.qualifiers.isEmpty then other.qualifiers else winner.qualifiers

theorem commonDoc_eq_ok_iff {left right doc : Option String} :
    commonDoc name field left right = .ok doc ↔
      (∀ first ∈ left, ∀ second ∈ right, first = second) ∧ doc = left.or right := by
  cases left with
  | none => simp [commonDoc, eq_comm]
  | some first =>
    cases right with
    | none => simp [commonDoc, eq_comm]
    | some second =>
      by_cases same : first = second
      · simp [commonDoc, same, eq_comm]
      · simp [commonDoc, same]

theorem commonQualifiers_eq_ok_iff {left right qualifiers : Qualifiers} :
    commonQualifiers name field left right = .ok qualifiers ↔
      (left.isEmpty = false → right.isEmpty = false → left.same right = true) ∧
        qualifiers = if left.isEmpty then right else left := by
  unfold commonQualifiers
  cases left.isEmpty with
  | true => simp [@eq_comm _ qualifiers]
  | false =>
    cases right.isEmpty with
    | true => simp [@eq_comm _ qualifiers]
    | false => cases left.same right <;> simp [@eq_comm _ qualifiers]

theorem reconcile_eq_ok_iff {winner other site : Site} :
    catalog.reconcile name field winner other = .ok site ↔
      catalog.Compatible winner other ∧ site = complete winner other := by
  cases type : catalog.equivalent winner.target other.target with
  | false =>
    have apart : ¬catalog.Compatible winner other := by
      intro compatible
      rw [compatible.type] at type
      cases type
    simp [reconcile, type, apart, bind, Except.bind, throw, throwThe, MonadExceptOf.throw]
  | true =>
    have steps : catalog.reconcile name field winner other = (do
        let doc ← commonDoc name field winner.doc other.doc
        let qualifiers ← commonQualifiers name field winner.qualifiers other.qualifiers
        return { winner with doc, qualifiers }) := by
      simp [reconcile, type]
    rw [steps]
    constructor
    · intro made
      obtain ⟨doc, docs, made⟩ := exists_of_bind_eq_ok made
      obtain ⟨qualifiers, uses, made⟩ := exists_of_bind_eq_ok made
      obtain ⟨sameDoc, rfl⟩ := commonDoc_eq_ok_iff.mp docs
      obtain ⟨sameUse, rfl⟩ := commonQualifiers_eq_ok_iff.mp uses
      cases made
      exact ⟨⟨type, sameDoc, sameUse⟩, rfl⟩
    · rintro ⟨compatible, rfl⟩
      rw [commonDoc_eq_ok_iff.mpr ⟨compatible.doc, rfl⟩,
        commonQualifiers_eq_ok_iff.mpr ⟨compatible.qualifiers, rfl⟩]
      rfl

/-- The field that comes of two declarations leads where the first one leads. -/
theorem reconcile_use {winner other site : Site}
    (succeeds : catalog.reconcile name field winner other = .ok site) :
    site.target = winner.target ∧ site.name = winner.name := by
  obtain ⟨_, rfl⟩ := reconcile_eq_ok_iff.mp succeeds
  exact ⟨rfl, rfl⟩

theorem mergeField_use {access : Access} {first : Candidate}
    {others : List Candidate} {result : Option Site}
    (succeeds : catalog.mergeField name field access (first :: others) = .ok result) :
    ∃ site, result = some site ∧ site.target = first.site.target ∧
      site.name = first.site.name := by
  have fold (others : List Candidate) (winner : Site)
      (same : winner.target = first.site.target ∧ winner.name = first.site.name) {site : Site}
      (folded : others.foldlM (fun winner candidate =>
        catalog.reconcile name field winner candidate.site) winner = .ok site) :
      site.target = first.site.target ∧ site.name = first.site.name := by
    induction others generalizing winner with
    | nil =>
      cases folded
      exact same
    | cons candidate rest ih =>
      rw [List.foldlM_cons] at folded
      obtain ⟨next, step, folded⟩ := exists_of_bind_eq_ok folded
      have use := reconcile_use step
      exact ih next ⟨use.1.trans same.1, use.2.trans same.2⟩ folded
  rw [mergeField] at succeeds
  obtain ⟨site, folded, succeeds⟩ := exists_of_bind_eq_ok succeeds
  cases succeeds
  have use := fold others first.site ⟨rfl, rfl⟩ folded
  exact ⟨_, rfl, use.1, use.2⟩

/-- What becomes of the groups has their names, one field for each group. -/
theorem names_of_mergeField {groups : List (String × List Candidate)} {access : Access}
    {results : List (Option Site)}
    (grouped : ∀ field group, (field, group) ∈ groups → group ≠ [] ∧
      ∀ candidate ∈ group, candidate.site.name = some field)
    (merges : groups.mapM (fun (field, all) => catalog.mergeField name field access all) =
      .ok results) :
    (results.filterMap id).map Site.name = groups.map fun group => some group.1 := by
  induction groups generalizing results with
  | nil =>
    cases merges
    rfl
  | cons group rest ih =>
    obtain ⟨field, all⟩ := group
    rw [List.mapM_cons] at merges
    obtain ⟨result, made, merges⟩ := exists_of_bind_eq_ok merges
    obtain ⟨others, madeOthers, merges⟩ := exists_of_bind_eq_ok merges
    cases merges
    obtain ⟨nonempty, named⟩ := grouped field all List.mem_cons_self
    have later := ih (fun other members within =>
      grouped other members (List.mem_cons_of_mem _ within)) madeOthers
    cases all with
    | nil => exact absurd rfl nonempty
    | cons first candidates =>
      obtain ⟨site, rfl, _, same⟩ := mergeField_use made
      have own : site.name = some field := same.trans (named first List.mem_cons_self)
      simpa [own] using later

/-- Candidates that all have names are grouped by them. -/
theorem labelled_candidates {content : List Declaration}
    (spelled : ∀ declaration ∈ content, ∀ site ∈ (catalog.shape declaration.id).sites,
      site.name.getD "" ≠ "") {field : String} {group : List Candidate}
    (entry : (field, group) ∈ (catalog.candidates content).entries) :
    group ≠ [] ∧ ∀ candidate ∈ group, field ≠ "" ∧ candidate.site.name = some field := by
  have grouped := grouped_candidates catalog content
  refine ⟨grouped.nonempty field group entry, fun candidate member => ?_⟩
  obtain ⟨inside, same⟩ := grouped.sound field group entry candidate member
  obtain ⟨declaration, declares, _, within⟩ := mem_declared.mp inside
  have full := spelled declaration declares candidate.site within
  rw [same] at full
  cases name : candidate.site.name with
  | none => simp [name, full.symm] at same
  | some other => simpa [name, full] using same

theorem fieldsDistinct_of_merges {groups : OrderedMap String (List Candidate)} {access : Access}
    {results : List (Option Site)} (keys : groups.keys.Nodup)
    (labelled : ∀ field group, (field, group) ∈ groups.entries → group ≠ [] ∧
      ∀ candidate ∈ group, field ≠ "" ∧ candidate.site.name = some field)
    (merges : groups.entries.mapM (fun (field, all) =>
      catalog.mergeField name field access all) = .ok results) (before : Site → Site → Bool) :
    (Shape.record name (sortBy before (results.filterMap id))).FieldsDistinct := by
  have names := names_of_mergeField (fun field group entry => ⟨(labelled field group entry).1,
    fun candidate member => ((labelled field group entry).2 candidate member).2⟩) merges
  have sorted := (perm_sortBy before (results.filterMap id)).map Site.name
  rw [names] at sorted
  constructor
  · intro site member
    have listed := sorted.mem_iff.mp (List.mem_map_of_mem (f := Site.name) member)
    obtain ⟨⟨field, group⟩, entry, same⟩ := List.mem_map.mp listed
    obtain ⟨nonempty, spelled⟩ := labelled field group entry
    obtain ⟨candidate, within⟩ := List.exists_mem_of_ne_nil group nonempty
    rw [← same]
    exact (spelled candidate within).1
  · apply sorted.nodup_iff.mpr
    have once := keys.map (Option.some_injective String)
    rwa [OrderedMap.keys, List.map_map] at once

/-- The fields of a merged record have names of their own. -/
theorem fieldsDistinct_of_mergeRecord {full : List Declaration} {merged : Merged}
    (succeeds : catalog.mergeRecord name full = .ok merged) :
    merged.definition.shape.FieldsDistinct := by
  obtain ⟨results, _, distinct, rfl⟩ := mergeRecord_eq_ok_iff.mp succeeds
  exact distinct

/-- The merged record has exactly the names of the declared fields, and each of its fields leads
where a declared one of its name leads. -/
theorem sites_of_mergeRecord {full : List Declaration} {merged : Merged}
    (succeeds : catalog.mergeRecord name full = .ok merged) :
    ∃ sites, merged.definition.shape = .record name sites ∧
      (∀ site ∈ sites, ∃ declaration ∈ full, ∃ other ∈ (catalog.shape declaration.id).sites,
        site.target = other.target ∧ site.name = other.name) ∧
      ∀ declaration ∈ full, ∀ other ∈ (catalog.shape declaration.id).sites,
        ∃ site ∈ sites, site.name.getD "" = other.name.getD "" := by
  have grouped := grouped_candidates catalog (catalog.withContent full)
  obtain ⟨results, merges, _, rfl⟩ := mergeRecord_eq_ok_iff.mp succeeds
  obtain ⟨sound, complete⟩ := mem_of_mapM_eq_ok merges
  clear merges
  have sorted (site : Site) :
      site ∈ sortBy earlierName (results.filterMap id) ↔ some site ∈ results := by
    rw [(perm_sortBy _ _).mem_iff]
    simp
  refine ⟨_, rfl, fun site member => ?_, fun declaration member other inside => ?_⟩
  · obtain ⟨⟨field, group⟩, entry, made⟩ := sound _ ((sorted site).mp member)
    cases group with
    | nil => exact absurd rfl (grouped.nonempty field [] entry)
    | cons first others =>
      obtain ⟨_, ⟨⟩, use⟩ := mergeField_use made
      obtain ⟨within, _⟩ := grouped.sound field _ entry first List.mem_cons_self
      obtain ⟨declaration, content, _, inside⟩ := mem_declared.mp within
      exact ⟨declaration, (List.mem_filter.mp content).1, first.site, inside, use⟩
  · have content : declaration ∈ catalog.withContent full := by
      refine List.mem_filter.mpr ⟨member, Bool.of_not_eq_false fun silent => ?_⟩
      have silent : (catalog.shape declaration.id).hasContent = false := silent
      rw [Shape.sites_eq_nil_of_not_hasContent silent] at inside
      exact absurd inside List.not_mem_nil
    obtain ⟨group, found, within⟩ := grouped.complete ⟨declaration.channel, other⟩
      (mem_declared.mpr ⟨declaration, content, rfl, inside⟩)
    obtain ⟨result, resultMember, made⟩ := complete _ (OrderedMap.mem_entries_of_get? found)
    cases group with
    | nil => exact absurd within List.not_mem_nil
    | cons first others =>
      obtain ⟨kept, rfl, _, sameName⟩ := mergeField_use made
      refine ⟨kept, (sorted kept).mpr resultMember, ?_⟩
      rw [sameName]
      exact (grouped.sound _ _ (OrderedMap.mem_entries_of_get? found) first List.mem_cons_self).2

/-! ## Definitions -/

/-- A shape that declarations of a name are combined into. -/
structure Combined (catalog : Catalog) (name : String) (declarations : List Declaration)
    (shape : Shape) : Prop where
  named : shape.isNamed = true
  name : shape.name = name
  /-- It is made of what the declarations are made of. -/
  children : ∀ child ∈ shape.children, ∃ declaration ∈ declarations,
    child ∈ (catalog.shape declaration.id).children
  /-- No declared field is lost, and no other is added. -/
  fields : ∀ field, shape.HasField field ↔
    ∃ declaration ∈ declarations, (catalog.shape declaration.id).HasField field

theorem combined_of_mergeRecord {full : List Declaration} {merged : Merged}
    (succeeds : catalog.mergeRecord name full = .ok merged) :
    catalog.Combined name full merged.definition.shape := by
  obtain ⟨sites, shape, sound, complete⟩ := sites_of_mergeRecord succeeds
  rw [shape]
  refine ⟨rfl, rfl, fun child member => ?_, fun field => ⟨?_, ?_⟩⟩
  · simp only [Shape.children, Shape.slots, List.map_map, List.mem_map] at member
    obtain ⟨site, member, rfl⟩ := member
    obtain ⟨declaration, within, other, inside, target, _⟩ := sound site member
    have child := Shape.target_mem_children_of_mem_sites inside
    rw [← target] at child
    exact ⟨declaration, within, child⟩
  · rintro ⟨site, member, rfl⟩
    obtain ⟨declaration, within, other, inside, _, same⟩ := sound site member
    exact ⟨declaration, within, other, inside, by rw [same]⟩
  · rintro ⟨declaration, member, other, inside, rfl⟩
    obtain ⟨site, within, same⟩ := complete declaration member other inside
    exact ⟨site, within, same⟩

theorem mem_of_agreedValue {values : List Slot} {agreed : Option Slot} {slot : Slot}
    (succeeds : catalog.agreedValue name agreed values = .ok (some slot)) :
    agreed = some slot ∨ slot ∈ values := by
  induction values generalizing agreed with
  | nil =>
    cases agreed <;> cases succeeds
    exact .inl rfl
  | cons first rest ih =>
    cases agreed with
    | none =>
      rcases ih succeeds with same | member
      · cases same
        exact .inr List.mem_cons_self
      · exact .inr (List.mem_cons_of_mem _ member)
    | some value =>
      rw [agreedValue] at succeeds
      split at succeeds
      · exact (ih succeeds).imp_right (List.mem_cons_of_mem _)
      · cases succeeds

theorem combined_of_mergeExtension {full : List Declaration} {merged : Merged}
    (extensions : ∀ declaration ∈ full, (catalog.definition declaration.id).base = .extension)
    (succeeds : catalog.mergeExtension name full = .ok merged) :
    catalog.Combined name full merged.definition.shape := by
  rw [mergeExtension] at succeeds
  obtain ⟨value, agrees, succeeds⟩ := exists_of_bind_eq_ok succeeds
  have shape : merged.definition.shape = .extension name value := by
    cases succeeds
    rfl
  rw [shape]
  refine ⟨rfl, rfl, fun child member => ?_, fun field => iff_of_false ?_ ?_⟩
  · cases value with
    | none => simp [Shape.children, Shape.slots] at member
    | some slot =>
      have same : child = slot.target := by
        simpa [Shape.children, Shape.slots] using member
      rcases mem_of_agreedValue agrees with ended | within
      · cases ended
      · obtain ⟨declaration, content, found⟩ := List.mem_filterMap.mp within
        exact ⟨declaration, (List.mem_filter.mp content).1,
          same ▸ Shape.target_mem_children_of_inner? found⟩
  · rintro ⟨site, inside, _⟩
    exact absurd inside List.not_mem_nil
  · rintro ⟨declaration, member, site, inside, _⟩
    rw [show (catalog.shape declaration.id).sites = [] from
      Shape.sites_eq_nil_of_extension (extensions declaration member)] at inside
    exact absurd inside List.not_mem_nil

theorem not_hasField_of_isShell {id : TypeId} {field : String}
    (shell : (catalog.definition id).isShell = true) : ¬(catalog.shape id).HasField field := by
  rintro ⟨site, inside, _⟩
  have silent : (catalog.shape id).hasContent = false := by
    have silent := (Bool.and_eq_true_iff.mp shell).2
    rwa [Bool.not_eq_true'] at silent
  rw [Shape.sites_eq_nil_of_not_hasContent silent] at inside
  exact absurd inside List.not_mem_nil

/-- Declarations that say nothing have nothing to lose. -/
theorem Combined.of_full {declarations : List Declaration} {shape : Shape}
    (combined : catalog.Combined name
      (declarations.filter fun site => !(catalog.definition site.id).isShell) shape) :
    catalog.Combined name declarations shape where
  named := combined.named
  name := combined.name
  children child member := by
    obtain ⟨declaration, full, within⟩ := combined.children child member
    exact ⟨declaration, (List.mem_filter.mp full).1, within⟩
  fields field := by
    refine (combined.fields field).trans (exists_congr fun declaration =>
      and_congr_left fun has => ⟨fun full => (List.mem_filter.mp full).1, fun member => ?_⟩)
    refine List.mem_filter.mpr ⟨member, ?_⟩
    rw [Bool.not_eq_true']
    exact Bool.eq_false_iff.mpr fun shell => not_hasField_of_isShell shell has

end Catalog

end DocShapes
