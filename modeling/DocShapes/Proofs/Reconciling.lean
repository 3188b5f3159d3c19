import DocShapes.Proofs.Dereferencing
import DocShapes.Proofs.Placing

/-! # Declarations that restate a definition

A declaration that restates a definition gives it no new field and contradicts none of its fields.
Merged behind the definition, such declarations come to nothing new: each field of the definition
wins against the later ones, and no field is flagged, because the definition is unscoped.
-/

namespace DocShapes

theorem exists_mapM_eq_ok {ε α β : Type} {step : α → Except ε β} {items : List α}
    (each : ∀ item ∈ items, ∃ result, step item = .ok result) :
    ∃ results, items.mapM step = .ok results := by
  induction items with
  | nil => exact ⟨[], rfl⟩
  | cons item rest ih =>
    obtain ⟨⟨first, here⟩, later⟩ := List.forall_mem_cons.mp each
    obtain ⟨others, more⟩ := ih later
    exact ⟨first :: others, by rw [List.mapM_cons, here, more]; rfl⟩

theorem filter_eq_singleton {α β : Type} [DecidableEq β] {items : List α} {key : α → β}
    (distinct : (items.map key).Nodup) {item : α} (member : item ∈ items) :
    (items.filter fun other => key other = key item) = [item] := by
  induction items with
  | nil => cases member
  | cons first rest ih =>
    obtain ⟨fresh, distinct⟩ := List.nodup_cons.mp distinct
    rcases List.mem_cons.mp member with rfl | later
    · have others : (rest.filter fun other => key other = key item) = [] := by
        rw [List.filter_eq_nil_iff]
        intro other inside same
        exact fresh (List.mem_map.mpr ⟨other, inside, of_decide_eq_true same⟩)
      simp [others]
    · have apart : key first ≠ key item := fun same =>
        fresh (List.mem_map.mpr ⟨item, later, same.symm⟩)
      simp [apart, ih distinct later]

instance (shape : Shape) : Decidable shape.FieldsDistinct :=
  decidable_of_iff
    ((∀ site ∈ shape.sites, site.name.getD "" ≠ "") ∧ (shape.sites.map Site.name).Nodup)
    ⟨fun ⟨named, nodup⟩ => ⟨named, nodup⟩, fun ⟨named, nodup⟩ => ⟨named, nodup⟩⟩

theorem Shape.FieldsDistinct.nodup_labels {shape : Shape} (distinct : shape.FieldsDistinct) :
    (shape.sites.map fun site => site.name.getD "").Nodup := by
  have labels : (shape.sites.map fun site => site.name.getD "") =
      (shape.sites.map Site.name).map fun name => name.getD "" := by
    rw [List.map_map]
    rfl
  rw [labels]
  refine List.Nodup.map_on (fun left inLeft right inRight same => ?_) distinct.nodup
  obtain ⟨leftSite, leftMember, rfl⟩ := List.mem_map.mp inLeft
  obtain ⟨rightSite, rightMember, rfl⟩ := List.mem_map.mp inRight
  have leftNamed := distinct.named leftSite leftMember
  have rightNamed := distinct.named rightSite rightMember
  cases left : leftSite.name <;> cases right : rightSite.name <;> simp_all

namespace Catalog

variable {catalog before after : Catalog} {name field : String} {id : TypeId}

/-! ## Fields -/

/-- The second use of a field says nothing that the first one does not say. -/
structure Restates (catalog : Catalog) (own other : Site) : Prop where
  name : other.name = own.name
  type : catalog.equivalent own.target other.target = true
  doc : other.doc = none ∨ other.doc = own.doc
  qualifiers : other.qualifiers.isEmpty = true ∨
    own.qualifiers.isEmpty = false ∧ own.qualifiers.same other.qualifiers = true

instance (catalog : Catalog) (own other : Site) : Decidable (catalog.Restates own other) :=
  decidable_of_iff
    (other.name = own.name ∧ catalog.equivalent own.target other.target = true ∧
      (other.doc = none ∨ other.doc = own.doc) ∧
      (other.qualifiers.isEmpty = true ∨
        own.qualifiers.isEmpty = false ∧ own.qualifiers.same other.qualifiers = true))
    ⟨fun ⟨name, type, doc, qualifiers⟩ => ⟨name, type, doc, qualifiers⟩,
      fun ⟨name, type, doc, qualifiers⟩ => ⟨name, type, doc, qualifiers⟩⟩

/-- The declarations of a field that is merged have types that are equivalent to the first one. -/
theorem equivalent_of_mergeField {access : Access} {first : Candidate} {others : List Candidate}
    {found : Option Site}
    (made : catalog.mergeField name field access (first :: others) = .ok found) :
    ∀ other ∈ others, catalog.equivalent first.site.target other.site.target = true := by
  have fold (more : List Candidate) (winner : Site) {site : Site}
      (folded : more.foldlM (fun winner candidate =>
        catalog.reconcile name field winner candidate.site) winner = .ok site) :
      ∀ other ∈ more, catalog.equivalent winner.target other.site.target = true := by
    induction more generalizing winner with
    | nil => simp
    | cons candidate rest ih =>
      rw [List.foldlM_cons] at folded
      obtain ⟨next, step, folded⟩ := exists_of_bind_eq_ok folded
      have later := ih next folded
      rw [(reconcile_use step).1] at later
      exact List.forall_mem_cons.mpr ⟨(reconcile_eq_ok_iff.mp step).1.type, later⟩
  rw [mergeField] at made
  obtain ⟨site, folded, _⟩ := exists_of_bind_eq_ok made
  exact fold others first.site folded

/-- Equivalent types lead to definitions of one base and one name. -/
theorem face_of_equivalentWithin {depth : Nat} {left right : TypeId}
    (equivalent : catalog.equivalentWithin depth left right = true) :
    (catalog.definition (catalog.follow left)).base =
        (catalog.definition (catalog.follow right)).base ∧
      (catalog.definition (catalog.follow left)).name =
        (catalog.definition (catalog.follow right)).name := by
  cases depth with
  | zero => cases equivalent
  | succ depth =>
    rw [equivalentWithin, Bool.or_eq_true, decide_eq_true_iff] at equivalent
    rcases equivalent with same | agree
    · rw [same]
      exact ⟨rfl, rfl⟩
    · simp only [definitionsAgree, Bool.and_eq_true, decide_eq_true_iff] at agree
      exact agree.1

/-- In a record that is merged, the first declaration of a field and any later one lead to
definitions of one base and one name. -/
theorem face_of_mergeRecord {full : List Declaration} {merged : Merged}
    (made : catalog.mergeRecord name full = .ok merged) {first : Candidate}
    {others : List Candidate}
    (group : (catalog.candidates (catalog.withContent full)).get? field = some (first :: others)) :
    ∀ other ∈ others,
      (catalog.definition (catalog.follow first.site.target)).base =
          (catalog.definition (catalog.follow other.site.target)).base ∧
        (catalog.definition (catalog.follow first.site.target)).name =
          (catalog.definition (catalog.follow other.site.target)).name := by
  obtain ⟨results, merges, _⟩ := mergeRecord_eq_ok_iff.mp made
  obtain ⟨result, _, field⟩ :=
    (mem_of_mapM_eq_ok merges).2 _ (OrderedMap.mem_entries_of_get? group)
  exact fun other member => face_of_equivalentWithin (equivalent_of_mergeField field other member)

def readColor : Operation := .parseEntries ⟨some .read, false⟩ "x : Foo\n    c : Color"

def writeColor : Operation := .parseEntries ⟨some .write, false⟩ "y : Foo\n    c : Color"

def loadColor : Operation := .loadExtension "Color : ('r' | 'g')" none

/-- An extension that is loaded late gives a base to the first mention of its name only, and a merge
compares the bases of mentions. -/
theorem fieldConflict_lateExtension :
    (∃ entries middle others before after landed final,
      succeeds loadColor.perform empty = true ∧
        Yields .read readColor (leaves loadColor.perform empty) entries middle ∧
        Yields .write writeColor middle others before ∧
        mergePending before = .ok () after ∧
        dereferenceAll ((entries ++ others).filterMap Entry.slot) after = .ok landed final) ∧
      ∃ entries middle others before left right after,
        Yields .read readColor empty entries middle ∧
          Yields .write writeColor middle others before ∧
          succeeds loadColor.perform before = true ∧
          mergePending (leaves loadColor.perform before) =
            .error (.fieldConflict "Foo" "c" left right) after := by
  let read := parseEntries ⟨some .read, false⟩ "x : Foo\n    c : Color"
  let write := parseEntries ⟨some .write, false⟩ "y : Foo\n    c : Color"
  have yields {start : Catalog} (reads : succeeds read start = true)
      (writes : succeeds write (leaves read start) = true) :
      ∃ entries others, Yields .read readColor start entries (leaves read start) ∧
        Yields .write writeColor (leaves read start) others (leaves write (leaves read start)) := by
    obtain ⟨entries, reads⟩ := eq_ok_of_succeeds reads
    obtain ⟨others, writes⟩ := eq_ok_of_succeeds writes
    exact ⟨entries, others, .entries reads, .entries writes⟩
  refine ⟨?_, ?_⟩
  · let loaded := leaves loadColor.perform empty
    let before := leaves write (leaves read loaded)
    have lands : succeedsWith (fun entries => succeedsWith (fun others =>
        succeeds (dereferenceAll ((entries ++ others).filterMap Entry.slot))
          (leaves mergePending before)) write (leaves read loaded)) read loaded = true := by
      decide +kernel
    have merges : succeeds mergePending before = true := by decide +kernel
    obtain ⟨entries, reads, lands⟩ := eq_ok_of_succeedsWith lands
    obtain ⟨others, writes, lands⟩ := eq_ok_of_succeedsWith lands
    obtain ⟨_, merges⟩ := eq_ok_of_succeeds merges
    obtain ⟨landed, lands⟩ := eq_ok_of_succeeds lands
    exact ⟨entries, _, others, before, _, landed, _, by decide +kernel, .entries reads,
      .entries writes, merges, lands⟩
  · obtain ⟨entries, others, reads, writes⟩ :=
      @yields empty (by decide +kernel) (by decide +kernel)
    have fails : (match mergePending (leaves loadColor.perform (leaves write (leaves read empty))) with
        | .error (.fieldConflict "Foo" "c" _ _) _ => true
        | _ => false) = true := by decide +kernel
    split at fails
    · rename_i left right after failed
      exact ⟨entries, _, others, _, left, right, after, reads, writes, by decide +kernel, failed⟩
    · cases fails

/-! ## Candidates in order -/

/-- The candidates of a field are the declared ones of its name, in their order. -/
theorem getD_candidates (catalog : Catalog) (content : List Declaration) (field : String) :
    ((catalog.candidates content).get? field).getD [] =
      (catalog.declared content).filter fun candidate => candidate.site.name.getD "" = field := by
  have fold (more : List Candidate) :
      ∀ (groups : OrderedMap String (List Candidate)) (all : List Candidate),
        (groups.get? field).getD [] =
          all.filter (fun candidate => candidate.site.name.getD "" = field) →
        ((more.foldl (fun map candidate =>
          map.set (candidate.site.name.getD "")
            ((map.get? (candidate.site.name.getD "")).getD [] ++ [candidate])) groups).get?
              field).getD [] =
          (all ++ more).filter fun candidate => candidate.site.name.getD "" = field := by
    induction more with
    | nil => exact fun _ all same => by simpa using same
    | cons candidate rest ih =>
      intro groups all same
      rw [List.foldl_cons, show all ++ candidate :: rest = (all ++ [candidate]) ++ rest by simp]
      refine ih _ _ ?_
      rw [OrderedMap.get?_set, List.filter_append]
      split
      · rename_i equal
        simp [← same, equal]
      · rename_i different
        simp [← same, different]
  exact fold (catalog.declared content) .empty [] rfl

theorem nodup_keys_candidates (catalog : Catalog) (content : List Declaration) :
    (catalog.candidates content).keys.Nodup := by
  have fold (more : List Candidate) :
      ∀ groups : OrderedMap String (List Candidate), groups.keys.Nodup →
        (more.foldl (fun map candidate =>
          map.set (candidate.site.name.getD "")
            ((map.get? (candidate.site.name.getD "")).getD [] ++ [candidate])) groups).keys.Nodup := by
    induction more with
    | nil => exact fun _ distinct => distinct
    | cons candidate rest ih =>
      exact fun groups distinct => ih _ (OrderedMap.nodup_keys_set distinct _ _)
  exact fold (catalog.declared content) .empty List.nodup_nil

/-! ## Records and values -/

/-- The declaration restates the definition of the id. -/
structure RestatedBy (catalog : Catalog) (id : TypeId) (declaration : Declaration) : Prop where
  base : (catalog.definition declaration.id).base = (catalog.definition id).base
  sites : ∀ other ∈ (catalog.shape declaration.id).sites,
    ∃ own ∈ (catalog.shape id).sites, catalog.Restates own other
  value : ∀ other ∈ (catalog.shape declaration.id).inner?,
    ∃ own ∈ (catalog.shape id).inner?, catalog.equivalent own.target other.target = true

instance (catalog : Catalog) (id : TypeId) (declaration : Declaration) :
    Decidable (catalog.RestatedBy id declaration) :=
  decidable_of_iff
    ((catalog.definition declaration.id).base = (catalog.definition id).base ∧
      (∀ other ∈ (catalog.shape declaration.id).sites,
        ∃ own ∈ (catalog.shape id).sites, catalog.Restates own other) ∧
      ∀ other ∈ (catalog.shape declaration.id).inner?,
        ∃ own ∈ (catalog.shape id).inner?, catalog.equivalent own.target other.target = true)
    ⟨fun ⟨base, sites, value⟩ => ⟨base, sites, value⟩,
      fun ⟨base, sites, value⟩ => ⟨base, sites, value⟩⟩

/-- The name is canonical, and new declarations of it restate its definition. -/
structure RestatedName (catalog : Catalog) (name : String) (id : TypeId)
    (staged : List Declaration) : Prop where
  canonical : catalog.canonical.get? name = some id
  distinct : (catalog.shape id).FieldsDistinct
  names : ∀ declaration ∈ staged, catalog.Names declaration.id name
  apart : ∀ declaration ∈ staged, declaration.id ≠ id
  unforwarded : ∀ declaration ∈ staged, catalog.forward.get? declaration.id = none
  restated : ∀ declaration ∈ staged, catalog.RestatedBy id declaration

end Catalog

end DocShapes
