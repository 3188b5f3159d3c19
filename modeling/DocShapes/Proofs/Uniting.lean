import DocShapes.Proofs.Equivalence
import DocShapes.Proofs.Payload
import Mathlib.Data.List.Pairwise
import Mathlib.Data.String.Basic

/-! # Records as unions of their declarations

The declarations of a field are reconciled one after the other with what the earlier ones have come
to. Because equivalence is transitive, that is the same as comparing any two of them: a record is
merged exactly when no two declarations of a field contradict each other, in whatever order they
stand.
-/

namespace DocShapes.Catalog

variable {catalog : Catalog} {name field : String}

/-! ## Declarations of one field -/

theorem Compatible.self (site : Site) : catalog.Compatible site site where
  type := equivalent_self catalog site.target
  doc _ here _ there := Option.mem_unique here there
  qualifiers _ _ := Qualifiers.same_self site.qualifiers

theorem Compatible.symm {left right : Site} (compatible : catalog.Compatible left right) :
    catalog.Compatible right left where
  type := equivalent_symm compatible.type
  doc first here second there := (compatible.doc second there first here).symm
  qualifiers full other := Qualifiers.same_symm (compatible.qualifiers other full)

instance (catalog : Catalog) : Std.Symm catalog.Compatible := ⟨fun _ _ => Compatible.symm⟩

theorem doc_complete_eq_none_iff {winner other : Site} :
    (complete winner other).doc = none ↔ winner.doc = none ∧ other.doc = none := by
  simp [complete]

theorem isEmpty_complete_iff {winner other : Site} :
    (complete winner other).qualifiers.isEmpty = true ↔
      winner.qualifiers.isEmpty = true ∧ other.qualifiers.isEmpty = true := by
  unfold complete
  cases silent : winner.qualifiers.isEmpty <;> simp [silent]

/-- Whatever is compatible with two declarations is compatible with what they come to. -/
theorem compatible_complete_iff {winner other site : Site}
    (compatible : catalog.Compatible winner other) :
    catalog.Compatible (complete winner other) site ↔
      catalog.Compatible winner site ∧ catalog.Compatible other site := by
  constructor
  · rintro ⟨type, doc, qualifiers⟩
    have docs : ∀ first ∈ winner.doc, ∀ second ∈ site.doc, first = second :=
      fun first here => doc first (by simp [complete, Option.mem_def.mp here])
    have uses (full : winner.qualifiers.isEmpty = false) (more : site.qualifiers.isEmpty = false) :
        winner.qualifiers.same site.qualifiers = true := by
      simpa [complete, full] using qualifiers (by simp [complete, full]) more
    refine ⟨⟨type, docs, uses⟩, equivalent_trans (equivalent_symm compatible.type) type, ?_, ?_⟩
    · intro second here third there
      cases own : winner.doc with
      | some first => exact (compatible.doc first own second here).symm.trans (docs first own third there)
      | none =>
        apply doc second _ third there
        simpa [complete, own] using here
    · intro full more
      cases own : winner.qualifiers.isEmpty with
      | false =>
        exact Qualifiers.same_trans (Qualifiers.same_symm (compatible.qualifiers own full))
          (uses own more)
      | true => simpa [complete, own] using qualifiers (by simp [complete, own, full]) more
  · rintro ⟨left, right⟩
    refine ⟨left.type, ?_, ?_⟩
    · intro first here
      rcases Option.or_eq_some_iff.mp here with own | own
      · exact left.doc first own
      · exact right.doc first own.2
    · intro full more
      cases own : winner.qualifiers.isEmpty with
      | false => simpa [complete, own] using left.qualifiers own more
      | true =>
        have other : other.qualifiers.isEmpty = false := by simpa [complete, own] using full
        simpa [complete, own] using right.qualifiers other more

/-! ## All declarations of a field -/

/-- What a list of declarations comes to. -/
def unite (first : Site) (others : List Site) : Site := others.foldl complete first

theorem unite_use (first : Site) (others : List Site) :
    (unite first others).target = first.target ∧ (unite first others).name = first.name := by
  induction others generalizing first with
  | nil => exact ⟨rfl, rfl⟩
  | cons other rest ih => exact ih (complete first other)

theorem doc_unite_eq_none_iff {first : Site} {others : List Site} :
    (unite first others).doc = none ↔ ∀ use ∈ first :: others, use.doc = none := by
  induction others generalizing first with
  | nil => simp [unite]
  | cons other rest ih =>
    rw [show unite first (other :: rest) = unite (complete first other) rest from rfl, ih]
    simp only [List.forall_mem_cons, doc_complete_eq_none_iff, and_assoc]

theorem isEmpty_unite_iff {first : Site} {others : List Site} :
    (unite first others).qualifiers.isEmpty = true ↔
      ∀ use ∈ first :: others, use.qualifiers.isEmpty = true := by
  induction others generalizing first with
  | nil => simp [unite]
  | cons other rest ih =>
    rw [show unite first (other :: rest) = unite (complete first other) rest from rfl, ih]
    simp only [List.forall_mem_cons, isEmpty_complete_iff, and_assoc]

theorem pairwise_complete_iff {first other : Site} {rest : List Site}
    (compatible : catalog.Compatible first other) :
    (complete first other :: rest).Pairwise catalog.Compatible ↔
      (first :: other :: rest).Pairwise catalog.Compatible := by
  simp only [List.pairwise_cons, List.forall_mem_cons, compatible_complete_iff compatible]
  constructor
  · rintro ⟨both, further⟩
    exact ⟨⟨compatible, fun use member => (both use member).1⟩,
      fun use member => (both use member).2, further⟩
  · rintro ⟨⟨_, left⟩, right, further⟩
    exact ⟨fun use member => ⟨left use member, right use member⟩, further⟩

theorem compatible_unite_iff {first site : Site} {others : List Site}
    (pairwise : (first :: others).Pairwise catalog.Compatible) :
    catalog.Compatible (unite first others) site ↔
      ∀ use ∈ first :: others, catalog.Compatible use site := by
  induction others generalizing first with
  | nil => simp [unite]
  | cons other rest ih =>
    have compatible := List.rel_of_pairwise_cons pairwise List.mem_cons_self
    rw [show unite first (other :: rest) = unite (complete first other) rest from rfl,
      ih ((pairwise_complete_iff compatible).mpr pairwise)]
    simp only [List.forall_mem_cons, compatible_complete_iff compatible, and_assoc]

/-- The qualifiers are those of one of the declarations. -/
theorem exists_qualifiers_unite (first : Site) (others : List Site) :
    ∃ use ∈ first :: others, (unite first others).qualifiers = use.qualifiers := by
  induction others generalizing first with
  | nil => exact ⟨first, List.mem_cons_self, rfl⟩
  | cons other rest ih =>
    obtain ⟨use, member, same⟩ := ih (complete first other)
    rcases List.mem_cons.mp member with rfl | later
    · rw [show unite first (other :: rest) = unite (complete first other) rest from rfl, same]
      cases silent : first.qualifiers.isEmpty with
      | true => exact ⟨other, by simp, by simp [complete, silent]⟩
      | false => exact ⟨first, by simp, by simp [complete, silent]⟩
    · exact ⟨use, by simp [later], same⟩

theorem foldlM_reconcile_iff {first site : Site} {others : List Candidate} :
    others.foldlM (fun winner candidate =>
        catalog.reconcile name field winner candidate.site) first = .ok site ↔
      (first :: others.map Candidate.site).Pairwise catalog.Compatible ∧
        site = unite first (others.map Candidate.site) := by
  induction others generalizing first with
  | nil => simp [unite, pure, Except.pure, @eq_comm _ site]
  | cons candidate rest ih =>
    rw [List.foldlM_cons, List.map_cons]
    constructor
    · intro folded
      obtain ⟨winner, step, folded⟩ := exists_of_bind_eq_ok folded
      obtain ⟨compatible, rfl⟩ := reconcile_eq_ok_iff.mp step
      obtain ⟨pairwise, rfl⟩ := ih.mp folded
      exact ⟨(pairwise_complete_iff compatible).mp pairwise, rfl⟩
    · rintro ⟨pairwise, rfl⟩
      have compatible := List.rel_of_pairwise_cons pairwise List.mem_cons_self
      rw [reconcile_eq_ok_iff.mpr ⟨compatible, rfl⟩]
      exact ih.mpr ⟨(pairwise_complete_iff compatible).mpr pairwise, rfl⟩

/-! ## Merged fields -/

theorem mergeField_eq_ok_iff {access : Access} {first : Candidate} {others : List Candidate}
    {result : Option Site} :
    catalog.mergeField name field access (first :: others) = .ok result ↔
      ((first :: others).map Candidate.site).Pairwise catalog.Compatible ∧
        result = some (setFlags (access.given (first :: others))
          (unite first.site (others.map Candidate.site))) := by
  rw [mergeField, List.map_cons]
  constructor
  · intro made
    obtain ⟨site, folded, made⟩ := exists_of_bind_eq_ok made
    obtain ⟨pairwise, rfl⟩ := foldlM_reconcile_iff.mp folded
    cases made
    exact ⟨pairwise, rfl⟩
  · rintro ⟨pairwise, rfl⟩
    rw [foldlM_reconcile_iff.mpr ⟨pairwise, rfl⟩]
    rfl

/-! ## Flags -/

/-- An access flag as a qualifier. -/
def entryOf (flag : Channel × Bool) : String × Literal := (flag.1.word, .boolean flag.2)

theorem map_filterMap_sublist {α β : Type} {select : α → Option β} {back : β → α}
    (inverse : ∀ item found, select item = some found → back found = item) (items : List α) :
    ((items.filterMap select).map back).Sublist items := by
  induction items with
  | nil => exact .slnil
  | cons item rest ih =>
    cases found : select item with
    | none =>
      rw [List.filterMap_cons_none found]
      exact ih.cons item
    | some kept =>
      rw [List.filterMap_cons_some found, List.map_cons, inverse item kept found]
      exact ih.cons_cons item

/-- A field is given each flag at most once, in a fixed order. -/
theorem Access.given_sublist (access : Access) (group : List Candidate) :
    ((access.given group).map Prod.fst).Sublist Channel.access := by
  unfold Access.given
  split
  · unfold Access.flags
    dsimp only
    split
    · exact List.nil_sublist _
    · apply map_filterMap_sublist
      intro channel flag found
      split at found
      · cases found
        rfl
      · cases found
  · exact List.nil_sublist _

/-- No field that is flagged by hand is given flags. -/
theorem Access.unflagged_of_given {access : Access} {group : List Candidate}
    {flag : Channel × Bool} (given : flag ∈ access.given group) :
    ∀ candidate ∈ group, ∀ key ∈ Channel.access, flaggedBy key candidate = false := by
  unfold Access.given at given
  split at given
  · unfold Access.flags at given
    dsimp only at given
    split at given
    · cases given
    · rename_i unmarked
      simp only [Bool.or_eq_true, not_or, Bool.not_eq_true, List.any_eq_false] at unmarked
      intro candidate member key access
      simpa using unmarked.1.1 candidate member key access
  · cases given

theorem entries_foldl_set (flags : List (Channel × Bool)) (qualifiers : Qualifiers)
    (distinct : (flags.map fun flag => flag.1.word).Nodup)
    (fresh : ∀ flag ∈ flags, qualifiers.contains flag.1.word = false) :
    (flags.foldl (fun qualifiers flag => qualifiers.set flag.1.word (.boolean flag.2))
      qualifiers).values.entries = qualifiers.values.entries ++ flags.map entryOf := by
  induction flags generalizing qualifiers with
  | nil => simp
  | cons flag rest ih =>
    obtain ⟨here, later⟩ := List.forall_mem_cons.mp fresh
    obtain ⟨apart, distinct⟩ := List.nodup_cons.mp distinct
    have absent : flag.1.word ∉ qualifiers.values.entries.map Prod.fst := by
      intro member
      obtain ⟨value, found⟩ := OrderedMap.mem_keys_iff.mp member
      simp [Qualifiers.contains, OrderedMap.contains, found] at here
    have added : (qualifiers.set flag.1.word (.boolean flag.2)).values.entries =
        qualifiers.values.entries ++ [entryOf flag] := OrderedMap.put_of_not_mem _ absent
    have still : ∀ other ∈ rest,
        (qualifiers.set flag.1.word (.boolean flag.2)).contains other.1.word = false := by
      intro other member
      have different : flag.1.word ≠ other.1.word := fun same =>
        apart (List.mem_map.mpr ⟨other, member, same.symm⟩)
      have old := later other member
      simpa [Qualifiers.contains, Qualifiers.set, OrderedMap.contains, OrderedMap.get?_set,
        different] using old
    rw [List.foldl_cons, ih _ distinct still, added, List.map_cons, List.append_assoc,
      List.singleton_append]

/-! ## Merged records -/

/-- The declarations of a field in the order in which they come. -/
def usesOf (catalog : Catalog) (full : List Declaration) (field : String) : List Candidate :=
  (catalog.declared (catalog.withContent full)).filter fun candidate =>
    candidate.site.name.getD "" = field

theorem mem_usesOf {full : List Declaration} {candidate : Candidate} :
    candidate ∈ catalog.usesOf full field ↔
      candidate ∈ catalog.declared (catalog.withContent full) ∧
        candidate.site.name.getD "" = field := by
  simp [usesOf]

theorem get?_candidates_iff {full : List Declaration} {group : List Candidate} :
    (catalog.candidates (catalog.withContent full)).get? field = some group ↔
      group = catalog.usesOf full field ∧ group ≠ [] := by
  have uses := getD_candidates catalog (catalog.withContent full) field
  have grouped := grouped_candidates catalog (catalog.withContent full)
  rw [usesOf, ← uses]
  constructor
  · intro found
    have nonempty := grouped.nonempty field group (OrderedMap.mem_entries_of_get? found)
    simp [found, nonempty]
  · rintro ⟨rfl, nonempty⟩
    cases found : (catalog.candidates (catalog.withContent full)).get? field with
    | none => simp [found] at nonempty
    | some => rfl

/-- The field that a merge makes of its declarations. -/
structure MergedField (catalog : Catalog) (full : List Declaration) (site : Site)
    (first : Candidate) (others : List Candidate) : Prop where
  uses : catalog.usesOf full (site.name.getD "") = first :: others
  pairwise : ((first :: others).map Candidate.site).Pairwise catalog.Compatible
  made : site = setFlags ((catalog.accessOf (catalog.withContent full)).given (first :: others))
    (unite first.site (others.map Candidate.site))

/-- The flags stand behind the qualifiers that the declarations have come to. -/
theorem MergedField.entries {full : List Declaration} {site : Site} {first : Candidate}
    {others : List Candidate} (field : catalog.MergedField full site first others) :
    site.qualifiers.values.entries =
      (unite first.site (others.map Candidate.site)).qualifiers.values.entries ++
        ((catalog.accessOf (catalog.withContent full)).given (first :: others)).map entryOf := by
  have words : ((Channel.access).map Channel.word).Nodup := by decide
  have ordered :=
    ((catalog.accessOf (catalog.withContent full)).given_sublist (first :: others)).map Channel.word
  rw [List.map_map] at ordered
  rw [field.made]
  apply entries_foldl_set _ _ (words.sublist ordered)
  intro flag given
  obtain ⟨use, member, same⟩ :=
    exists_qualifiers_unite first.site (others.map Candidate.site)
  rw [← List.map_cons] at member
  obtain ⟨candidate, inside, rfl⟩ := List.mem_map.mp member
  have listed : flag.1 ∈ Channel.access :=
    ((catalog.accessOf _).given_sublist _).subset (List.mem_map_of_mem given)
  rw [same]
  exact Access.unflagged_of_given given candidate inside flag.1 listed

theorem earlierName_eq_false_iff {left right : Site} :
    earlierName left right = false ↔ right.name.getD "" ≤ left.name.getD "" := by
  rw [earlierName, decide_eq_false_iff_not, String.not_lt]

/-- Fields with names of their own are in strict order once they are sorted. -/
theorem strictlySorted {sites : List Site}
    (distinct : (Shape.record name (sortBy earlierName sites)).FieldsDistinct) :
    ((sortBy earlierName sites).map fun site => site.name.getD "").Pairwise (· < ·) := by
  have sorted := pairwise_sortBy earlierName
    (fun left right earlier => earlierName_eq_false_iff.mpr (of_decide_eq_true earlier).le)
    (fun first second third before after => by
      rw [earlierName_eq_false_iff] at before after ⊢
      exact before.trans after) sites
  have apart := List.pairwise_map.mp distinct.nodup_labels
  rw [List.pairwise_map]
  refine (sorted.and apart).imp fun both => ?_
  exact lt_of_le_of_ne (earlierName_eq_false_iff.mp both.1) both.2

/-- A group of candidates that is merged has one field, of the name of the group. -/
theorem mergedField_of_mergeField {full : List Declaration} {group : List Candidate}
    {result : Option Site}
    (entry : (field, group) ∈ (catalog.candidates (catalog.withContent full)).entries)
    (merges : catalog.mergeField name field (catalog.accessOf (catalog.withContent full)) group =
      .ok result) :
    ∃ site first others, result = some site ∧ site.name.getD "" = field ∧
      catalog.MergedField full site first others := by
  have found := OrderedMap.get?_of_mem_entries (nodup_keys_candidates catalog _) entry
  obtain ⟨rfl, nonempty⟩ := get?_candidates_iff.mp found
  cases uses : catalog.usesOf full field with
  | nil => exact absurd uses nonempty
  | cons first others =>
    rw [uses] at merges
    obtain ⟨pairwise, same⟩ := mergeField_eq_ok_iff.mp merges
    have label : first.site.name.getD "" = field :=
      (mem_usesOf.mp (uses ▸ List.mem_cons_self)).2
    have named := (unite_use first.site (others.map Candidate.site)).2
    refine ⟨_, first, others, same, ?_, ?_, pairwise, rfl⟩
    · simpa [setFlags, named] using label
    · simpa [setFlags, named, label] using uses

theorem fields_of_mergeRecord {full : List Declaration} {merged : Merged}
    (made : catalog.mergeRecord name full = .ok merged) :
    ∃ sites, merged.definition.shape = .record name sites ∧
      (sites.map fun site => site.name.getD "").Pairwise (· < ·) ∧
      (∀ site ∈ sites, ∃ first others, catalog.MergedField full site first others) ∧
      ∀ field, catalog.usesOf full field ≠ [] → ∃ site ∈ sites, site.name.getD "" = field := by
  obtain ⟨results, merges, distinct, rfl⟩ := mergeRecord_eq_ok_iff.mp made
  obtain ⟨sound, complete⟩ := mem_of_mapM_eq_ok merges
  have listed (site : Site) :
      site ∈ sortBy earlierName (results.filterMap id) ↔ some site ∈ results := by
    rw [(perm_sortBy _ _).mem_iff]
    simp
  refine ⟨_, rfl, strictlySorted distinct, ?_, ?_⟩
  · intro site member
    obtain ⟨⟨field, group⟩, entry, merges⟩ := sound _ ((listed site).mp member)
    obtain ⟨_, first, others, ⟨⟩, _, field⟩ := mergedField_of_mergeField entry merges
    exact ⟨first, others, field⟩
  · intro field nonempty
    have entry := OrderedMap.mem_entries_of_get? (get?_candidates_iff.mpr ⟨rfl, nonempty⟩)
    obtain ⟨result, member, merges⟩ := complete _ entry
    obtain ⟨site, _, _, rfl, label, _⟩ := mergedField_of_mergeField entry merges
    exact ⟨site, (listed site).mpr member, label⟩

/-- A record whose declared fields all have names is merged exactly when no two declarations of a
field contradict each other. -/
theorem exists_mergeRecord_iff (apart : catalog.KeepsApart) {full : List Declaration} :
    (∃ merged, catalog.mergeRecord name full = .ok merged) ↔
      ∀ field, ∀ left ∈ catalog.usesOf full field, ∀ right ∈ catalog.usesOf full field,
        catalog.Compatible left.site right.site := by
  constructor
  · rintro ⟨merged, made⟩ field left inLeft right inRight
    obtain ⟨sites, _, _, fields, complete⟩ := fields_of_mergeRecord made
    obtain ⟨site, member, rfl⟩ := complete field (List.ne_nil_of_mem inLeft)
    obtain ⟨first, others, uses, pairwise, _⟩ := fields site member
    rw [uses] at inLeft inRight
    exact pairwise.forall_of_forall (fun use _ => Compatible.self use)
      (List.mem_map_of_mem inLeft) (List.mem_map_of_mem inRight)
  · intro compatible
    have each : ∀ entry ∈ (catalog.candidates (catalog.withContent full)).entries,
        ∃ result, catalog.mergeField name entry.1
          (catalog.accessOf (catalog.withContent full)) entry.2 = .ok result := by
      rintro ⟨field, group⟩ entry
      have found := OrderedMap.get?_of_mem_entries (nodup_keys_candidates catalog _) entry
      obtain ⟨rfl, nonempty⟩ := get?_candidates_iff.mp found
      have pairwise : ((catalog.usesOf full field).map Candidate.site).Pairwise
          catalog.Compatible :=
        List.pairwise_map.mpr (List.pairwise_of_forall_mem_list (compatible field))
      cases uses : catalog.usesOf full field with
      | nil => exact absurd uses nonempty
      | cons first others => exact ⟨_, mergeField_eq_ok_iff.mpr ⟨uses ▸ pairwise, rfl⟩⟩
    obtain ⟨results, merges⟩ := exists_mapM_eq_ok each
    have labelled : ∀ field group,
        (field, group) ∈ (catalog.candidates (catalog.withContent full)).entries → group ≠ [] ∧
          ∀ candidate ∈ group, field ≠ "" ∧ candidate.site.name = some field :=
      fun _ _ => labelled_candidates fun declaration _ => (apart declaration.id).named
    have distinct := fieldsDistinct_of_merges (nodup_keys_candidates catalog _) labelled merges
      earlierName
    exact ⟨_, mergeRecord_eq_ok_iff.mpr ⟨results, merges, distinct, rfl⟩⟩

/-- A field says what its declarations say, and carries access flags beyond that. -/
structure Unites (catalog : Catalog) (uses : List Candidate) (site : Site) : Prop where
  type : ∀ use ∈ uses, catalog.equivalent site.target use.site.target = true
  doc : ∀ doc, site.doc = some doc ↔ ∃ use ∈ uses, use.site.doc = some doc
  qualifiers : ∃ own ∈ uses.map fun use => use.site.qualifiers, ∃ flags : List (Channel × Bool),
    site.qualifiers.values.entries = own.values.entries ++ flags.map entryOf ∧
      (flags.map Prod.fst).Sublist Channel.access ∧
      ∀ use ∈ uses, use.site.qualifiers.isEmpty = false →
        own.same use.site.qualifiers = true

/-- What the declarations have come to contradicts none of them. -/
theorem MergedField.compatible {full : List Declaration} {site : Site} {first : Candidate}
    {others : List Candidate} (field : catalog.MergedField full site first others) :
    ∀ use ∈ first :: others,
      catalog.Compatible (unite first.site (others.map Candidate.site)) use.site := by
  intro use member
  apply (compatible_unite_iff field.pairwise).mpr
  intro other inside
  exact field.pairwise.forall_of_forall (fun use _ => Compatible.self use) inside
    (List.mem_map_of_mem member)

/-- The field has the qualifiers that its declarations have in common, and the given flags. -/
theorem MergedField.qualifiers {full : List Declaration} {site : Site} {first : Candidate}
    {others : List Candidate} (field : catalog.MergedField full site first others) :
    ∃ own ∈ (first :: others).map fun use => use.site.qualifiers,
      site.qualifiers.values.entries = own.values.entries ++
        ((catalog.accessOf (catalog.withContent full)).given (first :: others)).map entryOf ∧
      ∀ use ∈ first :: others, use.site.qualifiers.isEmpty = false →
        own.same use.site.qualifiers = true := by
  obtain ⟨use, member, same⟩ := exists_qualifiers_unite first.site (others.map Candidate.site)
  rw [← List.map_cons] at member
  obtain ⟨candidate, inside, rfl⟩ := List.mem_map.mp member
  refine ⟨_, List.mem_map_of_mem inside, same ▸ field.entries, ?_⟩
  intro use within full
  rw [← same]
  refine (field.compatible use within).qualifiers ?_ full
  rw [← Bool.not_eq_true, isEmpty_unite_iff, ← List.map_cons]
  intro silent
  rw [silent use.site (List.mem_map_of_mem within)] at full
  cases full

theorem MergedField.doc_eq_some_iff {full : List Declaration} {site : Site} {first : Candidate}
    {others : List Candidate} (field : catalog.MergedField full site first others)
    {doc : String} :
    site.doc = some doc ↔ ∃ use ∈ first :: others, use.site.doc = some doc := by
  have own : site.doc = (unite first.site (others.map Candidate.site)).doc := by
    rw [field.made]
    rfl
  have unsaid := @doc_unite_eq_none_iff first.site (others.map Candidate.site)
  rw [← List.map_cons, List.forall_mem_map, ← own] at unsaid
  constructor
  · intro here
    by_contra absent
    have none : ∀ use ∈ first :: others, use.site.doc = none := by
      intro use member
      cases there : use.site.doc with
      | none => rfl
      | some other =>
        cases (field.compatible use member).doc doc (own ▸ here) other there
        exact absurd ⟨use, member, there⟩ absent
    rw [unsaid.mpr none] at here
    cases here
  · rintro ⟨use, member, there⟩
    cases here : site.doc with
    | none =>
      rw [unsaid.mp here use member] at there
      cases there
    | some other =>
      exact congrArg some ((field.compatible use member).doc other (own ▸ here) doc there)

theorem MergedField.unites {full : List Declaration} {site : Site} {first : Candidate}
    {others : List Candidate} (field : catalog.MergedField full site first others) :
    catalog.Unites (first :: others) site where
  type use member := by
    have target : site.target = (unite first.site (others.map Candidate.site)).target := by
      rw [field.made]
      rfl
    rw [target]
    exact (field.compatible use member).type
  doc _ := field.doc_eq_some_iff
  qualifiers := by
    obtain ⟨own, listed, entries, same⟩ := field.qualifiers
    exact ⟨own, listed, _, entries, (catalog.accessOf _).given_sublist _, same⟩

/-! ## Unions -/

theorem usesOf_ne_nil_iff {full : List Declaration} :
    catalog.usesOf full field ≠ [] ↔
      ∃ declaration ∈ catalog.withContent full, (catalog.shape declaration.id).HasField field := by
  constructor
  · intro nonempty
    obtain ⟨use, member⟩ := List.exists_mem_of_ne_nil _ nonempty
    obtain ⟨listed, label⟩ := mem_usesOf.mp member
    obtain ⟨declaration, declares, _, inside⟩ := mem_declared.mp listed
    exact ⟨declaration, declares, use.site, inside, label⟩
  · rintro ⟨declaration, declares, site, inside, label⟩
    have member : ⟨declaration.channel, site⟩ ∈ catalog.usesOf full field :=
      mem_usesOf.mpr ⟨mem_declared.mpr ⟨declaration, declares, rfl, inside⟩, label⟩
    exact List.ne_nil_of_mem member

theorem mem_usesOf_of_perm {full reordered : List Declaration} (perm : reordered.Perm full)
    (candidate : Candidate) :
    candidate ∈ catalog.usesOf reordered field ↔ candidate ∈ catalog.usesOf full field := by
  have content : (catalog.withContent reordered).Perm (catalog.withContent full) := perm.filter _
  simp only [mem_usesOf, mem_declared, content.mem_iff]

/-- In every catalog that operations with well-made definitions come to, declarations of a name
make a record exactly when no two of them contradict each other about a field, in whatever order
they stand. The record has all fields that they declare, in strict alphabetical order, and each
says what its declarations say. -/
theorem records_unite :
    ∀ config start operations, ofConfig config = .ok start → start.Permits operations →
      (∀ operation ∈ operations, Operation.RegistersBuilt operation) →
        ∀ (name : String) (full : List Declaration),
          let catalog := start.run operations
          ((∃ merged, catalog.mergeRecord name full = .ok merged) ↔
            ∀ field, ∀ left ∈ catalog.usesOf full field, ∀ right ∈ catalog.usesOf full field,
              catalog.Compatible left.site right.site) ∧
          (∀ reordered : List Declaration, reordered.Perm full →
            ((∃ merged, catalog.mergeRecord name reordered = .ok merged) ↔
              ∃ merged, catalog.mergeRecord name full = .ok merged)) ∧
          ∀ merged, catalog.mergeRecord name full = .ok merged →
            ∃ sites, merged.definition.shape = .record name sites ∧
              (sites.map fun site => site.name.getD "").Pairwise (· < ·) ∧
              (∀ field, field ∈ (sites.map fun site => site.name.getD "") ↔
                ∃ declaration ∈ catalog.withContent full,
                  (catalog.shape declaration.id).HasField field) ∧
              ∀ site ∈ sites, catalog.Unites (catalog.usesOf full (site.name.getD "")) site := by
  intro config start operations made permits built name full catalog
  have reachable : start.Reachable := ⟨config, start, made, .refl⟩
  have apart : catalog.KeepsApart :=
    (keepsApart_of_ofConfig made).run reachable permits built
  refine ⟨exists_mergeRecord_iff apart, ?_, ?_⟩
  · intro reordered perm
    simp only [exists_mergeRecord_iff apart, mem_usesOf_of_perm perm]
  · intro merged merges
    obtain ⟨sites, shape, sorted, fields, complete⟩ := fields_of_mergeRecord merges
    refine ⟨sites, shape, sorted, ?_, ?_⟩
    · intro field
      rw [← usesOf_ne_nil_iff, List.mem_map]
      constructor
      · rintro ⟨site, member, rfl⟩
        obtain ⟨first, others, found⟩ := fields site member
        simp [found.uses]
      · intro declared
        exact complete field declared
    · intro site member
      obtain ⟨first, others, found⟩ := fields site member
      rw [found.uses]
      exact found.unites

/-- Two channels declare a type; one field is in both, with qualifiers in one of them only. -/
def twoForms : List Operation :=
  [.parseEntries ⟨some .read, false⟩ "x : Foo\n    b : int\n    a : string",
    .parseEntries ⟨some .write, false⟩ "y : Foo\n    a : str, min: 1"]

theorem records_unite_twoForms :
    let catalog := empty.run twoForms
    let full := (catalog.pending.get? "Foo").getD []
    (∀ field, ∀ left ∈ catalog.usesOf full field, ∀ right ∈ catalog.usesOf full field,
        catalog.Compatible left.site right.site) ∧
      ∃ merged sites, catalog.mergeRecord "Foo" full = .ok merged ∧
        merged.definition.shape = .record "Foo" sites ∧
        sites.map Site.name = [some "a", some "b"] ∧
        ∀ site ∈ sites, catalog.Unites (catalog.usesOf full (site.name.getD "")) site := by
  intro catalog full
  have built : ∀ operation ∈ twoForms, Operation.RegistersBuilt operation := by
    simp [twoForms, Operation.RegistersBuilt]
  have laws := records_unite .standard empty twoForms rfl ⟨trivial, trivial, trivial⟩ built
    "Foo" full
  have names : ((catalog.mergeRecord "Foo" full).toOption.map fun merged =>
      merged.definition.shape.sites.map Site.name) = some [some "a", some "b"] := by
    decide +kernel
  cases made : catalog.mergeRecord "Foo" full with
  | error =>
    rw [made] at names
    cases names
  | ok merged =>
    rw [made] at names
    obtain ⟨sites, shape, _, _, unites⟩ := laws.2.2 merged made
    have sameNames : merged.definition.shape.sites.map Site.name = [some "a", some "b"] :=
      Option.some.inj names
    rw [shape] at sameNames
    exact ⟨laws.1.mp ⟨merged, made⟩, merged, sites, rfl, shape, sameNames, unites⟩

end DocShapes.Catalog
