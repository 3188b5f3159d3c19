import DocShapes.Proofs.Twins
import DocShapes.Proofs.Uniting

/-! # Declarations merged in two catalogs

Declarations that agree in two catalogs come to definitions that agree, with the same docs left for
the sites (`echoes_mergeRecord`, `echoes_mergeExtension`). The declared types of a field have to be
equivalent in the second catalog where they are in the first one. Of a lone declaration it does not
matter which channel it is from.
-/

namespace DocShapes.Catalog

variable {linked keyed : TypeId → TypeId → Prop} {lone : Prop} {left right : Catalog}
  {full full' content content' : List Declaration}

/-- Declarations that say the same in two catalogs. -/
structure Declaration.Agrees (keyed linked : TypeId → TypeId → Prop) (lone : Prop)
    (left right : Catalog) (one other : Declaration) : Prop where
  id : keyed one.id other.id
  twin : (left.definition one.id).Twin linked (right.definition other.id)
  channel : other.channel = one.channel ∨ lone

/-- Declared fields that say the same. -/
structure Candidate.Agrees (linked : TypeId → TypeId → Prop) (lone : Prop) (one other : Candidate) :
    Prop where
  site : one.site.Twin linked other.site
  channel : other.channel = one.channel ∨ lone

/-- The same definition, with the same docs left for the sites. -/
structure Merged.Agrees (keyed linked : TypeId → TypeId → Prop) (lone : Prop) (one other : Merged) :
    Prop where
  definition : one.definition.Twin linked other.definition
  siteDocs : one.siteDocs.Parallel keyed Eq other.siteDocs
  alone : lone → one.siteDocs = .empty

/-! ## Declarations -/

theorem agrees_withContent
    (same : List.Forall₂ (Declaration.Agrees keyed linked lone left right) full full') :
    List.Forall₂ (Declaration.Agrees keyed linked lone left right) (left.withContent full)
      (right.withContent full') :=
  List.rel_filter (fun _ _ agrees => Bool.eq_iff_iff.mp agrees.twin.hasContent.symm) same

theorem basesOf_eq
    (same : List.Forall₂ (Declaration.Agrees keyed linked lone left right) full full') :
    right.basesOf full' = left.basesOf full := by
  have bases : (full'.map fun site => (right.definition site.id).base) =
      full.map fun site => (left.definition site.id).base :=
    map_eq_of_forall₂ same fun _ _ agrees => agrees.twin.base
  simp only [basesOf, bases]

theorem mergeAnnotations_eq
    (same : List.Forall₂ (Declaration.Agrees keyed linked lone left right) full full') :
    right.mergeAnnotations full' = left.mergeAnnotations full := by
  have annotations : (full'.map fun site => (right.definition site.id).annotations.entries) =
      full.map fun site => (left.definition site.id).annotations.entries :=
    map_eq_of_forall₂ same fun _ _ agrees =>
      congrArg OrderedMap.entries agrees.twin.annotations
  have entries := congrArg List.flatten annotations
  rw [← List.flatMap_def, ← List.flatMap_def] at entries
  simp only [mergeAnnotations, entries]

/-! ## Documentation -/

theorem agrees_writtenDocs
    (same : List.Forall₂ (Declaration.Agrees keyed linked lone left right) full full') :
    List.Forall₂ (fun written written' => keyed written.1 written'.1 ∧ written'.2 = written.2)
      (left.writtenDocs full) (right.writtenDocs full') := by
  refine List.rel_filterMap (fun one other agrees => ?_) same
  dsimp only
  rw [agrees.twin.doc, agrees.twin.hasContent]
  cases (left.definition one.id).doc with
  | none => exact .none
  | some doc => exact .some ⟨agrees.id, rfl⟩

theorem mergeDocs_agrees (unique : Relator.BiUnique keyed)
    (same : List.Forall₂ (Declaration.Agrees keyed linked lone left right) full full')
    (count : Nat) :
    (right.mergeDocs full' count).1 = (left.mergeDocs full count).1 ∧
      (left.mergeDocs full count).2.Parallel keyed Eq (right.mergeDocs full' count).2 := by
  have written := agrees_writtenDocs same
  have docs : ((right.writtenDocs full').map fun written => written.2.2) =
      (left.writtenDocs full).map fun written => written.2.2 :=
    map_eq_of_forall₂ written fun _ _ same => by rw [same.2]
  unfold mergeDocs
  dsimp only
  rw [← written.length_eq]
  split
  · rw [docs]
    refine ⟨rfl, OrderedMap.parallel_ofList unique (List.rel_filterMap ?_ written)⟩
    rintro ⟨id, filled, doc⟩ ⟨id', _, _⟩ ⟨own, ⟨⟩⟩
    dsimp only
    cases Doc.remainder doc _ with
    | none => exact .none
    | some => exact .some ⟨own, rfl⟩
  · have sorted : List.Forall₂ _
        (sortBy (fun left right => left.2.1 && !right.2.1) (left.writtenDocs full))
        (sortBy (fun left right => left.2.1 && !right.2.1) (right.writtenDocs full')) :=
      forall₂_sortBy (fun _ _ _ _ same same' => by rw [same.2, same'.2]) written
    generalize sortBy _ (left.writtenDocs full) = docs at sorted
    generalize sortBy _ (right.writtenDocs full') = docs' at sorted
    cases sorted with
    | nil => exact ⟨rfl, .nil⟩
    | @cons first first' _ _ same others =>
      obtain ⟨id, filled, chosen⟩ := first
      obtain ⟨id', _, _⟩ := first'
      obtain ⟨_, ⟨⟩⟩ := same
      refine ⟨rfl, OrderedMap.parallel_ofList unique (List.rel_filterMap ?_ others)⟩
      rintro ⟨id, filled, doc⟩ ⟨id', _, _⟩ ⟨own, ⟨⟩⟩
      dsimp only
      split
      · exact .none
      · exact .some ⟨own, rfl⟩

theorem length_withContent_le {catalog : Catalog} (full : List Declaration) :
    (catalog.withContent full).length ≤ full.length := List.length_filter_le _ full

/-- A lone declaration leaves no doc for its site. -/
theorem mergeDocs_of_alone (catalog : Catalog) (alone : full.length ≤ 1) (count : Nat) :
    (catalog.mergeDocs full count).2 = .empty := by
  have few : (catalog.writtenDocs full).length ≤ 1 := (List.length_filterMap_le _ full).trans alone
  unfold mergeDocs
  dsimp only
  rw [if_neg (by
    rw [Bool.and_eq_true, decide_eq_true_eq, decide_eq_true_eq]
    omega)]
  match catalog.writtenDocs full, few with
  | [], _ => rfl
  | [_], _ => rfl
  | _ :: _ :: _, few => simp at few

/-! ## Fields -/

theorem agrees_candidates
    (same : List.Forall₂ (Declaration.Agrees keyed linked lone left right) content content') :
    (left.candidates content).Parallel Eq (List.Forall₂ (Candidate.Agrees linked lone))
      (right.candidates content') := by
  have all : List.Forall₂ (Candidate.Agrees linked lone) (left.declared content)
      (right.declared content') := by
    refine List.rel_flatMap same fun one other agrees => ?_
    exact List.rel_map (fun _ _ site => ⟨site, agrees.channel⟩) agrees.twin.shape.sites
  refine List.rel_foldl (fun groups groups' parallel one other agrees => ?_)
    OrderedMap.parallel_empty all
  dsimp only
  rw [agrees.site.name]
  refine parallel.set OrderedMap.biUnique_eq rfl (List.rel_append ?_ (.cons agrees .nil))
  have found := parallel.get? OrderedMap.biUnique_eq (Eq.refl (one.site.name.getD ""))
  revert found
  generalize groups.get? (one.site.name.getD "") = group
  generalize groups'.get? (one.site.name.getD "") = group'
  intro found
  cases found with
  | none => exact .nil
  | some group => exact group

/-! ## Access flags -/

theorem length_channelSet_le_one {channels : List Channel} (alone : channels.length ≤ 1) :
    (channelSet channels).length ≤ 1 := by
  match channels with
  | [] => decide
  | [channel] => cases channel <;> decide
  | _ :: _ :: _ => simp at alone

/-- The flags of a field do not depend on the catalog, and there are none for a lone declaration. -/
theorem given_eq
    (same : List.Forall₂ (Declaration.Agrees keyed linked lone left right) content content')
    (alone : lone → content.length ≤ 1) {fields fields' : List Candidate}
    (agree : List.Forall₂ (Candidate.Agrees linked lone) fields fields') :
    (right.accessOf content').given fields' = (left.accessOf content).given fields := by
  by_cases single : lone
  · have one := alone single
    have none (catalog : Catalog) (content : List Declaration) (few : content.length ≤ 1)
        (fields : List Candidate) : (catalog.accessOf content).given fields = [] := by
      refine if_neg (Nat.not_lt.mpr (length_channelSet_le_one ?_))
      rwa [List.length_map]
    rw [none left content one, none right content' (same.length_eq ▸ one)]
  · have channels : content'.map Declaration.channel = content.map Declaration.channel :=
      map_eq_of_forall₂ same fun _ _ agrees => agrees.channel.resolve_right single
    have present : fields'.map Candidate.channel = fields.map Candidate.channel :=
      map_eq_of_forall₂ agree fun _ _ agrees => agrees.channel.resolve_right single
    have flagged (key : Channel) {one other : Candidate}
        (agrees : Candidate.Agrees linked lone one other) :
        flaggedBy key other = flaggedBy key one := by
      rw [flaggedBy, agrees.site.qualifiers]
      rfl
    have explicit (key : Channel) :
        ((right.candidates content').values.any fun all => all.any (flaggedBy key)) =
          (left.candidates content).values.any fun all => all.any (flaggedBy key) :=
      any_eq_of_forall₂ (agrees_candidates same).values fun _ _ group =>
        any_eq_of_forall₂ group fun _ _ => flagged key
    have access : right.accessOf content' = left.accessOf content := by
      simp only [accessOf, channels, explicit]
    have byHand : (fields'.any fun candidate =>
        Channel.access.any fun key => flaggedBy key candidate) =
          fields.any fun candidate => Channel.access.any fun key => flaggedBy key candidate :=
      any_eq_of_forall₂ agree fun one other agrees => by
        simp only [funext fun key => flagged key agrees]
    simp only [access, Access.given, Access.flags, present, byHand]

/-! ## Fields of records -/

theorem twin_complete {winner winner' other other' : Site} (twin : winner.Twin linked winner')
    (twin' : other.Twin linked other') :
    (complete winner other).Twin linked (complete winner' other') where
  target := twin.target
  name := twin.name
  doc := by simp only [complete, twin.doc, twin'.doc]
  qualifiers := by simp only [complete, twin.qualifiers, twin'.qualifiers]

theorem twin_unite {first first' : Site} {others others' : List Site}
    (twin : first.Twin linked first') (same : List.Forall₂ (Site.Twin linked) others others') :
    (unite first others).Twin linked (unite first' others') := by
  induction same generalizing first first' with
  | nil => exact twin
  | cons own _ ih => exact ih (twin_complete twin own)

/-- In the second catalog the declared types of a field that is declared more than once are
equivalent where they are in the first one. -/
def Transfers (linked : TypeId → TypeId → Prop) (left right : Catalog) (group : List Candidate) :
    Prop :=
  2 ≤ group.length → ∀ candidate ∈ group, ∀ one one' other', linked candidate.site.target one' →
    linked one other' → left.equivalent candidate.site.target one = true →
      right.equivalent one' other' = true

theorem compatible_of_transfers {group : List Candidate}
    (transfers : Transfers linked left right group)
    (several : 2 ≤ group.length) {candidate : Candidate} (member : candidate ∈ group)
    {other site' other' : Site} (twin : candidate.site.Twin linked site')
    (twin' : other.Twin linked other') (compatible : left.Compatible candidate.site other) :
    right.Compatible site' other' where
  type := transfers several candidate member _ _ _ twin.target twin'.target compatible.type
  doc := by
    rw [twin.doc, twin'.doc]
    exact compatible.doc
  qualifiers := by
    rw [twin.qualifiers, twin'.qualifiers]
    exact compatible.qualifiers

theorem echoes_mergeField (name field : String) {access access' : Access}
    {group group' : List Candidate}
    (agree : List.Forall₂ (Candidate.Agrees linked lone) group group')
    (given : access'.given group' = access.given group)
    (transfers : Transfers linked left right group) :
    Echoes (left.mergeField name field access group) (right.mergeField name field access' group')
      (Option.Rel (Site.Twin linked)) := by
  intro result made
  cases agree with
  | nil =>
    cases made
    exact ⟨none, rfl, .none⟩
  | @cons first first' others others' own rest =>
    obtain ⟨pairwise, rfl⟩ := mergeField_eq_ok_iff.mp made
    refine ⟨_, mergeField_eq_ok_iff.mpr ⟨?_, rfl⟩, .some ?_⟩
    · rw [List.pairwise_map] at pairwise ⊢
      by_cases several : 2 ≤ (first :: others).length
      · exact pairwise_of_forall₂ (.cons own rest) (fun _ _ _ _ member twin twin' =>
          compatible_of_transfers transfers several member twin.site twin'.site) pairwise
      · obtain rfl : others = [] := List.length_eq_zero_iff.mp (by
          rw [List.length_cons] at several
          omega)
        cases rest
        exact List.pairwise_singleton _ _
    · have united := twin_unite own.site (List.rel_map (fun _ _ twin => twin.site) rest)
      refine ⟨united.target, united.name, united.doc, ?_⟩
      simp only [setFlags, given, united.qualifiers]

/-! ## Records -/

theorem echoes_recordWith (name : String) {fields fields' : List Site}
    (same : List.Forall₂ (Site.Twin linked) fields fields') :
    Echoes (recordWith name fields) (recordWith name fields') (Definition.Twin linked) := by
  have filled := Edit.simulates_setFields same (Definition.twin_ofShape (.record name .nil))
  intro record made
  rw [recordWith] at made ⊢
  cases set : Edit.setFields fields (.ofShape (.record name [])) with
  | error error =>
    rw [set] at made
    cases made
  | ok found definition =>
    rw [set] at made
    cases made
    obtain ⟨_, definition', set', twin⟩ := filled found record set
    exact ⟨definition', by rw [set'], twin⟩

theorem echoes_mergeRecord (name : String) (unique : Relator.BiUnique keyed)
    (same : List.Forall₂ (Declaration.Agrees keyed linked lone left right) full full')
    (alone : lone → full.length ≤ 1)
    (transfers : ∀ field, Transfers linked left right (left.usesOf full field)) :
    Echoes (left.mergeRecord name full) (right.mergeRecord name full')
      fun merged merged' => Merged.Agrees keyed linked lone merged merged' ∧
        merged.definition.base = .record := by
  have content := agrees_withContent same
  have docs := mergeDocs_agrees unique same (left.withContent full).length
  have annotations := mergeAnnotations_eq same
  unfold mergeRecord
  dsimp only
  rw [← content.length_eq]
  have merges (entry entry' : String × List Candidate)
      (related : entry ∈ (left.candidates (left.withContent full)).entries ∧ entry.1 = entry'.1 ∧
        List.Forall₂ (Candidate.Agrees linked lone) entry.2 entry'.2) :
      Echoes (left.mergeField name entry.1 (left.accessOf (left.withContent full)) entry.2)
        (right.mergeField name entry'.1 (right.accessOf (right.withContent full')) entry'.2)
        (Option.Rel (Site.Twin linked)) := by
    obtain ⟨member, word, agree⟩ := related
    have found := OrderedMap.get?_of_mem_entries (nodup_keys_candidates left _) member
    have uses := (get?_candidates_iff.mp found).1
    rw [← word]
    have few (single : lone) : (left.withContent full).length ≤ 1 :=
      (length_withContent_le full).trans (alone single)
    exact echoes_mergeField name entry.1 agree (given_eq content few agree)
      (uses ▸ transfers entry.1)
  refine (echoes_mapM merges (forall₂_mem (agrees_candidates content))).bind
    fun sites sites' _ _ twins => ?_
  have fields : List.Forall₂ (Site.Twin linked) (sortBy earlierName (sites.filterMap id))
      (sortBy earlierName (sites'.filterMap id)) :=
    forall₂_sortBy
      (fun _ _ _ _ twin twin' => by rw [earlierName, earlierName, twin.name, twin'.name])
      (List.rel_filterMap (fun _ _ twin => twin) twins)
  refine (echoes_recordWith name fields).bind fun record record' made _ twin => ?_
  obtain ⟨_, rfl⟩ := recordWith_eq_ok_iff.mp made
  exact echoes_pure ⟨⟨⟨twin.shape, docs.1, annotations⟩, docs.2,
    fun single => mergeDocs_of_alone left (alone single) _⟩, rfl⟩

/-- A lone declaration declares each of its fields once. -/
theorem transfers_of_alone {declaration : Declaration}
    (distinct : (left.shape declaration.id).FieldsDistinct) (field : String) :
    Transfers linked left right (left.usesOf [declaration] field) := by
  intro several
  exfalso
  have labels : ((left.usesOf [declaration] field).map fun use => use.site.name.getD "").Nodup := by
    have whole : ((left.declared [declaration]).map fun use => use.site.name.getD "").Nodup := by
      have listed : ((left.declared [declaration]).map fun use => use.site.name.getD "") =
          (left.shape declaration.id).sites.map fun site => site.name.getD "" := by
        simp [declared, Function.comp_def]
      exact listed ▸ distinct.nodup_labels
    refine whole.sublist (List.Sublist.map _ (List.filter_sublist.trans ?_))
    unfold withContent
    rw [List.filter_cons]
    split
    · exact .refl _
    · exact List.nil_sublist _
  have same : ((left.usesOf [declaration] field).map fun use => use.site.name.getD "") =
      List.replicate (left.usesOf [declaration] field).length field :=
    List.eq_replicate_iff.mpr ⟨List.length_map _, fun label member => by
      obtain ⟨use, inside, rfl⟩ := List.mem_map.mp member
      exact (mem_usesOf.mp inside).2⟩
  rw [same, List.nodup_replicate] at labels
  omega

/-! ## Extensions -/

theorem agreedValue_of_alone (catalog : Catalog) (name : String) {values : List Slot}
    (alone : values.length ≤ 1) : catalog.agreedValue name none values = .ok values.head? := by
  match values with
  | [] => rfl
  | [value] => rfl
  | _ :: _ :: _ => simp at alone

theorem echoes_mergeExtension (name : String) (unique : Relator.BiUnique keyed)
    (same : List.Forall₂ (Declaration.Agrees keyed linked lone left right) full full')
    (alone : full.length ≤ 1) :
    Echoes (left.mergeExtension name full) (right.mergeExtension name full')
      (Merged.Agrees keyed linked lone) := by
  have content := agrees_withContent same
  have docs := mergeDocs_agrees unique same (left.withContent full).length
  have annotations := mergeAnnotations_eq same
  have values : List.Forall₂ (Slot.Twin linked)
      ((left.withContent full).filterMap fun declaration => (left.shape declaration.id).inner?)
      ((right.withContent full').filterMap fun declaration =>
        (right.shape declaration.id).inner?) :=
    List.rel_filterMap (fun _ _ agrees => agrees.twin.shape.inner?) content
  have few (select : Declaration → Option Slot) :
      ((left.withContent full).filterMap select).length ≤ 1 :=
    (List.length_filterMap_le select _).trans ((length_withContent_le full).trans alone)
  unfold mergeExtension
  dsimp only
  rw [← content.length_eq, agreedValue_of_alone left name (few _),
    agreedValue_of_alone right name (values.length_eq ▸ few _)]
  refine echoes_pure ⟨⟨.extension name ?_, docs.1, annotations⟩, docs.2,
    fun _ => mergeDocs_of_alone left alone _⟩
  generalize List.filterMap _ (left.withContent full) = inner at values
  generalize List.filterMap _ (right.withContent full') = inner' at values
  cases values with
  | nil => exact .none
  | cons first => exact .some first

end DocShapes.Catalog
