import DocShapes.Proofs.Coordinating

/-! # Names that are ready to be merged in two catalogs

The declarations of a name correspond in two catalogs, or the name has a definition and all its
declarations are mentions, one of which is the definition itself in the second catalog. Either way a
merge comes to the same definition (`simulates_mergeName`).
-/

namespace DocShapes.Catalog

variable {linked : TypeId → TypeId → Prop} {quiet : TypeId → Prop} {extended : String → Prop}
  {rest : List String} {left right left' right' : Catalog} {name : String}
  {staged staged' : List Declaration}

/-! ## Ready names -/

/-- How a name is going to get its definition. -/
inductive Readiness (linked : TypeId → TypeId → Prop) (quiet : TypeId → Prop)
    (extended : String → Prop) (left right : Catalog) (name : String)
    (staged staged' : List Declaration) : Prop
  /-- Channels have declared it; what it is known by is a declaration, or a mention without one. -/
  | declared {id id' : TypeId} (known : left.known? name = some id)
      (place : id ∈ staged.map Declaration.id ∨ left.definition id = .ofShape (.record name []))
      (known' : right.known? name = some id') (place' : id' ∈ staged'.map Declaration.id)
      (twins : ∀ declaration ∈ staged, ∀ declaration',
        Declaration.Linked linked declaration declaration' →
          (left.definition declaration.id).Twin linked (right.definition declaration'.id))
      (free : ¬extended name)
      (calm : ∀ field, 2 ≤ (left.usesOf staged field).length →
        ∀ use ∈ left.usesOf staged field, quiet use.site.target)
  /-- It has a definition already, and the channels have only mentioned it. -/
  | defined {id id' : TypeId} (known : left.known? name = some id)
      (place : id ∉ staged.map Declaration.id) (known' : right.known? name = some id')
      (place' : id' ∈ staged'.map Declaration.id)
      (twin : (left.definition id).Twin linked (right.definition id'))
      (filled : (left.definition id).isShell = false)
      (mentions : ∀ declaration ∈ staged, (left.definition declaration.id).isShell = true)
      (mentions' : ∀ declaration ∈ staged',
        declaration.id = id' ∨ (right.definition declaration.id).isShell = true)
      (distinct : (left.shape id).FieldsDistinct)

/-- The declarations of a name are the same ones, and nothing is merged yet. Any other definition of
the name is what it is known by, or a mention. -/
structure Ready (linked : TypeId → TypeId → Prop) (quiet : TypeId → Prop)
    (extended : String → Prop) (left right : Catalog) (name : String)
    (staged staged' : List Declaration) : Prop where
  unfused : left.Unfused name staged
  unfused' : right.Unfused name staged'
  same : List.Forall₂ (Declaration.Linked linked) staged staged'
  beside : ∀ {one other}, linked one other → left.Names one name →
    one ∉ staged.map Declaration.id →
      (left.known? name = some one ∨ (left.definition one).isShell = true) ∧
        (right.definition other).isShell = true
  readiness : Readiness linked quiet extended left right name staged staged'

/-! ## The declarations that say something -/

theorem filter_eq_singleton {declaration : Declaration} (test : Declaration → Bool)
    (once : (staged.map Declaration.id).Nodup) (member : declaration ∈ staged)
    (passes : ∀ other ∈ staged, test other = true ↔ other.id = declaration.id) :
    staged.filter test = [declaration] := by
  induction staged with
  | nil => cases member
  | cons first staged ih =>
    obtain ⟨fresh, once⟩ := List.nodup_cons.mp once
    obtain ⟨own, others⟩ := List.forall_mem_cons.mp passes
    rcases List.mem_cons.mp member with rfl | later
    · rw [List.filter_cons_of_pos (own.mpr rfl), List.filter_eq_nil_iff.mpr]
      intro other inside passed
      exact fresh (List.mem_map.mpr ⟨other, inside, (others other inside).mp passed⟩)
    · have apart : first.id ≠ declaration.id := fun same =>
        fresh (List.mem_map.mpr ⟨declaration, later, same.symm⟩)
      rw [List.filter_cons_of_neg fun passed => apart (own.mp passed)]
      exact ih once later others

theorem mergeSites_of_staged {id : TypeId} (known : left.known? name = some id)
    (member : id ∈ staged.map Declaration.id) :
    left.mergeSites (left.known? name) staged = staged := by
  simp [mergeSites, known, any_id_eq_true member]

theorem mergeSites_of_shell {id : TypeId} (known : left.known? name = some id)
    (shell : (left.definition id).isShell = true) :
    left.mergeSites (left.known? name) staged = staged := by
  simp [mergeSites, known, shell]

theorem fullOf_of_mentions {id : TypeId} (known : left.known? name = some id)
    (place : id ∉ staged.map Declaration.id) (filled : (left.definition id).isShell = false)
    (mentions : ∀ declaration ∈ staged, (left.definition declaration.id).isShell = true) :
    left.mergeSites (left.known? name) staged = ⟨id, .unscoped⟩ :: staged ∧
      left.fullOf name staged = [⟨id, .unscoped⟩] := by
  have sites : left.mergeSites (left.known? name) staged = ⟨id, .unscoped⟩ :: staged := by
    simp [mergeSites, known, filled, any_id_eq_false place]
  refine ⟨sites, ?_⟩
  rw [fullOf, sites, List.filter_cons_of_pos (by simp [filled]), List.filter_eq_nil_iff.mpr]
  intro declaration member
  simp [mentions declaration member]

/-! ## Merging a ready name -/

/-- A name is merged in both catalogs, into the same definition. -/
structure Together (linked : TypeId → TypeId → Prop) (left right : Catalog) (name : String)
    (staged staged' : List Declaration) (id id' : TypeId) (definition definition' : Definition)
    (siteDocs siteDocs' : OrderedMap TypeId String) (after later : Catalog) : Prop where
  instated : left.Instated name staged id definition siteDocs after
  instated' : right.Instated name staged' id' definition' siteDocs' later
  place : left.known? name = some id ∧ id ∉ staged.map Declaration.id ∨
    id = left.next ∧ ∃ declaration ∈ staged, left.known? name = some declaration.id
  place' : id' = right.next
  twin : definition.Twin linked definition'
  docs : ∀ declaration ∈ staged, ∀ declaration',
    Declaration.Linked linked declaration declaration' →
      siteDocs'.get? declaration'.id = siteDocs.get? declaration.id

/-- The name is merged in both catalogs; without leave for an extension it is a record. -/
inductive MergedTogether (linked : TypeId → TypeId → Prop) (extended : String → Prop)
    (left right : Catalog) (name : String) (staged staged' : List Declaration)
    (after later : Catalog) : Prop
  | intro {id id' : TypeId} {definition definition' : Definition}
      {siteDocs siteDocs' : OrderedMap TypeId String}
      (together : Together linked left right name staged staged' id id' definition definition'
        siteDocs siteDocs' after later)
      (record : ¬extended name → definition.base = .record)

theorem baseOf_eq_record (each : ∀ site ∈ left.mergeSites (left.known? name) staged,
    (left.definition site.id).base = .record) : left.baseOf name staged = .record := by
  have inside (site : Declaration) (member : site ∈ left.fullOf name staged) :
      site ∈ left.mergeSites (left.known? name) staged := (List.mem_filter.mp member).1
  rw [baseOf]
  generalize left.mergeSites (left.known? name) staged = sites at each inside
  generalize left.fullOf name staged = full at inside
  cases full with
  | cons first => exact each first (inside first List.mem_cons_self)
  | nil =>
    cases sites with
    | nil => rfl
    | cons first => exact each first List.mem_cons_self

theorem biUnique_among (unique : Relator.BiUnique linked) (ids : List TypeId) :
    Relator.BiUnique fun one other => one ∈ ids ∧ linked one other :=
  ⟨fun _ _ _ first second => unique.1 first.2 second.2,
    fun _ _ _ first second => unique.2 first.2 second.2⟩

theorem OrderedMap.Parallel.get?_eq {keyed : TypeId → TypeId → Prop}
    {docs docs' : OrderedMap TypeId String} (parallel : docs.Parallel keyed Eq docs')
    (unique : Relator.BiUnique keyed) {one other : TypeId} (same : keyed one other) :
    docs'.get? other = docs.get? one := by
  have found := parallel.get? unique same
  generalize docs.get? one = doc at found
  generalize docs'.get? other = doc' at found
  cases found with
  | none => rfl
  | some equal => rw [equal]

theorem parallel_empty_right {keyed : TypeId → TypeId → Prop} {docs : OrderedMap TypeId String}
    (parallel : OrderedMap.empty.Parallel keyed Eq docs) : docs = .empty := by
  obtain ⟨entries⟩ := docs
  cases parallel
  rfl

/-- The place of the merged definition in the first catalog: behind all others, or that of a known
definition that no channel has staged. -/
inductive Placement (linked : TypeId → TypeId → Prop) (left : Catalog) (name : String)
    (staged : List Declaration) (base : Base) (merged : Option Merged) : Prop
  | behind {declaration : Declaration} (member : declaration ∈ staged)
      (known : left.known? name = some declaration.id)
  | inside {id : TypeId} (known : left.known? name = some id)
      (place : id ∉ staged.map Declaration.id)
      (quiet : ∀ content ∈ merged, content.siteDocs.get? id = none)
      (silent : merged = none → (left.definition id).Twin linked (shellOf base name))

/-- Definitions that are keyed alike get the same doc for their sites; a single one gets none. -/
theorem siteDoc_eq_of_comes {keyed : TypeId → TypeId → Prop} {lone : Prop}
    {merged merged' : Option Merged} {base : Base}
    (made : Option.Rel (Comes keyed linked lone base) merged merged')
    (unique : Relator.BiUnique keyed) {one other : TypeId} (same : lone ∨ keyed one other) :
    ((merged'.map Merged.siteDocs).getD .empty).get? other =
      ((merged.map Merged.siteDocs).getD .empty).get? one := by
  cases made with
  | none => rfl
  | @some content content' comes =>
    change content'.siteDocs.get? other = content.siteDocs.get? one
    rcases same with single | same
    · have parallel := comes.agrees.siteDocs
      rw [comes.agrees.alone single] at parallel ⊢
      rw [parallel_empty_right parallel]
      rfl
    · exact OrderedMap.Parallel.get?_eq comes.agrees.siteDocs unique same

theorem together_of_fused {keyed : TypeId → TypeId → Prop} {lone : Prop}
    {merged merged' : Option Merged} {base : Base} (unfused : left.Unfused name staged)
    (unfused' : right.Unfused name staged') {id' : TypeId} (known' : right.known? name = some id')
    (place' : id' ∈ staged'.map Declaration.id) (unique : Relator.BiUnique keyed)
    (made : Option.Rel (Comes keyed linked lone base) merged merged')
    (fused : left.Fused name staged merged left') (fused' : right.Fused name staged' merged' right')
    (bases : left.baseOf name staged = base ∧ right.baseOf name staged' = base)
    (placement : Placement linked left name staged base merged)
    (docs : ∀ declaration ∈ staged, ∀ declaration',
      Declaration.Linked linked declaration declaration' →
        lone ∨ keyed declaration.id declaration'.id)
    (record : ¬extended name → base ≠ .extension ∧
      ∀ own, left.known? name = some own → (left.definition own).base = .record) :
    MergedTogether linked extended left right name staged staged' left' right' := by
  obtain ⟨base_eq, base_eq'⟩ := bases
  have target' : mergeTarget (right.canonical.get? name) (right.known? name) staged' = none := by
    simp [mergeTarget, known', unfused'.free, any_id_eq_true place']
  have twins := fun declaration member declaration' link =>
    siteDoc_eq_of_comes made unique (docs declaration member declaration' link)
  unfold Fused at fused fused'
  rw [target', base_eq'] at fused'
  rw [base_eq] at fused
  cases placement with
  | @behind declaration member known =>
    have target : mergeTarget (left.canonical.get? name) (left.known? name) staged = none := by
      simp [mergeTarget, known, unfused.free, any_id_eq_true (List.mem_map_of_mem member)]
    rw [target] at fused
    refine ⟨⟨fused, fused', .inr ⟨rfl, declaration, member, known⟩, rfl, ?_, twins⟩, ?_⟩
    · cases made with
      | none => exact Definition.twin_ofShape (Shape.twin_of_slots_eq_nil (by split <;> rfl))
      | some comes => exact comes.agrees.definition
    · intro free
      obtain ⟨other, _⟩ := record free
      cases made with
      | none =>
        change (shellOf base name).base = .record
        rw [shellOf, if_neg other]
        rfl
      | some comes => exact comes.record other
  | @inside id known place quiet silent =>
    have target : mergeTarget (left.canonical.get? name) (left.known? name) staged = some id := by
      simp [mergeTarget, known, unfused.free, any_id_eq_false place]
    rw [target] at fused
    have own {content : Merged} (same : merged = some content) :
        keepRemainder id content = content.definition := by
      rw [keepRemainder, quiet content same]
    refine ⟨⟨fused, fused', .inl ⟨known, place⟩, rfl, ?_, twins⟩, ?_⟩
    · cases made with
      | none => exact silent rfl
      | some comes =>
        change (keepRemainder id _).Twin linked _
        rw [own rfl]
        exact comes.agrees.definition
    · intro free
      obtain ⟨other, owned⟩ := record free
      cases made with
      | none => exact owned id known
      | some comes =>
        change (keepRemainder id _).base = .record
        rw [own rfl]
        exact comes.record other

/-- The declarations of the name correspond. -/
theorem simulates_mergeName_of_declared
    (coordinated : Coordinated linked quiet extended (name :: rest) left right)
    (unfused : left.Unfused name staged) (unfused' : right.Unfused name staged')
    (same : List.Forall₂ (Declaration.Linked linked) staged staged') {id id' : TypeId}
    (known : left.known? name = some id)
    (place : id ∈ staged.map Declaration.id ∨ left.definition id = .ofShape (.record name []))
    (known' : right.known? name = some id') (place' : id' ∈ staged'.map Declaration.id)
    (twins : ∀ declaration ∈ staged, ∀ declaration',
      Declaration.Linked linked declaration declaration' →
        (left.definition declaration.id).Twin linked (right.definition declaration'.id))
    (free : ¬extended name)
    (calm : ∀ field, 2 ≤ (left.usesOf staged field).length →
      ∀ use ∈ left.usesOf staged field, quiet use.site.target) :
    Simulates (mergeName name staged) left (mergeName name staged') right
      fun _ after _ later =>
        MergedTogether linked extended left right name staged staged' after later := by
  have sites : left.mergeSites (left.known? name) staged = staged := by
    rcases place with member | mention
    · exact mergeSites_of_staged known member
    · exact mergeSites_of_shell known (by rw [mention]; rfl)
  have sites' := mergeSites_of_staged known' place'
  have unique := biUnique_among coordinated.unique (staged.map Declaration.id)
  have agree : List.Forall₂ (Declaration.Agrees
      (fun one other => one ∈ staged.map Declaration.id ∧ linked one other) linked False left right)
      (left.fullOf name staged) (right.fullOf name staged') := by
    rw [fullOf, fullOf, sites, sites']
    refine List.rel_filter (fun one other agrees => ?_) ((forall₂_mem same).imp
      fun one other related => ⟨⟨List.mem_map_of_mem related.1, related.2.id⟩,
        twins one related.1 other related.2, .inl related.2.channel⟩)
    dsimp only
    rw [agrees.twin.isShell]
  have base : left.baseOf name staged = .record := baseOf_eq_record fun site member =>
    coordinated.records (unfused.names site (sites ▸ member)) free
  have base' : right.baseOf name staged' = .record := baseOf_eq_record fun site member =>
    coordinated.records' (unfused'.names site (sites' ▸ member)) free
  have uses (field : String) :
      left.usesOf (left.fullOf name staged) field = left.usesOf staged field := by
    rw [usesOf, usesOf, fullOf, sites, withContent_full]
  refine (simulates_mergeName_fused coordinated.consistent coordinated.consistent' known known'
    unfused unfused' unique agree False.elim (fun field several use member one one' other' => ?_)
    (base'.trans base.symm) fun extension => ?_).imp ?_
  · rw [uses] at several member
    exact coordinated.equivalent_of_quiet (calm field several use member)
  · rw [base] at extension
    cases extension
  · rintro _ after _ later ⟨merged, merged', made, _, fused, fused'⟩
    have records (own : TypeId) (found : left.known? name = some own) :
        (left.definition own).base = .record :=
      coordinated.records (coordinated.consistent.owned name own found) free
    rw [base] at made
    refine together_of_fused unfused unfused' known' place' unique made fused fused'
      ⟨base, base'⟩ ?_ (fun declaration member _ link => .inr ⟨List.mem_map_of_mem member, link.id⟩)
      fun _ => ⟨Base.noConfusion, records⟩
    by_cases member : id ∈ staged.map Declaration.id
    · obtain ⟨declaration, inside, rfl⟩ := List.mem_map.mp member
      exact .behind inside known
    · have mention := place.resolve_left member
      refine .inside known member (fun content own => ?_) fun _ => ?_
      · subst own
        cases made with
        | some comes =>
          -- Docs are left for staged declarations only.
          cases found : content.siteDocs.get? id with
          | none => rfl
          | some doc =>
            obtain ⟨_, inside, _⟩ := comes.agrees.siteDocs.exists_key found
            exact absurd inside member
      · rw [mention]
        exact Definition.twin_ofShape (.record name .nil)

/-- The name has a definition, and the declarations of the channels are mentions. -/
theorem simulates_mergeName_of_defined
    (coordinated : Coordinated linked quiet extended (name :: rest) left right)
    (unfused : left.Unfused name staged) (unfused' : right.Unfused name staged') {id id' : TypeId}
    (known : left.known? name = some id) (place : id ∉ staged.map Declaration.id)
    (known' : right.known? name = some id') (place' : id' ∈ staged'.map Declaration.id)
    (twin : (left.definition id).Twin linked (right.definition id'))
    (filled : (left.definition id).isShell = false)
    (mentions : ∀ declaration ∈ staged, (left.definition declaration.id).isShell = true)
    (mentions' : ∀ declaration ∈ staged',
      declaration.id = id' ∨ (right.definition declaration.id).isShell = true)
    (distinct : (left.shape id).FieldsDistinct) :
    Simulates (mergeName name staged) left (mergeName name staged') right
      fun _ after _ later =>
        MergedTogether linked extended left right name staged staged' after later := by
  obtain ⟨sites, full⟩ := fullOf_of_mentions known place filled mentions
  have sites' := mergeSites_of_staged known' place'
  obtain ⟨own', member', rfl⟩ := List.mem_map.mp place'
  have full' : right.fullOf name staged' = [own'] := by
    rw [fullOf, sites']
    refine filter_eq_singleton _ unfused'.once member' fun other member => ?_
    constructor
    · intro passed
      refine (mentions' other member).resolve_right fun shell => ?_
      simp [shell] at passed
    · intro same
      rw [same, twin.isShell, filled]
      rfl
  have unique : Relator.BiUnique fun one other => one = id ∧ other = own'.id :=
    ⟨fun _ _ _ first second => first.1.trans second.1.symm,
      fun _ _ _ first second => first.2.trans second.2.symm⟩
  have agree : List.Forall₂ (Declaration.Agrees (fun one other => one = id ∧ other = own'.id) linked
      True left right) (left.fullOf name staged) (right.fullOf name staged') := by
    rw [full, full']
    exact .cons ⟨⟨rfl, rfl⟩, twin, .inr trivial⟩ .nil
  have base : left.baseOf name staged = (left.definition id).base := by
    rw [baseOf, full]
    rfl
  have base' : right.baseOf name staged' = (left.definition id).base := by
    rw [baseOf, full', ← twin.base]
    rfl
  have few : (left.fullOf name staged).length ≤ 1 := by rw [full, List.length_singleton]
  refine (simulates_mergeName_fused coordinated.consistent coordinated.consistent' known known'
    unfused unfused' unique agree (fun _ => few) (fun field => ?_) (base'.trans base.symm)
    fun _ => few).imp ?_
  · rw [full]
    exact transfers_of_alone distinct field
  · rintro _ after _ later ⟨merged, merged', made, empty, fused, fused'⟩
    rw [base] at made
    refine together_of_fused unfused unfused' known' place' unique made fused fused' ⟨base, base'⟩
      (.inside known place (fun content own => ?_) fun none => ?_) (fun _ _ _ _ => .inl trivial)
      fun free => ?_
    · subst own
      cases made with
      | some comes =>
        rw [comes.agrees.alone trivial]
        rfl
    · rw [full] at empty
      cases empty none
    · have record := coordinated.records (coordinated.consistent.owned name id known) free
      refine ⟨by rw [record]; exact Base.noConfusion, fun own found => ?_⟩
      exact coordinated.records (coordinated.consistent.owned name own found) free

theorem simulates_mergeName
    (coordinated : Coordinated linked quiet extended (name :: rest) left right)
    (ready : Ready linked quiet extended left right name staged staged') :
    Simulates (mergeName name staged) left (mergeName name staged') right
      fun _ after _ later =>
        MergedTogether linked extended left right name staged staged' after later := by
  cases ready.readiness with
  | declared known place known' place' twins free calm =>
    exact simulates_mergeName_of_declared coordinated ready.unfused ready.unfused' ready.same known
      place known' place' twins free calm
  | defined known place known' place' twin filled mentions mentions' distinct =>
    exact simulates_mergeName_of_defined coordinated ready.unfused ready.unfused' known place known'
      place' twin filled mentions mentions' distinct

end DocShapes.Catalog
