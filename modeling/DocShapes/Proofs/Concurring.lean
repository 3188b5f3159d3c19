import DocShapes.Proofs.Nesting
import DocShapes.Proofs.Readying

/-! # Merging the same names in two catalogs

When a ready name has been merged in two coordinated catalogs they are coordinated still, now with
one name less to merge, and the names that were ready beside it are ready still. So all names can
be merged in the second catalog that can be merged in the first one (`simulates_mergeNames`), and
with all of them merged the two catalogs are aligned (`Coordinated.aligned`).
-/

namespace DocShapes.Catalog

variable {linked : TypeId → TypeId → Prop} {quiet : TypeId → Prop} {extended : String → Prop}
  {rest : List String} {left right left' right' : Catalog} {name other : String}
  {staged staged' others others' : List Declaration} {id id' : TypeId}
  {definition definition' : Definition} {siteDocs siteDocs' : OrderedMap TypeId String}

theorem Merging.nested {before after : Catalog} (merging : Merging before after)
    (consistent : before.Consistent) (nested : before.Nested) : after.Nested := by
  induction merging with
  | refl => exact nested
  | tail steps step ih => exact step.nested (Merging.consistent steps consistent) ih

/-! ## What a merge leaves alone -/

theorem Match.isNamed_eq {one other : TypeId} (pair : Match linked rest left right one other) :
    (right.definition other).isNamed = (left.definition one).isNamed := by
  cases pair with
  | plain _ _ _ twin => exact twin.isNamed
  | titled names names' => rw [names.named, names'.named]

/-- The ids of declarations of a name, one of which is linked to another one. -/
theorem mem_ids_iff (unique : Relator.BiUnique linked)
    (same : List.Forall₂ (Declaration.Linked linked) staged staged') {one other : TypeId}
    (link : linked one other) :
    one ∈ staged.map Declaration.id ↔ other ∈ staged'.map Declaration.id :=
  List.rel_mem unique link (List.rel_map (fun _ _ related => related.id) same)

/-- What a merge of a name leaves alone. -/
structure Unmoved (before : Catalog) (name : String) (after : Catalog) : Prop where
  held : ∀ {other}, before.Holds other → after.Holds other
  definition : ∀ {other}, before.Holds other → ¬before.Names other name →
    after.definition other = before.definition other
  stays : ∀ {other title}, before.Names other title → after.Names other title
  names : ∀ {other title}, title ≠ name → after.Names other title → before.Names other title
  forward : ∀ {other}, ¬before.Names other name →
    after.forward.get? other = before.forward.get? other
  known : ∀ {title}, title ≠ name → after.known? title = before.known? title
  canonical : ∀ {title}, title ≠ name → after.canonical.get? title = before.canonical.get? title

theorem Instated.names {before after : Catalog}
    (instated : before.Instated name staged id definition siteDocs after)
    (consistent : after.Consistent) : after.Names id name :=
  consistent.owned name id (by rw [instated.known?_eq, if_pos rfl])

theorem Instated.records {before after : Catalog}
    (instated : before.Instated name staged id definition siteDocs after)
    (consistent : after.Consistent) (record : ¬extended name → definition.base = .record)
    (records : ∀ {other title}, before.Names other title → ¬extended title →
      (before.definition other).base = .record) {other : TypeId} {title : String}
    (names : after.Names other title) (free : ¬extended title) :
    (after.definition other).base = .record := by
  rw [instated.definition]
  by_cases own : other = id
  · subst own
    obtain rfl : title = name := names.same.symm.trans (instated.names consistent).same
    rw [if_pos rfl]
    exact record free
  · rw [if_neg own]
    exact records ((instated.names_of_ne own title).mp names) free

theorem Instated.unmoved {before after : Catalog}
    (instated : before.Instated name staged id definition siteDocs after)
    (consistent : after.Consistent) (place : before.Names id name ∨ id = before.next)
    (names : ∀ declaration ∈ staged, before.Names declaration.id name) :
    before.Unmoved name after := by
  have apart {other : TypeId} (held : before.Holds other) (title : ¬before.Names other name) :
      other ≠ id := by
    rintro rfl
    exact place.elim title (ne_next_of_holds held)
  refine ⟨fun held => (instated.held _).mpr (.inl held), fun held title => ?_,
    fun {other title} found => ?_, fun {other title} different found => ?_,
    fun {other} title => instated.beside other fun member => ?_,
    fun {title} different => ?_, fun {title} different => ?_⟩
  · rw [instated.definition, if_neg (apart held title)]
  · by_cases own : other = id
    · subst own
      rcases place with same | rfl
      · exact found.same.symm.trans same.same ▸ instated.names consistent
      · exact absurd rfl (ne_next_of_holds found.held)
    · exact (instated.names_of_ne own title).mpr found
  · refine (instated.names_of_ne ?_ title).mp found
    rintro rfl
    exact different (found.same.symm.trans (instated.names consistent).same)
  · obtain ⟨declaration, inside, rfl⟩ := List.mem_map.mp member
    exact title (names declaration inside)
  · rw [instated.known?_eq, if_neg different.symm]
  · rw [instated.canonical, OrderedMap.get?_set, if_neg different.symm]

theorem Names.not_names {catalog : Catalog} {title : String} (names : catalog.Names id title)
    (different : title ≠ name) : ¬catalog.Names id name := fun own =>
  different (names.same.symm.trans own.same)

theorem not_names_of_unnamed {catalog : Catalog}
    (unnamed : (catalog.definition id).isNamed = false) : ¬catalog.Names id name := fun own => by
  rw [own.named] at unnamed
  cases unnamed

namespace Together

theorem unmoved (together : Together linked left right name staged staged' id id' definition
      definition' siteDocs siteDocs' left' right') (consistent : left.Consistent)
    (further : left'.Consistent) (names : ∀ declaration ∈ staged, left.Names declaration.id name) :
    left.Unmoved name left' :=
  together.instated.unmoved further
    (together.place.imp (fun inside => consistent.owned name id inside.1) And.left) names

theorem unmoved' (together : Together linked left right name staged staged' id id' definition
      definition' siteDocs siteDocs' left' right') (further : right'.Consistent)
    (names : ∀ declaration ∈ staged', right.Names declaration.id name) :
    right.Unmoved name right' :=
  together.instated'.unmoved further (.inr together.place') names

end Together

theorem Leads.unmoved {before after : Catalog} {title : String} {doc : Option String}
    (leads : before.Leads id title doc) (unmoved : before.Unmoved name after)
    (names : before.Names id title) (different : title ≠ name) : after.Leads id title doc := by
  have other := names.not_names different
  cases leads with
  | retired forward canonical =>
    exact .retired ((unmoved.forward other).trans forward)
      ((unmoved.canonical different).trans canonical)
  | standing unforwarded mention =>
    refine .standing ((unmoved.forward other).trans unforwarded) ?_
    rw [unmoved.known different, unmoved.definition names.held other]
    exact mention

/-! ## The catalogs after a merge -/

/-- The definitions of the merged name lead to what it is known by now. -/
theorem Together.leads {one other : TypeId}
    (together : Together linked left right name staged staged' id id' definition definition'
      siteDocs siteDocs' left' right') (unique : Relator.BiUnique linked)
    (same : List.Forall₂ (Declaration.Linked linked) staged staged') (link : linked one other)
    (held' : right.Holds other)
    (unforwarded : left.forward.get? one = none ∧ right.forward.get? other = none)
    (beside : one ∉ staged.map Declaration.id →
      (left.known? name = some one ∨ (left.definition one).isShell = true) ∧
        (right.definition other).isShell = true) :
    ∃ doc, left'.Leads one name doc ∧ right'.Leads other name doc := by
  have canonical : left'.canonical.get? name = some id := by
    rw [together.instated.canonical, OrderedMap.get?_set, if_pos rfl]
  have canonical' : right'.canonical.get? name = some id' := by
    rw [together.instated'.canonical, OrderedMap.get?_set, if_pos rfl]
  by_cases member : one ∈ staged.map Declaration.id
  · -- Both are retired, with one doc.
    obtain ⟨declaration, inside, rfl⟩ := List.mem_map.mp member
    obtain ⟨declaration', inside', rfl⟩ :=
      List.mem_map.mp ((mem_ids_iff unique same link).mp member)
    have retired' := together.instated'.retired declaration' inside'
    obtain ⟨declared, within, related⟩ := exists_of_forall₂ same inside'
    have alike : declared.id = declaration.id := unique.1 related.id link
    have docs := together.docs declared within declaration' related
    rw [alike] at docs
    rw [docs] at retired'
    exact ⟨_, .retired (together.instated.retired declaration inside) canonical,
      .retired retired' canonical'⟩
  · obtain ⟨mention, mention'⟩ := beside member
    refine ⟨none, .standing ?_ ?_, .standing ?_ (.inr ?_)⟩
    · rw [together.instated.beside one member, unforwarded.1]
    · by_cases own : one = id
      · rw [together.instated.known?_eq, if_pos rfl, own]
        exact .inl rfl
      · refine .inr ?_
        rw [together.instated.definition, if_neg own]
        refine mention.resolve_left fun known => ?_
        rcases together.place with ⟨found, _⟩ | ⟨_, declaration, inside, found⟩
        · rw [known] at found
          exact own (Option.some.inj found)
        · rw [known] at found
          exact member (List.mem_map.mpr ⟨declaration, inside, (Option.some.inj found).symm⟩)
    · rw [together.instated'.beside other ((mem_ids_iff unique same link).not.mp member),
        unforwarded.2]
    · rw [together.instated'.definition, if_neg, mention']
      rw [together.place']
      exact ne_next_of_holds held'

theorem Ready.isKnown (ready : Ready linked quiet extended left right name staged staged') :
    left.isKnown name = true ∧ right.isKnown name = true := by
  rw [isKnown_iff, isKnown_iff]
  cases ready.readiness with
  | declared known _ known' => exact ⟨⟨_, known⟩, ⟨_, known'⟩⟩
  | defined known _ known' => exact ⟨⟨_, known⟩, ⟨_, known'⟩⟩

theorem Unmoved.isKnown_eq {before after : Catalog} {title : String}
    (unmoved : before.Unmoved name after) (different : title ≠ name) :
    after.isKnown title = before.isKnown title := by
  rw [Catalog.isKnown, unmoved.known different]
  rfl

section

variable (coordinated : Coordinated linked quiet extended (name :: rest) left right)
  (ready : Ready linked quiet extended left right name staged staged')
  (together : Together linked left right name staged staged' id id' definition definition'
    siteDocs siteDocs' left' right')
  (unmoved : left.Unmoved name left') (unmoved' : right.Unmoved name right')

include coordinated together unmoved unmoved'

theorem Coordinated.advance_known {title : String} {one two : TypeId} (settled : title ∉ rest)
    (found : left'.known? title = some one) (found' : right'.known? title = some two) :
    (left'.definition one).Twin linked (right'.definition two) := by
  by_cases same : title = name
  · subst same
    rw [together.instated.known?_eq, if_pos rfl] at found
    rw [together.instated'.known?_eq, if_pos rfl] at found'
    cases found
    cases found'
    rw [together.instated.definition, if_pos rfl, together.instated'.definition, if_pos rfl]
    exact together.twin
  · rw [unmoved.known same] at found
    rw [unmoved'.known same] at found'
    have names := coordinated.consistent.owned _ _ found
    have names' := coordinated.consistent'.owned _ _ found'
    rw [unmoved.definition names.held (names.not_names same),
      unmoved'.definition names'.held (names'.not_names same)]
    exact coordinated.known (List.not_mem_cons_of_ne_of_not_mem same settled) found found'

include ready

theorem Coordinated.advance_match (fresh : name ∉ rest) {one two : TypeId}
    (link : linked one two) : Match linked rest left' right' one two := by
  cases coordinated.pairs link with
  | plain held held' unnamed twin unforwarded unforwarded' strange =>
    have apart := @not_names_of_unnamed name _ _ unnamed
    have apart' := @not_names_of_unnamed name _ _ (twin.isNamed.trans unnamed)
    have same := unmoved.definition held apart
    have same' := unmoved'.definition held' apart'
    refine .plain (unmoved.held held) (unmoved'.held held') (by rw [same, unnamed])
      (by rw [same, same']; exact twin) ((unmoved.forward apart).trans unforwarded)
      ((unmoved'.forward apart').trans unforwarded') fun unknown => ?_
    rw [same] at unknown
    have absent := strange unknown
    have wanted : left'.wanted one = left.wanted one := by
      rw [wanted, same, resolveAlias, together.instated.aliases]
      rfl
    -- The merged name was known before.
    rw [wanted, unmoved.isKnown_eq, absent]
    intro found
    rw [found, ready.isKnown.1] at absent
    cases absent
  | @titled title names names' leads waits =>
    by_cases same : title = name
    · subst same
      have unforwarded := waits List.mem_cons_self
      exact .titled (unmoved.stays names) (unmoved'.stays names') (fun _ => together.leads
        coordinated.unique ready.same link names'.held unforwarded (ready.beside link names))
        fun member => absurd member fresh
    · have apart := names.not_names same
      have apart' := names'.not_names same
      refine .titled (unmoved.stays names) (unmoved'.stays names')
        (fun settled => ?_) fun waiting => ?_
      · obtain ⟨doc, leads, leads'⟩ := leads (List.not_mem_cons_of_ne_of_not_mem same settled)
        exact ⟨doc, leads.unmoved unmoved names same, leads'.unmoved unmoved' names' same⟩
      · rw [unmoved.forward apart, unmoved'.forward apart']
        exact waits (List.mem_cons_of_mem _ waiting)

end

theorem Coordinated.advance
    (coordinated : Coordinated linked quiet extended (name :: rest) left right)
    (ready : Ready linked quiet extended left right name staged staged')
    (together : Together linked left right name staged staged' id id' definition definition'
      siteDocs siteDocs' left' right') (record : ¬extended name → definition.base = .record)
    (fresh : name ∉ rest) (further : left'.Consistent) (further' : right'.Consistent)
    (nested : left'.Nested) (nested' : right'.Nested) :
    Coordinated linked quiet extended rest left' right' := by
  have unmoved := together.unmoved coordinated.consistent further ready.unfused.names
  have unmoved' := together.unmoved' further' ready.unfused'.names
  have known : left'.known? name = some id := by rw [together.instated.known?_eq, if_pos rfl]
  have known' : right'.known? name = some id' := by rw [together.instated'.known?_eq, if_pos rfl]
  have own := further.owned name id known
  have aliases : right'.aliases = left'.aliases := by
    rw [together.instated.aliases, together.instated'.aliases, coordinated.aliases]
  refine ⟨further, further', nested, nested', coordinated.unique, aliases, ?_, fun title => ?_,
    coordinated.advance_known together unmoved unmoved',
    coordinated.advance_match ready together unmoved unmoved' fresh,
    together.instated.records further record coordinated.records,
    together.instated'.records further' (fun free => ?_) coordinated.records',
    fun held => unmoved.held (coordinated.inside held), fun {one title} calm names => ?_,
    fun {one} calm unnamed child member => ?_⟩
  · rw [together.instated.canonical, together.instated'.canonical, OrderedMap.keys_set,
      OrderedMap.keys_set, coordinated.keys]
  · by_cases same : title = name
    · rw [same, Catalog.isKnown, Catalog.isKnown, known, known']
      rfl
    · rw [unmoved.isKnown_eq same, unmoved'.isKnown_eq same, coordinated.isKnown]
  · rw [together.twin.base]
    exact record free
  · by_cases here : one = id
    · subst here
      obtain rfl := names.same.symm.trans own.same
      rcases together.place with ⟨found, _⟩ | ⟨rfl, _⟩
      · exact coordinated.calm calm (coordinated.consistent.owned _ one found)
      · exact absurd rfl (ne_next_of_holds (coordinated.inside calm))
    · exact coordinated.calm calm ((together.instated.names_of_ne here title).mp names)
  · have here : one ≠ id := by
      rintro rfl
      rw [own.named] at unnamed
      cases unnamed
    rw [together.instated.definition, if_neg here] at unnamed
    rw [shape, together.instated.definition, if_neg here] at member
    exact coordinated.down calm unnamed child member

/-! ## Names that are ready beside a merged one -/

theorem usesOf_congr {before after : Catalog}
    (same : ∀ declaration ∈ staged,
      after.definition declaration.id = before.definition declaration.id) (field : String) :
    after.usesOf staged field = before.usesOf staged field := by
  have content : after.withContent staged = before.withContent staged :=
    List.filter_congr fun declaration member => by rw [same declaration member]
  have declared : after.declared (before.withContent staged) =
      before.declared (before.withContent staged) := by
    refine List.flatMap_congr fun declaration member => ?_
    rw [shape, same declaration (List.mem_filter.mp member).1]
    rfl
  rw [usesOf, usesOf, content, declared]

theorem Unfused.unmoved {before after : Catalog} (unfused : before.Unfused other others)
    (unmoved : before.Unmoved name after) (different : other ≠ name) :
    after.Unfused other others where
  free := (unmoved.canonical different).trans unfused.free
  names declaration member := unmoved.stays (unfused.names declaration member)
  once := unfused.once

theorem Ready.unmoved (ready : Ready linked quiet extended left right other others others')
    (coordinated : Coordinated linked quiet extended (name :: rest) left right)
    (unmoved : left.Unmoved name left') (unmoved' : right.Unmoved name right')
    (different : other ≠ name) :
    Ready linked quiet extended left' right' other others others' := by
  have kept {id : TypeId} (names : left.Names id other) :
      left'.definition id = left.definition id :=
    unmoved.definition names.held (names.not_names different)
  have kept' {id : TypeId} (names : right.Names id other) :
      right'.definition id = right.definition id :=
    unmoved'.definition names.held (names.not_names different)
  have own {id : TypeId} (known : left.known? other = some id) : left.Names id other :=
    coordinated.consistent.owned other id known
  have own' {id : TypeId} (known : right.known? other = some id) : right.Names id other :=
    coordinated.consistent'.owned other id known
  refine ⟨ready.unfused.unmoved unmoved different, ready.unfused'.unmoved unmoved' different,
    ready.same, fun {one two} link names absent => ?_, ?_⟩
  · have title := unmoved.names different names
    have title' : right.Names two other := by
      cases coordinated.pairs link with
      | plain _ _ unnamed => exact absurd title (not_names_of_unnamed unnamed)
      | titled found found' => exact title.same.symm.trans found.same ▸ found'
    rw [unmoved.known different, kept title, kept' title']
    exact ready.beside link title absent
  · cases ready.readiness with
    | @declared id id' known place known' place' twins free calm =>
      refine .declared ((unmoved.known different).trans known) (place.imp_right fun mention => ?_)
        ((unmoved'.known different).trans known') place'
        (fun declaration member declaration' link => ?_) free fun field => ?_
      · rw [kept (own known), mention]
      · have title := ready.unfused.names declaration member
        have title' : right.Names declaration'.id other := by
          cases coordinated.pairs link.id with
          | plain _ _ unnamed => exact absurd title (not_names_of_unnamed unnamed)
          | titled found found' => exact title.same.symm.trans found.same ▸ found'
        rw [kept title, kept' title']
        exact twins declaration member declaration' link
      · rw [usesOf_congr fun declaration member => kept (ready.unfused.names declaration member)]
        exact calm field
    | @defined id id' known place known' place' twin filled mentions mentions' distinct =>
      refine .defined ((unmoved.known different).trans known) place
        ((unmoved'.known different).trans known') place' ?_ ?_ (fun declaration member => ?_)
        (fun declaration member => ?_) ?_
      · rw [kept (own known), kept' (own' known')]
        exact twin
      · rw [kept (own known)]
        exact filled
      · rw [kept (ready.unfused.names declaration member)]
        exact mentions declaration member
      · rw [kept' (ready.unfused'.names declaration member)]
        exact mentions' declaration member
      · rw [shape, kept (own known)]
        exact distinct

/-! ## Merging all names -/

theorem simulates_mergeNames {buckets buckets' : List (String × List Declaration)}
    (coordinated : Coordinated linked quiet extended (buckets.map Prod.fst) left right)
    (ready : List.Forall₂ (fun bucket bucket' : String × List Declaration =>
      bucket'.1 = bucket.1 ∧
        Ready linked quiet extended left right bucket.1 bucket.2 bucket'.2) buckets buckets')
    (distinct : (buckets.map Prod.fst).Nodup) :
    Simulates (buckets.forM fun (name, staged) => mergeName name staged) left
      (buckets'.forM fun (name, staged) => mergeName name staged) right
      fun _ after _ later => Coordinated linked quiet extended [] after later := by
  induction buckets generalizing left right buckets' with
  | nil =>
    cases ready
    exact simulates_pure coordinated
  | cons first buckets ih =>
    obtain ⟨name, staged⟩ := first
    obtain ⟨⟨_, staged'⟩, _, ⟨same, first⟩, others, rfl⟩ :=
      List.forall₂_cons_left_iff.mp ready
    obtain rfl : _ = name := same
    obtain ⟨fresh, distinct⟩ := List.nodup_cons.mp distinct
    refine (simulates_mergeName coordinated first).bind ?_
    rintro _ after _ later done done' ⟨together, record⟩
    obtain ⟨known, known'⟩ := first.isKnown
    have merging := ((ends_mergeName coordinated.consistent known first.unfused.names).of_ok
      done).merging coordinated.consistent known first.unfused.names
    have merging' := ((ends_mergeName coordinated.consistent' known' first.unfused'.names).of_ok
      done').merging coordinated.consistent' known' first.unfused'.names
    have further := merging.consistent coordinated.consistent
    have further' := merging'.consistent coordinated.consistent'
    refine ih (coordinated.advance first together record fresh further further'
      (merging.nested coordinated.consistent coordinated.nested)
      (merging'.nested coordinated.consistent' coordinated.nested')) ?_ distinct
    have unmoved := together.unmoved coordinated.consistent further first.unfused.names
    have unmoved' := together.unmoved' further' first.unfused'.names
    refine (forall₂_mem others).imp fun bucket bucket' ⟨member, same, waiting⟩ => ⟨same, ?_⟩
    refine waiting.unmoved coordinated unmoved unmoved' ?_
    rintro equal
    exact fresh (List.mem_map.mpr ⟨bucket, member, equal⟩)

/-! ## With all names merged -/

/-- Two definitions that one name is known by in the two catalogs. -/
def Shares (left right : Catalog) (one other : TypeId) : Prop :=
  ∃ name, left.known? name = some one ∧ right.known? name = some other

/-- The partners of a type that a site lands at are unique: those of a type without a name by the
links, those of a named one by its name. -/
theorem Coordinated.biUnique_landed
    (coordinated : Coordinated linked quiet extended rest left right) :
    Relator.BiUnique fun one other => linked one other ∧ (left.definition one).isNamed = false ∨
      left.Shares right one other := by
  have named {one other : TypeId} (shares : left.Shares right one other) :
      (left.definition one).isNamed = true ∧ (right.definition other).isNamed = true := by
    obtain ⟨name, known, known'⟩ := shares
    exact ⟨(coordinated.consistent.owned name one known).named,
      (coordinated.consistent'.owned name other known').named⟩
  have unnamed {one other : TypeId} (link : linked one other)
      (unnamed : (left.definition one).isNamed = false) :
      (right.definition other).isNamed = false :=
    (coordinated.pairs link).isNamed_eq.trans unnamed
  constructor
  · rintro one other two (⟨link, plain⟩ | shares) (⟨link', plain'⟩ | shares')
    · exact coordinated.unique.1 link link'
    · exact absurd ((named shares').2.symm.trans (unnamed link plain)) Bool.noConfusion
    · exact absurd ((named shares).2.symm.trans (unnamed link' plain')) Bool.noConfusion
    · obtain ⟨name, known, known'⟩ := shares
      obtain ⟨name', own, own'⟩ := shares'
      obtain rfl := coordinated.consistent'.name_eq_of_known known' own'
      exact Option.some.inj (known.symm.trans own)
  · rintro one other two (⟨link, plain⟩ | shares) (⟨link', plain'⟩ | shares')
    · exact coordinated.unique.2 link link'
    · exact absurd ((named shares').1.symm.trans plain) Bool.noConfusion
    · exact absurd ((named shares).1.symm.trans plain') Bool.noConfusion
    · obtain ⟨name, known, known'⟩ := shares
      obtain ⟨name', own, own'⟩ := shares'
      obtain rfl := coordinated.consistent.name_eq_of_known known own
      exact Option.some.inj (known'.symm.trans own')

theorem Coordinated.aligned (coordinated : Coordinated linked quiet extended [] left right) :
    Aligned (fun one other => linked one other ∨ left.Shares right one other)
      (fun one other => linked one other ∧ (left.definition one).isNamed = false ∨
        left.Shares right one other) left right := by
  have settled (name : String) : name ∉ ([] : List String) := List.not_mem_nil
  refine ⟨coordinated.consistent, coordinated.consistent', coordinated.biUnique_landed,
    fun landed => landed.imp_left And.left, coordinated.aliases, coordinated.keys, fun name => ?_,
    fun {one other} landed => ?_, fun {one other} met => ?_⟩
  · have same := coordinated.isKnown name
    rw [Catalog.isKnown, Catalog.isKnown] at same
    generalize own : left.known? name = found at same
    generalize own' : right.known? name = found' at same
    cases found with
    | none => cases found' with
      | none => exact .none
      | some => cases same
    | some => cases found' with
      | none => cases same
      | some => exact .some (.inr ⟨name, own, own'⟩)
  · rcases landed with ⟨link, plain⟩ | ⟨name, known, known'⟩
    · cases coordinated.pairs link with
      | plain held held' _ twin => exact ⟨held, held', twin.imp fun _ _ => .inl⟩
      | titled names => exact absurd names (not_names_of_unnamed plain)
    · exact ⟨(coordinated.consistent.owned name one known).held,
        (coordinated.consistent'.owned name other known').held,
        (coordinated.known (settled name) known known').imp fun _ _ => .inl⟩
  · rcases met with link | ⟨name, known, known'⟩
    · cases coordinated.pairs link with
      | plain _ _ unnamed _ unforwarded unforwarded' strange =>
        refine .plain (.inl ⟨link, unnamed⟩) unnamed unforwarded unforwarded' fun unknown => ?_
        exact Option.isNone_iff_eq_none.mp (by simpa [Catalog.isKnown] using strange unknown)
      | @titled name names names' leads =>
        obtain ⟨doc, leads, leads'⟩ := leads (settled name)
        exact .titled names names' leads leads'
    · exact .titled (coordinated.consistent.owned name one known)
        (coordinated.consistent'.owned name other known')
        (coordinated.consistent.leads_of_known known)
        (coordinated.consistent'.leads_of_known known')

theorem names_discharge {catalog : Catalog} :
    catalog.discharge.Names id name ↔ catalog.Names id name :=
  ⟨fun names => names.of_arena rfl, fun names => names.of_arena rfl⟩

theorem Leads.discharge {catalog : Catalog} {doc : Option String}
    (leads : catalog.Leads id name doc) : catalog.discharge.Leads id name doc := by
  cases leads with
  | retired forward canonical => exact .retired forward canonical
  | standing unforwarded mention => exact .standing unforwarded mention

theorem Unfused.discharge {catalog : Catalog} (unfused : catalog.Unfused name staged) :
    catalog.discharge.Unfused name staged :=
  ⟨unfused.free, fun declaration member => names_discharge.mpr (unfused.names declaration member),
    unfused.once⟩

/-- Merging takes what is staged out of the buckets first. -/
theorem Coordinated.discharge (coordinated : Coordinated linked quiet extended rest left right) :
    Coordinated linked quiet extended rest left.discharge right.discharge where
  consistent := coordinated.consistent.discharge
  consistent' := coordinated.consistent'.discharge
  nested := coordinated.nested.of_arena rfl
  nested' := coordinated.nested'.of_arena rfl
  unique := coordinated.unique
  aliases := coordinated.aliases
  keys := coordinated.keys
  isKnown := coordinated.isKnown
  known := coordinated.known
  pairs link := by
    cases coordinated.pairs link with
    | plain held held' unnamed twin unforwarded unforwarded' strange =>
      exact .plain held held' unnamed twin unforwarded unforwarded' strange
    | titled names names' leads waits =>
      refine .titled (names_discharge.mpr names) (names_discharge.mpr names') (fun settled => ?_)
        waits
      obtain ⟨doc, leads, leads'⟩ := leads settled
      exact ⟨doc, leads.discharge, leads'.discharge⟩
  records names := coordinated.records (names_discharge.mp names)
  records' names := coordinated.records' (names_discharge.mp names)
  inside := coordinated.inside
  calm calm names := coordinated.calm calm (names_discharge.mp names)
  down := coordinated.down

theorem Ready.discharge (ready : Ready linked quiet extended left right name staged staged') :
    Ready linked quiet extended left.discharge right.discharge name staged staged' := by
  refine ⟨ready.unfused.discharge, ready.unfused'.discharge, ready.same, fun link names =>
    ready.beside link (names_discharge.mp names), ?_⟩
  cases ready.readiness with
  | declared known place known' place' twins free calm =>
    exact .declared known place known' place' twins free calm
  | defined known place known' place' twin filled mentions mentions' distinct =>
    exact .defined known place known' place' twin filled mentions mentions' distinct

/-- What is staged can be merged and settled in the second catalog where this can be done in the
first one. -/
theorem simulates_mergePending
    (coordinated : Coordinated linked quiet extended left.pending.keys left right)
    (ready : List.Forall₂ (fun bucket bucket' : String × List Declaration =>
      bucket'.1 = bucket.1 ∧ Ready linked quiet extended left right bucket.1 bucket.2 bucket'.2)
        left.pending.entries right.pending.entries) :
    Simulates mergePending left mergePending right fun _ after _ later =>
      ∃ meets lands, (∀ one other, linked one other → meets one other) ∧
        Aligned meets lands after later := by
  have emptied : Simulates (modify fun catalog => { catalog with pending := .empty }) left
      (modify fun catalog => { catalog with pending := .empty }) right
      fun _ after _ later => after = left.discharge ∧ later = right.discharge :=
    simulates_modify ⟨rfl, rfl⟩
  refine simulates_get (emptied.bind ?_)
  rintro _ _ _ _ _ _ ⟨rfl, rfl⟩
  refine (simulates_mergeNames coordinated.discharge
    (ready.imp fun _ _ ready => ⟨ready.1, ready.2.discharge⟩)
    coordinated.consistent.distinctStaged).bind fun _ middle _ middle' _ _ merged => ?_
  exact (simulates_settleCanonical merged.aligned).imp fun _ _ _ _ settled =>
    ⟨_, _, fun _ _ => .inl, settled⟩

end DocShapes.Catalog
