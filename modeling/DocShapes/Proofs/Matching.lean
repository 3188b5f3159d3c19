import DocShapes.Proofs.References
import DocShapes.Proofs.Transposing

/-! # Both orders come to matching catalogs

A text of definitions has been loaded in front of blocks and behind them. Before anything is merged
the two catalogs are coordinated, and each name that the blocks declare is ready in both: the text
has defined it, and then the blocks only mention it, or the blocks declare it, and then the text
mentions it at most.
-/

namespace DocShapes.Catalog

variable {definitions definitions' : List Definition} {definition : Definition}
  {parsed loaded left bare reparsed right : Catalog} {one other : TypeId} {name : String}
  {staged staged' : List Declaration}

/-! ## Mentions -/

theorem eq_mention_of_twin {linked : TypeId → TypeId → Prop} {other : Definition}
    (twin : (Definition.ofShape (.record name [])).Twin linked other) :
    other = .ofShape (.record name []) := by
  obtain ⟨shape, doc, annotations⟩ := other
  obtain ⟨shapes, rfl, rfl⟩ := twin
  cases shapes with
  | record _ fields =>
    cases fields
    rfl

theorem eq_mention {definition : Definition} (shell : definition.isShell = true)
    (record : definition.base = .record) (plain : definition.annotations = .empty) :
    definition = .ofShape (.record definition.name []) := by
  obtain ⟨shape, doc, annotations⟩ := definition
  obtain ⟨silent, bare⟩ := Bool.and_eq_true_iff.mp shell
  obtain rfl : doc = none := Option.isNone_iff_eq_none.mp silent
  cases shape with
  | record name fields =>
    cases fields with
    | nil =>
      obtain rfl : annotations = .empty := plain
      rfl
    | cons => cases bare
  | _ => cases record

theorem Consistent.isKnown_iff_names {catalog : Catalog} (consistent : catalog.Consistent) :
    catalog.isKnown name = true ↔ ∃ id, catalog.Names id name := by
  constructor
  · intro known
    obtain ⟨id, found⟩ := (catalog.isKnown_iff name).mp known
    exact ⟨id, consistent.owned name id found⟩
  · rintro ⟨id, names⟩
    exact names.same ▸ consistent.named id names.held names.named

/-- The definition that a name has is an extension. -/
def Extends (catalog : Catalog) (name : String) : Prop :=
  ∃ id, catalog.known? name = some id ∧ (catalog.definition id).base = .extension

/-- What the type refers to is no extension. -/
def Quiet (catalog : Catalog) (id : TypeId) : Prop :=
  catalog.Holds id ∧ ∀ name, catalog.Mentions id name → ¬catalog.Extends name

/-- Declarations of one definition of the blocks. -/
structure Restaged (loaded bare : Catalog) (name : String)
    (declaration declaration' : Declaration) : Prop where
  names : bare.Names declaration'.id name
  same : declaration.id.index = declaration'.id.index + loaded.arena.size
  channel : declaration'.channel = declaration.channel

theorem Restaged.linked {declaration declaration' : Declaration}
    (restaged : Restaged loaded bare name declaration declaration') :
    Declaration.Linked (Joined parsed loaded bare) declaration declaration' :=
  ⟨.late restaged.names.held restaged.same, restaged.channel⟩

theorem Restaged.not_holds {declaration declaration' : Declaration}
    (restaged : Restaged loaded bare name declaration declaration') :
    ¬loaded.Holds declaration.id := by
  have same := restaged.same
  simp only [Holds]
  omega

theorem base_of_not_extension {definition : Definition} (named : definition.isNamed = true)
    (other : definition.base ≠ .extension) : definition.base = .record := by
  obtain ⟨shape, doc, annotations⟩ := definition
  cases shape with
  | record => rfl
  | extension => exact absurd rfl other
  | _ => cases named

namespace Transposed

variable (transposed : Transposed definitions definitions' parsed loaded left bare reparsed right)

include transposed

/-- What the text mentions is an empty record in both catalogs. -/
theorem mention_early (held : parsed.Holds one)
    (same : other.index = one.index + bare.arena.size) (names : parsed.Names one name) :
    parsed.definition one = .ofShape (.record name []) ∧
      reparsed.definition other = .ofShape (.record name []) := by
  obtain ⟨twin, plain, record⟩ := transposed.early_twin held same
  have own := eq_mention (transposed.mentions names) (record names.named) plain
  rw [names.same] at own
  rw [own] at twin
  exact ⟨own, eq_mention_of_twin twin⟩

theorem known_unique {id : TypeId} (member : definition ∈ definitions)
    (known : left.known? name = some id) (same : left.known? definition.name = some id) :
    name ∈ definitions.map Definition.name :=
  transposed.consistent.2.2.name_eq_of_known known same ▸ List.mem_map_of_mem member

/-! ## Buckets -/

theorem parallel : left.pending.Parallel Eq
    (List.Forall₂ (Declaration.Linked (lateOf loaded definitions).Links)) right.pending := by
  rw [transposed.furnished'.pending, transposed.unstaged]
  exact transposed.late.pending rfl

theorem bucket_eq (member : (name, staged') ∈ right.pending.entries) :
    bare.bucket name = staged' := by
  rw [transposed.furnished'.pending, transposed.unstaged] at member
  rw [bucket, OrderedMap.get?_of_mem_entries transposed.consistent'.1.distinctStaged member]
  rfl

/-- The blocks have staged all their definitions of a name. -/
theorem mem_staged_iff (member : (name, staged') ∈ right.pending.entries) :
    other ∈ staged'.map Declaration.id ↔ bare.Names other name := by
  constructor
  · intro inside
    obtain ⟨declaration, within, rfl⟩ := List.mem_map.mp inside
    rw [transposed.furnished'.pending, transposed.unstaged] at member
    exact (transposed.consistent'.1.staged name staged' member).2 declaration within
  · intro names
    obtain ⟨channel, within⟩ := transposed.gathered.whole other names.held names.named
    rw [names.same, transposed.bucket_eq member] at within
    exact List.mem_map.mpr ⟨_, within, rfl⟩

theorem not_names_of_unstaged (absent : name ∉ left.pending.keys) : ¬bare.Names other name := by
  intro names
  obtain ⟨channel, within⟩ := transposed.gathered.whole other names.held names.named
  have member := mem_pending_of_mem_bucket (names.same ▸ within)
  rw [transposed.parallel.keys, transposed.furnished'.pending, transposed.unstaged] at absent
  exact absent (List.mem_map.mpr ⟨_, member, rfl⟩)

theorem restaged (member : (name, staged') ∈ right.pending.entries)
    (same : List.Forall₂ (Declaration.Linked (lateOf loaded definitions).Links) staged staged') :
    List.Forall₂ (Restaged loaded bare name) staged staged' :=
  (forall₂_mem same.flip).flip.imp fun _ _ ⟨inside, link⟩ =>
    ⟨(transposed.mem_staged_iff member).mp (List.mem_map_of_mem inside), links_lateOf.mp link.id,
      link.channel⟩

/-! ## Known names -/

theorem isKnown_eq : right.isKnown name = left.isKnown name := by
  rw [Bool.eq_iff_iff, transposed.consistent.2.2.isKnown_iff_names,
    transposed.consistent'.2.2.isKnown_iff_names]
  constructor
  · rintro ⟨other, names⟩
    rcases transposed.right_cases names.held with ⟨one, joined⟩ | ⟨definition, member, known⟩
    · exact ⟨one, (transposed.names_iff joined).mpr names⟩
    · obtain ⟨own, member, twin⟩ := transposed.answered' member
      obtain ⟨id, _, known', _⟩ := transposed.installed member
      have title := transposed.consistent'.2.2.owned _ _ known
      obtain rfl : own.name = name := twin.name.symm.trans (title.same.symm.trans names.same)
      exact ⟨id, transposed.consistent.2.2.owned _ _ known'⟩
  · rintro ⟨one, names⟩
    rcases transposed.left_cases names.held with ⟨other, joined⟩ | ⟨definition, member, known⟩
    · exact ⟨other, (transposed.names_iff joined).mp names⟩
    · obtain ⟨own, member', twin⟩ := transposed.answered member
      obtain ⟨id, known', _⟩ := transposed.installed' member'
      have title := transposed.consistent.2.2.owned _ _ known
      obtain rfl : own.name = name := twin.name.trans (title.same.symm.trans names.same)
      exact ⟨id, transposed.consistent'.2.2.owned _ _ known'⟩

/-- A name that the text defines means twins in the two catalogs. -/
theorem known_of_title (title : name ∈ definitions.map Definition.name)
    (known : left.known? name = some one) (known' : right.known? name = some other) :
    ∃ definition ∈ definitions, definition.name = name ∧ left.definition one = definition ∧
      loaded.Holds one ∧
        definition.Twin (Joined parsed loaded bare) (right.definition other) := by
  obtain ⟨definition, member, rfl⟩ := List.mem_map.mp title
  obtain ⟨id, inside, found, own⟩ := transposed.installed member
  obtain ⟨answer, member', twin⟩ := transposed.answered member
  obtain ⟨id', found', own'⟩ := transposed.installed' member'
  rw [twin.name] at found'
  rw [known] at found
  rw [known'] at found'
  cases found
  cases found'
  exact ⟨definition, member, rfl, own, inside, own' ▸ twin⟩

/-- A name that neither the blocks nor the text declare is mentioned by the text. -/
theorem known_mention (title : name ∉ definitions.map Definition.name)
    (known : left.known? name = some one) (early : loaded.Holds one) :
    left.definition one = .ofShape (.record name []) := by
  have names := transposed.consistent.2.2.owned name one known
  rcases transposed.furnished.fresh early with held | ⟨definition, member, found⟩
  · rcases transposed.left_early held with own | ⟨definition, member, found, _⟩
    · rw [own]
      have equal : (⟨one.index + bare.arena.size⟩ : TypeId).index =
          one.index + bare.arena.size := rfl
      exact (transposed.mention_early held equal
        ((transposed.left_names_early held).mp names)).1
    · exact absurd (transposed.known_unique member known found) title
  · have found' := transposed.growth.known?_of_known (Nat.le_refl _) found
    exact absurd (transposed.known_unique member known found') title

theorem known_twin (absent : name ∉ left.pending.keys) (known : left.known? name = some one)
    (known' : right.known? name = some other) :
    (left.definition one).Twin (Joined parsed loaded bare) (right.definition other) := by
  by_cases title : name ∈ definitions.map Definition.name
  · obtain ⟨definition, _, _, own, _, twin⟩ := transposed.known_of_title title known known'
    rw [own]
    exact twin
  · have names' := transposed.consistent'.2.2.owned name other known'
    have own : left.definition one = .ofShape (.record name []) := by
      refine transposed.known_mention title known (Classical.not_not.mp fun late => ?_)
      have names := transposed.consistent.2.2.owned name one known
      rcases transposed.left_cases names.held with ⟨two, joined⟩ | ⟨definition, member, found⟩
      · cases joined with
        | early held => exact late (transposed.furnished.held held)
        | late held same =>
          exact transposed.not_names_of_unstaged absent ((transposed.right_names_late held).mp
            ((transposed.names_iff (.late held same)).mp names))
      · exact title (transposed.known_unique member known found)
    have own' : right.definition other = .ofShape (.record name []) := by
      have strange (definition : Definition) (member : definition ∈ definitions')
          (found : right.known? definition.name = some other) : False := by
        have same := transposed.consistent'.2.2.name_eq_of_known found known'
        rw [← transposed.titles_eq, ← same] at title
        exact title (List.mem_map_of_mem member)
      rcases transposed.right_cases names'.held with ⟨two, joined⟩ | ⟨definition, member, found⟩
      · cases joined with
        | early held same =>
          have held' := (transposed.early.holds (links_earlyOf.mpr same)).mp held
          have names := (transposed.left_names_early held).mp
            ((transposed.names_iff (.early held same)).mpr names')
          rcases transposed.furnished'.kept transposed.consistent'.2.1 transposed.consistent'.2.2
            held' with kept | ⟨definition, member, found, _⟩
          · rw [kept]
            exact (transposed.mention_early held same names).2
          · exact (strange definition member found).elim
        | late held =>
          exact absurd ((transposed.right_names_late held).mp names')
            (transposed.not_names_of_unstaged absent)
      · exact (strange definition member found).elim
    rw [own, own']
    exact Definition.twin_ofShape (.record name .nil)

/-! ## Bases -/

theorem extends_iff (member : definition ∈ definitions) :
    left.Extends definition.name ↔ definition.base = .extension := by
  obtain ⟨id, _, known, own⟩ := transposed.installed member
  constructor
  · rintro ⟨other, known', base⟩
    rw [known] at known'
    cases known'
    rwa [own] at base
  · intro base
    exact ⟨id, known, own ▸ base⟩

theorem record_of_title (member : definition ∈ definitions)
    (free : ¬left.Extends definition.name) : definition.base = .record :=
  base_of_not_extension (transposed.definable.each definition member).registrable.named
    ((transposed.extends_iff member).not.mp free)

theorem records (names : left.Names one name) (free : ¬left.Extends name) :
    (left.definition one).base = .record := by
  have title {definition : Definition} (member : definition ∈ definitions)
      (known : left.known? definition.name = some one) : (left.definition one).base = .record := by
    obtain ⟨id, _, known', own⟩ := transposed.installed member
    rw [known] at known'
    cases known'
    rw [own]
    refine transposed.record_of_title member ?_
    rwa [(transposed.consistent.2.2.owned _ _ known).same.symm.trans names.same]
  rcases transposed.left_cases names.held with ⟨other, joined⟩ | ⟨definition, member, known⟩
  · cases joined with
    | early held same =>
      rcases transposed.left_early held with own | ⟨definition, member, known, _⟩
      · rw [own, (transposed.mention_early held same
          ((transposed.left_names_early held).mp names)).1]
        rfl
      · exact title member known
    | late held same =>
      rcases transposed.late_cases held same with ⟨_, untold⟩ | ⟨definition, member, own, _⟩
      · exact (untold names.named).2
      · have named := (transposed.definable.each definition member).registrable.named
        have word := names.same
        rw [own, name_shellOf] at word
        have record := transposed.record_of_title member (word ▸ free)
        rw [own, record]
        rfl
  · exact title member known

theorem records' (names : right.Names other name) (free : ¬left.Extends name) :
    (right.definition other).base = .record := by
  have title {definition : Definition} (member : definition ∈ definitions')
      (known : right.known? definition.name = some other) :
      (right.definition other).base = .record := by
    obtain ⟨id, known', own⟩ := transposed.installed' member
    rw [known] at known'
    cases known'
    obtain ⟨answer, inside, twin⟩ := transposed.answered' member
    rw [own, twin.base]
    refine transposed.record_of_title inside ?_
    rwa [← twin.name, (transposed.consistent'.2.2.owned _ _ known).same.symm.trans names.same]
  rcases transposed.right_cases names.held with ⟨one, joined⟩ | ⟨definition, member, known⟩
  · have names' := (transposed.names_iff joined).mpr names
    cases joined with
    | early held same =>
      have held' := (transposed.early.holds (links_earlyOf.mpr same)).mp held
      rcases transposed.furnished'.kept transposed.consistent'.2.1 transposed.consistent'.2.2
        held' with kept | ⟨definition, member, known, _⟩
      · rw [kept, (transposed.mention_early held same
          ((transposed.left_names_early held).mp names')).2]
        rfl
      · exact title member known
    | late held same =>
      rcases transposed.furnished'.kept transposed.consistent'.2.1 transposed.consistent'.2.2
        (transposed.growth'.holds held) with kept | ⟨definition, member, known, _⟩
      · rw [kept, transposed.growth'.definition_eq (Nat.le_refl _) held]
        rcases transposed.late_cases held same with ⟨twin, untold⟩ | ⟨_, _, _, own⟩
        · rw [twin.base]
          exact (untold names'.named).2
        · rw [own]
          rfl
      · exact title member known
  · exact title member known

/-! ## Coordinated catalogs -/

theorem unforwarded (id : TypeId) : left.forward.get? id = none := by
  rw [transposed.growth.untouched.forward, transposed.furnished.forward, transposed.unmerged.2]
  rfl

theorem unforwarded' (id : TypeId) : right.forward.get? id = none := by
  rw [transposed.furnished'.forward, transposed.growth'.untouched.forward,
    transposed.gathered.forward]
  rfl

theorem free (name : String) : left.canonical.get? name = none := by
  rw [transposed.growth.untouched.canonical, transposed.furnished.canonical,
    transposed.unmerged.1]
  rfl

theorem free' (name : String) : right.canonical.get? name = none := by
  rw [transposed.furnished'.canonical, transposed.growth'.untouched.canonical,
    transposed.gathered.canonical]
  rfl

theorem aliases_eq : right.aliases = left.aliases := by
  rw [transposed.furnished'.aliases, transposed.growth'.untouched.aliases,
    transposed.late.aliases', transposed.late.aliases]

/-- What is unknown has no name that a definition could have. -/
theorem strange (held : left.Holds one) (unknown : (left.definition one).base = .unknown) :
    left.isKnown (left.wanted one) = false := by
  rw [Bool.eq_false_iff]
  intro known
  obtain ⟨id, found⟩ := (left.isKnown_iff _).mp known
  obtain ⟨_, customTypes, custom, _⟩ := transposed.late.titled.known _ id found
  have absent := transposed.late.titled.strange one held unknown
  rw [customTypes, show left.resolveAlias (left.definition one).name = left.wanted one from rfl,
    custom] at absent
  cases absent

/-- A definition of a name that the blocks do not declare is what the name is known by, or it is a
mention. -/
theorem leads (joined : Joined parsed loaded bare one other) (names : left.Names one name)
    (early : parsed.Holds one) :
    (left.known? name = some one ∨ (left.definition one).isShell = true) ∧
      (right.known? name = some other ∨ (right.definition other).isShell = true) := by
  have names' := (transposed.names_iff joined).mp names
  cases joined with
  | late held same =>
    have size := transposed.size_le
    simp only [Holds] at early held
    omega
  | early held same =>
    obtain ⟨own, own'⟩ := transposed.mention_early held same
      ((transposed.left_names_early held).mp names)
    have held' := (transposed.early.holds (links_earlyOf.mpr same)).mp held
    constructor
    · rcases transposed.left_early held with kept | ⟨definition, member, known, _, title⟩
      · rw [kept, own]
        exact .inr rfl
      · have title' := (transposed.left_names_early held).mpr title
        exact .inl (title'.same.symm.trans names.same ▸ known)
    · rcases transposed.furnished'.kept transposed.consistent'.2.1 transposed.consistent'.2.2
        held' with kept | ⟨definition, member, known, _, _, title⟩
      · rw [kept, own']
        exact .inr rfl
      · exact .inl (title.same.symm.trans names'.same ▸ known)

theorem pair_of_joined (joined : Joined parsed loaded bare one other) :
    Match (Joined parsed loaded bare) left.pending.keys left right one other := by
  obtain ⟨held, held'⟩ := transposed.holds_of_joined joined
  cases named : (left.definition one).isNamed with
  | false =>
    exact .plain held held' named (transposed.twin_of_unnamed joined named)
      (transposed.unforwarded one) (transposed.unforwarded' other) (transposed.strange held)
  | true =>
    have names : left.Names one (left.definition one).name := ⟨held, named, rfl⟩
    have names' := (transposed.names_iff joined).mp names
    refine .titled names names' (fun settled => ⟨none, ?_⟩) fun _ =>
      ⟨transposed.unforwarded one, transposed.unforwarded' other⟩
    have early : parsed.Holds one := by
      cases joined with
      | early held => exact held
      | late held =>
        exact absurd ((transposed.right_names_late held).mp names')
          (transposed.not_names_of_unstaged settled)
    obtain ⟨lead, lead'⟩ := transposed.leads joined names early
    exact ⟨.standing (transposed.unforwarded one) lead,
      .standing (transposed.unforwarded' other) lead'⟩

theorem coordinated : Coordinated (Joined parsed loaded bare) left.Quiet left.Extends
    left.pending.keys left right where
  consistent := transposed.consistent.2.2
  consistent' := transposed.consistent'.2.2
  nested := transposed.nested
  nested' := transposed.nested'
  unique := transposed.unique
  aliases := transposed.aliases_eq
  keys := by
    rw [transposed.growth.untouched.canonical, transposed.furnished.canonical,
      transposed.unmerged.1, transposed.furnished'.canonical,
      transposed.growth'.untouched.canonical, transposed.gathered.canonical]
  isKnown _ := transposed.isKnown_eq
  known absent known known' := transposed.known_twin absent known known'
  pairs joined := transposed.pair_of_joined joined
  records names free := transposed.records names free
  records' names free := transposed.records' names free
  inside quiet := quiet.1
  calm {id name} quiet names := by
    have own := follow_of_forward_eq_none (transposed.unforwarded id)
    have mentions : left.Mentions id (left.definition (left.follow id)).name :=
      .named (by rw [own, names.named])
    rw [own, names.same] at mentions
    exact quiet.2 name mentions
  down {id} quiet unnamed child member := by
    have own := follow_of_forward_eq_none (transposed.unforwarded id)
    refine ⟨transposed.consistent.2.2.linked id quiet.1 child member, fun name mentions => ?_⟩
    exact quiet.2 name (.part (by rw [own, unnamed]) (by rw [own]; exact member) mentions)

/-! ## Ready names -/

/-- A name that the blocks declare is known by one of the declarations in the second catalog. -/
theorem known_staged (member : (name, staged') ∈ right.pending.entries) :
    ∃ id, right.known? name = some id ∧ id ∈ staged'.map Declaration.id := by
  have inside := member
  rw [transposed.furnished'.pending, transposed.unstaged] at inside
  obtain ⟨id, known⟩ :=
    (bare.isKnown_iff name).mp (transposed.consistent'.1.staged name staged' inside).1
  have known' := transposed.growth'.known?_of_known (Nat.le_refl _) known
  refine ⟨id, ?_, (transposed.mem_staged_iff member).mpr (transposed.consistent'.1.owned _ _ known)⟩
  by_cases title : name ∈ definitions'.map Definition.name
  · obtain ⟨definition, within, rfl⟩ := List.mem_map.mp title
    obtain ⟨place, found, _, same | ⟨unknown, _⟩⟩ :=
      transposed.furnished'.defined definition within
    · rw [known'] at same
      cases same
      exact found
    · rw [known'] at unknown
      cases unknown
  · exact (transposed.furnished'.known title).trans known'

/-- What the blocks declare of a name that the text does not define. -/
theorem right_late (held : bare.Holds other) (names : bare.Names other name)
    (known : right.known? name ≠ some other ∨ name ∉ definitions.map Definition.name) :
    right.definition other = bare.definition other := by
  have same := transposed.growth'.definition_eq (Nat.le_refl _) held
  rw [← same]
  refine (transposed.furnished'.kept transposed.consistent'.2.1 transposed.consistent'.2.2
    (transposed.growth'.holds held)).resolve_right ?_
  rintro ⟨definition, member, found, _, _, title⟩
  obtain rfl : definition.name = name :=
    title.same.symm.trans ((transposed.right_names_late held).mpr names).same
  rcases known with other | absent
  · exact other found
  · rw [← transposed.titles_eq] at absent
    exact absent (List.mem_map_of_mem member)

theorem unfused (member : (name, staged) ∈ left.pending.entries)
    (member' : (name, staged') ∈ right.pending.entries)
    (restaged : List.Forall₂ (Restaged loaded bare name) staged staged') :
    left.Unfused name staged ∧ right.Unfused name staged' := by
  have once' : (staged'.map Declaration.id).Nodup := by
    rw [← transposed.bucket_eq member']
    exact transposed.gathered.once name
  have once : (staged.map Declaration.id).Nodup :=
    (List.rel_nodup transposed.unique
      (List.rel_map (fun _ _ restaged => restaged.linked.id) restaged)).mpr once'
  exact ⟨⟨transposed.free name, (transposed.consistent.2.2.staged name staged member).2, once⟩,
    transposed.free' name, (transposed.consistent'.2.2.staged name staged' member').2, once'⟩

/-- What the blocks declare of a name that the text defines is a mention. -/
theorem mention_late (title : name ∈ definitions.map Definition.name)
    {declaration declaration' : Declaration}
    (restaged : Restaged loaded bare name declaration declaration') :
    (left.definition declaration.id).isShell = true ∧
      (bare.definition declaration'.id).isShell = true := by
  obtain ⟨definition, member, titled⟩ := List.mem_map.mp title
  have names := (transposed.names_iff restaged.linked.id).mpr
    ((transposed.right_names_late restaged.names.held).mpr restaged.names)
  rcases transposed.late_cases restaged.names.held restaged.same with
    ⟨_, untold⟩ | ⟨answer, _, first, second⟩
  · have told := toldOf_eq_some transposed.definable.apart member
    rw [titled, ← names.same, (untold names.named).1] at told
    cases told
  · rw [first, second]
    exact ⟨isShell_shellOf _ _, isShell_shellOf _ _⟩

/-- The text has defined the name, and the blocks mention it. -/
theorem readiness_of_title (title : name ∈ definitions.map Definition.name)
    (member : (name, staged) ∈ left.pending.entries)
    (member' : (name, staged') ∈ right.pending.entries)
    (restaged : List.Forall₂ (Restaged loaded bare name) staged staged') :
    Readiness (Joined parsed loaded bare) left.Quiet left.Extends left right name staged
      staged' := by
  obtain ⟨id, known⟩ :=
    (left.isKnown_iff name).mp (transposed.consistent.2.2.staged name staged member).1
  obtain ⟨id', known', place'⟩ := transposed.known_staged member'
  obtain ⟨definition, inside, _, own, early, twin⟩ :=
    transposed.known_of_title title known known'
  refine .defined known ?_ known' place' (own ▸ twin) (own ▸ transposed.telling _ inside)
    (fun declaration staying => ?_) (fun declaration' staying' => ?_) (transposed.distinct id)
  · intro within
    obtain ⟨declaration, staying, rfl⟩ := List.mem_map.mp within
    obtain ⟨declaration', _, restaged⟩ := exists_of_forall₂ restaged.flip staying
    exact restaged.not_holds early
  · obtain ⟨declaration', _, restaged⟩ := exists_of_forall₂ restaged.flip staying
    exact (transposed.mention_late title restaged).1
  · obtain ⟨declaration, _, restaged⟩ := exists_of_forall₂ restaged staying'
    by_cases same : declaration'.id = id'
    · exact .inl same
    · refine .inr ?_
      rw [transposed.right_late restaged.names.held restaged.names
        (.inl fun found => same (Option.some.inj (found.symm.trans known')))]
      exact (transposed.mention_late title restaged).2

/-- The blocks have declared the name, and the text mentions it at most. -/
theorem readiness_of_untold (title : name ∉ definitions.map Definition.name)
    (member : (name, staged) ∈ left.pending.entries)
    (member' : (name, staged') ∈ right.pending.entries)
    (restaged : List.Forall₂ (Restaged loaded bare name) staged staged')
    (calm : ∀ field, 2 ≤ (left.usesOf staged field).length →
      ∀ use ∈ left.usesOf staged field, left.Quiet use.site.target) :
    Readiness (Joined parsed loaded bare) left.Quiet left.Extends left right name staged
      staged' := by
  obtain ⟨id, known⟩ :=
    (left.isKnown_iff name).mp (transposed.consistent.2.2.staged name staged member).1
  obtain ⟨id', known', place'⟩ := transposed.known_staged member'
  have names := transposed.consistent.2.2.owned name id known
  refine .declared known ?_ known' place' (fun declaration staying declaration' link => ?_) ?_ calm
  · by_cases early : loaded.Holds id
    · exact .inr (transposed.known_mention title known early)
    · refine .inl ?_
      rcases transposed.left_cases names.held with ⟨other, joined⟩ | ⟨definition, inside, found⟩
      · refine (mem_ids_iff transposed.unique (restaged.imp fun _ _ restaged => restaged.linked)
          joined).mpr ((transposed.mem_staged_iff member').mpr ?_)
        cases joined with
        | early held => exact absurd (transposed.furnished.held held) early
        | late held same =>
          exact (transposed.right_names_late held).mp
            ((transposed.names_iff (.late held same)).mp names)
      · exact absurd (transposed.known_unique inside known found) title
  · obtain ⟨partner, _, restaged⟩ := exists_of_forall₂ restaged.flip staying
    have same : partner.id = declaration'.id := transposed.unique.2 restaged.linked.id link.id
    rw [← same, transposed.right_late restaged.names.held restaged.names (.inr title)]
    refine ((transposed.late_cases restaged.names.held restaged.same).resolve_right ?_).1
    rintro ⟨definition, inside, _, own⟩
    have word := restaged.names.same
    rw [own, name_shellOf] at word
    exact title (word ▸ List.mem_map_of_mem inside)
  · rintro ⟨place, found, extension⟩
    rw [(transposed.late.titled.known name place found).2.2.2,
      show (lateOf loaded definitions).told name = none from toldOf_eq_none title] at extension
    cases extension

theorem ready (member : (name, staged) ∈ left.pending.entries)
    (member' : (name, staged') ∈ right.pending.entries)
    (same : List.Forall₂ (Declaration.Linked (lateOf loaded definitions).Links) staged staged')
    (calm : ∀ field, 2 ≤ (left.usesOf staged field).length →
      ∀ use ∈ left.usesOf staged field, left.Quiet use.site.target) :
    Ready (Joined parsed loaded bare) left.Quiet left.Extends left right name staged staged' := by
  have restaged := transposed.restaged member' same
  have linked : List.Forall₂ (Declaration.Linked (Joined parsed loaded bare)) staged staged' :=
    restaged.imp fun _ _ restaged => restaged.linked
  obtain ⟨unfused, unfused'⟩ := transposed.unfused member member' restaged
  refine ⟨unfused, unfused', linked, fun {one other} joined names absent => ?_, ?_⟩
  · rw [mem_ids_iff transposed.unique linked joined, transposed.mem_staged_iff member'] at absent
    have names' := (transposed.names_iff joined).mp names
    cases joined with
    | late held => exact absurd ((transposed.right_names_late held).mp names') absent
    | early held same =>
      obtain ⟨lead, lead'⟩ := transposed.leads (.early held same) names held
      refine ⟨lead, lead'.resolve_left fun known => ?_⟩
      -- What the name is known by comes from the blocks.
      obtain ⟨id, known', inside⟩ := transposed.known_staged member'
      rw [known] at known'
      cases known'
      exact absent ((transposed.mem_staged_iff member').mp inside)
  · by_cases title : name ∈ definitions.map Definition.name
    · exact transposed.readiness_of_title title member member' restaged
    · exact transposed.readiness_of_untold title member member' restaged calm

end Transposed

end DocShapes.Catalog
