import DocShapes.Proofs.Defining
import DocShapes.Proofs.Leading
import DocShapes.Proofs.Twins
import DocShapes.Proofs.Unstaged

/-! # Names that get their definitions

The definitions of a text are installed one by one. Each needs a name that stands for nothing more
than a mention; so a text whose definitions all say something defines each name once. Where they
are installed the names lead to them, each in the place of the mention or behind all other
definitions, and nothing else has changed (`Furnished`).
-/

namespace DocShapes.Catalog

variable {before middle after catalog read : Catalog} {definition : Definition}
  {definitions : List Definition} {name : String} {id : TypeId} {entries : List Entry}

/-! ## What is installed -/

/-- The name of the definition is free, or it stands for a mention. -/
structure Definable (catalog : Catalog) (definition : Definition) : Prop where
  registrable : catalog.Registrable definition
  vacant : ∀ present, catalog.known? definition.name = some present →
    (catalog.definition present).isShell = true

/-- Definitions are installed, and nothing else has changed. -/
structure Furnished (before : Catalog) (definitions : List Definition) (after : Catalog) :
    Prop where
  rest : after =
    { before with arena := after.arena, provisional := after.provisional }
  held : ∀ {id}, before.Holds id → after.Holds id
  known : ∀ {name}, name ∉ definitions.map Definition.name → after.known? name = before.known? name
  same : ∀ {id}, before.Holds id →
    (∀ definition ∈ definitions, before.known? definition.name ≠ some id) →
      after.definition id = before.definition id
  defined : ∀ definition ∈ definitions, ∃ id, after.known? definition.name = some id ∧
    after.definition id = definition ∧ (before.known? definition.name = some id ∨
      before.known? definition.name = none ∧ ¬before.Holds id)
  fresh : ∀ {id}, after.Holds id → before.Holds id ∨
    ∃ definition ∈ definitions, after.known? definition.name = some id

namespace Furnished

theorem nil (catalog : Catalog) : catalog.Furnished [] catalog :=
  ⟨rfl, fun held => held, fun _ => rfl, fun _ _ => rfl, nofun, .inl⟩

theorem aliases (furnished : before.Furnished definitions after) :
    after.aliases = before.aliases := by rw [furnished.rest]

theorem customTypes (furnished : before.Furnished definitions after) :
    after.customTypes = before.customTypes := by rw [furnished.rest]

theorem canonical (furnished : before.Furnished definitions after) :
    after.canonical = before.canonical := by rw [furnished.rest]

theorem forward (furnished : before.Furnished definitions after) :
    after.forward = before.forward := by rw [furnished.rest]

theorem pending (furnished : before.Furnished definitions after) :
    after.pending = before.pending := by rw [furnished.rest]

theorem definition_of_known (furnished : before.Furnished definitions after)
    (consistent : before.Consistent) (different : name ∉ definitions.map Definition.name)
    (known : before.known? name = some id) : after.definition id = before.definition id := by
  refine furnished.same (consistent.owned name id known).held fun definition member found => ?_
  have same := consistent.name_eq_of_known found known
  exact different (List.mem_map.mpr ⟨definition, member, same⟩)

/-- A definition is what its name has got, or it is what it was. -/
theorem definition_cases (furnished : before.Furnished definitions after)
    (held : before.Holds id) :
    (∃ definition ∈ definitions, before.known? definition.name = some id ∧
      after.known? definition.name = some id ∧ after.definition id = definition) ∨
        after.definition id = before.definition id := by
  by_cases known : ∃ definition ∈ definitions, before.known? definition.name = some id
  · obtain ⟨definition, member, known⟩ := known
    obtain ⟨place, found, own, here | ⟨absent, _⟩⟩ := furnished.defined definition member
    · obtain rfl : place = id := Option.some.inj (here.symm.trans known)
      exact .inl ⟨definition, member, known, found, own⟩
    · rw [absent] at known
      cases known
  · exact .inr (furnished.same held fun definition member found =>
      known ⟨definition, member, found⟩)

theorem cons {rest : List Definition} (furnished : before.Furnished [definition] middle)
    (further : middle.Furnished rest after) (consistent : middle.Consistent)
    (fresh : definition.name ∉ rest.map Definition.name) :
    before.Furnished (definition :: rest) after where
  rest := by
    rw [further.rest, furnished.rest]
  held held := further.held (furnished.held held)
  known {name} absent := by
    obtain ⟨different, absent⟩ := List.ne_and_not_mem_of_not_mem_cons absent
    rw [further.known absent, furnished.known (by simpa using different)]
  same {id} held unknown := by
    obtain ⟨own, others⟩ := List.forall_mem_cons.mp unknown
    rw [further.same (furnished.held held), furnished.same held (by simpa using own)]
    intro other member
    rw [furnished.known]
    · exact others other member
    · simp only [List.map_cons, List.map_nil, List.mem_singleton]
      rintro equal
      exact fresh (List.mem_map.mpr ⟨other, member, equal⟩)
  defined := by
    refine List.forall_mem_cons.mpr ⟨?_, fun other member => ?_⟩
    · obtain ⟨id, known, own, place⟩ := furnished.defined definition List.mem_cons_self
      exact ⟨id, (further.known fresh).trans known,
        (further.definition_of_known consistent fresh known).trans own, place⟩
    · have unknown : other.name ∉ [definition].map Definition.name := by
        simp only [List.map_cons, List.map_nil, List.mem_singleton]
        rintro equal
        exact fresh (List.mem_map.mpr ⟨other, member, equal⟩)
      obtain ⟨id, known, own, place⟩ := further.defined other member
      rw [furnished.known unknown] at place
      refine ⟨id, known, own, place.imp_right fun new => ?_⟩
      exact ⟨new.1, fun held => new.2 (furnished.held held)⟩
  fresh {id} held := by
    rcases further.fresh held with earlier | ⟨other, member, known⟩
    · refine (furnished.fresh earlier).imp_right ?_
      rintro ⟨own, member, known⟩
      obtain rfl := List.mem_singleton.mp member
      exact ⟨own, List.mem_cons_self, (further.known fresh).trans known⟩
    · exact .inr ⟨other, List.mem_cons_of_mem _ member, known⟩

end Furnished

/-! ## Installing one definition -/

theorem Registrable.furnished_push (registrable : before.Registrable definition)
    (unknown : before.provisional.get? definition.name = none) :
    before.Furnished [definition]
      ((before.push definition).provide definition.name before.next) := by
  have known (name : String) : ((before.push definition).provide definition.name
      before.next).known? name = if definition.name = name then some before.next
        else before.known? name :=
    @known?_provide (before.push definition) _ registrable.free before.next name
  have place (id : TypeId) : ((before.push definition).provide definition.name
      before.next).definition id = if id = before.next then definition else before.definition id :=
    definition_push before definition id
  have free : before.known? definition.name = none := by
    rw [known?, registrable.free, unknown]
    rfl
  refine ⟨rfl, fun held => ?_, fun {name} different => ?_, fun {id} held _ => ?_, ?_,
    fun {id} held => ?_⟩
  · exact (holds_push before definition _).mpr (.inl held)
  · rw [known, if_neg fun same => different (by simp [same])]
  · rw [place, if_neg (ne_next_of_holds held)]
  · simp only [List.forall_mem_singleton]
    refine ⟨before.next, by rw [known, if_pos rfl], by rw [place, if_pos rfl], .inr ⟨free, ?_⟩⟩
    exact fun held => ne_next_of_holds held rfl
  · refine ((holds_push before definition id).mp held).imp_right ?_
    rintro rfl
    exact ⟨definition, List.mem_singleton_self _, by rw [known, if_pos rfl]⟩

theorem Consistent.furnished_put (consistent : before.Consistent)
    (present : before.provisional.get? definition.name = some id) :
    before.Furnished [definition] (before.put id definition) := by
  have known := consistent.known?_of_provisional present
  have held := (consistent.owned _ id known).held
  refine ⟨rfl, fun held => (holds_put _ _ _ _).mpr held, fun _ => rfl, fun {other} _ unknown => ?_,
    ?_, fun other => .inl ((holds_put _ _ _ _).mp other)⟩
  · refine definition_put_of_ne ?_ definition
    rintro rfl
    exact unknown definition (List.mem_singleton_self _) known
  · simp only [List.forall_mem_singleton]
    exact ⟨id, known, definition_put_self held definition, .inl known⟩

theorem Registrable.checks (registrable : catalog.Registrable definition) :
    checkRegistrable definition catalog = .ok ⟨⟩ catalog := by
  have absent : catalog.canonical.contains definition.name = false := by
    rw [OrderedMap.contains, registrable.free]
    rfl
  simp only [checkRegistrable, get_bind, registrable.named, registrable.unspelled, absent]
  rfl

theorem ends_defineProvisional_furnished (consistent : before.Consistent)
    (definable : before.Definable definition) :
    Ends (defineProvisional definition none) before
      (fun _ after => before.Furnished [definition] after) fun _ => False := by
  refine Ends.of_eq (bind_of_ok definable.registrable.checks) ?_
  rw [ends_bind, ends_get]
  split
  · rename_i unknown
    simp only [ends_bind, ends_allocate, setProvisional, ends_modify]
    exact definable.registrable.furnished_push unknown
  · rename_i present found
    refine ends_ite (fun _ => ?_) fun other => ?_
    · exact consistent.furnished_put found
    · simp [definable.vacant present (consistent.known?_of_provisional found)] at other

/-- What is not staged only gives way to a definition where it is a mention. -/
theorem definable_of_ok (consistent : before.Consistent) (unstaged : before.pending = .empty)
    (done : defineProvisional definition none before = .ok id after) :
    before.Definable definition := by
  refine (show Ends (defineProvisional definition none) before
    (fun _ _ => before.Definable definition) fun _ => True from ?_).of_ok done
  refine ends_registrable trivial fun registrable => ?_
  rw [ends_bind, ends_get]
  split
  · rename_i unknown
    simp only [ends_bind, ends_allocate, setProvisional, ends_modify]
    refine ⟨registrable, fun present known => ?_⟩
    rw [known?, registrable.free, unknown] at known
    cases known
  · rename_i present found
    refine ends_ite (fun shell => ?_) fun _ => ends_ite (fun staged => ?_) fun _ => trivial
    · refine ⟨registrable, fun other known => ?_⟩
      rw [consistent.known?_of_provisional found] at known
      cases known
      simpa using shell
    · rw [isStaged, unstaged] at staged
      cases staged

theorem Furnished.definable_iff (furnished : before.Furnished [definition] after)
    (consistent : before.Consistent) {other : Definition}
    (different : other.name ≠ definition.name) :
    after.Definable other ↔ before.Definable other := by
  have absent : other.name ∉ [definition].map Definition.name := by simpa using different
  have registrable : after.Registrable other ↔ before.Registrable other := by
    constructor
    · rintro ⟨named, unspelled, free⟩
      exact ⟨named, furnished.aliases ▸ unspelled, furnished.canonical ▸ free⟩
    · rintro ⟨named, unspelled, free⟩
      exact ⟨named, furnished.aliases.symm ▸ unspelled, furnished.canonical.symm ▸ free⟩
  constructor
  · rintro ⟨own, vacant⟩
    refine ⟨registrable.mp own, fun present known => ?_⟩
    rw [← furnished.definition_of_known consistent absent known]
    exact vacant present ((furnished.known absent).trans known)
  · rintro ⟨own, vacant⟩
    refine ⟨registrable.mpr own, fun present known => ?_⟩
    rw [furnished.known absent] at known
    rw [furnished.definition_of_known consistent absent known]
    exact vacant present known

/-! ## Installing all definitions -/

/-- Definitions are installed one after the other. -/
def defineAll : List Definition → CatalogM (List TypeId)
  | [] => return []
  | definition :: rest => do
      let id ← defineProvisional definition none
      let others ← defineAll rest
      return id :: others

/-- All definitions can be installed, each under a name of its own. -/
structure AllDefinable (catalog : Catalog) (definitions : List Definition) : Prop where
  each : ∀ definition ∈ definitions, catalog.Definable definition
  apart : (definitions.map Definition.name).Nodup
  children : ∀ definition ∈ definitions, ∀ child ∈ definition.shape.children, catalog.Holds child

theorem ends_defineProvisional_consistent (consistent : before.Consistent)
    (children : ∀ child ∈ definition.shape.children, before.Holds child) :
    Ends (defineProvisional definition none) before (fun _ after => after.Consistent)
      fun _ => True :=
  (ends_defineProvisional definition none children nofun).mono
    (fun _ _ step => step.consistent consistent) fun _ _ => trivial

theorem ends_defineAll (consistent : before.Consistent)
    (definable : before.AllDefinable definitions) :
    Ends (defineAll definitions) before
      (fun _ after => before.Furnished definitions after ∧ after.Consistent) fun _ => False := by
  induction definitions generalizing before with
  | nil => exact ⟨.nil before, consistent⟩
  | cons definition rest ih =>
    obtain ⟨first, others⟩ := List.forall_mem_cons.mp definable.each
    obtain ⟨fresh, apart⟩ := List.nodup_cons.mp definable.apart
    obtain ⟨children, further⟩ := List.forall_mem_cons.mp definable.children
    rw [defineAll, ends_bind]
    refine ((ends_defineProvisional_furnished consistent first).and
      (ends_defineProvisional_consistent consistent children)).mono
        (fun id middle ⟨furnished, sound⟩ => ?_) fun _ ended => ended.1
    rw [ends_bind]
    refine (ih sound ⟨fun other member => ?_, apart, fun other member child within =>
      furnished.held (further other member child within)⟩).imp fun _ after more =>
        ⟨furnished.cons more.1 sound fresh, more.2⟩
    refine (furnished.definable_iff consistent ?_).mpr (others other member)
    intro same
    exact fresh (List.mem_map.mpr ⟨other, member, same⟩)

/-- Definitions that say something have been installed under names of their own. -/
theorem allDefinable_of_ok (consistent : before.Consistent) (unstaged : before.pending = .empty)
    (telling : ∀ definition ∈ definitions, definition.isShell = false)
    (children : ∀ definition ∈ definitions, ∀ child ∈ definition.shape.children,
      before.Holds child) {ids : List TypeId}
    (done : defineAll definitions before = .ok ids after) :
    before.AllDefinable definitions := by
  induction definitions generalizing before ids with
  | nil => exact ⟨nofun, List.nodup_nil, nofun⟩
  | cons definition rest ih =>
    obtain ⟨own, others⟩ := List.forall_mem_cons.mp telling
    obtain ⟨inside, further⟩ := List.forall_mem_cons.mp children
    obtain ⟨id, middle, first, done⟩ := of_bind_eq_ok done
    obtain ⟨_, _, later, last⟩ := of_bind_eq_ok done
    cases last
    have definable := definable_of_ok consistent unstaged first
    have furnished := (ends_defineProvisional_furnished consistent definable).of_ok first
    have sound := (ends_defineProvisional_consistent consistent inside).of_ok first
    have more := ih sound (furnished.pending.trans unstaged) others
      (fun other member child within => furnished.held (further other member child within)) later
    -- The name stands for more than a mention now.
    have fresh (other : Definition) (member : other ∈ rest) : other.name ≠ definition.name := by
      intro same
      obtain ⟨id, known, here, _⟩ := furnished.defined definition List.mem_cons_self
      have shell := (more.each other member).vacant id (same ▸ known)
      rw [here, own] at shell
      cases shell
    refine ⟨List.forall_mem_cons.mpr ⟨definable, fun other member => ?_⟩,
      List.nodup_cons.mpr ⟨fun member => ?_, more.apart⟩, children⟩
    · exact (furnished.definable_iff consistent (fresh other member)).mp (more.each other member)
    · obtain ⟨other, inside, same⟩ := List.mem_map.mp member
      exact fresh other inside same

/-! ## The definitions of a text -/

/-- The definition that an entry gives the name of its site. -/
def declaredBy (read : Catalog) (source : Option String) (entry : Entry) : Option Definition :=
  (entry.slot.bind Slot.site?).map fun site =>
    labelled (read.extensionOf site).1 (Doc.join [entry.doc, site.doc]) source

/-- The definitions of a text, in their order. -/
def declaredAll (read : Catalog) (source : Option String) (entries : List Entry) :
    List Definition :=
  entries.filterMap (read.declaredBy source)

/-- The site has a name, and its type is not one of this name. -/
def NamesOther (read : Catalog) (site : Site) : Prop :=
  ∃ name, site.name = some name ∧ ¬read.Names site.target name

/-- What a type of another name or without a name comes to under a name: an anonymous record gets
the name, and there is an extension around any other type. -/
def entitled (name : String) (target : TypeId) (inner : Definition) : Definition :=
  match inner.shape with
  | .anonymous fields => { Definition.ofShape (.record name fields) with doc := inner.doc }
  | _ => .ofShape (.extension name (some (.bare target)))

theorem entitled_of_isNamed {inner : Definition} (named : inner.isNamed = true) (target : TypeId) :
    entitled name target inner = .ofShape (.extension name (some (.bare target))) := by
  obtain ⟨shape, doc, annotations⟩ := inner
  cases shape with
  | record | extension => rfl
  | _ => cases named

theorem extensionOf_of_namesOther {site : Site} (other : read.NamesOther site)
    (held : read.Holds site.target) :
    ∃ name, site.name = some name ∧ read.extensionOf site =
      (entitled name site.target (read.definition site.target), none) := by
  obtain ⟨name, titled, other⟩ := other
  refine ⟨name, titled, ?_⟩
  have different : ¬((read.definition site.target).isNamed &&
      decide ((read.definition site.target).name = name)) = true := by
    intro same
    obtain ⟨named, same⟩ := Bool.and_eq_true_iff.mp same
    exact other ⟨held, named, of_decide_eq_true same⟩
  rw [extensionOf, titled]
  dsimp only
  rw [if_neg different, entitled]
  cases (read.definition site.target).shape <;> rfl

/-- Installing other definitions does not change what a site declares. -/
theorem Retains.extensionOf_eq (retains : read.Retains catalog) {site : Site}
    (other : read.NamesOther site) (held : read.Holds site.target) :
    catalog.extensionOf site = ((read.extensionOf site).1, none) := by
  have kept := retains.kept site.target held
  have still : catalog.NamesOther site := by
    obtain ⟨name, titled, other⟩ := other
    refine ⟨name, titled, fun names => other ⟨held, ?_, ?_⟩⟩
    · exact kept.named.symm.trans names.named
    · exact kept.name.symm.trans names.same
  obtain ⟨name, titled, own⟩ := extensionOf_of_namesOther other held
  obtain ⟨name', titled', own'⟩ := extensionOf_of_namesOther still (retains.holds _ held)
  obtain rfl : name = name' := Option.some.inj (titled.symm.trans titled')
  rw [own, own']
  cases named : (read.definition site.target).isNamed with
  | false => rw [kept.unnamed named]
  | true => rw [entitled_of_isNamed named, entitled_of_isNamed (kept.named.trans named)]

/-- All sites of a text have names, and no type of a site has the name of the site. -/
def AllOther (read : Catalog) (entries : List Entry) : Prop :=
  ∀ entry ∈ entries, ∀ site, entry.slot.bind Slot.site? = some site →
    read.NamesOther site ∧ read.Holds site.target

/-- The definitions of a text are made of what has been read. -/
theorem AllOther.children (other : read.AllOther entries) (consistent : read.Consistent)
    (source : Option String) :
    ∀ definition ∈ read.declaredAll source entries, ∀ child ∈ definition.shape.children,
      read.Holds child := by
  intro definition member
  obtain ⟨entry, inside, declared⟩ := List.mem_filterMap.mp member
  obtain ⟨site, sited, rfl⟩ := Option.map_eq_some_iff.mp declared
  exact (extensionOf_spec consistent (other entry inside site sited).2).1

theorem defineEntries_eq (source : Option String)
    (other : read.AllOther entries) (consistent : catalog.Consistent)
    (retains : read.Retains catalog) :
    defineEntries source entries catalog =
      defineAll (read.declaredAll source entries) catalog := by
  induction entries generalizing catalog with
  | nil => rfl
  | cons entry rest ih =>
    obtain ⟨first, others⟩ := List.forall_mem_cons.mp other
    rw [defineEntries, declaredAll]
    cases sited : entry.slot.bind Slot.site? with
    | none =>
      rw [List.filterMap_cons_none (by rw [declaredBy, sited]; rfl)]
      exact ih others consistent retains
    | some site =>
      obtain ⟨different, held⟩ := first site sited
      have same := retains.extensionOf_eq different held
      rw [List.filterMap_cons_some (by rw [declaredBy, sited]; rfl), defineAll]
      dsimp only
      rw [get_bind, same]
      dsimp only
      cases done : defineProvisional (labelled (read.extensionOf site).1
          (Doc.join [entry.doc, site.doc]) source) none catalog with
      | error error state => simp only [bind, EStateM.bind, done]
      | ok id middle =>
        have defines :=
          (ends_defineProvisional_defines consistent _ _ _ none (by simp)).of_ok done
        have children : ∀ child ∈ (labelled (read.extensionOf site).1
            (Doc.join [entry.doc, site.doc]) source).shape.children, catalog.Holds child := by
          have own := (extensionOf_spec consistent (retains.holds _ held)).1
          rwa [same] at own
        have sound := (ends_defineProvisional_consistent consistent children).of_ok done
        rw [bind_of_ok done, bind_of_ok done]
        have more := ih others sound (retains.trans defines.retains)
        simp only [bind, EStateM.bind, more]
        rfl

end DocShapes.Catalog
