import DocShapes.Proofs.Matching

/-! # From a fresh catalog to both orders

In a fresh catalog a text of definitions is read and its names are defined, and then blocks are
read; or the blocks come first. The readings of the text and those of the blocks can be compared
from the start on, and where the definitions could be installed in front of the blocks they can be
installed behind them.
-/

namespace DocShapes.Catalog

variable {config : Config} {start parsed loaded left bare reparsed right before after : Catalog}
  {definitions definitions' : List Definition} {definition : Definition} {name : String}
  {id : TypeId} {source : Option String} {entries entries' : List Entry}

theorem Untouched.words_eq (untouched : before.Untouched after) : after.words = before.words := by
  rw [words, words, untouched.aliases, untouched.marker]

theorem isNamed_of_unknown {definition : Definition} (unknown : definition.base = .unknown) :
    definition.isNamed = false := by
  obtain ⟨shape, doc, annotations⟩ := definition
  cases shape with
  | unknown => rfl
  | _ => cases unknown

/-! ## Fresh catalogs -/

/-- Nothing is in the catalog but its settings. -/
structure Fresh (catalog : Catalog) : Prop where
  arena : catalog.arena = #[]
  canonical : catalog.canonical = .empty
  provisional : catalog.provisional = .empty
  pending : catalog.pending = .empty
  forward : catalog.forward = .empty

theorem fresh_of_ofConfig (made : ofConfig config = .ok start) : start.Fresh := by
  obtain ⟨aliases, rfl⟩ := respell_of_ofConfig made
  exact ⟨rfl, rfl, rfl, rfl, rfl⟩

namespace Fresh

theorem not_holds (fresh : start.Fresh) : ¬start.Holds id := by
  rw [Holds, fresh.arena]
  exact Nat.not_lt_zero _

theorem known?_eq (fresh : start.Fresh) (name : String) : start.known? name = none := by
  rw [known?, fresh.canonical, fresh.provisional]
  rfl

theorem titled (fresh : start.Fresh) : start.Titled fun _ => none where
  known name id found := by
    rw [fresh.known?_eq] at found
    cases found
  told := nofun
  strange _ held := absurd held fresh.not_holds

theorem compares_early (fresh : start.Fresh) (consistent : start.Consistent)
    (untouched : start.Untouched bare) (titled : bare.Titled fun _ => none) :
    Compares (earlyOf bare) start bare where
  start := Nat.zero_le _
  size := by
    rw [fresh.arena]
    exact Nat.add_comm _ _
  words := untouched.words_eq.symm
  words' := rfl
  flat := by
    rw [show (earlyOf bare).words.aliases = bare.aliases from rfl, untouched.aliases]
    exact consistent.flat
  customTypes := untouched.customTypes
  titled := fresh.titled
  titled' := titled
  definitions _ held := absurd held fresh.not_holds
  pending staging := Bool.noConfusion staging

theorem compares_late (fresh : start.Fresh) (flat : loaded.aliases.Flat)
    (untouched : start.Untouched loaded) (pending : loaded.pending = .empty)
    (titled : loaded.Titled (toldOf definitions)) :
    Compares (lateOf loaded definitions) loaded start where
  start := Nat.le_refl _
  size := by
    rw [fresh.arena]
    exact Nat.add_comm _ _
  words := rfl
  words' := untouched.words_eq.symm
  flat := flat
  customTypes := untouched.customTypes.symm
  titled := titled
  titled' := fresh.titled
  definitions links held := absurd links.left (Nat.not_le_of_lt held)
  pending _ := by
    rw [pending, fresh.pending]
    exact OrderedMap.parallel_empty

end Fresh

/-! ## Loaded definitions -/

theorem Furnished.untouched (furnished : before.Furnished definitions after) :
    before.Untouched after :=
  ⟨furnished.canonical, furnished.aliases, furnished.forward, by rw [furnished.rest],
    furnished.customTypes⟩

/-- Names with definitions are told, and no others. -/
theorem Furnished.titled (furnished : before.Furnished definitions after)
    (titled : before.Titled fun _ => none) (consistent : before.Consistent)
    (consistent' : after.Consistent) (apart : (definitions.map Definition.name).Nodup)
    (customTypes : before.customTypes = true)
    (custom : ∀ definition ∈ definitions, Name.isCustom definition.name = true) :
    after.Titled (toldOf definitions) where
  known name id found := by
    have names := consistent'.owned name id found
    rw [furnished.customTypes]
    by_cases title : name ∈ definitions.map Definition.name
    · obtain ⟨definition, member, rfl⟩ := List.mem_map.mp title
      obtain ⟨place, known, own, _⟩ := furnished.defined definition member
      obtain rfl : place = id := Option.some.inj (known.symm.trans found)
      rw [toldOf_eq_some apart member, own]
      exact ⟨names.held, customTypes, custom definition member, rfl⟩
    · rw [furnished.known title] at found
      obtain ⟨_, own⟩ := titled.known name id found
      rw [toldOf_eq_none title, furnished.definition_of_known consistent title found]
      exact ⟨names.held, own⟩
  told name base told := by
    obtain ⟨definition, member, rfl, _⟩ := exists_of_toldOf told
    obtain ⟨id, known, _⟩ := furnished.defined definition member
    exact (isKnown_iff _ _).mpr ⟨id, known⟩
  strange id held unknown := by
    have unnamed := isNamed_of_unknown unknown
    rcases furnished.fresh held with earlier | ⟨definition, member, known⟩
    · have same := (furnished.kept consistent consistent' earlier).resolve_right
        fun ⟨_, _, _, _, _, names⟩ => not_names_of_unnamed unnamed names
      rw [same] at unknown ⊢
      rw [furnished.customTypes, resolveAlias, furnished.aliases]
      exact titled.strange id earlier unknown
    · exact absurd (consistent'.owned _ id known) (not_names_of_unnamed unnamed)

/-! ## Blocks -/

theorem growth_of_parseEntries {mode : Mode} {text : String}
    (done : parseEntries mode text before = .ok entries after) :
    Growth before.arena.size before after :=
  ((ends_parseEntries before.underway_size _ _).of_ok done).1

theorem Reachable.parseEntries (reachable : before.Reachable) {mode : Mode} {text : String}
    (done : Catalog.parseEntries mode text before = .ok entries after) : after.Reachable := by
  refine reachable.move ⟨.parseEntries mode text, trivial, ?_⟩
  simp [leaves, Operation.perform, Functor.map, EStateM.map, done]

/-- What blocks do to a catalog, from a fresh one on or behind definitions. -/
structure BlocksRead (before : Catalog) (slots : List Slot) (after : Catalog) : Prop where
  growth : Growth before.arena.size before after
  reachable : before.Reachable → after.Reachable
  gathered : before.Gathered → after.Gathered
  held : ∀ slot ∈ slots, after.Holds slot.target

theorem blocksRead_of_ok {blocks : List Block} {slots : List Slot}
    (done : stageBlocks blocks before = .ok slots after) : before.BlocksRead slots after := by
  induction blocks generalizing before slots with
  | nil =>
    cases done
    exact ⟨.refl, fun old => old, fun old => old, nofun⟩
  | cons block blocks ih =>
    obtain ⟨entries, middle, first, done⟩ := of_bind_eq_ok done
    obtain ⟨others, last, rest, same⟩ := of_bind_eq_ok done
    cases same
    have grown := (ends_parseEntries before.underway_size _ _).of_ok first
    have read := ih rest
    refine ⟨grown.1.trans (read.growth.mono grown.1.size_le), fun old =>
      read.reachable (old.parseEntries first), fun old => read.gathered ?_, ?_⟩
    · have complete : succeeds (Operation.parseEntries ⟨some block.channel, block.eager⟩
          block.text).perform before = true := by
        simp [succeeds, Operation.perform, Functor.map, EStateM.map, first]
      exact ((Yields.entries first).gathered complete old).1
    · refine List.forall_mem_append.mpr ⟨fun slot member => ?_, read.held⟩
      obtain ⟨entry, inside, same⟩ := List.mem_filterMap.mp member
      exact read.growth.holds (grown.2 entry inside slot same).2

/-! ## Definitions that can be installed behind the blocks -/

/-- A mention of a name of the text stands for nothing in the second catalog either. -/
theorem isShell_of_bare (late : Compares (lateOf loaded definitions) left bare)
    (apart : (definitions.map Definition.name).Nodup) (member : definition ∈ definitions)
    (names : bare.Names id definition.name) : (bare.definition id).isShell = true := by
  have links : (lateOf loaded definitions).Links ⟨id.index + loaded.arena.size⟩ id :=
    links_lateOf.mpr rfl
  have resembles := late.definitions links ((late.holds links).mpr names.held)
  generalize own : left.definition ⟨id.index + loaded.arena.size⟩ = one at resembles
  have named := names.named
  have same := names.same
  generalize bare.definition id = other at resembles named same
  cases resembles with
  | twin twin _ untold =>
    have told := toldOf_eq_some apart member
    rw [← same, twin.name] at told
    rw [show toldOf definitions one.name = none from
      (untold (twin.isNamed.symm.trans named)).1] at told
    cases told
  | mention => exact isShell_shellOf _ _

theorem isShell_of_parsed (early : Compares (earlyOf bare) parsed reparsed)
    (mentions : ∀ {id name}, parsed.Names id name → (parsed.definition id).isShell = true)
    (names : reparsed.Names id name) (new : ¬bare.Holds id) :
    (reparsed.definition id).isShell = true := by
  have links : (earlyOf bare).Links ⟨id.index - bare.arena.size⟩ id := by
    refine links_earlyOf.mpr ?_
    simp only [Holds] at new ⊢
    omega
  have held := (early.holds links).mpr names.held
  have twin := early.shape_twin links held fun _ => rfl
  rw [twin.isShell]
  exact mentions ⟨held, twin.isNamed.symm.trans names.named, twin.name.symm.trans names.same⟩

theorem allDefinable_reparsed (early : Compares (earlyOf bare) parsed reparsed)
    (late : Compares (lateOf loaded definitions) left bare)
    (growth : Growth bare.arena.size bare reparsed) (consistent : bare.Consistent)
    (free : bare.canonical = .empty) (definable : parsed.AllDefinable definitions)
    (mentions : ∀ {id name}, parsed.Names id name → (parsed.definition id).isShell = true)
    (twins : List.Forall₂ (Definition.Twin (earlyOf bare).Links) definitions definitions') :
    reparsed.AllDefinable definitions' where
  each definition' member' := by
    obtain ⟨definition, member, twin⟩ := exists_of_forall₂ twins member'
    obtain ⟨named, unspelled, _⟩ := (definable.each definition member).registrable
    refine ⟨⟨twin.isNamed.trans named, ?_, ?_⟩, fun present known => ?_⟩
    · rw [early.aliases', ← early.aliases, twin.name]
      exact unspelled
    · rw [growth.untouched.canonical, free]
      rfl
    · have names := (growth.consistent consistent).owned _ present known
      rcases growth.known?_or_new known with old | ⟨_, new⟩
      · have names' := consistent.owned _ present old
        rw [growth.definition_eq (Nat.le_refl _) names'.held]
        exact isShell_of_bare late definable.apart member (twin.name ▸ names')
      · exact isShell_of_parsed early mentions names new
  apart := by
    rw [map_eq_of_forall₂ twins fun _ _ twin => twin.name]
    exact definable.apart
  children definition' member' child' inside := by
    obtain ⟨definition, member, twin⟩ := exists_of_forall₂ twins member'
    obtain ⟨child, within, links⟩ := exists_of_forall₂ twin.shape.children inside
    exact (early.holds links).mp (definable.children definition member child within)

/-! ## Twins of what a text defines -/

theorem twin_entitled {linked : TypeId → TypeId → Prop} {target target' : TypeId}
    (link : linked target target') {inner inner' : Definition} (twin : inner.Twin linked inner')
    (name : String) :
    (entitled name target inner).Twin linked (entitled name target' inner') := by
  obtain ⟨shape, doc, annotations⟩ := inner
  obtain ⟨shape', doc', annotations'⟩ := inner'
  obtain ⟨shapes, rfl, rfl⟩ := twin
  have around : (Definition.ofShape (.extension name (some (.bare target)))).Twin linked
      (.ofShape (.extension name (some (.bare target')))) :=
    Definition.twin_ofShape (.extension name (.some (.bare link)))
  cases shapes with
  | anonymous fields => exact ⟨.record name fields, rfl, rfl⟩
  | _ => exact around

theorem Entry.Twin.site? {linked : TypeId → TypeId → Prop} {entry entry' : Entry}
    (twin : entry.Twin linked entry') :
    Option.Rel (Site.Twin linked) (entry.slot.bind Slot.site?) (entry'.slot.bind Slot.site?) := by
  obtain ⟨doc, slot⟩ := entry
  obtain ⟨doc', slot'⟩ := entry'
  have slots : Option.Rel (Slot.Twin linked) slot slot' := twin.slot
  cases slots with
  | none => exact .none
  | some twins => cases twins with
    | bare => exact .none
    | sited site => exact .some site

theorem Compares.namesOther (early : Compares (earlyOf bare) parsed reparsed) {site site' : Site}
    (twin : site.Twin (earlyOf bare).Links site') (held : parsed.Holds site.target)
    (other : parsed.NamesOther site) : reparsed.NamesOther site' := by
  obtain ⟨name, titled, different⟩ := other
  have own := early.shape_twin twin.target held fun _ => rfl
  refine ⟨name, twin.name.trans titled, fun names => different ⟨held, ?_, ?_⟩⟩
  · exact own.isNamed.symm.trans names.named
  · exact own.name.symm.trans names.same

theorem allOther_reparsed (early : Compares (earlyOf bare) parsed reparsed)
    (other : parsed.AllOther entries)
    (same : List.Forall₂ (Entry.Twin (earlyOf bare).Links) entries entries') :
    reparsed.AllOther entries' := by
  intro entry' member' site' sited'
  obtain ⟨entry, member, twin⟩ := exists_of_forall₂ same member'
  have sites := twin.site?
  rw [sited'] at sites
  generalize sited : entry.slot.bind Slot.site? = own at sites
  cases sites with
  | some twin =>
    obtain ⟨different, held⟩ := other entry member _ sited
    exact ⟨early.namesOther twin held different, (early.holds twin.target).mp held⟩

theorem declaredAll_twins (source : Option String) (early : Compares (earlyOf bare) parsed reparsed)
    (other : parsed.AllOther entries)
    (same : List.Forall₂ (Entry.Twin (earlyOf bare).Links) entries entries') :
    List.Forall₂ (Definition.Twin (earlyOf bare).Links) (parsed.declaredAll source entries)
      (reparsed.declaredAll source entries') := by
  refine List.rel_filterMap (fun entry entry' inside => ?_) (forall₂_mem same)
  obtain ⟨member, twin⟩ := inside
  have sites := twin.site?
  have found := other entry member
  rw [declaredBy, declaredBy, twin.doc]
  generalize entry.slot.bind Slot.site? = site at sites found
  generalize entry'.slot.bind Slot.site? = site' at sites
  cases sites with
  | none => exact .none
  | @some site site' twin =>
    obtain ⟨different, held⟩ := found site rfl
    obtain ⟨name, titled, own⟩ := extensionOf_of_namesOther different held
    obtain ⟨name', titled', own'⟩ := extensionOf_of_namesOther
      (early.namesOther twin held different) ((early.holds twin.target).mp held)
    obtain rfl : name = name' := Option.some.inj (titled.symm.trans (twin.name.symm.trans titled'))
    have inner := twin_entitled twin.target (early.shape_twin twin.target held fun _ => rfl) name
    rw [Option.map_some, Option.map_some, own, own', twin.doc]
    refine .some ⟨inner.shape, ?_, ?_⟩
    · simp only [labelled, inner.doc]
    · simp only [labelled, inner.annotations]

end DocShapes.Catalog
