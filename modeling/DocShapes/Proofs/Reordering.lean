import DocShapes.Proofs.Preparing
import DocShapes.Proofs.Surviving

/-! # Definitions may be loaded before or after they are mentioned

A text of definitions is loaded into a fresh catalog, channels read blocks that mention its names,
and everything is merged and dereferenced. If this succeeds it succeeds as well with the text loaded
behind the blocks, and the dump is the same (`toJson_of_reordered`). The text has to define its
names only, all with content, the blocks must not give a body to one of its names, and no field that
several declarations of a record have may refer to an extension.
-/

namespace DocShapes.Catalog

open Outline (Line)

variable {config : Config} {start parsed loaded gathered merged final catalog : Catalog}
  {text : String} {source : Option String} {entries : List Entry} {blocks : List Block}
  {ids : List TypeId} {slots landed : List Slot}

/-! ## Conditions -/

/-- A text that has been read declares custom names, each with a definition that says something and
that is not made of a type of the same name. Apart from that it mentions names only. -/
structure Glossary (parsed : Catalog) (source : Option String) (entries : List Entry) : Prop where
  customTypes : parsed.customTypes = true
  custom : ∀ definition ∈ parsed.declaredAll source entries,
    Name.isCustom definition.name = true
  telling : ∀ definition ∈ parsed.declaredAll source entries, definition.isShell = false
  mentions : ∀ definition ∈ parsed.arena, definition.isNamed = true → definition.isShell = true
  other : ∀ entry ∈ entries, ∀ site ∈ entry.slot.bind Slot.site?, parsed.NamesOther site

/-- The names are mentioned without a body in all blocks. -/
def MentionsOnly (words : Literal.Words) (names : List String) (blocks : List Block) : Prop :=
  ∀ block ∈ blocks, ∀ line, Outline.Within (Outline.ofText block.text) line → line.body ≠ [] →
    ∀ name ∈ line.fed? words, name ∉ names

/-- No field that several declarations of a record have refers to an extension. -/
def Calm (catalog : Catalog) : Prop :=
  ∀ bucket ∈ catalog.pending.entries,
    ∀ use ∈ catalog.declared (catalog.withContent bucket.2),
      2 ≤ (catalog.usesOf bucket.2 (use.site.name.getD "")).length → catalog.Quiet use.site.target

instance (read : Catalog) (site : Site) : Decidable (read.NamesOther site) :=
  decidable_of_iff (∃ name ∈ site.name, ¬(read.Holds site.target ∧
      (read.definition site.target).isNamed = true ∧ (read.definition site.target).name = name))
    ⟨fun ⟨name, titled, other⟩ => ⟨name, titled, fun names =>
        other ⟨names.held, names.named, names.same⟩⟩,
      fun ⟨name, titled, other⟩ => ⟨name, titled, fun ⟨held, named, same⟩ =>
        other ⟨held, named, same⟩⟩⟩

instance (parsed : Catalog) (source : Option String) (entries : List Entry) :
    Decidable (parsed.Glossary source entries) :=
  decidable_of_iff (parsed.customTypes = true ∧
      (∀ definition ∈ parsed.declaredAll source entries, Name.isCustom definition.name = true) ∧
      (∀ definition ∈ parsed.declaredAll source entries, definition.isShell = false) ∧
      (∀ definition ∈ parsed.arena, definition.isNamed = true → definition.isShell = true) ∧
      ∀ entry ∈ entries, ∀ site ∈ entry.slot.bind Slot.site?, parsed.NamesOther site)
    ⟨fun ⟨customTypes, custom, telling, mentions, other⟩ =>
        ⟨customTypes, custom, telling, mentions, other⟩,
      fun ⟨customTypes, custom, telling, mentions, other⟩ =>
        ⟨customTypes, custom, telling, mentions, other⟩⟩

instance (catalog : Catalog) (name : String) : Decidable (catalog.Extends name) :=
  decidable_of_iff (∃ id ∈ catalog.known? name, (catalog.definition id).base = .extension) Iff.rfl

/-- In a reachable catalog the dump of a type shows whether it refers to an extension. -/
theorem Reachable.quiet_of_refs (reachable : catalog.Reachable) {id : TypeId}
    (held : catalog.Holds id)
    (refs : ∀ name ∈ (catalog.typeJson id).refs, ¬catalog.Extends name) : catalog.Quiet id :=
  ⟨held, fun name mentions => refs name
    ((mem_refs_typeJson reachable.consistent reachable.nested held).mpr mentions)⟩

/-- All lines of a block and of the bodies of such lines pass a test, if the bodies are in each
other no deeper than `depth`. -/
def allWithin (test : Line → Bool) : Nat → List Line → Bool
  | 0, lines => lines.isEmpty
  | depth + 1, lines =>
      lines.all fun line => test line && allWithin test depth (Outline.ofLines line.body)

theorem forall_within_of_allWithin {test : Line → Bool} {depth : Nat} {lines : List Line}
    (passes : allWithin test depth lines = true) {line : Line}
    (within : Outline.Within lines line) : test line = true := by
  -- What is inside of a line has passed one level further down.
  suffices ∃ depth others, allWithin test depth others = true ∧ line ∈ others by
    obtain ⟨depth, others, passes, member⟩ := this
    cases depth with
    | zero =>
      rw [List.isEmpty_iff.mp passes] at member
      cases member
    | succ depth => exact (Bool.and_eq_true_iff.mp (List.all_eq_true.mp passes line member)).1
  induction within with
  | top member => exact ⟨depth, lines, passes, member⟩
  | inner _ member ih =>
    obtain ⟨depth, others, passes, inside⟩ := ih
    cases depth with
    | zero =>
      rw [List.isEmpty_iff.mp passes] at inside
      cases inside
    | succ depth =>
      exact ⟨depth, _, (Bool.and_eq_true_iff.mp (List.all_eq_true.mp passes _ inside)).2, member⟩

theorem Calm.quiet (calm : catalog.Calm) {name field : String} {staged : List Declaration}
    (member : (name, staged) ∈ catalog.pending.entries)
    (several : 2 ≤ (catalog.usesOf staged field).length) :
    ∀ use ∈ catalog.usesOf staged field, catalog.Quiet use.site.target := by
  intro use inside
  obtain ⟨declared, same⟩ := mem_usesOf.mp inside
  exact calm _ member use declared (by rw [same]; exact several)

theorem Glossary.shell (glossary : parsed.Glossary source entries) {id : TypeId} {name : String}
    (names : parsed.Names id name) : (parsed.definition id).isShell = true := by
  refine glossary.mentions _ ?_ names.named
  rw [definition, Array.getD_eq_getD_getElem?, Array.getElem?_eq_getElem names.held]
  exact Array.getElem_mem names.held

/-! ## The first order -/

/-- The text has been read into a fresh catalog and its names are defined. -/
structure Told (start parsed loaded : Catalog) (definitions : List Definition) : Prop where
  reachable : parsed.Reachable ∧ loaded.Reachable
  growth : Growth start.arena.size start parsed
  definable : parsed.AllDefinable definitions
  furnished : parsed.Furnished definitions loaded
  titled' : loaded.Titled (toldOf definitions)
  unstaged : loaded.pending = .empty
  apart : loaded.KeepsApart

theorem Reachable.loadExtension (reachable : catalog.Reachable)
    (done : Catalog.loadExtension text source catalog = .ok ids loaded) : loaded.Reachable := by
  refine reachable.move ⟨.loadExtension text source, trivial, ?_⟩
  simp [leaves, Operation.perform, Functor.map, EStateM.map, done]

theorem pending_of_parseEntries {eager : Bool}
    (done : parseEntries ⟨none, eager⟩ text catalog = .ok entries parsed) :
    parsed.pending = catalog.pending :=
  ((stagesNothing_allEntries (quiet_feedWithin _) eager _).ends catalog).of_ok done

theorem told_of_glossary (made : ofConfig config = .ok start)
    (parses : parseEntries ⟨none, true⟩ text start = .ok entries parsed)
    (glossary : parsed.Glossary source entries)
    (loads : loadExtension text source start = .ok ids loaded) :
    parsed.AllOther entries ∧ Told start parsed loaded (parsed.declaredAll source entries) := by
  have fresh := fresh_of_ofConfig made
  have reachable : start.Reachable := ⟨config, start, made, .refl⟩
  have reached := reachable.parseEntries parses
  have own := (ends_parseEntries start.underway_size _ _).of_ok parses
  have other : parsed.AllOther entries := fun entry member site sited =>
    ⟨glossary.other entry member site sited,
      (own.2 entry member _ (sited_of_site? sited)).2⟩
  obtain ⟨_, _, parses', defines⟩ := exists_of_loadExtension loads
  rw [parses] at parses'
  cases parses'
  have unstaged : parsed.pending = .empty :=
    (pending_of_parseEntries parses).trans fresh.pending
  have apart := (ends_defineEntries_apart source entries
    (own.1.keepsApart (keepsApart_of_ofConfig made))).of_ok defines
  rw [defineEntries_eq source other reached.consistent (.refl parsed)] at defines
  have children := other.children reached.consistent source
  have definable := allDefinable_of_ok reached.consistent unstaged glossary.telling children defines
  have furnished := ((ends_defineAll reached.consistent definable).of_ok defines).1
  -- The text is compared with itself for what its names mean.
  have titled : parsed.Titled fun _ => none := by
    have compares := fresh.compares_early reachable.consistent ⟨rfl, rfl, rfl, rfl, rfl⟩
      fresh.titled
    obtain ⟨_, _, _, _, compared⟩ := simulates_parseEntries (fun channel => absurd rfl channel)
      reachable.consistent reachable.consistent compares (fun _ _ _ _ _ => rfl) _ _ parses
    exact compared.titled
  refine ⟨other, ⟨reached, reachable.loadExtension loads⟩, own.1, definable, furnished, ?_,
    furnished.pending.trans unstaged, apart⟩
  exact furnished.titled titled reached.consistent (reachable.loadExtension loads).consistent
    definable.apart glossary.customTypes glossary.custom

/-! ## The second order -/

theorem Reachable.nested_of_dereferenceAll (reachable : gathered.Reachable)
    (merges : mergePending gathered = .ok () merged)
    (held : ∀ slot ∈ slots, merged.Holds slot.target)
    (lands : dereferenceAll slots merged = .ok landed final) : final.Nested := by
  have reached : merged.Reachable := by
    refine reachable.move ⟨.mergePending, trivial, ?_⟩
    simp [leaves, Operation.perform, merges]
  have settling := (dereferenceAll_delivers lands reached.consistent held reached.consistent
    .refl).1.settling
  clear lands
  induction settling with
  | refl => exact reached.nested
  | tail earlier step ih =>
    exact step.nested (Settling.consistent earlier reached.consistent) ih

/-- The text has been loaded behind the blocks. -/
structure Retold (start gathered : Catalog) (text : String) (source : Option String)
    (blocks : List Block) (parsed loaded : Catalog) (definitions : List Definition)
    (slots slots' : List Slot) (bare right : Catalog) : Prop where
  reads : stageBlocks blocks start = .ok slots' bare
  loads : ∃ ids, loadExtension text source bare = .ok ids right
  twins : List.Forall₂ (Slot.Twin (Joined parsed loaded bare)) slots slots'
  transposed : ∃ definitions' reparsed,
    Transposed definitions definitions' parsed loaded gathered bare reparsed right

theorem Told.retold (told : Told start parsed loaded (parsed.declaredAll source entries))
    (made : ofConfig config = .ok start)
    (parses : parseEntries ⟨none, true⟩ text start = .ok entries parsed)
    (glossary : parsed.Glossary source entries) (other : parsed.AllOther entries)
    (only : MentionsOnly start.words
      ((parsed.declaredAll source entries).map Definition.name) blocks)
    (reads : stageBlocks blocks loaded = .ok slots gathered) :
    ∃ slots' bare right, Retold start gathered text source blocks parsed loaded
      (parsed.declaredAll source entries) slots slots' bare right := by
  have fresh := fresh_of_ofConfig made
  have reachable : start.Reachable := ⟨config, start, made, .refl⟩
  have untouched := told.growth.untouched.trans told.furnished.untouched
  have compares := fresh.compares_late told.reachable.2.consistent.flat untouched told.unstaged
    told.titled'
  obtain ⟨slots', bare, reads', slotTwins, late⟩ := simulates_stageBlocks rfl blocks
    told.reachable.2.consistent reachable.consistent compares
    (fun block member line within filled name fed => toldOf_eq_none
      (only block member line within filled name (untouched.words_eq ▸ fed))) _ _ reads
  have read := blocksRead_of_ok reads
  have read' := blocksRead_of_ok reads'
  have gathers := read'.gathered (gathered_of_ofConfig made)
  have reached' := read'.reachable reachable
  obtain ⟨entries', reparsed, parses', same, early⟩ := simulates_parseEntries
    (fun channel => absurd rfl channel) reachable.consistent reached'.consistent
    (fresh.compares_early reachable.consistent read'.growth.untouched late.titled')
    (fun _ _ _ _ _ => rfl) _ _ parses
  have growth' := growth_of_parseEntries parses'
  have sound' := growth'.consistent reached'.consistent
  have twins := declaredAll_twins source early other same
  have definable' := allDefinable_reparsed early late growth' reached'.consistent gathers.canonical
    told.definable glossary.shell twins
  obtain ⟨ids', right, defines', furnished', _⟩ :=
    (ends_defineAll sound' definable').exists_ok
  have loads' : loadExtension text source bare = .ok ids' right := by
    rw [loadExtension, bind_of_ok parses',
      defineEntries_eq source (allOther_reparsed early other same) sound' (.refl reparsed)]
    exact defines'
  refine ⟨slots', bare, right, reads', ⟨ids', loads'⟩, ?_, reparsed.declaredAll source entries',
    reparsed, ?_⟩
  · refine (forall₂_mem slotTwins.flip).flip.imp fun slot slot' inside => ?_
    exact inside.2.imp fun link => .late (read'.held slot' inside.1) (links_lateOf.mp link)
  · have reached := read.reachable told.reachable.2
    have last := reached'.loadExtension loads'
    exact {
      early := early
      late := late
      furnished := told.furnished
      furnished' := furnished'
      growth := read.growth
      growth' := growth'
      consistent := ⟨told.reachable.1.consistent, told.reachable.2.consistent, reached.consistent⟩
      consistent' := ⟨reached'.consistent, sound', last.consistent⟩
      nested := reached.nested
      nested' := last.nested
      twins := twins
      definable := told.definable
      telling := glossary.telling
      mentions := glossary.shell
      gathered := gathers
      unmerged := ⟨told.growth.untouched.canonical.trans fresh.canonical,
        told.growth.untouched.forward.trans fresh.forward⟩
      unstaged := pending_of_parseEntries parses'
      distinct := read.growth.keepsApart told.apart }

/-- Wherever blocks can be merged and dereferenced behind the definitions of the names that they
mention, they can be in front of them, and the catalogs have the same dump. -/
theorem toJson_of_reordered (made : ofConfig config = .ok start)
    (parses : parseEntries ⟨none, true⟩ text start = .ok entries parsed)
    (glossary : parsed.Glossary source entries)
    (only : MentionsOnly start.words
      ((parsed.declaredAll source entries).map Definition.name) blocks)
    (loads : loadExtension text source start = .ok ids loaded)
    (reads : stageBlocks blocks loaded = .ok slots gathered) (calm : gathered.Calm)
    (merges : mergePending gathered = .ok () merged)
    (lands : dereferenceAll slots merged = .ok landed final) :
    ∃ slots' bare ids' gathered' merged' landed' final',
      stageBlocks blocks start = .ok slots' bare ∧
        loadExtension text source bare = .ok ids' gathered' ∧
          mergePending gathered' = .ok () merged' ∧
            dereferenceAll slots' merged' = .ok landed' final' ∧
              final'.toJson = final.toJson := by
  obtain ⟨other, told⟩ := told_of_glossary made parses glossary loads
  obtain ⟨slots', bare, right, retold⟩ := told.retold made parses glossary other only reads
  obtain ⟨ids', loads'⟩ := retold.loads
  obtain ⟨definitions', reparsed, transposed⟩ := retold.transposed
  have reachable : start.Reachable := ⟨config, start, made, .refl⟩
  have read := blocksRead_of_ok reads
  have reached := read.reachable told.reachable.2
  have reached' := ((blocksRead_of_ok retold.reads).reachable reachable).loadExtension loads'
  have ready : List.Forall₂ (fun bucket bucket' : String × List Declaration =>
      bucket'.1 = bucket.1 ∧ Ready (Joined parsed loaded bare) gathered.Quiet gathered.Extends
        gathered right bucket.1 bucket.2 bucket'.2) gathered.pending.entries
          right.pending.entries := by
    refine (forall₂_mem (forall₂_mem transposed.parallel.flip).flip).imp ?_
    rintro ⟨name, staged⟩ ⟨_, staged'⟩ ⟨member, member', rfl, same⟩
    exact ⟨rfl, transposed.ready member member' same fun field => calm.quiet member⟩
  obtain ⟨_, merged', merges', meets, lands', inside, aligned⟩ :=
    simulates_mergePending transposed.coordinated ready _ _ merges
  have twins : List.Forall₂ (Slot.Twin meets) slots slots' :=
    retold.twins.imp fun _ _ twin => twin.imp (inside _ _)
  obtain ⟨landed', final', done', aligned'⟩ := simulates_dereferenceAll aligned twins _ _ lands
  refine ⟨slots', bare, ids', right, merged', landed', final', retold.reads, loads', merges', done',
    aligned'.toJson_eq ?_ ?_⟩
  · refine reached.nested_of_dereferenceAll merges (fun slot member => ?_) lands
    obtain ⟨slot', _, twin⟩ := exists_of_forall₂ twins.flip member
    exact (aligned.held twin.target).1
  · refine reached'.nested_of_dereferenceAll merges' (fun slot member => ?_) done'
    obtain ⟨slot', _, twin⟩ := exists_of_forall₂ twins member
    exact (aligned.held twin.target).2

/-- An extension, and a record that mentions itself. -/
def glossaryText : String := "Color : ('r' | 'g')\n\nPet : record\n    mate : Pet"

/-- Two declarations of a record with mentions of the names as fields, one of them in common. -/
def mentionBlocks : List Block :=
  [⟨.read, false, "x : Foo\n    c : Color\n    p : Pet"⟩, ⟨.write, false, "y : Foo\n    p : Pet"⟩]

def glossaryParsed : Catalog := leaves (parseEntries ⟨none, true⟩ glossaryText) empty

def glossaryLoaded : Catalog := leaves (loadExtension glossaryText none) empty

def mentionsGathered : Catalog := leaves (stageBlocks mentionBlocks) glossaryLoaded

theorem glossary_glossaryParsed :
    ∃ entries, parseEntries ⟨none, true⟩ glossaryText empty = .ok entries glossaryParsed ∧
      glossaryParsed.Glossary none entries ∧
      (glossaryParsed.declaredAll none entries).map Definition.name = ["Color", "Pet"] := by
  have reads : succeedsWith (fun entries => decide (glossaryParsed.Glossary none entries) &&
      (glossaryParsed.declaredAll none entries).map Definition.name == ["Color", "Pet"])
        (parseEntries ⟨none, true⟩ glossaryText) empty = true := by decide +kernel
  obtain ⟨entries, parses, passes⟩ := eq_ok_of_succeedsWith reads
  obtain ⟨glossary, names⟩ := Bool.and_eq_true_iff.mp passes
  exact ⟨entries, parses, of_decide_eq_true glossary, beq_iff_eq.mp names⟩

theorem mentionsOnly_mentionBlocks : MentionsOnly empty.words ["Color", "Pet"] mentionBlocks := by
  have lines : (mentionBlocks.all fun block => allWithin (fun line =>
      line.body.isEmpty || (line.fed? empty.words).all fun name =>
        !(["Color", "Pet"].contains name))
        3 (Outline.ofText block.text)) = true := by decide +kernel
  intro block member line within filled name fed
  have passes := forall_within_of_allWithin (List.all_eq_true.mp lines block member) within
  rw [Option.mem_def.mp fed] at passes
  simpa [filled] using passes

theorem calm_mentionsGathered (reachable : mentionsGathered.Reachable) :
    mentionsGathered.Calm := by
  have refs : (mentionsGathered.pending.entries.all fun bucket =>
      (mentionsGathered.declared (mentionsGathered.withContent bucket.2)).all fun use =>
        decide (2 ≤ (mentionsGathered.usesOf bucket.2 (use.site.name.getD "")).length →
          mentionsGathered.Holds use.site.target ∧
            ∀ name ∈ (mentionsGathered.typeJson use.site.target).refs,
              ¬mentionsGathered.Extends name)) = true := by decide +kernel
  intro bucket member use inside several
  have checked := List.all_eq_true.mp (List.all_eq_true.mp refs bucket member) use inside
  obtain ⟨held, free⟩ := of_decide_eq_true checked several
  exact reachable.quiet_of_refs held free

theorem ok_mentionsGathered :
    ∃ slots merged landed final,
      stageBlocks mentionBlocks glossaryLoaded = .ok slots mentionsGathered ∧
        mergePending mentionsGathered = .ok () merged ∧
          dereferenceAll slots merged = .ok landed final := by
  have runs : succeedsWith (fun slots => succeedsWith (fun _ =>
      succeeds (dereferenceAll slots) (leaves mergePending mentionsGathered))
        mergePending mentionsGathered) (stageBlocks mentionBlocks) glossaryLoaded = true := by
    decide +kernel
  obtain ⟨slots, reads, runs⟩ := eq_ok_of_succeedsWith runs
  obtain ⟨_, merges, lands⟩ := eq_ok_of_succeedsWith runs
  obtain ⟨landed, lands⟩ := eq_ok_of_succeeds lands
  exact ⟨slots, _, landed, _, reads, merges, lands⟩

theorem toJson_of_reordered_glossaryText :
    ∃ entries ids slots merged landed final,
      parseEntries ⟨none, true⟩ glossaryText empty = .ok entries glossaryParsed ∧
        glossaryParsed.Glossary none entries ∧
        MentionsOnly empty.words ((glossaryParsed.declaredAll none entries).map Definition.name)
          mentionBlocks ∧
        loadExtension glossaryText none empty = .ok ids glossaryLoaded ∧
        stageBlocks mentionBlocks glossaryLoaded = .ok slots mentionsGathered ∧
        mentionsGathered.Calm ∧
        mergePending mentionsGathered = .ok () merged ∧
        dereferenceAll slots merged = .ok landed final ∧
        ∃ slots' bare ids' gathered' merged' landed' final',
          stageBlocks mentionBlocks empty = .ok slots' bare ∧
            loadExtension glossaryText none bare = .ok ids' gathered' ∧
              mergePending gathered' = .ok () merged' ∧
                dereferenceAll slots' merged' = .ok landed' final' ∧
                  final'.toJson = final.toJson := by
  obtain ⟨entries, parses, glossary, names⟩ := glossary_glossaryParsed
  obtain ⟨slots, merged, landed, final, reads, merges, lands⟩ := ok_mentionsGathered
  have loads : succeeds (loadExtension glossaryText none) empty = true := by decide +kernel
  obtain ⟨ids, loads⟩ := eq_ok_of_succeeds loads
  have made : ofConfig .standard = .ok empty := rfl
  have only := names ▸ mentionsOnly_mentionBlocks
  have calm := calm_mentionsGathered ((blocksRead_of_ok reads).reachable
    (Reachable.loadExtension ⟨_, _, made, .refl⟩ loads))
  exact ⟨entries, ids, slots, merged, landed, final, parses, glossary, only, loads, reads, calm,
    merges, lands, toJson_of_reordered made parses glossary only loads reads calm merges lands⟩

end DocShapes.Catalog
