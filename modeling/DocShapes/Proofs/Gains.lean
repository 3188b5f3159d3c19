import DocShapes.Proofs.Identity
import DocShapes.Proofs.Prose

/-! # What a reading gains

A reading that succeeds leaves nothing behind: every definition that it makes is a part of what it
gives (`Gains`). The docs that it puts on definitions are tidy, and it stages nothing by itself.
-/

namespace DocShapes

/-! ## Edits that succeed -/

namespace Edit

theorem ends_pushField_own (field : Site) (definition : Definition) :
    Ends (pushField field) definition (fun _ after => field ∈ after.shape.sites)
      fun _ => True := by
  obtain ⟨owner, doc, annotations⟩ := definition
  simp only [pushField, ends_bind, ends_get]
  refine ends_ite (fun _ => trivial) fun _ => ?_
  cases owner with
  | anonymous | record =>
    refine ends_ite (fun _ => trivial) fun _ => ?_
    exact List.mem_append_right _ List.mem_cons_self
  | _ => trivial

/-- Fields that are all taken are all there. -/
theorem ends_pushFields_own (fields : List Site) (definition : Definition) :
    Ends (fields.forM pushField) definition
      (fun _ after => ∀ field ∈ fields, field ∈ after.shape.sites) fun _ => True := by
  induction fields generalizing definition with
  | nil => simp
  | cons field rest ih =>
    rw [List.forM, ends_bind]
    refine (ends_pushField_own field definition).imp fun _ middle own => ?_
    refine ((ends_pushFields rest middle).and (ih middle)).mono (fun _ after more => ?_)
      fun _ _ => trivial
    obtain ⟨⟨shape, _, rfl, grown, _⟩, others⟩ := more
    exact List.forall_mem_cons.mpr ⟨grown.sites own, others⟩

theorem ends_setInner_own (slot : Slot) (definition : Definition) :
    Ends (setInner slot) definition (fun _ after => slot ∈ after.shape.slots)
      fun _ => True := by
  obtain ⟨owner, doc, annotations⟩ := definition
  simp only [setInner, ends_bind, ends_get]
  cases owner with
  | list item | reference item | extension _ item =>
    cases item <;> simp [setShape, fail, Shape.slots]
  | _ => trivial

end Edit

theorem Definition.Appended.doc {before after : Definition} {given : List Slot}
    (appended : before.Appended given after) : after.doc = before.doc := by
  obtain ⟨_, _, rfl, _, _⟩ := appended
  rfl

namespace Catalog

open Outline (Line)

/-! ## Gains -/

/-- Every doc of a definition is a doc of a block. -/
def Documented (catalog : Catalog) : Prop :=
  ∀ id, ∀ doc ∈ (catalog.definition id).doc, Doc.Tidy doc

/-- Whatever is new is a part of one of the roots, and no part of anything is lost. -/
structure Gains (before : Catalog) (roots : List TypeId) (after : Catalog) : Prop where
  size_le : before.arena.size ≤ after.arena.size
  links : ∀ outer inner, before.HasChild outer inner → after.HasChild outer inner
  whole : ∀ part, after.HoldsFrom before.arena.size part →
    ∃ root ∈ roots, after.Reaches root part
  pending : after.pending = before.pending
  documented : before.Documented → after.Documented

variable {catalog before after : Catalog} {roots : List TypeId} {base : Nat} {feed : Feed}

theorem Gains.refl (roots : List TypeId) : Gains catalog roots catalog where
  size_le := Nat.le_refl _
  links _ _ child := child
  whole _ held := absurd held.2 (Nat.not_lt_of_le held.1)
  pending := rfl
  documented tidy := tidy

theorem Gains.reaches (gains : Gains before roots after) {outer inner : TypeId}
    (reaches : before.Reaches outer inner) : after.Reaches outer inner :=
  Relation.ReflTransGen.mono gains.links _ _ reaches

theorem Gains.trans {middle : Catalog} {others : List TypeId} (first : Gains before roots middle)
    (second : Gains middle others after) : Gains before (roots ++ others) after where
  size_le := Nat.le_trans first.size_le second.size_le
  links outer inner child := second.links outer inner (first.links outer inner child)
  whole part held := by
    by_cases later : middle.arena.size ≤ part.index
    · obtain ⟨root, member, reaches⟩ := second.whole part ⟨later, held.2⟩
      exact ⟨root, List.mem_append_right _ member, reaches⟩
    · obtain ⟨root, member, reaches⟩ := first.whole part ⟨held.1, Nat.lt_of_not_le later⟩
      exact ⟨root, List.mem_append_left _ member, second.reaches reaches⟩
  pending := second.pending.trans first.pending
  documented tidy := second.documented (first.documented tidy)

/-- Other roots do as well, if the old ones are parts of them. -/
theorem Gains.of_reaches {others : List TypeId} (gains : Gains before roots after)
    (within : ∀ root ∈ roots, ∃ other ∈ others, after.Reaches other root) :
    Gains before others after where
  size_le := gains.size_le
  links := gains.links
  whole part held := by
    obtain ⟨root, member, reaches⟩ := gains.whole part held
    obtain ⟨other, inside, outer⟩ := within root member
    exact ⟨other, inside, outer.trans reaches⟩
  pending := gains.pending
  documented := gains.documented

theorem Gains.mono {others : List TypeId} (gains : Gains before roots after)
    (subset : roots ⊆ others) : Gains before others after :=
  gains.of_reaches fun root member => ⟨root, subset member, .refl⟩

/-- What is gained depends on the arena and on the buckets alone. -/
theorem Gains.of_arena {middle : Catalog} (gains : Gains before roots middle)
    (arena : after.arena = middle.arena) (pending : after.pending = middle.pending) :
    Gains before roots after where
  size_le := arena ▸ gains.size_le
  links outer inner child := by
    rw [HasChild, Catalog.shape, Catalog.definition, arena]
    exact gains.links outer inner child
  whole part held := by
    rw [HoldsFrom, Holds, arena] at held
    obtain ⟨root, member, reaches⟩ := gains.whole part held
    exact ⟨root, member, reaches.of_arena arena⟩
  pending := pending.trans gains.pending
  documented tidy id := by
    rw [Catalog.definition, arena]
    exact gains.documented tidy id

/-- A new definition that is made of all the roots. -/
theorem Gains.push (gains : Gains before roots catalog) {shape : Shape}
    (children : roots ⊆ shape.children) :
    Gains before [catalog.next] (catalog.push (.ofShape shape)) where
  size_le := Nat.le_trans gains.size_le (by simp)
  links outer inner child := by
    have child := gains.links outer inner child
    have old : outer ≠ catalog.next := by
      rintro rfl
      rw [HasChild, Catalog.shape, definition_of_not_holds (not_holds_next catalog)] at child
      exact absurd child List.not_mem_nil
    rwa [HasChild, Catalog.shape, definition_push, if_neg old]
  whole part held := by
    refine ⟨catalog.next, List.mem_cons_self, ?_⟩
    rcases (holds_push catalog _ part).mp held.2 with old | rfl
    · obtain ⟨root, member, reaches⟩ := gains.whole part ⟨held.1, old⟩
      refine .head (b := root) ?_ (reaches.induction .refl fun id within child inside => ?_)
      · rw [HasChild, Catalog.shape, definition_push, if_pos rfl]
        exact children member
      · refine within.tail ?_
        have here : id ≠ catalog.next := by
          rintro rfl
          rw [Catalog.shape, definition_of_not_holds (not_holds_next catalog)] at inside
          exact absurd inside List.not_mem_nil
        rwa [HasChild, Catalog.shape, definition_push, if_neg here]
    · exact .refl
  pending := gains.pending
  documented tidy id doc member := by
    rw [definition_push] at member
    split at member
    · cases member
    · exact gains.documented tidy id doc member

/-- An earlier definition that takes in all the roots. -/
theorem Gains.append (gains : Gains before roots catalog) {id : TypeId}
    {given : List Slot} {definition : Definition} (held : catalog.Holds id)
    (appended : (catalog.definition id).Appended given definition)
    (children : roots ⊆ definition.shape.children) :
    Gains before [id] (catalog.put id definition) := by
  have own := definition_put_self held definition
  have links (outer inner : TypeId) (child : catalog.HasChild outer inner) :
      (catalog.put id definition).HasChild outer inner := by
    rw [HasChild, Catalog.shape, definition_put]
    split
    · rename_i same
      obtain ⟨shape, extra, rfl, grown, _⟩ := appended
      rw [show Shape.children _ = _ from grown.children, List.mem_append]
      exact .inl (same.1 ▸ child)
    · exact child
  refine ⟨by simpa using gains.size_le,
    fun outer inner child => links outer inner (gains.links outer inner child),
    fun part inside => ?_, gains.pending, fun tidy other => ?_⟩
  · obtain ⟨root, member, reaches⟩ := gains.whole part ⟨inside.1, by simpa using inside.2⟩
    refine ⟨id, List.mem_cons_self, .head (b := root) ?_ (Relation.ReflTransGen.mono links _ _ reaches)⟩
    rw [HasChild, Catalog.shape, own]
    exact children member
  · rw [definition_put]
    split
    · rename_i same
      rw [appended.doc]
      exact gains.documented tidy id
    · exact gains.documented tidy other

/-- A doc of the block for a definition. -/
theorem Gains.document (gains : Gains before roots catalog) (id : TypeId) {doc : Option String}
    (tidy : ∀ text ∈ doc, Doc.Tidy text) :
    Gains before roots (catalog.put id { catalog.definition id with doc }) := by
  have child (outer inner : TypeId) :
      (catalog.put id { catalog.definition id with doc }).HasChild outer inner ↔
        catalog.HasChild outer inner := by
    rw [HasChild, Catalog.shape, definition_put]
    split
    · rename_i same
      rw [same.1]
      rfl
    · rfl
  refine ⟨by simpa using gains.size_le,
    fun outer inner inside => (child outer inner).mpr (gains.links outer inner inside),
    fun part inside => ?_, gains.pending, fun earlier other => ?_⟩
  · obtain ⟨root, member, reaches⟩ := gains.whole part ⟨inside.1, by simpa using inside.2⟩
    exact ⟨root, member, Relation.ReflTransGen.mono (fun _ _ => (child _ _).mpr) _ _ reaches⟩
  · rw [definition_put]
    split
    · exact tidy
    · exact gains.documented earlier other

/-! ## Specs -/

theorem ends_allocate_gains {shape : Shape} (gains : Gains before roots catalog)
    (children : roots ⊆ shape.children) :
    Ends (allocate (.ofShape shape)) catalog
      (fun id after => Gains before [id] after ∧ (after.definition id).doc = none)
      fun _ => False := by
  rw [ends_allocate]
  exact ⟨gains.push children, by rw [definition_push, if_pos rfl]; rfl⟩

theorem ends_elaborateName_gains (name : String) :
    Ends (elaborateName name) catalog
      (fun id after => Gains catalog [id] after ∧ (after.definition id).doc = none)
      fun _ => False := by
  have alone (shape : Shape) :
      Gains catalog [catalog.next] (catalog.push (.ofShape shape)) ∧
        ((catalog.push (.ofShape shape)).definition catalog.next).doc = none :=
    (ends_allocate _).mp (ends_allocate_gains (.refl []) (List.nil_subset _))
  simp only [elaborateName, ends_bind, ends_get]
  split
  · exact alone _
  · exact alone _
  · simp only [ends_bind, ends_allocate, ensureProvisional, ends_get, ends_pure, setProvisional]
    have made := alone (.record name [])
    refine ends_ite (fun _ => made) fun _ => ?_
    rw [ends_modify]
    exact ⟨made.1.of_arena rfl rfl, made.2⟩
  · exact alone _

mutual

theorem ends_elaborate_gains (spec : Spec) {catalog : Catalog} :
    Ends (elaborate spec) catalog
      (fun id after => Gains catalog [id] after ∧ (after.definition id).doc = none)
      fun _ => False := by
  cases spec with
  | named name => exact ends_elaborateName_gains name
  | listOf item | referenceTo item =>
    rw [elaborate, ends_bind]
    refine (ends_elaborate_gains item).imp fun id after gained => ?_
    exact ends_allocate_gains gained.1 (by simp [Shape.children, Shape.slots, Slot.target])
  | sequence connective items =>
    rw [elaborate, ends_bind]
    refine (ends_elaborateEach_gains items).imp fun ids after gained => ?_
    exact ends_allocate_gains gained (by simp [Shape.children, Shape.slots, Function.comp_def, Slot.target])
  | _ => exact ends_allocate_gains (.refl []) (List.nil_subset _)

theorem ends_elaborateEach_gains (specs : List Spec) {catalog : Catalog} :
    Ends (elaborate.elaborateEach specs) catalog (fun ids after => Gains catalog ids after)
      fun _ => False := by
  cases specs with
  | nil => exact Gains.refl []
  | cons spec rest =>
    rw [elaborate.elaborateEach, ends_bind]
    refine (ends_elaborate_gains spec).imp fun first middle gained => ?_
    rw [ends_bind]
    exact (ends_elaborateEach_gains rest).imp fun others after more => gained.1.trans more

end

/-- A text that is accepted leaves the catalog as it is. -/
theorem ends_accept_same {α : Type} (reading : Spec.Reading α) :
    Ends (accept reading) catalog (fun _ after => after = catalog) fun _ => True := by
  cases reading with
  | ok => exact rfl
  | error rejection =>
    simp only [accept, ends_bind, ends_throw]
    exact (ends_elaborateEach_gains rejection.completed).mono (fun _ _ _ => trivial)
      fun _ _ => trivial

theorem ends_parseType_gains (text : String) :
    Ends (parseType text) catalog
      (fun id after => Gains catalog [id] after ∧ (after.definition id).doc = none)
      fun _ => True := by
  simp only [parseType, ends_bind, ends_get]
  refine (ends_accept_same _).imp ?_
  rintro spec _ rfl
  exact (ends_elaborate_gains spec).mono (fun _ _ gained => gained) fun _ _ => trivial

theorem ends_parseDeclaration_gains (text : String) :
    Ends (parseDeclaration text) catalog
      (fun found after => Gains catalog [found.1] after ∧ (after.definition found.1).doc = none)
      fun _ => True := by
  simp only [parseDeclaration, ends_bind, ends_get]
  refine (ends_accept_same _).imp ?_
  rintro ⟨spec, qualifiers⟩ _ rfl
  exact (ends_elaborate_gains spec).mono (fun _ _ gained => gained) fun _ _ => trivial

/-! ## Entries -/

/-- Every successful feed into a definition gains parts of it only. It leaves a doc for the site
only if it puts none on a definition. -/
def Feed.Fills (feed : Feed) : Prop :=
  ∀ base catalog id body, catalog.Underway base → catalog.HoldsFrom base id →
    (∀ line ∈ body, Text.Tidy line) →
      Ends (feed id body) catalog
        (fun doc after => Gains catalog [id] after ∧ (doc.isSome = true →
          ∀ other, catalog.Holds other →
            (after.definition other).doc = (catalog.definition other).doc))
        fun _ => True

/-- The doc of a declaration stands at its site or on its definition, not on both. -/
def DocOnce (catalog : Catalog) (slot : Slot) : Prop :=
  slot.toSite.doc = none ∨ (catalog.definition slot.target).doc = none

theorem ends_declare_gains (fills : feed.Fills) (name spec : String)
    {body : List String} (tidy : ∀ line ∈ body, Text.Tidy line) :
    Ends (declare feed name spec body) catalog
      (fun slot after => Gains catalog [slot.target] after ∧ after.DocOnce slot)
      fun _ => True := by
  simp only [declare]
  refine ends_ite (fun _ => trivial) fun _ => ?_
  rw [ends_bind]
  refine ((ends_parseDeclaration (Nat.le_refl _) spec).and
    (ends_parseDeclaration_gains spec)).mono (fun found middle read => ?_) fun _ _ => trivial
  obtain ⟨⟨grown, own⟩, gained, silent⟩ := read
  have reading := grown.underway catalog.underway_size
  rw [ends_bind]
  refine (fills _ middle found.1 body reading own tidy).imp fun doc after filled => ?_
  refine ⟨(gained.trans filled.1).mono (by simp [Slot.target]), ?_⟩
  cases doc with
  | none => exact .inl rfl
  | some => exact .inr ((filled.2 rfl found.1 own.2).trans silent)

theorem ends_declareAlone_gains (fills : feed.Fills) (text : String)
    {body : List String} (tidy : ∀ line ∈ body, Text.Tidy line) :
    Ends (declareAlone feed text body) catalog
      (fun slot after => Gains catalog [slot.target] after ∧ after.DocOnce slot)
      fun _ => True := by
  simp only [declareAlone, ends_bind]
  refine ((ends_parseType (Nat.le_refl _) text).and (ends_parseType_gains text)).mono
    (fun id middle read => ?_) fun _ _ => trivial
  obtain ⟨⟨grown, own⟩, gained, silent⟩ := read
  have reading := grown.underway catalog.underway_size
  refine (fills _ middle id body reading own tidy).imp fun doc after filled => ?_
  have whole : Gains catalog [id] after := (gained.trans filled.1).mono (by simp)
  cases doc with
  | none => exact ⟨whole, .inl rfl⟩
  | some => exact ⟨whole, .inr ((filled.2 rfl id own.2).trans silent)⟩

theorem ends_declaration?_gains (fills : feed.Fills) (mode : Mode)
    {line : Line} (tidy : line.Tidy) :
    Ends (declaration? feed mode line) catalog
      (fun slot? after =>
        match slot? with
        | none => after = catalog
        | some slot => Gains catalog [slot.target] after ∧ after.DocOnce slot)
      fun _ => True := by
  simp only [declaration?]
  split
  · rw [ends_map]
    exact ends_declare_gains fills _ _ tidy.body
  · rw [ends_bind, ends_get]
    refine ends_ite (fun _ => ?_) fun _ => rfl
    rw [ends_map]
    exact ends_declareAlone_gains fills _ tidy.body

/-- What holds of the entries of a block, by what holds of its declarations: an entry is made of
the prose in front of a declaration and of the declaration, which a channel stages. -/
theorem ends_nextEntry_cases {mode : Mode} {lines : List Line} {prose : List String}
    {done : Option (Entry × List Line) → Catalog → Prop} {failed : Catalog → Prop}
    (tidy : ∀ line ∈ lines, line.Tidy) (tidyProse : ∀ line ∈ prose, Text.Tidy line)
    (ended : done none catalog)
    (last : ∀ doc, Doc.Tidy doc → done (some ({ doc := some doc, slot := none }, [])) catalog)
    (declared : ∀ line ∈ lines, ∀ doc rest, (∀ text ∈ doc, Doc.Tidy text) → rest ⊆ lines →
      Ends (declaration? feed mode line) catalog
        (fun slot? middle =>
          match slot? with
          | none => middle = catalog
          | some slot =>
              Ends (match mode.channel with
                | some channel => stage channel slot
                | none => pure slot) middle
                (fun slot after => done (some ({ doc, slot := some slot }, rest)) after) failed)
        failed) :
    Ends (nextEntry feed mode prose lines) catalog done failed := by
  obtain ⟨channel, eager⟩ := mode
  induction lines generalizing prose with
  | nil =>
    rw [nextEntry, ends_pure]
    cases found : Doc.ofLines prose with
    | none => exact ended
    | some doc => exact last doc (Doc.tidy_of_ofLines tidyProse found)
  | cons line rest ih =>
    obtain ⟨lineTidy, restTidy⟩ := List.forall_mem_cons.mp tidy
    have further {prose : List String} (tidyProse : ∀ line ∈ prose, Text.Tidy line) :
        Ends (nextEntry feed ⟨channel, eager⟩ prose rest) catalog done failed :=
      ih restTidy tidyProse fun other member doc more docTidy subset =>
        declared other (List.mem_cons_of_mem line member) doc more docTidy
          (List.subset_cons_of_subset line subset)
    rw [nextEntry]
    refine ends_ite (fun _ => further ?_) fun _ => ?_
    · split
      · simp
      · exact List.forall_mem_append.mpr ⟨tidyProse, by simpa using Text.tidy_empty⟩
    · rw [ends_bind]
      refine (declared line List.mem_cons_self (Doc.ofLines prose) rest
        (fun text found => Doc.tidy_of_ofLines tidyProse found)
        (List.subset_cons_self line rest)).imp fun slot? middle found => ?_
      cases slot? with
      | none =>
        cases found
        exact further (List.forall_mem_append.mpr ⟨tidyProse, tidy_of_mem_proseLines lineTidy⟩)
      | some slot =>
        cases channel with
        | none => exact found
        | some channel =>
          simp only [ends_bind, ends_pure]
          exact found

/-- The definition that an entry declares. -/
def Entry.targets (entry : Entry) : List TypeId := entry.slot.toList.map Slot.target

/-- The docs of an entry are tidy. -/
def Entry.Tidy (entry : Entry) : Prop := ∀ doc ∈ entry.doc, Doc.Tidy doc

theorem ends_nextEntry_gains (fills : feed.Fills) (eager : Bool)
    {lines : List Line} (tidy : ∀ line ∈ lines, line.Tidy) :
    Ends (nextEntry feed ⟨none, eager⟩ [] lines) catalog
      (fun found after => Gains catalog (found.toList.flatMap fun next => next.1.targets) after ∧
        ∀ next ∈ found, next.1.Tidy ∧ next.2 ⊆ lines)
      fun _ => True := by
  refine ends_nextEntry_cases tidy (by simp) ⟨.refl _, by simp⟩
    (fun doc docTidy => ⟨.refl _, by simpa [Entry.Tidy] using docTidy⟩)
    fun line member doc rest docTidy subset => ?_
  refine (ends_declaration?_gains fills _ (tidy line member)).imp fun slot? after found => ?_
  cases slot? with
  | none => exact found
  | some slot =>
    refine ⟨by simpa [Entry.targets] using found.1, fun next same => ?_⟩
    cases same
    exact ⟨docTidy, subset⟩

theorem ends_drawEntries_gains (fills : feed.Fills) (eager : Bool)
    (count : Nat) {lines : List Line} (tidy : ∀ line ∈ lines, line.Tidy) :
    Ends (drawEntries feed ⟨none, eager⟩ count lines) catalog
      (fun found after => found.2 = none →
        Gains catalog (found.1.flatMap Entry.targets) after ∧ ∀ entry ∈ found.1, entry.Tidy)
      fun _ => False := by
  induction count generalizing catalog lines with
  | zero => exact fun _ => ⟨.refl _, by simp⟩
  | succ count ih =>
    rw [drawEntries_succ, ends_bind]
    refine (ends_attempt (ends_nextEntry_gains fills eager tidy)).imp
      fun result middle drawn => ?_
    cases result with
    | error => simp
    | ok found =>
      cases found with
      | none => exact fun _ => ⟨by simpa using drawn.1, by simp⟩
      | some next =>
        obtain ⟨entry, rest⟩ := next
        obtain ⟨entryTidy, subset⟩ := drawn.2 _ rfl
        dsimp only
        rw [ends_bind]
        refine (ih fun line member => tidy line (subset member)).imp fun more after gained none => ?_
        obtain ⟨others, othersTidy⟩ := gained none
        exact ⟨by simpa using drawn.1.trans others, List.forall_mem_cons.mpr ⟨entryTidy, othersTidy⟩⟩

theorem ends_allEntries_gains (fills : feed.Fills) (eager : Bool)
    {lines : List Line} (tidy : ∀ line ∈ lines, line.Tidy) :
    Ends (allEntries feed ⟨none, eager⟩ lines) catalog
      (fun entries after => Gains catalog (entries.flatMap Entry.targets) after ∧
        ∀ entry ∈ entries, entry.Tidy)
      fun _ => True := by
  rw [allEntries, ends_bind]
  refine (ends_drawEntries_gains fills eager _ tidy).mono (fun found after drawn => ?_)
    fun _ ended => ended.elim
  obtain ⟨entries, error?⟩ := found
  cases error? with
  | none => exact drawn rfl
  | some => trivial

/-! ## Bodies -/

/-- A body keeps all slots of its entries and tidies its docs. -/
theorem Content.ofEntries_spec (entries : List Entry) (tidy : ∀ entry ∈ entries, entry.Tidy) :
    (Content.ofEntries entries).slots.map Slot.target = entries.flatMap Entry.targets ∧
      (∀ doc ∈ (Content.ofEntries entries).lead, Doc.Tidy doc) ∧
      ∀ doc ∈ (Content.ofEntries entries).tail, Doc.Tidy doc := by
  have fold (content : Content) (lead : ∀ doc ∈ content.lead, Doc.Tidy doc)
      (tail : ∀ doc ∈ content.tail, Doc.Tidy doc) :
      let result := entries.foldl Content.add content
      result.slots.map Slot.target =
          content.slots.map Slot.target ++ entries.flatMap Entry.targets ∧
        (∀ doc ∈ result.lead, Doc.Tidy doc) ∧ ∀ doc ∈ result.tail, Doc.Tidy doc := by
    induction entries generalizing content with
    | nil => exact ⟨by simp, lead, tail⟩
    | cons entry rest ih =>
      obtain ⟨entryTidy, restTidy⟩ := List.forall_mem_cons.mp tidy
      have step : (content.add entry).slots.map Slot.target =
            content.slots.map Slot.target ++ entry.targets ∧
          (∀ doc ∈ (content.add entry).lead, Doc.Tidy doc) ∧
          ∀ doc ∈ (content.add entry).tail, Doc.Tidy doc := by
        unfold Content.add
        split
        · rename_i same
          exact ⟨by simp [Entry.targets, same], lead, entryTidy⟩
        · rename_i slot same
          split
          · rename_i empty
            exact ⟨by simp [Entry.targets, same, List.isEmpty_iff.mp empty], entryTidy, tail⟩
          · refine ⟨?_, lead, tail⟩
            have target : (withProse entry.doc slot).target = slot.target := by cases slot <;> rfl
            simp [Entry.targets, same, target]
      obtain ⟨slots, leadTidy, tailTidy⟩ := step
      obtain ⟨more, others⟩ := ih restTidy (content.add entry) leadTidy tailTidy
      exact ⟨by simp [more, slots], others⟩
  exact fold ⟨none, [], none⟩ (by simp) (by simp)

theorem ends_recordOf_gains {slots : List Slot}
    (gains : Gains before (slots.map Slot.target) catalog) :
    Ends (itemOfBody.recordOf slots) catalog (fun item after => Gains before [item.target] after)
      fun _ => True := by
  rw [itemOfBody.recordOf, ends_bind, ends_ofExcept]
  cases named : namedFields "record" slots with
  | error => trivial
  | ok fields =>
    have filled : Ends (Edit.setFields fields) (.ofShape (.anonymous []))
        (fun _ after => (∀ field ∈ fields, field ∈ after.shape.sites) ∧
          (Definition.ofShape (.anonymous [])).Appended (fields.map .sited) after)
        fun _ => True :=
      ((Edit.ends_pushFields_own fields (.ofShape (.anonymous []))).and
        (ends_setFields fields)).mono (fun _ _ made => made) fun _ _ => trivial
    unfold Ends at filled
    dsimp only
    split
    · rename_i record made
      rw [made] at filled
      obtain ⟨own, shape, extra, rfl, _⟩ := filled
      rw [ends_bind]
      refine (ends_allocate_gains gains fun root member => ?_).mono (fun _ _ made => made.1)
        fun _ ended => ended.elim
      rw [← sited_of_namedFields named, List.map_map] at member
      obtain ⟨field, inside, rfl⟩ := List.mem_map.mp member
      exact Shape.target_mem_children_of_mem_sites (own field inside)
    · trivial

theorem ends_itemOfBody_gains {slots : List Slot}
    (gains : Gains before (slots.map Slot.target) catalog) :
    Ends (itemOfBody slots) catalog (fun item after => Gains before [item.target] after)
      fun _ => True := by
  unfold itemOfBody
  split
  · exact gains
  · exact ends_ite (fun _ => gains) fun _ => ends_recordOf_gains gains
  · exact ends_recordOf_gains gains

theorem ends_feedTarget_fills (grows : feed.Grows) (fills : feed.Fills)
    {id : TypeId} (held : catalog.Holds id) {body : List String}
    (tidy : ∀ line ∈ body, Text.Tidy line) :
    Ends (feedTarget feed id body) catalog
      (fun doc after => Gains catalog [id] after ∧ (doc.isSome = true →
        ∀ other, catalog.Holds other →
          (after.definition other).doc = (catalog.definition other).doc))
      fun _ => True := by
  -- What is left to do once the slots of the body are parts of the definition.
  have document {middle : Catalog} (gained : Gains catalog [id] middle)
      (same : ∀ other, catalog.Holds other →
        (middle.definition other).doc = (catalog.definition other).doc) (fresh : Bool)
      {doc : Option String} (docTidy : ∀ text ∈ doc, Doc.Tidy text) :
      Ends (if (fresh && doc.isSome) = true then do
          setDefinition id { (← get).definition id with doc }
          return none
        else return doc) middle
        (fun doc after => Gains catalog [id] after ∧ (doc.isSome = true →
          ∀ other, catalog.Holds other →
            (after.definition other).doc = (catalog.definition other).doc))
        fun _ => True := by
    refine ends_ite (fun _ => ?_) fun _ => ⟨gained, fun _ => same⟩
    exact ⟨gained.document id docTidy, fun some => by cases some⟩
  have append {middle : Catalog} {given : List Slot} {definition : Definition}
      (same : ∀ other, catalog.Holds other →
        (middle.definition other).doc = (catalog.definition other).doc)
      (appended : (middle.definition id).Appended given definition) (other : TypeId)
      (otherHeld : catalog.Holds other) :
      ((middle.put id definition).definition other).doc = (catalog.definition other).doc := by
    rw [definition_put]
    split
    · rename_i here
      rw [appended.doc, ← here.1]
      exact same other otherHeld
    · exact same other otherHeld
  simp only [feedTarget, ends_bind, ends_get]
  refine ((ends_allEntries grows catalog.underway_size _ _).and
    (ends_allEntries_gains fills _ (Outline.tidy_of_mem_ofLines tidy))).mono
      (fun entries middle read => ?_) fun _ _ => trivial
  obtain ⟨⟨grown, owned⟩, gained, entriesTidy⟩ := read
  obtain ⟨targets, leadTidy, tailTidy⟩ := Content.ofEntries_spec entries entriesTidy
  rw [← targets] at gained
  have docTidy : ∀ text ∈ Doc.join [(Content.ofEntries entries).lead,
      (Content.ofEntries entries).tail], Doc.Tidy text := fun text found =>
    Doc.tidy_of_join (by simpa [or_imp, forall_and, eq_comm] using And.intro leadTidy tailTidy)
      found
  have same : ∀ other, catalog.Holds other →
      (middle.definition other).doc = (catalog.definition other).doc := fun other old => by
    rw [grown.definition_eq (Nat.le_refl _) old]
  refine ends_ite (fun _ => ?_) fun _ => ends_ite (fun _ => ?_) fun empty => ?_
  · rw [ends_bind, ends_ofExcept]
    split
    · rename_i fields named
      rw [ends_bind, ends_edit]
      have pushed := (Edit.ends_pushFields fields (middle.definition id)).and
        (Edit.ends_pushFields_own fields (middle.definition id))
      unfold Ends at pushed
      split at pushed
      · rename_i edited
        simp only [edited]
        refine document (gained.append (grown.holds held) pushed.1 fun root member => ?_)
          (append same pushed.1) _ docTidy
        rw [← sited_of_namedFields named, List.map_map] at member
        obtain ⟨field, inside, rfl⟩ := List.mem_map.mp member
        exact Shape.target_mem_children_of_mem_sites (pushed.2 field inside)
      · rename_i edited
        simp only [edited]
    · trivial
  · rw [ends_bind]
    refine ((ends_itemOfBody grown.size_le (Content.forall_ofEntries entries owned)).and
      (ends_itemOfBody_gains gained)).mono (fun item further made => ?_) fun _ _ => trivial
    obtain ⟨⟨more, _⟩, whole⟩ := made
    rw [ends_bind, ends_edit]
    have filled := (Edit.ends_setInner item (further.definition id)).and
      (Edit.ends_setInner_own item (further.definition id))
    unfold Ends at filled
    split at filled
    · rename_i edited
      simp only [edited]
      have still : ∀ other, catalog.Holds other →
          (further.definition other).doc = (catalog.definition other).doc := fun other old => by
        rw [more.definition_eq grown.size_le old]
        exact same other old
      refine document (whole.append (more.holds (grown.holds held)) filled.1 ?_)
        (append still filled.1) _ docTidy
      exact List.cons_subset.mpr ⟨List.mem_map.mpr ⟨item, filled.2, rfl⟩, List.nil_subset _⟩
    · rename_i edited
      simp only [edited]
  · have none : (Content.ofEntries entries).slots = [] := by
      simpa [List.isEmpty_iff] using empty
    rw [none] at gained
    exact document (gained.mono (List.nil_subset _)) same _ docTidy

theorem reaches_bodyTarget? {depth : Nat} {id target : TypeId}
    (found : catalog.bodyTarget? depth id = some target) : catalog.Reaches id target := by
  induction depth generalizing id with
  | zero => cases found
  | succ depth ih =>
    rw [bodyTarget?] at found
    split at found
    · rename_i item same
      split at found
      · refine .head (b := item.target) ?_ (ih found)
        simp [HasChild, same, Shape.children, Shape.slots]
      · cases found
    · split at found
      · cases found
        exact .refl
      · cases found

theorem fills_feedWithin (depth : Nat) : (feedWithin depth).Fills := by
  induction depth with
  | zero => exact fun _ _ _ _ _ _ _ => ⟨.refl _, fun _ _ _ => rfl⟩
  | succ depth ih =>
    intro base catalog id body reading own tidy
    rw [feedWithin, feedBody]
    refine ends_ite (fun _ => ⟨.refl _, fun _ _ _ => rfl⟩) fun _ => ?_
    rw [ends_bind, ends_get]
    split
    · exact ⟨.refl _, fun _ _ _ => rfl⟩
    · rename_i target found
      have held := (holdsFrom_bodyTarget? reading.closed own found).2
      refine (ends_feedTarget_fills (grows_feedWithin depth) ih held tidy).imp
        fun doc after filled => ⟨filled.1.of_reaches fun root member => ?_, filled.2⟩
      rw [List.mem_singleton.mp member]
      exact ⟨id, List.mem_cons_self, filled.1.reaches (reaches_bodyTarget? found)⟩

end Catalog

end DocShapes
