import DocShapes.Proofs.Occurrences

/-! # Every line of a block goes to one doc

The prose of a block goes to the docs of its entries, of the sites that its headers declare, and of
the definitions that come into being. `Conserves` keeps the account of a step: what it adds to the
catalog and what it gives is what it has read. The account of a body is an assumption about the
feed (`Feed.Accounts`) until the end, where the feed is the one that the parser uses.
-/

namespace DocShapes.Catalog

open Outline (Line)

variable {catalog before middle after : Catalog} {base depth : Nat} {feed : Feed}

/-! ## Accounts -/

/-- From lines of prose, one catalog becomes the other one and some lines are given back: no line
is lost on the way, and none doubled. -/
structure Conserves (before : Catalog) (prose given : List String) (after : Catalog) : Prop where
  steady : before.Steady after
  count : ∀ line, after.docLines.count line + given.count line =
    before.docLines.count line + prose.count line

theorem Conserves.refl (catalog : Catalog) (prose : List String) :
    catalog.Conserves prose prose catalog := ⟨.refl catalog, fun _ => rfl⟩

theorem Conserves.trans {prose given more further : List String}
    (first : before.Conserves prose given middle) (second : middle.Conserves more further after) :
    before.Conserves (prose ++ more) (given ++ further) after where
  steady := first.steady.trans second.steady
  count line := by
    have left := first.count line
    have right := second.count line
    simp only [List.count_append]
    omega

theorem Conserves.congr {prose given others rest : List String}
    (conserves : before.Conserves prose given after)
    (same : ∀ line, others.count line + given.count line = prose.count line + rest.count line) :
    before.Conserves others rest after where
  steady := conserves.steady
  count line := by
    have account := conserves.count line
    have here := same line
    omega

/-- A definition gets further lines. -/
theorem Conserves.put {prose given rest : List String} {id : TypeId} {definition : Definition}
    (conserves : before.Conserves prose given after) (held : after.Holds id)
    (base : definition.shape.base = (after.shape id).base)
    (moved : ∀ line, definition.docLines.count line + rest.count line =
      (after.definition id).docLines.count line + given.count line) :
    before.Conserves prose rest (after.put id definition) where
  steady := conserves.steady.trans (steady_put base)
  count line := by
    have account := conserves.count line
    have exchange := count_docLines_put held definition line
    have here := moved line
    omega

/-! ## Specs -/

/-- The types of a spec come into being without docs. -/
theorem ends_elaborate_accounts (consistent : catalog.Consistent) {spec : Spec}
    (canonical : spec.Canonical catalog.aliases) :
    Ends (elaborate spec) catalog
      (fun id after => catalog.Conserves [] [] after ∧ after.Consistent ∧
        Growth catalog.arena.size catalog after ∧ after.HoldsFrom catalog.arena.size id ∧
        after.Represents spec id)
      fun _ => False := by
  refine (((ends_elaborate spec (Nat.le_refl _) canonical).and
    ((elaborates spec).ends consistent canonical)).and (ends_elaborate_silent spec)).mono ?_
      fun _ ended => ended.1.1
  rintro id after ⟨⟨⟨growth, held⟩, sound, keeps, represents⟩, same⟩
  exact ⟨⟨keeps.steady growth.untouched.marker, fun _ => by rw [same]⟩, sound, growth, held,
    represents⟩

/-- A text that is rejected ends the step. -/
theorem ends_accept_error {α : Type} (rejection : Spec.Rejection) :
    Ends (accept (.error rejection : Spec.Reading α)) catalog (fun _ _ => False) fun _ => True := by
  simp only [accept, ends_bind, ends_throw]
  exact (ends_elaborateEach_silent rejection.completed).mono (fun _ _ _ => trivial)
    fun _ _ => trivial

/-! ## Declarations -/

/-- A body has been fed into a type, and a doc is left for the slot: the prose has gone to docs or
is in the doc, and whatever slot leads to the type has been declared. -/
structure Fed (before : Catalog) (body : Layout) (id : TypeId) (doc : Option String)
    (after : Catalog) : Prop where
  conserves : before.Conserves body.documentation (Doc.visible doc) after
  own : after.OwnProse body id (Doc.visible doc)
  declares : ∀ text name (slot : Slot), slot.target = id → slot.toSite.name = name →
    after.Declares (.header text name body .done) [slot]

/-- A feed keeps account of bodies of at most `depth` levels: a body goes to the definition of a
spec as the layout of the spec says. -/
def Feed.Accounts (depth : Nat) (feed : Feed) : Prop :=
  ∀ base catalog spec id body, catalog.Consistent → catalog.Underway base →
    catalog.HoldsFrom base id → catalog.Represents spec id → (∀ line ∈ body, Text.Tidy line) →
      Ends (feed id body) catalog
        (catalog.Fed (bodyLayout (catalog.layoutWithin depth) (catalog.intake? spec) body) id)
        fun _ => True

/-- A header with the layout of its body has declared the slot. -/
structure Accounted (before : Catalog) (text : String) (name : Option String) (body : Layout)
    (slot : Slot) (after : Catalog) : Prop where
  conserves : before.Conserves body.documentation slot.docLines after
  own : after.OwnProse body slot.target slot.docLines
  declares : after.Declares (.header text name body .done) [slot]

/-- A slot with the doc that is left for it. -/
theorem Fed.accounted {body : Layout} {id : TypeId} {doc : Option String}
    (fed : middle.Fed body id doc after) (silent : before.Conserves [] [] middle) (text : String)
    {name : Option String} {slot : Slot} (target : slot.target = id)
    (named : slot.toSite.name = name) (lines : slot.docLines = Doc.visible doc) :
    before.Accounted text name body slot after where
  conserves := lines ▸ silent.trans fed.conserves
  own := target ▸ lines ▸ fed.own
  declares := fed.declares text name slot target named

theorem ends_declare_accounts (accounts : feed.Accounts depth) (consistent : catalog.Consistent)
    (text name spec : String) {body : List String} (tidy : ∀ line ∈ body, Text.Tidy line) :
    Ends (declare feed name spec body) catalog
      (fun slot after => catalog.Accounted text (some name)
        (bodyLayout (catalog.layoutWithin depth)
          (match Spec.readDeclaration catalog.words spec with
            | .ok (spec, _) => catalog.intake? spec
            | .error _ => none) body) slot after)
      fun _ => True := by
  simp only [declare]
  refine ends_ite (fun _ => trivial) fun _ => ?_
  have reads := Spec.reads_readDeclaration catalog.words spec
  simp only [parseDeclaration, ends_bind, ends_get]
  cases read : Spec.readDeclaration catalog.words spec with
  | error rejection =>
    exact (ends_accept_error rejection).mono (fun _ _ ended => ended.elim) fun _ _ => trivial
  | ok found =>
    obtain ⟨spec, qualifiers⟩ := found
    rw [read] at reads
    simp only [accept, ends_pure]
    refine (ends_elaborate_accounts consistent reads.1).mono ?_ fun _ ended => ended.elim
    rintro id middle ⟨silent, sound, growth, held, represents⟩
    refine (accounts _ middle spec id body sound (growth.underway catalog.underway_size) held
      represents tidy).imp fun doc after fed => ?_
    rw [silent.steady.layoutWithin_eq, silent.steady.intake?_eq] at fed
    exact fed.accounted silent text rfl rfl rfl

theorem ends_declareAlone_accounts (accounts : feed.Accounts depth)
    (consistent : catalog.Consistent) (text : String) {body : List String}
    (tidy : ∀ line ∈ body, Text.Tidy line) :
    Ends (declareAlone feed text body) catalog
      (fun slot after => catalog.Accounted text none
        (bodyLayout (catalog.layoutWithin depth)
          (match Spec.read catalog.words text with
            | .ok spec => catalog.intake? spec
            | .error _ => none) body) slot after)
      fun _ => True := by
  have reads := Spec.reads_read catalog.words text
  simp only [declareAlone, parseType, ends_bind, ends_get]
  cases read : Spec.read catalog.words text with
  | error rejection =>
    exact (ends_accept_error rejection).mono (fun _ _ ended => ended.elim) fun _ _ => trivial
  | ok spec =>
    rw [read] at reads
    simp only [accept, ends_pure]
    refine (ends_elaborate_accounts consistent reads).mono ?_ fun _ ended => ended.elim
    rintro id middle ⟨silent, sound, growth, held, represents⟩
    refine (accounts _ middle spec id body sound (growth.underway catalog.underway_size) held
      represents tidy).imp fun doc after fed => ?_
    rw [silent.steady.layoutWithin_eq, silent.steady.intake?_eq] at fed
    cases doc with
    | none => exact fed.accounted silent text rfl rfl rfl
    | some doc => exact fed.accounted silent text rfl rfl (Doc.visible_nonBlank doc)

theorem ends_declaration?_accounts (accounts : feed.Accounts depth)
    (consistent : catalog.Consistent) (mode : Mode) {line : Line} (tidy : line.Tidy) :
    Ends (declaration? feed mode line) catalog
      (fun slot? after =>
        match catalog.heading? mode.eager line with
        | none => slot? = none ∧ after = catalog
        | some heading => ∃ slot, slot? = some slot ∧
            catalog.Accounted line.text heading.name
              (bodyLayout (catalog.layoutWithin depth) heading.intake? line.body) slot after)
      fun _ => True := by
  unfold declaration? heading?
  cases line.declaration with
  | some declared =>
    simp only [ends_map]
    exact (ends_declare_accounts accounts consistent line.text _ _ tidy.body).imp
      fun slot _ declared => ⟨slot, rfl, declared⟩
  | none =>
    have alone : catalog.isStandalone ⟨none, mode.eager⟩ line = catalog.isStandalone mode line := rfl
    simp only [ends_bind, ends_get, alone]
    cases catalog.isStandalone mode line with
    | true =>
      simp only [if_true, ends_map]
      exact (ends_declareAlone_accounts accounts consistent line.text tidy.body).imp
        fun slot _ declared => ⟨slot, rfl, declared⟩
    | false => exact ⟨rfl, rfl⟩

/-! ## Entries -/

/-- The layout of lines that stand in a block of at most `depth` levels below it. -/
def blockLayout (catalog : Catalog) (depth : Nat) (eager : Bool) (lines : List Line) : Layout :=
  catalog.linesLayout (catalog.layoutWithin depth) eager lines

theorem Steady.blockLayout_eq (steady : before.Steady after) (depth : Nat) (eager : Bool)
    (lines : List Line) : after.blockLayout depth eager lines = before.blockLayout depth eager lines := by
  rw [blockLayout, steady.layoutWithin_eq, steady.linesLayout_eq, ← blockLayout]

/-- The lines of the docs of an entry. -/
def Entry.docLines (entry : Entry) : List String :=
  Doc.visible entry.doc ++ entry.slot.toList.flatMap Slot.docLines

/-- The lines in front of the slot of an entry. -/
def Entry.front? (entry : Entry) : Option (List String) :=
  entry.slot.map fun _ => Doc.visible entry.doc

/-- The lines of an entry without a slot. -/
def Entry.tail (entry : Entry) : List String :=
  if entry.slot.isSome then [] else Doc.visible entry.doc

/-- The doc of the slot, with that of the type which takes the body, is the prose that the body has
for the type. -/
def OwnDoc (catalog : Catalog) (body : Layout) (slot : Slot) : Prop :=
  catalog.OwnProse body slot.target slot.docLines

/-- Entries have been drawn from a layout, and the rest of it is left. What they declare goes on to
hold in all later catalogs. -/
structure Drawn (before : Catalog) (layout : Layout) (entries : List Entry) (rest : Layout)
    (after : Catalog) : Prop where
  growth : Growth before.arena.size before after
  conserves : before.Conserves layout.documentation
    (entries.flatMap Entry.docLines ++ rest.documentation) after
  fronts : layout.fronts = entries.filterMap Entry.front? ++ rest.fronts
  tail : layout.tail = entries.flatMap Entry.tail ++ rest.tail
  bodies : ∀ (final : Catalog) slots,
    (∀ id, after.Holds id → final.definition id = after.definition id) →
    List.Forall₂ final.OwnDoc rest.bodies slots →
    List.Forall₂ final.OwnDoc layout.bodies (entries.filterMap Entry.slot ++ slots)
  declares : ∀ (final : Catalog) slots, (∀ id, after.Holds id → final.shape id = after.shape id) →
    final.Declares rest slots → final.Declares layout (entries.filterMap Entry.slot ++ slots)

theorem Drawn.refl (catalog : Catalog) (layout : Layout) :
    catalog.Drawn layout [] layout catalog where
  growth := .refl
  conserves := .refl catalog _
  fronts := rfl
  tail := rfl
  bodies _ _ _ own := own
  declares _ _ _ declares := declares

theorem Growth.shape_eq (growth : Growth before.arena.size before after) {id : TypeId}
    (held : before.Holds id) : after.shape id = before.shape id := by
  rw [Catalog.shape, growth.definition_eq (Nat.le_refl _) held, ← Catalog.shape]

theorem Drawn.trans {layout rest further : Layout} {entries others : List Entry}
    (first : before.Drawn layout entries rest middle)
    (second : middle.Drawn rest others further after) :
    before.Drawn layout (entries ++ others) further after where
  growth := first.growth.trans (second.growth.mono first.growth.size_le)
  conserves := (first.conserves.trans second.conserves).congr fun line => by
    simp only [List.count_append, List.flatMap_append]
    omega
  fronts := by rw [first.fronts, second.fronts, List.filterMap_append, List.append_assoc]
  tail := by rw [first.tail, second.tail, List.flatMap_append, List.append_assoc]
  bodies final slots same own := by
    rw [List.filterMap_append, List.append_assoc]
    refine first.bodies final _ (fun id held => ?_) (second.bodies final slots same own)
    rw [same id (second.growth.holds held),
      second.growth.definition_eq (Nat.le_refl _) held]
  declares final slots same declares := by
    rw [List.filterMap_append, List.append_assoc]
    refine first.declares final _ (fun id held => ?_) (second.declares final slots same declares)
    rw [same id (second.growth.holds held), second.growth.shape_eq held]

/-- The entries tell what the layout does: each header has declared a slot, the prose in front of it
is the doc of the entry, and the prose of its body goes to the slot and to its type. -/
structure Tells (catalog : Catalog) (layout : Layout) (entries : List Entry) : Prop where
  declares : catalog.Declares layout (entries.filterMap Entry.slot)
  fronts : entries.filterMap Entry.front? = layout.fronts
  bodies : List.Forall₂ catalog.OwnDoc layout.bodies (entries.filterMap Entry.slot)

theorem Drawn.tells {layout : Layout} {entries : List Entry}
    (drawn : before.Drawn layout entries .done after) : after.Tells layout entries where
  declares := by
    have declared := drawn.declares after [] (fun _ _ => rfl) .done
    rwa [List.append_nil] at declared
  fronts := by
    rw [drawn.fronts, Layout.fronts, List.append_nil]
  bodies := by
    have own := drawn.bodies after [] (fun _ _ => rfl) .nil
    rwa [List.append_nil] at own

/-- Lines of prose in front of the layout go to the doc of an entry without a slot. -/
theorem drawn_prose {prose : List String} {doc : String} (same : Doc.visible (some doc) = prose) :
    catalog.Drawn (.behind prose .done) [{ doc := some doc, slot := none }] .done catalog where
  growth := .refl
  conserves := by
    rw [Layout.documentation_behind, ← same]
    simpa [Entry.docLines, Layout.documentation] using Conserves.refl catalog _
  fronts := Layout.fronts_behind prose .done
  tail := by
    rw [Layout.tail_behind, ← same]
    simp [Layout.fronts, Entry.tail]
  bodies _ _ _ own := by
    rw [Layout.bodies_behind]
    exact own
  declares _ _ _ declares := (declares_behind_iff prose).mpr declares

/-- A header with the prose in front of it is an entry. -/
theorem Accounted.drawn {text : String} {name : Option String} {layout rest : Layout} {slot : Slot}
    {prose : List String} {doc : Option String}
    (declared : before.Accounted text name layout slot after)
    (growth : Growth before.arena.size before after) (consistent : after.Consistent)
    (held : after.Holds slot.target) (same : Doc.visible doc = prose) :
    before.Drawn (.behind prose (.header text name layout rest)) [{ doc, slot := some slot }] rest
      after where
  growth := growth
  conserves := declared.conserves.congr fun line => by
    rw [Layout.documentation_behind, Layout.documentation, ← same]
    simp only [Entry.docLines, List.count_append, List.flatMap_cons, List.flatMap_nil,
      Option.toList_some, List.append_nil]
    omega
  fronts := by
    rw [Layout.fronts_behind, Layout.fronts, ← same]
    simp [Entry.front?]
  tail := by
    rw [Layout.tail_behind, Layout.fronts, Layout.tail]
    simp [Entry.tail]
  bodies final slots same own := by
    rw [Layout.bodies_behind]
    obtain ⟨target, innermost, lines⟩ := declared.own
    have shapes (id : TypeId) (held : after.Holds id) : final.shape id = after.shape id :=
      congrArg Definition.shape (same id held)
    obtain ⟨innermost, heldTarget⟩ := innermost.kept consistent.linked shapes held
    exact .cons ⟨target, innermost, by rw [same target heldTarget, lines]⟩ own
  declares final slots same declares :=
    (declares_behind_iff prose).mpr ((declared.declares.kept consistent.linked same
      (by simpa using held)).cons declares)

/-- Staging changes neither definitions nor what names mean. -/
theorem ends_stage_steady (channel : Channel) (slot : Slot) :
    Ends (stage channel slot) catalog
      (fun found after => found.toSite = slot.toSite ∧ after.arena = catalog.arena ∧
        catalog.Steady after) fun _ => False := by
  simp only [stage, ends_bind, ends_get, ends_pure]
  refine (ends_forM (fun after => after.arena = catalog.arena ∧ catalog.Steady after) _ _ _
    (fun id _ middle kept => ?_) catalog ⟨rfl, .refl catalog⟩).imp fun _ after kept => ⟨?_, kept⟩
  · exact ⟨kept.1, kept.2.trans (steady_enlist ⟨id, channel⟩)⟩
  · cases slot with
    | bare id =>
      rw [stagedSlot]
      split <;> rfl
    | sited => rfl

/-- A declared slot that is staged is declared still. -/
theorem Accounted.staged {text : String} {name : Option String} {layout : Layout}
    {slot found : Slot} (declared : before.Accounted text name layout slot middle)
    (same : found.toSite = slot.toSite) (arena : after.arena = middle.arena)
    (steady : middle.Steady after) : before.Accounted text name layout found after where
  conserves := by
    refine ⟨declared.conserves.steady.trans steady, fun line => ?_⟩
    rw [docLines_of_arena arena, Slot.docLines, same, ← Slot.docLines]
    exact declared.conserves.count line
  own := by
    obtain ⟨target, innermost, lines⟩ := declared.own
    have innermost := innermost.of_arena arena
    refine ⟨target, ?_, ?_⟩
    · rwa [← found.target_toSite, same, slot.target_toSite]
    · rw [Slot.docLines, same, ← Slot.docLines, Catalog.definition, arena, ← Catalog.definition]
      exact lines
  declares := by
    have target : found.target = slot.target := by
      rw [← found.target_toSite, same, slot.target_toSite]
    exact (declared.declares.of_arena arena).congr (.cons ⟨target, by rw [same]⟩ .nil)

theorem visible_proseLines (line : Line) : Text.visible (proseLines line) = Text.visible line.own := by
  refine Text.visible_congr ?_
  rw [proseLines, Line.own, List.map_cons, List.map_cons, List.map_map]
  refine congrArg _ (List.map_congr_left fun text _ => ?_)
  simp only [Function.comp]
  split
  · rfl
  · have gap : ∀ c ∈ "    ".toList, Text.isBlank c = true :=
      List.all_eq_true.mp (by decide)
    rw [Text.trimmed, String.toList_append, Text.trim_append_of_blank gap, ← Text.trimmed]

/-- The next entry of lines, with prose in front of them, takes its part of the layout. Only the
last entry has no slot. -/
def NextDrawn (before : Catalog) (depth : Nat) (eager : Bool) (prose : List String)
    (lines : List Line) : Option (Entry × List Line) → Catalog → Prop
  | none, after => before.Drawn
      (.behind (Text.visible prose) (before.blockLayout depth eager lines)) [] .done after
  | some (entry, rest), after => before.Drawn
        (.behind (Text.visible prose) (before.blockLayout depth eager lines)) [entry]
        (before.blockLayout depth eager rest) after ∧
      rest <:+ lines ∧ (prose = [] → rest.length < lines.length) ∧ (entry.slot = none → rest = [])

/-- A line that is read as prose. -/
theorem NextDrawn.cons {eager : Bool} {prose more : List String} {line : Line} {rest : List Line}
    {found : Option (Entry × List Line)}
    (drawn : before.NextDrawn depth eager more rest found after)
    (same : Layout.behind (Text.visible prose) (before.blockLayout depth eager (line :: rest)) =
      .behind (Text.visible more) (before.blockLayout depth eager rest)) :
    before.NextDrawn depth eager prose (line :: rest) found after := by
  cases found with
  | none =>
    rw [NextDrawn, same]
    exact drawn
  | some next =>
    obtain ⟨drawn, suffix, _, last⟩ := drawn
    rw [NextDrawn, same]
    exact ⟨drawn, suffix.trans (List.suffix_cons line rest),
      fun _ => Nat.lt_succ_of_le suffix.length_le, last⟩

theorem blockLayout_cons_prose {eager : Bool} {line : Line}
    (plain : line.isBlank = true ∨ catalog.heading? eager line = none) (rest : List Line) :
    catalog.blockLayout depth eager (line :: rest) =
      .behind (Text.visible line.own) (catalog.blockLayout depth eager rest) := by
  rw [blockLayout, linesLayout]
  have none : (if line.isBlank then none else catalog.heading? eager line) = none := by
    split
    · rfl
    · exact plain.resolve_left ‹_›
  rw [none]
  rfl

theorem blockLayout_cons_header {eager : Bool} {line : Line} {heading : Heading}
    (shown : ¬line.isBlank = true) (found : catalog.heading? eager line = some heading)
    (rest : List Line) : catalog.blockLayout depth eager (line :: rest) =
      .header line.text heading.name
        (bodyLayout (catalog.layoutWithin depth) heading.intake? line.body)
        (catalog.blockLayout depth eager rest) := by
  rw [blockLayout, linesLayout, if_neg shown, found]
  rfl

/-- Prose at the end of a block is the last entry. -/
theorem nextDrawn_end {eager : Bool} {prose : List String}
    (tidy : ∀ line ∈ prose, Text.Tidy line) :
    catalog.NextDrawn depth eager prose []
      ((Doc.ofLines prose).map fun doc => ({ doc := some doc, slot := none }, [])) catalog := by
  have said := Doc.visible_ofLines tidy
  cases found : Doc.ofLines prose with
  | none =>
    rw [found] at said
    rw [Option.map_none, NextDrawn, ← said]
    exact .refl _ _
  | some doc =>
    rw [found] at said
    refine ⟨drawn_prose said, List.suffix_rfl, fun empty => ?_, fun _ => rfl⟩
    rw [empty] at found
    cases found

/-- A header with the prose in front of it is the next entry. -/
theorem Accounted.nextDrawn {eager : Bool} {prose : List String} {line : Line} {heading : Heading}
    {slot : Slot} (declared : before.Accounted line.text heading.name
      (bodyLayout (before.layoutWithin depth) heading.intake? line.body) slot after)
    (shown : ¬line.isBlank = true) (found : before.heading? eager line = some heading)
    (tidy : ∀ line ∈ prose, Text.Tidy line) (growth : Growth before.arena.size before after)
    (consistent : before.Consistent) (held : after.Holds slot.target) (rest : List Line) :
    before.NextDrawn depth eager prose (line :: rest)
      (some ({ doc := Doc.ofLines prose, slot := some slot }, rest)) after := by
  refine ⟨?_, List.suffix_cons line rest, fun _ => Nat.lt_succ_self _, by simp⟩
  rw [blockLayout_cons_header shown found]
  exact declared.drawn growth (growth.consistent consistent) held (Doc.visible_ofLines tidy)

/-- The lines of prose so far, with the empty line that stands for a blank one. -/
theorem prose_of_blank (prose : List String) :
    Text.visible (if prose.isEmpty then [] else prose ++ [""]) = Text.visible prose ∧
      ((∀ line ∈ prose, Text.Tidy line) →
        ∀ line ∈ if prose.isEmpty then [] else prose ++ [""], Text.Tidy line) := by
  split
  · rename_i empty
    rw [List.isEmpty_iff.mp empty]
    exact ⟨rfl, by simp⟩
  · rw [Text.visible_append, @Text.visible_of_blank [""] (by decide), List.append_nil]
    exact ⟨rfl, fun tidy =>
      List.forall_mem_append.mpr ⟨tidy, by simpa using Text.tidy_empty⟩⟩

theorem ends_nextEntry_accounts (grows : feed.Grows) (accounts : feed.Accounts depth)
    (consistent : catalog.Consistent) (mode : Mode) {prose : List String} {lines : List Line}
    (proseTidy : ∀ line ∈ prose, Text.Tidy line) (tidy : ∀ line ∈ lines, line.Tidy)
    (cut : ∀ line ∈ lines, line.Cut) :
    Ends (nextEntry feed mode prose lines) catalog
      (catalog.NextDrawn depth mode.eager prose lines) fun _ => True := by
  induction lines generalizing prose with
  | nil => exact nextDrawn_end proseTidy
  | cons line rest ih =>
    obtain ⟨lineTidy, restTidy⟩ := List.forall_mem_cons.mp tidy
    obtain ⟨lineCut, restCut⟩ := List.forall_mem_cons.mp cut
    rw [nextEntry]
    refine ends_ite (fun blank => ?_) fun shown => ?_
    · -- A blank line says nothing.
      obtain ⟨silent, blankTidy⟩ := prose_of_blank prose
      refine (ih (blankTidy proseTidy) restTidy restCut).imp fun found after drawn => drawn.cons ?_
      rw [blockLayout_cons_prose (.inl blank), lineCut.visible_own blank, silent]
      rfl
    · rw [ends_bind]
      refine ((ends_declaration?_accounts accounts consistent mode lineTidy).and
        (ends_declaration? grows catalog.underway_size mode line)).mono
          (fun slot? middle declared => ?_) fun _ _ => trivial
      obtain ⟨declared, growth, held⟩ := declared
      split at declared
      · rename_i plain
        obtain ⟨rfl, rfl⟩ := declared
        refine (ih ?_ restTidy restCut).imp fun found after drawn => drawn.cons ?_
        · exact List.forall_mem_append.mpr ⟨proseTidy, tidy_of_mem_proseLines lineTidy⟩
        · rw [blockLayout_cons_prose (.inr plain), Text.visible_append, visible_proseLines,
            Layout.behind_append]
      · rename_i heading found
        obtain ⟨slot, rfl, declared⟩ := declared
        have own := held slot rfl
        cases mode.channel with
        | none => exact declared.nextDrawn shown found proseTidy growth consistent own.2 rest
        | some channel =>
          simp only [ends_bind, ends_pure]
          refine ((ends_stage (growth.underway catalog.underway_size) channel own).and
            (ends_stage_steady channel slot)).mono ?_ fun _ ended => ended.1.elim
          rintro staged after ⟨⟨more, own⟩, same, arena, steady⟩
          exact (declared.staged same arena steady).nextDrawn shown found proseTidy
            (growth.trans more) consistent own.2 rest

/-- Entries of which only the last one has no slot. -/
def Ordered (entries : List Entry) : Prop :=
  entries.Pairwise fun entry _ => entry.slot.isSome = true

/-- Entries that are enough for all lines leave nothing of their layout. -/
theorem ends_drawEntries_accounts (grows : feed.Grows) (accounts : feed.Accounts depth)
    (consistent : catalog.Consistent) (mode : Mode) {count : Nat} {lines : List Line}
    (enough : lines.length < count) (tidy : ∀ line ∈ lines, line.Tidy)
    (cut : ∀ line ∈ lines, line.Cut) :
    Ends (drawEntries feed mode count lines) catalog
      (fun found after => found.2 = none →
        catalog.Drawn (catalog.blockLayout depth mode.eager lines) found.1 .done after ∧
          Ordered found.1 ∧ (lines = [] → found.1 = []))
      fun _ => False := by
  induction count generalizing catalog lines with
  | zero => omega
  | succ count ih =>
    rw [drawEntries_succ, ends_bind]
    refine (ends_attempt (ends_nextEntry_accounts grows accounts consistent mode (by simp) tidy
      cut)).imp fun result middle drawn => ?_
    cases result with
    | error => simp
    | ok found =>
      cases found with
      | none => exact fun _ => ⟨drawn, .nil, fun _ => rfl⟩
      | some next =>
        obtain ⟨entry, rest⟩ := next
        obtain ⟨first, suffix, shorter, last⟩ := drawn
        have shorter := shorter rfl
        have inside := suffix.subset
        dsimp only
        rw [ends_bind]
        refine (ih (first.growth.consistent consistent) (by omega)
          (fun line member => tidy line (inside member))
          fun line member => cut line (inside member)).imp fun more after drawn none => ?_
        obtain ⟨others, ordered, ended⟩ := drawn none
        rw [first.conserves.steady.blockLayout_eq] at others
        refine ⟨first.trans others, .cons (fun other member => ?_) ordered, fun empty => ?_⟩
        · -- Behind an entry without a slot there is nothing to draw.
          by_contra bare
          have done := ended (last (by simpa using bare))
          rw [done] at member
          cases member
        · rw [empty] at shorter
          cases shorter

theorem ends_allEntries_accounts (grows : feed.Grows) (accounts : feed.Accounts depth)
    (consistent : catalog.Consistent) (mode : Mode) {lines : List Line}
    (tidy : ∀ line ∈ lines, line.Tidy) (cut : ∀ line ∈ lines, line.Cut) :
    Ends (allEntries feed mode lines) catalog
      (fun entries after =>
        catalog.Drawn (catalog.blockLayout depth mode.eager lines) entries .done after ∧
          Ordered entries)
      fun _ => True := by
  rw [allEntries, ends_bind]
  refine (ends_drawEntries_accounts grows accounts consistent mode (Nat.lt_succ_self _) tidy
    cut).mono (fun found after drawn => ?_) fun _ ended => ended.elim
  obtain ⟨entries, error?⟩ := found
  cases error? with
  | none => exact ⟨(drawn rfl).1, (drawn rfl).2.1⟩
  | some => trivial

end DocShapes.Catalog
