import DocShapes.Proofs.Bodies
import DocShapes.Proofs.Margins

/-! # Prose that is read again

A block without declarations gives its prose as one doc. In the doc every header stands at the
margin and every body four columns behind it, so that the doc has the outline of the block, up to
blank lines at the ends. Read as a block again it gives the same doc (`prose_stable`).
-/

namespace DocShapes

/-! ## Blank ends -/

namespace Doc

open Text (blank)

/-- Blank lines are dropped at the end, and nothing in front of them. -/
theorem dropBlankEnd_of_append {kept gap : List String}
    (last : ∀ line ∈ kept.getLast?, blank line = false) (silent : ∀ line ∈ gap, blank line = true) :
    dropBlankEnd (kept ++ gap) = kept := by
  induction kept with
  | nil =>
    induction gap with
    | nil => rfl
    | cons line rest ih =>
      obtain ⟨here, others⟩ := List.forall_mem_cons.mp silent
      rw [List.nil_append] at ih ⊢
      rw [dropBlankEnd, ih others]
      exact if_pos here
  | cons line rest ih =>
    rw [List.cons_append, dropBlankEnd]
    cases rest with
    | nil =>
      rw [ih (by simp)]
      exact if_neg (by simp [last line rfl])
    | cons second more => rw [ih (by simpa using last)]

/-- Lines without blank ends make a doc, whatever blank lines are behind them. -/
theorem Trimmed.ofLines_append {lines gap : List String} (trimmed : Trimmed lines)
    (silent : ∀ line ∈ gap, blank line = true) :
    ofLines (lines ++ gap) = if lines = [] then none else some (Text.unlines lines) := by
  rw [ofLines, dropBlankStart]
  cases lines with
  | nil =>
    rw [List.nil_append, List.dropWhile_eq_nil_iff.mpr silent]
    rfl
  | cons line rest =>
    have visible : ¬blank line = true := by simp [trimmed.first line rfl]
    rw [List.cons_append, List.dropWhile_cons_of_neg visible, ← List.cons_append,
      dropBlankEnd_of_append trimmed.last silent]
    rfl

end Doc

/-! ## Lines of an outline -/

namespace Outline

open Text (blank trimmed)

/-- What every line of an outline of tidy lines is like. -/
structure Line.Sound (line : Line) : Prop where
  tidy : line.Tidy
  trimmed : trimmed line.text = line.text
  declaration : line.declaration = classify line.text
  empty : line.isBlank = true → line.body = []
  last : ∀ last ∈ line.body.getLast?, blank last = false
  margin : margin line.body = 0

/-- Lines that have lost their margin have none. -/
theorem margin_dedent (lines : List String) : margin (dedent lines) = 0 := by
  by_cases shows : ∃ line ∈ lines, blank line = false
  · obtain ⟨line, member, shown⟩ := shows
    obtain ⟨⟨first, inside, shownFirst, least⟩, _⟩ := (margin_eq_iff member shown).mp rfl
    have within : dedentLine (margin lines) first ∈ dedent lines := List.mem_map_of_mem inside
    have shownWithin := (blank_dedentLine (margin lines) first).trans shownFirst
    have loses : indent (dedentLine (margin lines) first) + margin lines ≤ indent first := by
      rw [indent_dedentLine shownFirst]
      exact (indentOf_dropColumns (margin_le inside shownFirst)).1
    exact Nat.le_zero.mp ((margin_le within shownWithin).trans (by omega))
  · have silent : ∀ line ∈ lines, blank line = true := by simpa using shows
    have nothing : (dedent lines).filter (fun line => !blank line) = [] := by
      simpa [dedent, blank_dedentLine] using silent
    rw [margin, nothing]
    rfl

theorem dedent_of_margin {lines : List String} (tidy : ∀ line ∈ lines, Text.Tidy line)
    (flush : margin lines = 0) : dedent lines = lines := by
  rw [dedent, flush]
  conv_rhs => rw [← List.map_id lines]
  refine List.map_congr_left fun line member => ?_
  cases shown : blank line with
  | true => rw [dedentLine_of_blank shown, id, (tidy line member).eq_empty shown]
  | false =>
    rw [← String.toList_inj, toList_dedentLine shown, dropColumns_zero,
      (tidy line member).stripped, id]

theorem getLast?_dedent {lines : List String} (last : ∀ last ∈ lines.getLast?, blank last = false) :
    ∀ last ∈ (dedent lines).getLast?, blank last = false := by
  intro line member
  rw [dedent, List.getLast?_map, Option.mem_def, Option.map_eq_some_iff] at member
  obtain ⟨own, ended, rfl⟩ := member
  rw [blank_dedentLine, last own ended]

theorem Divided.forall_shown {before : List String} {parts : List Part} {outline : List Line}
    (divided : Divided before parts outline) {line : Line} (member : line ∈ outline) :
    ∃ part before behind, Part.Shown part before behind line := by
  induction divided with
  | nil => cases member
  | cons shown _ ih =>
    rcases List.mem_cons.mp member with rfl | later
    · exact ⟨_, _, _, shown⟩
    · exact ih later

/-- What a line shows without regard to the lines around it. -/
def Line.face (line : Line) : String × List String := (line.text, line.body)

theorem Line.isBlank_iff {line : Line} : line.isBlank = true ↔ line.text = "" := by
  rw [Line.isBlank, String.isEmpty_iff]

theorem sound_of_mem_ofLines {lines : List String} (tidy : ∀ line ∈ lines, Text.Tidy line) :
    ∀ line ∈ ofLines lines, line.Sound := by
  intro line member
  obtain ⟨parts, _, divided⟩ := exists_divided [] true lines (by simp [BlankOrAbsent])
  obtain ⟨part, before, behind, shown⟩ := divided.forall_shown member
  refine ⟨tidy_of_mem_ofLines tidy line member, ?_, ?_, fun silent => ?_, ?_, ?_⟩
  · rw [shown.text, Text.trimmed_trimmed]
  · rw [shown.declaration, shown.text]
  · rw [Line.isBlank_iff, shown.text, Text.trimmed_eq_empty_iff] at silent
    rw [shown.body, shown.empty silent]
    rfl
  · rw [shown.body]
    exact getLast?_dedent shown.last
  · rw [shown.body, margin_dedent]

theorem Line.Sound.blank_text {line : Line} (sound : line.Sound) (shown : line.isBlank = false) :
    blank line.text = false := by
  rw [← Bool.not_eq_true, ← Text.trimmed_eq_empty_iff, sound.trimmed, ← Line.isBlank_iff, shown]
  exact Bool.false_ne_true

theorem indentOf_trimStart (text : List Char) : indentOf (Text.trimStart text) = 0 := by
  have front := List.head?_dropWhile_not Text.isBlank text
  rw [Text.trimStart]
  cases kept : text.dropWhile Text.isBlank with
  | nil => rfl
  | cons c rest =>
    rw [kept] at front
    exact if_neg (by simpa using front)

theorem Line.Sound.indent_text {line : Line} (sound : line.Sound) : indent line.text = 0 := by
  have same := congrArg String.toList sound.trimmed
  rw [Text.trimmed, String.toList_ofList, Text.trim, ← Text.trimStart_trimEnd] at same
  rw [indent, ← same, indentOf_trimStart]

/-! ## Bodies behind the margin -/

/-- A line of a body as it stands in a doc. -/
def indented (text : String) : String := if text.isEmpty then text else "    " ++ text

theorem blank_indented (text : String) : blank (indented text) = blank text := by
  unfold indented
  split
  · rfl
  · have spaces : blank "    " = true := by decide
    simp only [blank, List.all_eq_true] at spaces
    rw [blank, String.toList_append, List.all_append, List.all_eq_true.mpr spaces, Bool.true_and,
      ← blank]

theorem toList_indented {text : String} (shown : blank text = false) :
    (indented text).toList = ' ' :: ' ' :: ' ' :: ' ' :: text.toList := by
  have nonempty : ¬text.isEmpty = true := by
    rw [String.isEmpty_iff]
    rintro rfl
    simp [blank] at shown
  have spaces : "    ".toList = [' ', ' ', ' ', ' '] := by decide
  rw [indented, if_neg nonempty, String.toList_append, spaces]
  rfl

theorem indent_indented {text : String} (shown : blank text = false) :
    indent (indented text) = indent text + 4 := by
  have space : Text.isBlank ' ' = true ∧ columns ' ' = 1 := by decide
  simp only [indent, toList_indented shown, indentOf, space, if_true]
  omega

/-- Four columns are taken off again as they were put on. -/
theorem dedentLine_indented {text : String} (tidy : Text.Tidy text) :
    dedentLine 4 (indented text) = text := by
  cases shown : blank text with
  | true => rw [dedentLine_of_blank (by rw [blank_indented, shown]), tidy.eq_empty shown]
  | false =>
    have space : Text.isBlank ' ' = true ∧ columns ' ' = 1 := by decide
    rw [← String.toList_inj, toList_dedentLine (by rw [blank_indented, shown]),
      toList_indented shown]
    simp [dropColumns, space, tidy.stripped]

theorem margin_map_indented {body : List String} {line : String} (member : line ∈ body)
    (shown : blank line = false) : margin (body.map indented) = margin body + 4 := by
  have inside : indented line ∈ body.map indented := List.mem_map_of_mem member
  have least := (margin_eq_iff member shown).mp rfl
  rw [margin_eq_iff inside ((blank_indented line).trans shown)]
  refine ⟨?_, List.forall_mem_map.mpr fun other within shownOther => ?_⟩
  · obtain ⟨⟨first, within, shownFirst, same⟩, _⟩ := least
    exact ⟨_, List.mem_map_of_mem within, (blank_indented first).trans shownFirst,
      by rw [indent_indented shownFirst, same]⟩
  · rw [blank_indented] at shownOther
    rw [indent_indented shownOther]
    exact Nat.add_le_add_right (least.2 other within shownOther) 4

theorem Line.Sound.dedent_indented {line : Line} (sound : line.Sound) :
    dedent (line.body.map indented) = line.body := by
  cases found : line.body.getLast? with
  | none =>
    rw [List.getLast?_eq_none_iff.mp found]
    rfl
  | some last =>
    have margin := margin_map_indented (List.mem_of_getLast? found) (sound.last last found)
    rw [sound.margin] at margin
    rw [dedent, margin, List.map_map]
    conv_rhs => rw [← List.map_id line.body]
    exact List.map_congr_left fun text member => dedentLine_indented (sound.tidy.body text member)

theorem Line.Sound.getLast?_indented {line : Line} (sound : line.Sound) :
    ∀ last ∈ (line.body.map indented).getLast?, blank last = false := by
  intro text member
  rw [List.getLast?_map, Option.mem_def, Option.map_eq_some_iff] at member
  obtain ⟨own, ended, rfl⟩ := member
  rw [blank_indented, sound.last own ended]

end Outline

/-! ## Prose as a block -/

namespace Catalog

open Outline (Line linesFrom owned indented indent)
open Text (blank)

theorem proseLines_eq (line : Line) : proseLines line = line.text :: line.body.map indented := rfl

theorem proseLines_of_isBlank {line : Line} (sound : line.Sound) (silent : line.isBlank = true) :
    proseLines line = [""] := by
  rw [proseLines_eq, sound.empty silent, Line.isBlank_iff.mp silent]
  rfl

/-- A header owns no line of the prose behind its body. -/
theorem blank_of_mem_takeWhile {lines : List Line} (sound : ∀ line ∈ lines, line.Sound) :
    ∀ text ∈ (lines.flatMap proseLines).takeWhile fun text => blank text || 0 < indent text,
      blank text = true := by
  induction lines with
  | nil => simp
  | cons line rest ih =>
    obtain ⟨here, others⟩ := List.forall_mem_cons.mp sound
    rw [List.flatMap_cons]
    cases silent : line.isBlank with
    | true =>
      rw [proseLines_of_isBlank here silent, List.cons_append, List.nil_append,
        List.takeWhile_cons_of_pos (by decide), List.forall_mem_cons]
      exact ⟨by decide, ih others⟩
    | false =>
      simp [proseLines_eq, here.blank_text silent, here.indent_text]

theorem owned_body {line : Line} {rest : List Line} (sound : line.Sound)
    (others : ∀ other ∈ rest, other.Sound) :
    owned 0 (line.body.map indented ++ rest.flatMap proseLines) = line.body.map indented := by
  have deep : ∀ text ∈ line.body.map indented, (blank text || 0 < indent text) = true := by
    rw [List.forall_mem_map]
    intro text _
    rw [Outline.blank_indented]
    cases shown : blank text with
    | true => rfl
    | false => simp [Outline.indent_indented shown]
  rw [owned, List.takeWhile_append_of_pos deep]
  exact Doc.dropBlankEnd_of_append sound.getLast?_indented (blank_of_mem_takeWhile others)

/-- Cut into lines with bodies again, prose shows the lines that it is made of. -/
theorem map_face_linesFrom {lines : List Line} (sound : ∀ line ∈ lines, line.Sound)
    (before : Bool) :
    (linesFrom before 0 (lines.flatMap proseLines)).map Line.face = lines.map Line.face := by
  induction lines generalizing before with
  | nil => rfl
  | cons line rest ih =>
    obtain ⟨here, others⟩ := List.forall_mem_cons.mp sound
    rw [List.flatMap_cons, List.map_cons]
    cases silent : line.isBlank with
    | true =>
      have face : line.face = Outline.blankLine.face := by
        rw [Line.face, here.empty silent, Line.isBlank_iff.mp silent]
        rfl
      rw [proseLines_of_isBlank here silent, List.cons_append, List.nil_append, linesFrom,
        if_pos (by decide), List.map_cons, ih others, face]
    | false =>
      have shown := here.blank_text silent
      have trimmed : String.ofList (Text.trim line.text.toList) = line.text := here.trimmed
      rw [proseLines_eq, List.cons_append, linesFrom, if_neg (by simp [shown]), here.indent_text,
        owned_body here others]
      dsimp only
      rw [Outline.linesFrom_skipped, List.drop_left, List.map_cons, ih others, Line.face, trimmed,
        here.dedent_indented]
      rfl

/-- The prose of lines that declare nothing, from the first visible one on. -/
def proseOf (lines : List Line) : List String := (lines.dropWhile Line.isBlank).flatMap proseLines

theorem proseOf_congr {left right : List Line} (same : left.map Line.face = right.map Line.face) :
    proseOf left = proseOf right := by
  have faces (lines : List Line) : proseOf lines =
      ((lines.map Line.face).dropWhile fun face => face.1.isEmpty).flatMap fun face =>
        face.1 :: face.2.map indented := by
    rw [List.dropWhile_map, List.flatMap_map]
    rfl
  rw [faces, same, faces]

theorem prose_eq_nil_iff {lines : List Line} : lines.flatMap proseLines = [] ↔ lines = [] := by
  cases lines <;> simp [proseLines]

theorem getLast?_proseLines {line : Line} (sound : line.Sound) (shown : line.isBlank = false) :
    ∀ last ∈ (proseLines line).getLast?, blank last = false := by
  rw [proseLines_eq]
  cases inside : line.body.map indented with
  | nil =>
    rintro last ⟨rfl⟩
    exact sound.blank_text shown
  | cons first others =>
    rw [List.getLast?_cons_cons, ← inside]
    exact sound.getLast?_indented

/-- Lines of which neither the first nor the last one is blank are prose without blank ends. -/
theorem trimmed_prose {lines : List Line} (sound : ∀ line ∈ lines, line.Sound)
    (first : ∀ line ∈ lines.head?, line.isBlank = false)
    (last : ∀ line ∈ lines.getLast?, line.isBlank = false) :
    Doc.Trimmed (lines.flatMap proseLines) where
  tidy text member := by
    obtain ⟨line, inside, within⟩ := List.mem_flatMap.mp member
    exact tidy_of_mem_proseLines (sound line inside).tidy text within
  first := by
    cases lines with
    | nil => simp
    | cons line rest =>
      rintro text ⟨rfl⟩
      exact (sound line List.mem_cons_self).blank_text (first line rfl)
  last := by
    cases found : lines.getLast? with
    | none => simp [List.getLast?_eq_none_iff.mp found]
    | some line =>
      obtain ⟨front, rfl⟩ := List.getLast?_eq_some_iff.mp found
      have own : proseLines line ≠ [] := List.cons_ne_nil _ _
      rw [List.flatMap_append, List.flatMap_singleton, List.getLast?_append_of_ne_nil _ own]
      exact getLast?_proseLines (sound line (by simp)) (last line found)

theorem blank_of_mem_prose {lines : List Line} (sound : ∀ line ∈ lines, line.Sound)
    (silent : ∀ line ∈ lines, line.isBlank = true) :
    ∀ text ∈ lines.flatMap proseLines, blank text = true := by
  intro text member
  obtain ⟨line, inside, within⟩ := List.mem_flatMap.mp member
  rw [proseLines_of_isBlank (sound line inside) (silent line inside)] at within
  rw [List.mem_singleton.mp within]
  decide

/-- Lines up to the last one that is not blank. -/
theorem exists_append_blank (lines : List Line) :
    ∃ kept gap, lines = kept ++ gap ∧ (∀ line ∈ gap, line.isBlank = true) ∧
      ∀ line ∈ kept.getLast?, line.isBlank = false := by
  induction lines using List.reverseRecOn with
  | nil => exact ⟨[], [], rfl, by simp, by simp⟩
  | append_singleton front last ih =>
    cases silent : last.isBlank with
    | false => exact ⟨front ++ [last], [], by simp, by simp, by simp [silent]⟩
    | true =>
      obtain ⟨kept, gap, rfl, blanks, visible⟩ := ih
      refine ⟨kept, gap ++ [last], by simp, ?_, visible⟩
      simpa [or_imp, forall_and, silent] using blanks

/-- Prose from its first visible line on, up to its last one. -/
theorem exists_kept {lines : List Line} (sound : ∀ line ∈ lines, line.Sound) :
    ∃ kept ⊆ lines, Doc.Trimmed (kept.flatMap proseLines) ∧
      proseOf kept = kept.flatMap proseLines ∧
      Doc.ofLines (proseOf lines) =
        if kept = [] then none else some (Text.unlines (kept.flatMap proseLines)) := by
  obtain ⟨kept, gap, parted, silent, last⟩ := exists_append_blank (lines.dropWhile Line.isBlank)
  have inside : kept ++ gap ⊆ lines := parted ▸ (List.dropWhile_suffix _).subset
  have first : ∀ line ∈ kept.head?, line.isBlank = false := by
    cases kept with
    | nil => simp
    | cons line rest =>
      have front := List.head?_dropWhile_not Line.isBlank lines
      rw [parted] at front
      rintro _ ⟨rfl⟩
      simpa using front
  have soundKept : ∀ line ∈ kept, line.Sound := fun line member =>
    sound line (inside (List.mem_append_left gap member))
  have trimmed := trimmed_prose soundKept first last
  have blanks := blank_of_mem_prose
    (fun line member => sound line (inside (List.mem_append_right kept member))) silent
  refine ⟨kept, fun line member => inside (List.mem_append_left gap member), trimmed, ?_, ?_⟩
  · rw [proseOf]
    cases kept with
    | nil => rfl
    | cons line rest => rw [List.dropWhile_cons_of_neg (by simp [first line rfl])]
  · rw [proseOf, parted, List.flatMap_append, trimmed.ofLines_append blanks]
    simp only [prose_eq_nil_iff]

/-! ## Reading prose -/

section

variable {feed : Feed} {channel : Option Channel} {lines : List Line}

/-- The prose so far with that of further lines which declare nothing. -/
def proseAfter (prose : List String) : List Line → List String
  | [] => prose
  | line :: rest =>
      if line.isBlank then proseAfter (if prose.isEmpty then [] else prose ++ [""]) rest
      else proseAfter (prose ++ proseLines line) rest

theorem declaration?_undeclared {line : Line} (undeclared : line.declaration = none) :
    declaration? feed ⟨channel, false⟩ line = pure none := by
  unfold declaration?
  rw [undeclared]
  rfl

theorem nextEntry_undeclared (undeclared : ∀ line ∈ lines, line.declaration = none)
    (prose : List String) :
    nextEntry feed ⟨channel, false⟩ prose lines =
      pure ((Doc.ofLines (proseAfter prose lines)).map fun doc =>
        ({ doc := some doc, slot := none }, [])) := by
  induction lines generalizing prose with
  | nil => rfl
  | cons line rest ih =>
    obtain ⟨here, others⟩ := List.forall_mem_cons.mp undeclared
    rw [nextEntry, proseAfter]
    split
    · exact ih others _
    · rw [declaration?_undeclared here, pure_bind]
      exact ih others _

theorem proseAfter_of_ne_nil (sound : ∀ line ∈ lines, line.Sound) {prose : List String}
    (nonempty : prose ≠ []) : proseAfter prose lines = prose ++ lines.flatMap proseLines := by
  induction lines generalizing prose with
  | nil => simp [proseAfter]
  | cons line rest ih =>
    obtain ⟨here, others⟩ := List.forall_mem_cons.mp sound
    rw [proseAfter, List.flatMap_cons, ← List.append_assoc]
    split
    · rename_i silent
      rw [proseLines_of_isBlank here silent, if_neg (by simpa using nonempty), ih others (by simp)]
    · rw [ih others (by simp [nonempty])]

theorem proseAfter_nil (sound : ∀ line ∈ lines, line.Sound) :
    proseAfter [] lines = proseOf lines := by
  induction lines with
  | nil => rfl
  | cons line rest ih =>
    obtain ⟨here, others⟩ := List.forall_mem_cons.mp sound
    rw [proseAfter, proseOf]
    split
    · rename_i silent
      rw [List.dropWhile_cons_of_pos silent]
      exact ih others
    · rename_i visible
      rw [List.dropWhile_cons_of_neg visible, List.flatMap_cons, List.nil_append]
      exact proseAfter_of_ne_nil others (List.cons_ne_nil _ _)

end

theorem sound_of_mem_ofText (text : String) : ∀ line ∈ Outline.ofText text, line.Sound :=
  Outline.sound_of_mem_ofLines (Outline.tidy_of_mem_dedent fun _ => Text.unbroken_of_mem_linesOf)

/-- A text that declares nothing is read as its prose. -/
theorem parseSingle_undeclared {channel : Option Channel} {text : String}
    (undeclared : ∀ line ∈ Outline.ofText text, line.declaration = none) :
    parseSingle ⟨channel, false⟩ text =
      pure { doc := Doc.ofLines (proseOf (Outline.ofText text)), slot := none } := by
  have sound := sound_of_mem_ofText text
  obtain ⟨kept, _, trimmed, _, whole⟩ := exists_kept sound
  rw [parseSingle, joinEntries, nextEntry_undeclared undeclared, pure_bind, proseAfter_nil sound,
    whole]
  by_cases empty : kept = []
  · simp only [if_pos empty]
    rfl
  · have visible := trimmed.not_blank_unlines (mt prose_eq_nil_iff.mp empty)
    simp only [if_neg empty]
    -- Nothing is behind the prose, so that the doc is not joined with another one.
    cases (Outline.ofText text).length <;>
      simp [joinEntries, nextEntry, Doc.join, Doc.ofLines, Doc.dropBlankStart, Doc.dropBlankEnd,
        visible]

/-- The doc of some lines has their outline. -/
theorem map_face_ofText {lines : List Line} (sound : ∀ line ∈ lines, line.Sound)
    (trimmed : Doc.Trimmed (lines.flatMap proseLines)) :
    (Outline.ofText (Text.unlines (lines.flatMap proseLines))).map Line.face =
      lines.map Line.face := by
  have flush : Outline.margin (lines.flatMap proseLines) = 0 := by
    cases lines with
    | nil => rfl
    | cons line rest =>
      have shown := trimmed.first line.text rfl
      have least : Outline.margin ((line :: rest).flatMap proseLines) ≤ indent line.text :=
        Outline.margin_le List.mem_cons_self shown
      rw [(sound line List.mem_cons_self).indent_text] at least
      exact Nat.le_zero.mp least
  rw [Outline.ofText, trimmed.linesOf_unlines, Outline.dedent_of_margin trimmed.tidy flush]
  exact map_face_linesFrom sound true

/-- A text without declarations gives an entry without a slot and leaves the catalog as it is. Its
doc, read as a text again, gives exactly the same doc, under any channel and in any catalog. -/
theorem prose_stable (channel : Option Channel) (text : String) (catalog : Catalog)
    (undeclared : ∀ line ∈ Outline.ofText text, line.declaration = none) :
    ∃ doc?, parseSingle ⟨channel, false⟩ text catalog = .ok { doc := doc?, slot := none } catalog ∧
      ∀ doc ∈ doc?, ∀ (other : Option Channel) (later : Catalog),
        parseSingle ⟨other, false⟩ doc later = .ok { doc := some doc, slot := none } later := by
  have sound := sound_of_mem_ofText text
  obtain ⟨kept, inside, trimmed, same, whole⟩ := exists_kept sound
  refine ⟨_, congrFun (parseSingle_undeclared undeclared) catalog, ?_⟩
  rw [whole]
  by_cases empty : kept = []
  · simp [if_pos empty]
  rw [if_neg empty]
  rintro _ ⟨rfl⟩ other later
  have faces := map_face_ofText (fun line member => sound line (inside member)) trimmed
  have again : ∀ line ∈ Outline.ofText (Text.unlines (kept.flatMap proseLines)),
      line.declaration = none := by
    intro line member
    have shown : line.face ∈ kept.map Line.face := faces ▸ List.mem_map_of_mem member
    obtain ⟨own, listed, face⟩ := List.mem_map.mp shown
    rw [(sound_of_mem_ofText _ line member).declaration, ← (Prod.mk.inj face).1,
      ← (sound own (inside listed)).declaration, undeclared own (inside listed)]
  have doc := trimmed.ofLines_append (List.forall_mem_nil fun line => blank line = true)
  rw [List.append_nil, if_neg (mt prose_eq_nil_iff.mp empty)] at doc
  rw [parseSingle_undeclared again, proseOf_congr faces, same, doc]
  rfl

/-- Tabs, mixed depths and blank lines; the first line is deeper than the margin of the text. -/
def noteText : String :=
  "\n      Note: see below.\n  Steps:\n\tfirst\n\n\t  deeper\n\n\n   then\n  End.\n\n"

def noteDoc : String := "Note: see below.\nSteps:\nfirst\n\n     deeper\n\n\n    then\nEnd."

theorem prose_stable_noteText :
    (∀ line ∈ Outline.ofText noteText, line.declaration = none) ∧
      parseSingle ⟨some .read, false⟩ noteText empty =
        .ok { doc := some noteDoc, slot := none } empty ∧
      ∀ (other : Option Channel) (later : Catalog),
        parseSingle ⟨other, false⟩ noteDoc later =
          .ok { doc := some noteDoc, slot := none } later := by
  have undeclared : ∀ line ∈ Outline.ofText noteText, line.declaration = none := by decide +kernel
  have made : Doc.ofLines (proseOf (Outline.ofText noteText)) = some noteDoc := by decide +kernel
  have first : parseSingle ⟨some .read, false⟩ noteText empty =
      .ok { doc := some noteDoc, slot := none } empty := by
    rw [parseSingle_undeclared undeclared, made]
    rfl
  obtain ⟨doc?, read, again⟩ := prose_stable (some .read) noteText empty undeclared
  obtain rfl : doc? = some noteDoc := by
    rw [first] at read
    cases read
    rfl
  exact ⟨undeclared, first, again noteDoc rfl⟩

end Catalog

end DocShapes
