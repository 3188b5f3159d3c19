import DocShapes.Proofs.Visible

/-! # Margins

Taking the margin off a line drops whole characters, so that a tab across the margin takes up to
three columns too many with it. Lines whose blanks can be parted at the margin keep their
distances, and with them their bodies (`outline_dedent`).
-/

namespace DocShapes.Outline

open Text (blank isBlank)

/-! ## Columns -/

/-- The blanks in front of a text can be parted at a column, since no tab crosses it. -/
def partsAt (column : Nat) : List Char → Bool
  | [] => column = 0
  | c :: rest =>
      column = 0 || isBlank c && columns c ≤ column && partsAt (column - columns c) rest

theorem columns_eq (c : Char) : columns c = 4 ∨ columns c = 1 := by
  unfold columns
  split
  · exact .inl rfl
  · exact .inr rfl

@[simp] theorem dropColumns_zero (text : List Char) : dropColumns 0 text = text := by
  cases text with
  | nil => rfl
  | cons c rest => simp [dropColumns]

theorem dropColumns_of_blank {column : Nat} {c : Char} {rest : List Char} (column_ne : column ≠ 0)
    (blank : isBlank c = true) :
    dropColumns column (c :: rest) = dropColumns (column - columns c) rest := by
  simp [dropColumns, column_ne, blank]

theorem dropColumns_of_visible {c : Char} (column : Nat) (rest : List Char)
    (visible : isBlank c = false) : dropColumns column (c :: rest) = c :: rest := by
  simp [dropColumns, visible]

/-- What is dropped up to a column reaches the column, and ends there if the blanks can be parted
there. A tab that crosses the column takes three more columns at most. -/
theorem indentOf_dropColumns {column : Nat} {text : List Char} (deep : column ≤ indentOf text) :
    indentOf (dropColumns column text) + column ≤ indentOf text ∧
      indentOf text ≤ indentOf (dropColumns column text) + column + 3 ∧
      (indentOf (dropColumns column text) + column = indentOf text ↔
        partsAt column text = true) := by
  induction text generalizing column with
  | nil =>
    obtain rfl : column = 0 := Nat.le_zero.mp deep
    simp [partsAt]
  | cons c rest ih =>
    by_cases none : column = 0
    · simp [none, partsAt]
    rw [indentOf] at deep
    split at deep
    case isFalse => exact absurd (Nat.le_zero.mp deep) none
    rename_i blank
    rw [dropColumns_of_blank none blank, indentOf, if_pos blank, partsAt]
    have size := columns_eq c
    by_cases fits : columns c ≤ column
    · obtain ⟨below, above, exactly⟩ := @ih (column - columns c) (by omega)
      simp only [none, blank, fits, decide_false, decide_true, Bool.false_or, Bool.true_and,
        ← exactly]
      omega
    · rw [show column - columns c = 0 by omega, dropColumns_zero]
      simp only [none, blank, fits, decide_false, Bool.and_false, Bool.false_and, Bool.or_false,
        Bool.false_eq_true, iff_false]
      omega

/-- Dropping in two steps comes to the same as dropping at once. -/
theorem dropColumns_dropColumns {column : Nat} {text : List Char}
    (parted : partsAt column text = true) (further : Nat) :
    dropColumns further (dropColumns column text) = dropColumns (column + further) text := by
  induction text generalizing column with
  | nil => rfl
  | cons c rest ih =>
    by_cases none : column = 0
    · rw [none, dropColumns_zero, Nat.zero_add]
    have here : (isBlank c = true ∧ columns c ≤ column) ∧
        partsAt (column - columns c) rest = true := by
      simpa [partsAt, none] using parted
    obtain ⟨⟨blank, fits⟩, behind⟩ := here
    rw [dropColumns_of_blank none blank, dropColumns_of_blank (by omega) blank, ih behind,
      Nat.sub_add_comm fits]

/-! ## Lines that show something -/

/-- Something in the text is no blank. -/
def Shows (text : List Char) : Prop := ∃ c ∈ text, isBlank c = false

theorem shows_of_not_blank {line : String} (shown : blank line = false) : Shows line.toList := by
  unfold Shows
  simpa [Text.blank, List.all_eq_false] using shown

theorem Shows.of_blank {c : Char} {rest : List Char} (shows : Shows (c :: rest))
    (blank : isBlank c = true) : Shows rest := by
  obtain ⟨d, member, visible⟩ := shows
  rcases List.mem_cons.mp member with rfl | behind
  · simp [blank] at visible
  · exact ⟨d, behind, visible⟩

theorem Shows.trimEnd_ne_nil {text : List Char} (shows : Shows text) : Text.trimEnd text ≠ [] := by
  obtain ⟨c, member, visible⟩ := shows
  intro empty
  have blank := Text.trimEnd_eq_nil_iff.mp empty c member
  simp [visible] at blank

theorem Shows.dropColumns {text : List Char} (shows : Shows text) (column : Nat) :
    Shows (dropColumns column text) := by
  induction text generalizing column with
  | nil => exact shows
  | cons c rest ih =>
    by_cases none : column = 0
    · rwa [none, dropColumns_zero]
    cases blank : isBlank c with
    | false => rwa [dropColumns_of_visible column rest blank]
    | true =>
      rw [dropColumns_of_blank none blank]
      exact ih (shows.of_blank blank) _

/-- The blanks at the end are not those in front. -/
theorem Shows.indentOf_trimEnd {text : List Char} (shows : Shows text) :
    indentOf (Text.trimEnd text) = indentOf text := by
  induction text with
  | nil => rfl
  | cons c rest ih =>
    cases blank : isBlank c with
    | false =>
      rw [Text.trimEnd]
      split <;> simp [indentOf, blank]
    | true =>
      have behind := shows.of_blank blank
      rw [Text.trimEnd]
      split
      · exact absurd ‹_› behind.trimEnd_ne_nil
      · simp only [indentOf, blank, if_true, ih behind]

theorem Shows.trimEnd_dropColumns {text : List Char} (shows : Shows text) (column : Nat) :
    Text.trimEnd (Outline.dropColumns column (Text.trimEnd text)) =
      Text.trimEnd (Outline.dropColumns column text) := by
  induction text generalizing column with
  | nil => rfl
  | cons c rest ih =>
    by_cases none : column = 0
    · rw [none, dropColumns_zero, dropColumns_zero, Text.trimEnd_trimEnd]
    cases blank : isBlank c with
    | false =>
      obtain ⟨kept, same⟩ : ∃ kept, Text.trimEnd (c :: rest) = c :: kept := by
        rw [Text.trimEnd]
        split
        · exact ⟨[], by simp [blank]⟩
        · exact ⟨_, rfl⟩
      rw [same, dropColumns_of_visible column kept blank, ← same, Text.trimEnd_trimEnd,
        dropColumns_of_visible column rest blank]
    | true =>
      have behind := shows.of_blank blank
      have same : Text.trimEnd (c :: rest) = c :: Text.trimEnd rest := by
        rw [Text.trimEnd]
        split
        · exact absurd ‹_› behind.trimEnd_ne_nil
        · rfl
      rw [same, dropColumns_of_blank none blank, dropColumns_of_blank none blank, ih behind]

/-! ## Lines without a margin -/

variable {width : Nat} {line other : String} {lines rest : List String}

theorem dedentLine_of_blank (silent : blank line = true) : dedentLine width line = "" :=
  if_pos silent

theorem toList_dedentLine (shown : blank line = false) :
    (dedentLine width line).toList = Text.trimEnd (dropColumns width line.toList) := by
  rw [dedentLine, if_neg (by simp [shown]), String.toList_ofList]

theorem blank_dedentLine (width : Nat) (line : String) :
    blank (dedentLine width line) = blank line := by
  rw [Bool.eq_iff_iff, ← Text.trimmed_eq_empty_iff, ← Text.trimmed_eq_empty_iff,
    trimmed_dedentLine]

theorem indent_dedentLine (shown : blank line = false) :
    indent (dedentLine width line) = indentOf (dropColumns width line.toList) := by
  rw [indent, toList_dedentLine shown]
  exact ((shows_of_not_blank shown).dropColumns width).indentOf_trimEnd

/-- The blanks in front of the line can be parted at the column. -/
def Parted (width : Nat) (line : String) : Prop := partsAt width line.toList = true

instance (width : Nat) (line : String) : Decidable (Parted width line) :=
  inferInstanceAs (Decidable (_ = true))

/-- The lines that show something are as deep as the width, and can be parted there. -/
def Level (width : Nat) (lines : List String) : Prop :=
  ∀ line ∈ lines, blank line = false → width ≤ indent line ∧ Parted width line

theorem Level.indent_eq (level : Level width lines) (member : line ∈ lines)
    (shown : blank line = false) : indent (dedentLine width line) + width = indent line := by
  obtain ⟨deep, parted⟩ := level line member shown
  rw [indent_dedentLine shown]
  exact (indentOf_dropColumns deep).2.2.mpr parted

/-- A line loses a greater margin in two steps. -/
theorem dedentLine_dedentLine (parted : blank line = false → Parted width line) (further : Nat) :
    dedentLine further (dedentLine width line) = dedentLine (width + further) line := by
  cases shown : blank line with
  | true => rw [dedentLine_of_blank shown, dedentLine_of_blank shown, dedentLine_of_blank rfl]
  | false =>
    have drops := (shows_of_not_blank shown).dropColumns width
    rw [← String.toList_inj, toList_dedentLine (by rw [blank_dedentLine, shown]),
      toList_dedentLine shown, toList_dedentLine shown, drops.trimEnd_dropColumns,
      dropColumns_dropColumns (parted shown)]

/-! ## Margins of bodies -/

theorem mem_indents {column : Nat} :
    column ∈ (lines.filter fun line => !blank line).map indent ↔
      ∃ line ∈ lines, blank line = false ∧ indent line = column := by
  simp [and_assoc]

/-- The margin is the least indentation of a line that shows something. -/
theorem margin_eq_iff (member : line ∈ lines) (shown : blank line = false) :
    margin lines = width ↔
      (∃ line ∈ lines, blank line = false ∧ indent line = width) ∧
        ∀ line ∈ lines, blank line = false → width ≤ indent line := by
  have least (column : Nat) :
      ((lines.filter fun line => !blank line).map indent).min? = some column ↔
        (∃ line ∈ lines, blank line = false ∧ indent line = column) ∧
          ∀ line ∈ lines, blank line = false → column ≤ indent line := by
    simp only [List.min?_eq_some_iff, mem_indents]
    apply and_congr_right
    intro _
    constructor
    · exact fun below line member shown => below _ ⟨line, member, shown, rfl⟩
    · rintro below _ ⟨line, member, shown, rfl⟩
      exact below line member shown
  cases found : ((lines.filter fun line => !blank line).map indent).min? with
  | none =>
    have listed : indent line ∈ (lines.filter fun line => !blank line).map indent :=
      mem_indents.mpr ⟨line, member, shown, rfl⟩
    rw [List.min?_eq_none_iff.mp found] at listed
    cases listed
  | some column => rw [margin, found, Option.getD_some, ← least, found, Option.some.injEq]

theorem margin_le (member : line ∈ lines) (shown : blank line = false) :
    margin lines ≤ indent line :=
  ((margin_eq_iff member shown).mp rfl).2 line member shown

theorem dedent_of_blank (silent : ∀ line ∈ lines, blank line = true) :
    dedent lines = lines.map fun _ => "" :=
  List.map_congr_left fun line member => dedentLine_of_blank (silent line member)

/-- Lines that have lost a part of their margin lose the rest of it. -/
theorem Level.dedent_eq (level : Level width lines) :
    dedent (lines.map (dedentLine width)) = dedent lines := by
  by_cases shows : ∃ line ∈ lines, blank line = false
  · obtain ⟨line, member, shown⟩ := shows
    have least : width + margin (lines.map (dedentLine width)) = margin lines := by
      symm
      have inner := (@margin_eq_iff (margin (lines.map (dedentLine width))) _ _
        (List.mem_map_of_mem member) ((blank_dedentLine width line).trans shown)).mp rfl
      simp only [List.forall_mem_map, blank_dedentLine] at inner
      obtain ⟨⟨_, listed, shownFirst, same⟩, each⟩ := inner
      obtain ⟨first, inside, rfl⟩ := List.mem_map.mp listed
      rw [blank_dedentLine] at shownFirst
      rw [margin_eq_iff member shown]
      refine ⟨⟨first, inside, shownFirst, ?_⟩, fun other within shownOther => ?_⟩
      · have here := level.indent_eq inside shownFirst
        omega
      · have here := level.indent_eq within shownOther
        have bound := each other within shownOther
        omega
    rw [dedent, dedent, List.map_map, ← least]
    exact List.map_congr_left fun other within =>
      dedentLine_dedentLine (fun shownOther => (level other within shownOther).2) _
  · have silent : ∀ line ∈ lines, blank line = true := by simpa using shows
    rw [dedent_of_blank silent, dedent_of_blank, List.map_map]
    · rfl
    · simpa [blank_dedentLine] using silent

/-! ## Outlines -/

theorem takeWhile_map_congr {α β : Type} {view : α → β} {test : β → Bool} {tests : α → Bool}
    {items : List α} (agree : ∀ item ∈ items, test (view item) = tests item) :
    (items.map view).takeWhile test = (items.takeWhile tests).map view := by
  induction items with
  | nil => rfl
  | cons item rest ih =>
    obtain ⟨here, others⟩ := List.forall_mem_cons.mp agree
    rw [List.map_cons, List.takeWhile_cons, List.takeWhile_cons, here]
    split
    · rw [ih others, List.map_cons]
    · rfl

theorem dropBlankEnd_map {view : String → String} (same : ∀ line, blank (view line) = blank line)
    (lines : List String) : Doc.dropBlankEnd (lines.map view) = (Doc.dropBlankEnd lines).map view := by
  induction lines with
  | nil => rfl
  | cons line rest ih =>
    rw [List.map_cons, Doc.dropBlankEnd, Doc.dropBlankEnd, ih, same]
    cases Doc.dropBlankEnd rest with
    | nil =>
      rw [List.map_nil]
      dsimp only
      split <;> rfl
    | cons => rfl

/-- A line owns the same lines when all have lost a part of their margin. -/
theorem Level.owned_eq (level : Level width (line :: rest)) (shown : blank line = false) :
    owned (indent (dedentLine width line)) (rest.map (dedentLine width)) =
      (owned (indent line) rest).map (dedentLine width) := by
  rw [owned, owned, ← dropBlankEnd_map (blank_dedentLine width)]
  congr 1
  apply takeWhile_map_congr
  intro other within
  rw [blank_dedentLine]
  cases shownOther : blank other with
  | true => rfl
  | false =>
    have own := level.indent_eq List.mem_cons_self shown
    have here := level.indent_eq (List.mem_cons_of_mem line within) shownOther
    simp only [Bool.false_or, decide_eq_decide]
    omega

theorem Level.subset (level : Level width lines) (within : rest ⊆ lines) : Level width rest :=
  fun line member => level line (within member)

theorem Level.linesFrom_eq (level : Level width lines) (before : Bool) (skipped : Nat) :
    linesFrom before skipped (lines.map (dedentLine width)) = linesFrom before skipped lines := by
  induction lines generalizing before skipped with
  | nil => rfl
  | cons line rest ih =>
    have others := level.subset (List.subset_cons_self line rest)
    cases skipped with
    | succ skipped => exact ih others before skipped
    | zero =>
      rw [List.map_cons, linesFrom, linesFrom, blank_dedentLine]
      cases shown : blank line with
      | true => simp only [if_true, ih others]
      | false =>
        have text : String.ofList (Text.trim (dedentLine width line).toList) =
            String.ofList (Text.trim line.toList) := trimmed_dedentLine width line
        have body : dedent ((owned (indent line) rest).map (dedentLine width)) =
            dedent (owned (indent line) rest) :=
          (others.subset (owned_subset _ rest)).dedent_eq
        simp only [Bool.false_eq_true, if_false, level.owned_eq shown, text, body, List.length_map,
          ← List.map_drop, List.head?_map, Option.map_map, Function.comp_def, blank_dedentLine,
          ih others]

/-- Whatever the margin, a line loses at least as much and at most three columns more, and loses
the margin exactly if its blanks can be parted there. Two such lines keep their order, and a text
of such lines has the outline that it has without its margin. -/
theorem outline_dedent (lines : List String) :
    (∀ line ∈ lines, blank line = false →
        indent (dedentLine (margin lines) line) + margin lines ≤ indent line ∧
          indent line ≤ indent (dedentLine (margin lines) line) + margin lines + 3 ∧
          (indent (dedentLine (margin lines) line) + margin lines = indent line ↔
            Parted (margin lines) line)) ∧
      (∀ left ∈ lines, ∀ right ∈ lines, blank left = false → blank right = false →
        Parted (margin lines) left → Parted (margin lines) right →
          (indent left < indent right ↔
            indent (dedentLine (margin lines) left) < indent (dedentLine (margin lines) right))) ∧
      ((∀ line ∈ lines, blank line = false → Parted (margin lines) line) →
        ofLines (dedent lines) = ofLines lines) := by
  have loses {line : String} (member : line ∈ lines) (shown : blank line = false) :
      indent (dedentLine (margin lines) line) + margin lines ≤ indent line ∧
        indent line ≤ indent (dedentLine (margin lines) line) + margin lines + 3 ∧
        (indent (dedentLine (margin lines) line) + margin lines = indent line ↔
          Parted (margin lines) line) := by
    rw [indent_dedentLine shown]
    exact indentOf_dropColumns (margin_le member shown)
  refine ⟨fun line => loses, fun left inside right within shownLeft shownRight first second => ?_,
    fun parted => ?_⟩
  · have here := (loses inside shownLeft).2.2.mpr first
    have there := (loses within shownRight).2.2.mpr second
    omega
  · have level : Level (margin lines) lines := fun line member shown =>
      ⟨margin_le member shown, parted line member shown⟩
    exact level.linesFrom_eq true 0

/-- A margin of two blanks, and a tab behind it. -/
theorem outline_dedent_tab :
    let lines := ["  x : Foo", "", "  \ta : int", "  y"]
    margin lines = 2 ∧ (indent "  x : Foo" < indent "  \ta : int" ↔
        indent (dedentLine 2 "  x : Foo") < indent (dedentLine 2 "  \ta : int")) ∧
      ofLines (dedent lines) = ofLines lines := by
  intro lines
  have width : margin lines = 2 := by decide
  have parted : ∀ line ∈ lines, blank line = false → Parted (margin lines) line := by decide
  obtain ⟨_, order, outline⟩ := outline_dedent lines
  have first : "  x : Foo" ∈ lines := by simp [lines]
  have second : "  \ta : int" ∈ lines := by simp [lines]
  refine ⟨width, ?_, outline parted⟩
  have same := order _ first _ second (by decide) (by decide) (parted _ first (by decide))
    (parted _ second (by decide))
  rwa [width] at same

/-- A tab crosses the margin: the line behind it is a part of the body on the raw text alone. -/
theorem outline_lost_tab :
    let lines := [" x : Foo", "\ta : int"]
    indent " x : Foo" < indent "\ta : int" ∧
      ¬indent (dedentLine (margin lines) " x : Foo") <
        indent (dedentLine (margin lines) "\ta : int") ∧
      (ofLines lines).map Line.body = [["a : int"]] ∧
      (ofLines (dedent lines)).map Line.body = [[], []] := by
  decide +kernel

end DocShapes.Outline
