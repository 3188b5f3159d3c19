import DocShapes.Proofs.Delimiting
import DocShapes.Proofs.Prose

/-! # Visible lines

What a text says is its lines that are not blank, each without the blanks at its ends. Taking the
margin off a block, cutting it into lines with bodies, and making docs of it and joining them keep
the visible lines and their order.
-/

namespace DocShapes

/-! ## Lines without blanks at their ends -/

namespace Text

theorem trimStart_trimEnd (text : List Char) : trimStart (trimEnd text) = trimEnd (trimStart text) := by
  induction text with
  | nil => rfl
  | cons c rest ih =>
    cases blank : isBlank c with
    | true =>
      rw [trimStart_of_blank blank, ← ih, trimEnd]
      split
      · rename_i none
        simp [none, blank]
      · exact trimStart_of_blank blank
    | false =>
      rw [trimStart_of_visible blank, trimEnd]
      split
      · simp [trimStart, blank]
      · exact trimStart_of_visible blank

theorem trim_trimEnd (text : List Char) : trim (trimEnd text) = trim text := by
  rw [trim, trimStart_trimEnd, trimEnd_trimEnd, trim]

theorem trim_append_of_blank {front : List Char} (blank : ∀ c ∈ front, isBlank c = true)
    (text : List Char) : trim (front ++ text) = trim text := by
  rw [trim, trimStart, List.dropWhile_append_of_pos blank, trim, trimStart]

theorem trim_eq_nil_iff {text : List Char} : trim text = [] ↔ ∀ c ∈ text, isBlank c = true := by
  rw [trim, ← trimStart_trimEnd, trimStart, List.dropWhile_eq_nil_iff]
  constructor
  · intro blank
    rw [← trimEnd_eq_nil_iff, ← trimEnd_trimEnd, trimEnd_eq_nil_iff]
    exact blank
  · intro blank c member
    exact blank c ((prefix_trimEnd text).subset member)

/-- A line without the blanks at its ends. -/
def trimmed (line : String) : String := String.ofList (trim line.toList)

theorem trimmed_trimmed (line : String) : trimmed (trimmed line) = trimmed line := by
  rw [trimmed, trimmed, String.toList_ofList]
  simp only [trim, trimStart_trimEnd, trimEnd_trimEnd, trimStart_trimStart]

theorem trimmed_eq_empty_iff {line : String} : trimmed line = "" ↔ blank line = true := by
  rw [trimmed, blank, List.all_eq_true, ← trim_eq_nil_iff]
  exact ⟨fun same => by simpa using congrArg String.toList same, fun same => by rw [same]⟩

/-- The lines that are not blank, without the blanks at their ends. -/
def visible (lines : List String) : List String :=
  (lines.map trimmed).filter fun line => !line.isEmpty

@[simp] theorem visible_nil : visible [] = [] := rfl

theorem visible_append (left right : List String) :
    visible (left ++ right) = visible left ++ visible right := by
  simp [visible]

theorem visible_cons (line : String) (rest : List String) :
    visible (line :: rest) = visible [line] ++ visible rest :=
  visible_append [line] rest

theorem visible_of_blank {lines : List String} (blank : ∀ line ∈ lines, Text.blank line = true) :
    visible lines = [] := by
  rw [visible, List.filter_eq_nil_iff, List.forall_mem_map]
  intro line member
  simp [trimmed_eq_empty_iff.mpr (blank line member)]

theorem visible_congr {left right : List String} (same : left.map trimmed = right.map trimmed) :
    visible left = visible right := by
  rw [visible, same, visible]

theorem visible_trimmed (line : String) : visible [trimmed line] = visible [line] :=
  visible_congr (by simp [trimmed_trimmed])

/-! ## Lines of texts -/

theorem subset_of_mem_lines {text line : List Char} (member : line ∈ lines text) : line ⊆ text := by
  induction text generalizing line with
  | nil => cases member
  | cons c rest ih =>
    have later {line : List Char} (inside : line ∈ lines rest) : line ⊆ c :: rest :=
      List.subset_cons_of_subset c (ih inside)
    rw [lines] at member
    split at member
    · rcases List.mem_cons.mp member with rfl | inside
      · exact List.nil_subset _
      · exact later inside
    · split at member
      · exact later member
      · split at member
        · rw [List.mem_singleton.mp member]
          simp
        · rename_i first others same
          rcases List.mem_cons.mp member with rfl | inside
          · exact List.cons_subset_cons c (ih (same ▸ List.mem_cons_self))
          · exact later (same ▸ List.mem_cons_of_mem first inside)

theorem visible_linesOf_of_blank {text : String} (silent : blank text = true) :
    visible (linesOf text) = [] := by
  refine visible_of_blank fun line member => ?_
  obtain ⟨chars, inside, rfl⟩ := List.mem_map.mp member
  rw [blank, List.all_eq_true, String.toList_ofList]
  exact fun c within => List.all_eq_true.mp silent c (subset_of_mem_lines inside within)

/-- Lines without the blanks at their ends. -/
def trimmedLines (text : List Char) : List (List Char) := (lines text).map trimEnd

theorem trimEnd_cons_congr (c : Char) {line other : List Char}
    (same : trimEnd line = trimEnd other) : trimEnd (c :: line) = trimEnd (c :: other) := by
  rw [trimEnd, trimEnd, same]

theorem visible_linesOf (text : String) : visible (linesOf text) =
    ((trimmedLines text.toList).map fun line => String.ofList (trimStart line)).filter
      fun line => !line.isEmpty := by
  rw [visible, linesOf, trimmedLines, List.map_map, List.map_map]
  refine congrArg _ (List.map_congr_left fun line _ => ?_)
  simp [trimmed, trim, trimStart_trimEnd]

theorem exists_lines_eq_cons (c : Char) (rest : List Char) :
    ∃ line others, lines (c :: rest) = line :: others := by
  rw [lines]
  split
  · exact ⟨_, _, rfl⟩
  · split
    · rename_i carriage
      obtain ⟨more, rfl⟩ := List.head?_eq_some_iff.mp carriage.2
      exact ⟨_, _, lines_cons_newline more⟩
    · split <;> exact ⟨_, _, rfl⟩

/-- A line break ends a line, and may leave an empty one. -/
theorem trimmedLines_append (text rest : List Char) :
    ∃ gap, trimmedLines (text ++ '\n' :: rest) = trimmedLines text ++ (gap ++ trimmedLines rest) ∧
      ∀ line ∈ gap, line = [] := by
  induction text with
  | nil => exact ⟨[[]], by simp [trimmedLines, trimEnd], by simp⟩
  | cons c more ih =>
    obtain ⟨gap, same, empty⟩ := ih
    by_cases feed : c = '\n'
    · subst feed
      refine ⟨gap, ?_, empty⟩
      simpa [trimmedLines] using same
    cases more with
    | nil =>
      -- A carriage return in front of the line break belongs to it.
      refine ⟨[], ?_, by simp⟩
      by_cases carriage : c = '\r'
      · subst carriage
        simp [trimmedLines, lines, trimEnd, isBlank]
      · simp [trimmedLines, lines, feed, carriage]
    | cons d further =>
      by_cases carriage : c = '\r' ∧ d = '\n'
      · refine ⟨gap, ?_, empty⟩
        obtain ⟨rfl, rfl⟩ := carriage
        have drop (text : List Char) : lines ('\r' :: '\n' :: text) = lines ('\n' :: text) := by
          rw [lines]
          simp
        rw [trimmedLines, trimmedLines, List.cons_append, List.cons_append, drop, drop]
        exact same
      · have extend (text : List Char) : ∃ line others, lines (d :: text) = line :: others ∧
            lines (c :: d :: text) = (c :: line) :: others := by
          obtain ⟨line, others, parted⟩ := exists_lines_eq_cons d text
          refine ⟨line, others, parted, ?_⟩
          rw [lines, if_neg feed, if_neg (by simpa using carriage), parted]
        obtain ⟨line, others, parted, extended⟩ := extend further
        obtain ⟨first, behind, joined, longer⟩ := extend (further ++ '\n' :: rest)
        refine ⟨gap, ?_, empty⟩
        simp only [trimmedLines, List.cons_append, parted, joined, extended, longer,
          List.map_cons, List.cons.injEq] at same ⊢
        exact ⟨trimEnd_cons_congr c same.1, same.2⟩

/-- What two texts say with a line break between them. -/
theorem visible_linesOf_append (text rest : String) :
    visible (linesOf (text ++ "\n" ++ rest)) = visible (linesOf text) ++ visible (linesOf rest) := by
  have chars : (text ++ "\n" ++ rest).toList = text.toList ++ '\n' :: rest.toList := by simp
  obtain ⟨gap, same, empty⟩ := trimmedLines_append text.toList rest.toList
  have silent : (gap.map fun line => String.ofList (trimStart line)).filter
      (fun line => !line.isEmpty) = [] := by
    rw [List.filter_eq_nil_iff, List.forall_mem_map]
    intro line member
    rw [empty line member]
    decide
  simp only [visible_linesOf, chars, same, List.map_append, List.filter_append, silent,
    List.nil_append]

end Text

/-! ## Docs -/

namespace Doc

open Text (blank linesOf unlines)

/-- The visible lines of a doc that may be missing. -/
def visible (doc : Option String) : List String := Text.visible (linesOf? doc)

@[simp] theorem visible_none : visible none = [] := rfl

theorem visible_some (doc : String) : visible (some doc) = Text.visible (linesOf doc) := rfl

theorem visible_nonBlank (doc : String) : visible (Text.nonBlank doc) = visible (some doc) := by
  unfold Text.nonBlank
  split
  · rename_i silent
    rw [visible_none, visible_some, Text.visible_linesOf_of_blank silent]
  · rfl

/-- Making a doc of lines keeps what they say. -/
theorem visible_ofLines {lines : List String} (tidy : ∀ line ∈ lines, Text.Tidy line) :
    visible (ofLines lines) = Text.visible lines := by
  have inside := (dropBlankStart_suffix lines).subset
  have trimmed : Trimmed (dropBlankEnd (dropBlankStart lines)) :=
    .dropBlankEnd (fun line member => tidy line (inside member))
      (not_blank_head_dropBlankStart lines)
  obtain ⟨gap, blankEnd, behind, _⟩ := dropBlankEnd_append (dropBlankStart lines)
  have front : ∀ line ∈ lines.takeWhile blank, blank line = true :=
    fun line member => (List.mem_takeWhile_imp member)
  have kept : Text.visible lines = Text.visible (dropBlankEnd (dropBlankStart lines)) := by
    conv_lhs => rw [← List.takeWhile_append_dropWhile (p := blank) (l := lines)]
    rw [Text.visible_append, Text.visible_of_blank front, List.nil_append,
      show lines.dropWhile blank = dropBlankStart lines from rfl, behind, Text.visible_append,
      Text.visible_of_blank blankEnd, List.append_nil, ← behind]
  unfold ofLines
  split
  · rename_i none
    rw [kept, none]
    rfl
  · rw [visible_some, trimmed.linesOf_unlines, kept]

theorem visible_intercalate (docs : List String) :
    Text.visible (linesOf ("\n\n".intercalate docs)) =
      docs.flatMap fun doc => Text.visible (linesOf doc) := by
  induction docs with
  | nil => rfl
  | cons doc rest ih =>
    cases rest with
    | nil => simp
    | cons second more =>
      have gap : doc ++ "\n\n" ++ "\n\n".intercalate (second :: more) =
          doc ++ "\n" ++ ("" ++ "\n" ++ "\n\n".intercalate (second :: more)) := by
        have parted : ("\n\n" : String) = "\n" ++ "\n" := by decide
        rw [String.empty_append, parted]
        simp only [String.append_assoc]
      rw [String.intercalate_cons_cons, gap, Text.visible_linesOf_append,
        Text.visible_linesOf_append, ih]
      rfl

/-- Joining docs keeps what they say. -/
theorem visible_join (docs : List (Option String)) : visible (join docs) = docs.flatMap visible := by
  have same : docs.flatMap visible = ((docs.filterMap id).filter fun doc => !blank doc).flatMap
      fun doc => Text.visible (linesOf doc) := by
    induction docs with
    | nil => rfl
    | cons doc rest ih =>
      cases doc with
      | none => simpa using ih
      | some doc =>
        cases silent : blank doc with
        | true => simpa [silent, visible_some, Text.visible_linesOf_of_blank silent] using ih
        | false => simp [silent, ih, visible_some]
  rw [same]
  unfold join
  split
  · rename_i none
    rw [none]
    rfl
  · rw [visible_some, visible_intercalate]

end Doc

/-! ## Outlines -/

namespace Outline

open Text (blank)

theorem trim_dropColumns (width : Nat) (text : List Char) :
    Text.trim (dropColumns width text) = Text.trim text := by
  induction text generalizing width with
  | nil => rfl
  | cons c rest ih =>
    rw [dropColumns]
    split
    · rfl
    · rename_i dropped
      have here : Text.isBlank c = true := by simp at dropped; exact dropped.2
      rw [ih, Text.trim, Text.trim, Text.trimStart_of_blank here]

theorem trimmed_dedentLine (width : Nat) (line : String) :
    Text.trimmed (dedentLine width line) = Text.trimmed line := by
  unfold dedentLine
  split
  · rename_i nothing
    rw [Text.trimmed_eq_empty_iff.mpr nothing]
    rfl
  · rw [Text.trimmed, String.toList_ofList, Text.trim_trimEnd, trim_dropColumns, Text.trimmed]

theorem visible_dedent (lines : List String) :
    Text.visible (dedent lines) = Text.visible lines := by
  refine Text.visible_congr ?_
  rw [dedent, List.map_map]
  exact List.map_congr_left fun line _ => trimmed_dedentLine _ line

theorem prefix_owned (own : Nat) (lines : List String) : owned own lines <+: lines := by
  obtain ⟨gap, _, same, _⟩ :=
    Doc.dropBlankEnd_append (lines.takeWhile fun line => blank line || own < indent line)
  have within : owned own lines <+: owned own lines ++ gap := List.prefix_append _ gap
  rw [owned, ← same] at within
  exact within.trans (List.takeWhile_prefix _)

/-- A line with its body, as it stands in the block. -/
def Line.own (line : Line) : List String := line.text :: line.body

/-- The visible lines of an outline are those of the block, in their order. -/
theorem visible_linesFrom (before : Bool) (skipped : Nat) (lines : List String) :
    Text.visible ((linesFrom before skipped lines).flatMap Line.own) =
      Text.visible (lines.drop skipped) := by
  induction lines generalizing before skipped with
  | nil => simp [linesFrom]
  | cons line rest ih =>
    cases skipped with
    | succ skipped => simpa [linesFrom] using ih before skipped
    | zero =>
      rw [linesFrom, List.drop_zero, Text.visible_cons]
      split
      · rename_i nothing
        rw [List.flatMap_cons, Text.visible_append, ih true 0, List.drop_zero,
          @Text.visible_of_blank [line] (by simpa using nothing)]
        rfl
      · have body := List.prefix_iff_eq_append.mp (prefix_owned (indent line) rest)
        have length : (dedent (owned (indent line) rest)).length =
            (owned (indent line) rest).length := by simp [dedent]
        dsimp only
        rw [List.flatMap_cons, Text.visible_append, ih false, Line.own, Text.visible_cons,
          visible_dedent, ← Text.trimmed, Text.visible_trimmed, List.append_assoc,
          ← Text.visible_append, body]

theorem visible_ofText (text : String) :
    Text.visible ((ofText text).flatMap Line.own) = Text.visible (Text.linesOf text) := by
  rw [ofText, ofLines, visible_linesFrom, List.drop_zero, visible_dedent]

end Outline

end DocShapes
