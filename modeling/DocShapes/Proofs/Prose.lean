import DocShapes.Catalog.Block
import DocShapes.Proofs.DocLines

/-! # Prose of a block

An outline takes the blanks off both ends of its lines and off the ends of the lines of its bodies.
So the docs that are made of the prose of a block are tidy, at any depth.
-/

namespace DocShapes

namespace Text

theorem prefix_trimEnd (text : List Char) : trimEnd text <+: text := by
  induction text with
  | nil => exact List.nil_prefix
  | cons c rest ih =>
    rw [trimEnd]
    split
    · split
      · exact List.nil_prefix
      · exact List.cons_prefix_cons.mpr ⟨rfl, List.nil_prefix⟩
    · exact List.cons_prefix_cons.mpr ⟨rfl, ih⟩

theorem trimEnd_trimEnd (text : List Char) : trimEnd (trimEnd text) = trimEnd text := by
  induction text with
  | nil => rfl
  | cons c rest ih =>
    rw [trimEnd]
    split
    · split
      · rfl
      · rename_i visible
        simp [trimEnd, visible]
    · rename_i nonempty
      rw [trimEnd, ih]
      split
      · exact absurd ‹_› nonempty
      · rfl

theorem tidy_trimEnd {text : List Char} (unbroken : '\n' ∉ text) :
    Tidy (String.ofList (trimEnd text)) := by
  refine ⟨?_, ?_⟩
  · rw [String.toList_ofList]
    exact fun inside => unbroken ((prefix_trimEnd text).subset inside)
  · rw [String.toList_ofList, trimEnd_trimEnd]

theorem unbroken_of_mem_lines {text line : List Char} (member : line ∈ lines text) :
    '\n' ∉ line := by
  induction text generalizing line with
  | nil => cases member
  | cons c rest ih =>
    rw [lines] at member
    split at member
    · rcases List.mem_cons.mp member with rfl | later
      · exact List.not_mem_nil
      · exact ih later
    · rename_i first
      have other : '\n' ≠ c := Ne.symm first
      split at member
      · exact ih member
      · split at member
        · rw [List.mem_singleton.mp member]
          simpa using other
        · rename_i next more same
          rcases List.mem_cons.mp member with rfl | later
          · exact List.not_mem_cons_of_ne_of_not_mem other (ih (same ▸ List.mem_cons_self))
          · exact ih (same ▸ List.mem_cons_of_mem next later)

theorem unbroken_of_mem_linesOf {text line : String} (member : line ∈ linesOf text) :
    '\n' ∉ line.toList := by
  obtain ⟨own, inside, rfl⟩ := List.mem_map.mp member
  rw [String.toList_ofList]
  exact unbroken_of_mem_lines inside

end Text

namespace Outline

open Text (blank)

/-! ## Lines -/

theorem dropColumns_suffix (width : Nat) (text : List Char) : dropColumns width text <:+ text := by
  induction text generalizing width with
  | nil => exact List.nil_suffix
  | cons c rest ih =>
    rw [dropColumns]
    split
    · exact List.suffix_rfl
    · exact (ih _).trans (List.suffix_cons c rest)

theorem tidy_of_mem_dedent {lines : List String} (unbroken : ∀ line ∈ lines, '\n' ∉ line.toList) :
    ∀ line ∈ dedent lines, Text.Tidy line := by
  intro line member
  obtain ⟨own, inside, rfl⟩ := List.mem_map.mp member
  unfold dedentLine
  split
  · exact Text.tidy_empty
  · exact Text.tidy_trimEnd fun broken =>
      unbroken own inside ((dropColumns_suffix _ _).subset broken)

/-- A line of an outline whose own text and whose body are tidy. -/
structure Line.Tidy (line : Line) : Prop where
  text : Text.Tidy line.text
  body : ∀ other ∈ line.body, Text.Tidy other

theorem owned_subset (own : Nat) (lines : List String) : owned own lines ⊆ lines := by
  obtain ⟨gap, _, same, _⟩ :=
    Doc.dropBlankEnd_append (lines.takeWhile fun line => blank line || own < indent line)
  have within := (List.takeWhile_prefix (l := lines)
    fun line => blank line || own < indent line).subset
  rw [same] at within
  exact fun line member => within (List.mem_append_left gap member)

theorem tidy_of_mem_linesFrom {before : Bool} {skipped : Nat} {lines : List String} {line : Line}
    (unbroken : ∀ line ∈ lines, '\n' ∉ line.toList)
    (member : line ∈ linesFrom before skipped lines) : line.Tidy := by
  induction lines generalizing before skipped with
  | nil => simp [linesFrom] at member
  | cons first rest ih =>
    obtain ⟨firstUnbroken, restUnbroken⟩ := List.forall_mem_cons.mp unbroken
    cases skipped with
    | succ skipped => exact ih restUnbroken member
    | zero =>
      rw [linesFrom] at member
      split at member
      · rcases List.mem_cons.mp member with rfl | later
        · exact ⟨Text.tidy_empty, by simp [blankLine]⟩
        · exact ih restUnbroken later
      · rcases List.mem_cons.mp member with rfl | later
        · refine ⟨Text.tidy_trimEnd fun broken => ?_, tidy_of_mem_dedent fun other inside => ?_⟩
          · exact firstUnbroken ((List.dropWhile_suffix _).subset broken)
          · exact restUnbroken other (owned_subset _ _ inside)
        · exact ih restUnbroken later

theorem tidy_of_mem_ofLines {lines : List String} (tidy : ∀ line ∈ lines, Text.Tidy line) :
    ∀ line ∈ ofLines lines, line.Tidy :=
  fun _ member => tidy_of_mem_linesFrom (fun other inside => (tidy other inside).unbroken) member

theorem tidy_of_mem_ofText (text : String) : ∀ line ∈ ofText text, line.Tidy :=
  tidy_of_mem_ofLines (tidy_of_mem_dedent fun _ => Text.unbroken_of_mem_linesOf)

end Outline

namespace Catalog

/-- An indented line of prose is indented again by four blanks. -/
theorem tidy_indented {line : String} (tidy : Text.Tidy line) :
    Text.Tidy (if line.isEmpty then line else "    " ++ line) := by
  split
  · exact tidy
  · rename_i nonempty
    have visible : Text.trimEnd line.toList ≠ [] := by
      rw [tidy.stripped]
      exact fun empty => nonempty (String.isEmpty_iff.mpr (String.toList_eq_nil_iff.mp empty))
    refine ⟨?_, ?_⟩
    · rw [String.toList_append, List.mem_append]
      exact fun broken => broken.elim (by decide) tidy.unbroken
    · rw [String.toList_append, Text.trimEnd_append_of_ne_nil visible, tidy.stripped]

theorem tidy_of_mem_proseLines {line : Outline.Line} (tidy : line.Tidy) :
    ∀ other ∈ proseLines line, Text.Tidy other := by
  rw [proseLines, List.forall_mem_cons, List.forall_mem_map]
  exact ⟨tidy.text, fun other member => tidy_indented (tidy.body other member)⟩

end Catalog

end DocShapes
