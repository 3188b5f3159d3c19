import DocShapes.Doc
import Mathlib.Data.List.Infix

/-! # Docs as lists of lines

A doc that a block gives is a list of tidy lines, of which neither the first nor the last one is
blank. For such docs the common tail is the longest run of last lines that all of them share, less
the blank lines at its start, and a doc is its remainder, some blank lines, and the tail
(`remainder_commonTail`).
-/

namespace DocShapes

namespace Text

/-! ## Blanks at the end -/

theorem trimEnd_append_of_eq_nil {right : List Char} (blank : trimEnd right = [])
    (left : List Char) : trimEnd (left ++ right) = trimEnd left := by
  induction left with
  | nil => simpa [trimEnd] using blank
  | cons c rest ih => rw [List.cons_append, trimEnd, ih, trimEnd]

theorem trimEnd_append_of_ne_nil {right : List Char} (visible : trimEnd right ≠ [])
    (left : List Char) : trimEnd (left ++ right) = left ++ trimEnd right := by
  induction left with
  | nil => rfl
  | cons c rest ih =>
    rw [List.cons_append, trimEnd, ih]
    split
    · rename_i empty
      exact absurd (List.append_eq_nil_iff.mp empty).2 visible
    · rfl

theorem trimEnd_eq_nil_iff {text : List Char} :
    trimEnd text = [] ↔ ∀ c ∈ text, isBlank c = true := by
  induction text with
  | nil => simp [trimEnd]
  | cons c rest ih =>
    rw [List.forall_mem_cons, ← ih, trimEnd]
    split
    · rename_i empty
      simp [empty]
    · rename_i kept
      exact iff_of_false (by simp) fun both => kept both.2

theorem length_trimEnd_le (text : List Char) : (trimEnd text).length ≤ text.length := by
  induction text with
  | nil => simp [trimEnd]
  | cons c rest ih =>
    rw [trimEnd]
    split
    · split <;> simp
    · simpa using ih

theorem blank_iff {text : String} : blank text = true ↔ trimEnd text.toList = [] := by
  rw [trimEnd_eq_nil_iff, blank, List.all_eq_true]

/-- A line as it stands in a doc: without a line break, and without blanks at its end. -/
structure Tidy (line : String) : Prop where
  unbroken : '\n' ∉ line.toList
  stripped : trimEnd line.toList = line.toList

theorem tidy_empty : Tidy "" := ⟨by decide, by decide⟩

theorem Tidy.eq_empty {line : String} (tidy : Tidy line) (nothing : blank line = true) :
    line = "" := by
  rw [blank_iff, tidy.stripped] at nothing
  exact String.toList_eq_nil_iff.mp nothing

/-- A line without blanks at its end does not end in a carriage return. -/
theorem Tidy.getLast?_ne {line : String} (tidy : Tidy line) :
    line.toList.getLast? ≠ some '\r' := by
  intro ended
  obtain ⟨start, same⟩ := List.getLast?_eq_some_iff.mp ended
  have stripped := congrArg List.length tidy.stripped
  rw [same, trimEnd_append_of_eq_nil (by decide), List.length_append] at stripped
  have short := length_trimEnd_le start
  simp only [List.length_singleton] at stripped
  omega

/-! ## Lines and their joins -/

theorem lines_append_feed {line : List Char} (rest : List Char) (unbroken : '\n' ∉ line)
    (ended : line.getLast? ≠ some '\r') : lines (line ++ '\n' :: rest) = line :: lines rest := by
  induction line with
  | nil => simp
  | cons c more ih =>
    obtain ⟨first, others⟩ := List.ne_and_not_mem_of_not_mem_cons unbroken
    have tail : lines (more ++ '\n' :: rest) = more :: lines rest := by
      refine ih others fun last => ended ?_
      cases more with
      | nil => cases last
      | cons => simpa using last
    have inside : ¬(c = '\r' ∧ (more ++ '\n' :: rest).head? = some '\n') := by
      rintro ⟨rfl, feed⟩
      cases more with
      | nil => exact ended rfl
      | cons next => simp_all
    rw [List.cons_append, lines, if_neg (Ne.symm first), if_neg inside, tail]

theorem lines_of_unbroken {line : List Char} (nonempty : line ≠ []) (unbroken : '\n' ∉ line) :
    lines line = [line] := by
  induction line with
  | nil => exact absurd rfl nonempty
  | cons c rest ih =>
    obtain ⟨first, others⟩ := List.ne_and_not_mem_of_not_mem_cons unbroken
    have inside : ¬(c = '\r' ∧ rest.head? = some '\n') := by
      rintro ⟨-, feed⟩
      exact others (List.mem_of_mem_head? feed)
    rw [lines, if_neg (Ne.symm first), if_neg inside]
    cases rest with
    | nil => rfl
    | cons => rw [ih (by simp) others]

theorem unlines_cons_cons (first second : String) (rest : List String) :
    unlines (first :: second :: rest) = first ++ "\n" ++ unlines (second :: rest) :=
  String.intercalate_cons_cons

theorem toList_unlines_cons_cons (first second : String) (rest : List String) :
    (unlines (first :: second :: rest)).toList =
      first.toList ++ '\n' :: (unlines (second :: rest)).toList := by
  simp [unlines_cons_cons]

theorem mem_toList_unlines {line : String} {lines : List String} {c : Char}
    (member : line ∈ lines) (inside : c ∈ line.toList) : c ∈ (unlines lines).toList := by
  induction lines with
  | nil => cases member
  | cons first rest ih =>
    cases rest with
    | nil =>
      rw [List.mem_singleton.mp member] at inside
      simpa [unlines] using inside
    | cons second more =>
      rw [toList_unlines_cons_cons]
      rcases List.mem_cons.mp member with rfl | later
      · exact List.mem_append_left _ inside
      · exact List.mem_append_right _ (List.mem_cons_of_mem _ (ih later))

/-- Tidy lines, of which the last one is not empty, are the lines of their join. -/
theorem linesOf_unlines {parts : List String} (tidy : ∀ line ∈ parts, Tidy line)
    (last : parts.getLast? ≠ some "") : linesOf (unlines parts) = parts := by
  induction parts with
  | nil => rfl
  | cons first rest ih =>
    obtain ⟨firstTidy, restTidy⟩ := List.forall_mem_cons.mp tidy
    cases rest with
    | nil =>
      have nonempty : first.toList ≠ [] := fun empty =>
        last (by simp [String.toList_eq_nil_iff.mp empty])
      simp [linesOf, unlines, lines_of_unbroken nonempty firstTidy.unbroken]
    | cons second more =>
      rw [linesOf, toList_unlines_cons_cons,
        lines_append_feed _ firstTidy.unbroken firstTidy.getLast?_ne, List.map_cons,
        String.ofList_toList]
      exact congrArg _ (ih restTidy (by simpa using last))

theorem unlines_append {left right : List String} (leftNonempty : left ≠ [])
    (rightNonempty : right ≠ []) :
    unlines (left ++ right) = unlines left ++ "\n" ++ unlines right := by
  induction left with
  | nil => exact absurd rfl leftNonempty
  | cons first rest ih =>
    cases rest with
    | nil =>
      cases right with
      | nil => exact absurd rfl rightNonempty
      | cons second more => simp [unlines]
    | cons second more =>
      rw [List.cons_append, List.cons_append, unlines_cons_cons, unlines_cons_cons,
        ← List.cons_append, ih (by simp)]
      simp only [String.append_assoc]

/-- Tidy lines in front of a text stay lines of it. -/
theorem linesOf_unlines_append {parts : List String} (tidy : ∀ line ∈ parts, Tidy line)
    (nonempty : parts ≠ []) (rest : String) :
    linesOf (unlines parts ++ "\n" ++ rest) = parts ++ linesOf rest := by
  induction parts with
  | nil => exact absurd rfl nonempty
  | cons first more ih =>
    obtain ⟨firstTidy, moreTidy⟩ := List.forall_mem_cons.mp tidy
    have lead (text : String) : linesOf (first ++ "\n" ++ text) = first :: linesOf text := by
      have same : (first ++ "\n" ++ text).toList = first.toList ++ '\n' :: text.toList := by simp
      rw [linesOf, same, lines_append_feed _ firstTidy.unbroken firstTidy.getLast?_ne,
        List.map_cons, String.ofList_toList]
      rfl
    cases more with
    | nil => simpa [unlines] using lead rest
    | cons second others =>
      have same : unlines (first :: second :: others) ++ "\n" ++ rest =
          first ++ "\n" ++ (unlines (second :: others) ++ "\n" ++ rest) := by
        simp only [unlines_cons_cons, String.append_assoc]
      rw [same, lead, ih moreTidy (by simp)]
      rfl

end Text

namespace Doc

open Text (Tidy blank linesOf unlines)

/-! ## Runs of lines without blank ends -/

/-- Tidy lines, of which neither the first nor the last one is blank. -/
structure Trimmed (lines : List String) : Prop where
  tidy : ∀ line ∈ lines, Tidy line
  first : ∀ line ∈ lines.head?, blank line = false
  last : ∀ line ∈ lines.getLast?, blank line = false

theorem Trimmed.nil : Trimmed [] := ⟨by simp, by simp, by simp⟩

theorem Trimmed.linesOf_unlines {lines : List String} (trimmed : Trimmed lines) :
    linesOf (unlines lines) = lines := by
  refine Text.linesOf_unlines trimmed.tidy fun ended => ?_
  exact absurd (trimmed.last "" ended) (by decide)

/-- A text with a visible line is not blank. -/
theorem blank_unlines_eq_false {line : String} {lines : List String} (member : line ∈ lines)
    (visible : blank line = false) : blank (unlines lines) = false := by
  rw [← Bool.not_eq_true, Text.blank_iff, Text.trimEnd_eq_nil_iff] at visible ⊢
  refine fun all => visible fun c inside => all c ?_
  exact Text.mem_toList_unlines member inside

theorem Trimmed.not_blank_unlines {lines : List String} (trimmed : Trimmed lines)
    (nonempty : lines ≠ []) : blank (unlines lines) = false := by
  cases lines with
  | nil => exact absurd rfl nonempty
  | cons first => exact blank_unlines_eq_false List.mem_cons_self (trimmed.first first rfl)

theorem dropBlankStart_suffix (lines : List String) : dropBlankStart lines <:+ lines :=
  List.dropWhile_suffix _

theorem not_blank_head_dropBlankStart (lines : List String) :
    ∀ line ∈ (dropBlankStart lines).head?, blank line = false := by
  intro line member
  have := List.head?_dropWhile_not blank lines
  rw [show lines.dropWhile blank = dropBlankStart lines from rfl,
    Option.mem_def.mp member] at this
  simpa using this

/-- What is dropped at the end is blank, and what is left ends in a visible line. -/
theorem dropBlankEnd_append (lines : List String) :
    ∃ gap, (∀ line ∈ gap, blank line = true) ∧ lines = dropBlankEnd lines ++ gap ∧
      ∀ line ∈ (dropBlankEnd lines).getLast?, blank line = false := by
  induction lines with
  | nil => exact ⟨[], by simp, rfl, by simp [dropBlankEnd]⟩
  | cons line rest ih =>
    obtain ⟨gap, blanks, same, visible⟩ := ih
    rw [dropBlankEnd]
    split
    · rename_i empty
      rw [empty, List.nil_append] at same
      by_cases here : blank line = true
      · exact ⟨line :: rest, by simpa [here, same] using blanks, by simp [here], by simp [here]⟩
      · exact ⟨rest, same ▸ blanks, by simp [here], by simp [here]⟩
    · rename_i kept nonempty
      refine ⟨gap, blanks, by rw [List.cons_append, ← same], ?_⟩
      cases found : dropBlankEnd rest with
      | nil => exact absurd found nonempty
      | cons => simpa [found] using visible

theorem Trimmed.dropBlankEnd {lines : List String} (tidy : ∀ line ∈ lines, Tidy line)
    (first : ∀ line ∈ lines.head?, blank line = false) : Trimmed (Doc.dropBlankEnd lines) := by
  obtain ⟨gap, _, same, last⟩ := dropBlankEnd_append lines
  have inside : ∀ line ∈ Doc.dropBlankEnd lines, line ∈ lines := fun line member => by
    rw [same]
    exact List.mem_append_left gap member
  refine ⟨fun line member => tidy line (inside line member), fun line member => ?_, last⟩
  refine first line ?_
  rw [same, Option.mem_def, List.head?_append, Option.mem_def.mp member]
  rfl

/-- A text of tidy lines loses its last blank lines when it is stripped. -/
theorem trimEnd_unlines {lines : List String} (tidy : ∀ line ∈ lines, Tidy line) :
    Text.trimEnd (unlines lines).toList = (unlines (Doc.dropBlankEnd lines)).toList := by
  induction lines with
  | nil => rfl
  | cons line rest ih =>
    obtain ⟨lineTidy, restTidy⟩ := List.forall_mem_cons.mp tidy
    have alone : Text.trimEnd line.toList =
        (unlines (if blank line = true then [] else [line])).toList := by
      split
      · rename_i nothing
        rw [Text.blank_iff.mp nothing]
        rfl
      · simpa [unlines] using lineTidy.stripped
    cases rest with
    | nil => simpa [Doc.dropBlankEnd, unlines] using alone
    | cons second more =>
      have tail := ih restTidy
      rw [Text.toList_unlines_cons_cons, Doc.dropBlankEnd]
      have front : line.toList ++ '\n' :: (unlines (second :: more)).toList =
          (line.toList ++ ['\n']) ++ (unlines (second :: more)).toList := by simp
      obtain ⟨_, _, _, last⟩ := dropBlankEnd_append (second :: more)
      rw [front]
      split
      · rename_i empty
        rw [empty] at tail
        rw [Text.trimEnd_append_of_eq_nil tail, Text.trimEnd_append_of_eq_nil (by decide), alone]
      · rename_i kept nonempty
        cases found : Doc.dropBlankEnd (second :: more) with
        | nil => exact absurd found nonempty
        | cons third others =>
          rw [found] at tail last
          -- The last kept line is visible, so something is left of the text.
          have visible : Text.trimEnd (unlines (second :: more)).toList ≠ [] := by
            obtain ⟨final, ended⟩ : ∃ final, (third :: others).getLast? = some final :=
              ⟨_, List.getLast?_eq_some_getLast (by simp)⟩
            have stripped := (blank_unlines_eq_false (List.mem_of_getLast? ended)
              (last final ended))
            rw [← Bool.not_eq_true, Text.blank_iff, ← tail] at stripped
            exact fun nothing => stripped (by rw [nothing]; rfl)
          rw [Text.trimEnd_append_of_ne_nil visible, tail, Text.toList_unlines_cons_cons]
          simp

/-! ## Docs of blocks -/

/-- A doc as a block gives it. -/
structure Tidy (doc : String) : Prop where
  trimmed : Trimmed (linesOf doc)
  joined : unlines (linesOf doc) = doc
  nonempty : linesOf doc ≠ []

theorem tidy_unlines {lines : List String} (trimmed : Trimmed lines) (nonempty : lines ≠ []) :
    Doc.Tidy (unlines lines) := by
  have same := trimmed.linesOf_unlines
  exact ⟨same.symm ▸ trimmed, by rw [same], same.symm ▸ nonempty⟩

theorem Tidy.not_blank {doc : String} (tidy : Doc.Tidy doc) : blank doc = false := by
  rw [← tidy.joined]
  exact tidy.trimmed.not_blank_unlines tidy.nonempty

/-- The doc of a run of tidy lines is tidy. -/
theorem tidy_of_ofLines {lines : List String} {doc : String}
    (tidy : ∀ line ∈ lines, Text.Tidy line) (found : ofLines lines = some doc) :
    Doc.Tidy doc := by
  have inside := (dropBlankStart_suffix lines).subset
  unfold ofLines at found
  split at found
  · cases found
  · rename_i kept nonempty
    cases found
    exact tidy_unlines (.dropBlankEnd (fun line member => tidy line (inside member))
      (not_blank_head_dropBlankStart lines)) nonempty

/-- Docs that are joined keep their lines, with an empty line between each two of them. -/
theorem tidy_intercalate {docs : List String} (tidy : ∀ doc ∈ docs, Doc.Tidy doc)
    (nonempty : docs ≠ []) : Doc.Tidy ("\n\n".intercalate docs) := by
  induction docs with
  | nil => exact absurd rfl nonempty
  | cons doc rest ih =>
    obtain ⟨docTidy, restTidy⟩ := List.forall_mem_cons.mp tidy
    cases rest with
    | nil => simpa using docTidy
    | cons second more =>
      have tail := ih restTidy (by simp)
      rw [String.intercalate_cons_cons]
      generalize "\n\n".intercalate (second :: more) = joined at tail
      have gap : ("\n\n" : String) = "\n" ++ "\n" := by decide
      have same : doc ++ "\n\n" ++ joined =
          unlines (linesOf doc ++ ([""] ++ linesOf joined)) := by
        rw [Text.unlines_append docTidy.nonempty (by simp),
          Text.unlines_append (by simp) tail.nonempty, docTidy.joined, tail.joined]
        simp [unlines, String.append_assoc]
        rw [gap, String.append_assoc]
      rw [same]
      refine tidy_unlines ⟨?_, fun line member => ?_, fun line member => ?_⟩ (by simp)
      · have left := docTidy.trimmed.tidy
        have right := tail.trimmed.tidy
        simp only [List.mem_append, List.mem_singleton]
        rintro line (member | rfl | member)
        · exact left line member
        · exact Text.tidy_empty
        · exact right line member
      · refine docTidy.trimmed.first line ?_
        rwa [Option.mem_def, List.head?_append_of_ne_nil _ docTidy.nonempty] at member
      · refine tail.trimmed.last line ?_
        rwa [Option.mem_def, List.getLast?_append_of_ne_nil _ (by simp),
          List.getLast?_append_of_ne_nil _ tail.nonempty] at member

theorem tidy_of_join {docs : List (Option String)} {doc : String}
    (tidy : ∀ part, some part ∈ docs → Doc.Tidy part) (found : join docs = some doc) :
    Doc.Tidy doc := by
  unfold join at found
  split at found
  · cases found
  · rename_i nonempty
    cases found
    refine tidy_intercalate (fun part member => tidy part ?_) nonempty
    simpa using (List.mem_filter.mp member).1

/-! ## Common tails -/

theorem strip_of_tidy {line : String} (tidy : Text.Tidy line) : strip line = line := by
  rw [strip, tidy.stripped, String.ofList_toList]

theorem sharedStart_prefix_left (left right : List String) : sharedStart left right <+: left := by
  fun_induction sharedStart left right with
  | case1 first _ second _ _ ih => exact List.cons_prefix_cons.mpr ⟨rfl, ih⟩
  | case2 => exact List.nil_prefix
  | case3 => exact List.nil_prefix

theorem sharedStart_prefix_right {left right : List String}
    (leftTidy : ∀ line ∈ left, Text.Tidy line) (rightTidy : ∀ line ∈ right, Text.Tidy line) :
    sharedStart left right <+: right := by
  fun_induction sharedStart left right with
  | case1 first lefts second rights same ih =>
    obtain ⟨firstTidy, leftTidy⟩ := List.forall_mem_cons.mp leftTidy
    obtain ⟨secondTidy, rightTidy⟩ := List.forall_mem_cons.mp rightTidy
    rw [strip_of_tidy firstTidy, strip_of_tidy secondTidy] at same
    exact List.cons_prefix_cons.mpr ⟨same, ih leftTidy rightTidy⟩
  | case2 => exact List.nil_prefix
  | case3 => exact List.nil_prefix

/-- What two lists both begin with is a part of what they share. -/
theorem prefix_sharedStart {run left right : List String} (fromLeft : run <+: left)
    (fromRight : run <+: right) : run <+: sharedStart left right := by
  induction run generalizing left right with
  | nil => exact List.nil_prefix
  | cons line rest ih =>
    obtain ⟨lefts, rfl⟩ := fromLeft
    obtain ⟨rights, rfl⟩ := fromRight
    simp only [List.cons_append, sharedStart, if_true]
    exact List.cons_prefix_cons.mpr
      ⟨rfl, ih (List.prefix_append _ _) (List.prefix_append _ _)⟩

/-- A run of lines that all docs end in, and that every other such run is the end of. -/
structure LongestCommonEnd (docs : List String) (run : List String) : Prop where
  common : ∀ doc ∈ docs, run <:+ linesOf doc
  longest : ∀ other : List String, (∀ doc ∈ docs, other <:+ linesOf doc) → other <:+ run

theorem longestCommonEnd_sharedEnd {docs : List String} (tidy : ∀ doc ∈ docs, Doc.Tidy doc)
    (nonempty : docs ≠ []) : LongestCommonEnd docs (sharedEnd docs).reverse := by
  have reversed {doc : String} (tidy : Doc.Tidy doc) :
      ∀ line ∈ (linesOf doc).reverse, Text.Tidy line :=
    fun line member => tidy.trimmed.tidy line (List.mem_reverse.mp member)
  have fold (others : List String) (othersTidy : ∀ doc ∈ others, Doc.Tidy doc)
      (shared : List String) (sharedTidy : ∀ line ∈ shared, Text.Tidy line) :
      let found := others.foldl (fun shared doc => sharedStart shared (linesOf doc).reverse) shared
      found <+: shared ∧ (∀ doc ∈ others, found <+: (linesOf doc).reverse) ∧
        ∀ run : List String, run <+: shared → (∀ doc ∈ others, run <+: (linesOf doc).reverse) →
          run <+: found := by
    induction others generalizing shared with
    | nil => exact ⟨List.prefix_rfl, by simp, fun run within _ => within⟩
    | cons doc rest ih =>
      obtain ⟨docTidy, restTidy⟩ := List.forall_mem_cons.mp othersTidy
      have next := sharedStart_prefix_left shared (linesOf doc).reverse
      obtain ⟨within, common, longest⟩ := ih restTidy (sharedStart shared (linesOf doc).reverse)
        fun line member => sharedTidy line (next.subset member)
      refine ⟨within.trans next, List.forall_mem_cons.mpr ⟨?_, common⟩, fun run inside all => ?_⟩
      · exact within.trans (sharedStart_prefix_right sharedTidy (reversed docTidy))
      · obtain ⟨first, others⟩ := List.forall_mem_cons.mp all
        exact longest run (prefix_sharedStart inside first) others
  cases docs with
  | nil => exact absurd rfl nonempty
  | cons first others =>
    obtain ⟨firstTidy, othersTidy⟩ := List.forall_mem_cons.mp tidy
    obtain ⟨within, common, longest⟩ := fold others othersTidy _ (reversed firstTidy)
    refine ⟨fun doc member => ?_, fun other all => ?_⟩
    · rw [← List.reverse_prefix, List.reverse_reverse]
      rcases List.mem_cons.mp member with rfl | later
      · exact within
      · exact common doc later
    · rw [← List.reverse_prefix, List.reverse_reverse]
      simp only [← List.reverse_prefix] at all
      obtain ⟨first, rest⟩ := List.forall_mem_cons.mp all
      exact longest other.reverse first rest

/-- The end of a doc, from a visible line on, has no blank ends. -/
theorem Tidy.trimmed_of_suffix {doc : String} {run : List String} (tidy : Doc.Tidy doc)
    (ends : run <:+ linesOf doc) : Trimmed (dropBlankStart run) := by
  have within := (dropBlankStart_suffix run).trans ends
  refine ⟨fun line member => tidy.trimmed.tidy line (within.subset member),
    not_blank_head_dropBlankStart run, fun line member => tidy.trimmed.last line ?_⟩
  obtain ⟨start, same⟩ := within
  rw [← same, Option.mem_def, List.getLast?_append, Option.mem_def.mp member]
  rfl

/-! ## Remainders -/

/-- The lines of a doc that may be missing. -/
def linesOf? (doc : Option String) : List String := (doc.map linesOf).getD []

/-- The doc of a run of lines without blank lines at its start. -/
def ofRun (run : List String) : Option String :=
  if dropBlankStart run = [] then none else some (unlines (dropBlankStart run))

theorem linesOf?_ofRun {run : List String} (trimmed : Trimmed (dropBlankStart run)) :
    linesOf? (ofRun run) = dropBlankStart run := by
  unfold ofRun
  split
  · rename_i empty
    rw [empty]
    rfl
  · exact trimmed.linesOf_unlines

/-- The common tail as a doc. -/
theorem nonBlank_commonTail {docs : List String}
    (trimmed : Trimmed (dropBlankStart (sharedEnd docs).reverse)) :
    Text.nonBlank (commonTail docs) = ofRun (sharedEnd docs).reverse := by
  unfold ofRun Text.nonBlank commonTail
  split
  · rename_i nothing
    rw [if_pos]
    by_contra kept
    simp [trimmed.not_blank_unlines kept] at nothing
  · rename_i visible
    rw [if_neg]
    intro empty
    exact visible (by rw [empty]; decide)

/-- Stripping the join of tidy lines that begin with a visible one. -/
theorem stripped_unlines {lines : List String} (tidy : ∀ line ∈ lines, Text.Tidy line)
    (first : ∀ line ∈ lines.head?, blank line = false) :
    linesOf? (stripped (unlines lines)) = Doc.dropBlankEnd lines ∧
      ∀ doc ∈ stripped (unlines lines), Doc.Tidy doc := by
  have trimmed := Trimmed.dropBlankEnd tidy first
  rw [stripped, strip, trimEnd_unlines tidy, String.ofList_toList]
  by_cases empty : Doc.dropBlankEnd lines = []
  · rw [empty]
    exact ⟨by decide, fun doc member => by cases member⟩
  · rw [Text.nonBlank, trimmed.not_blank_unlines empty]
    refine ⟨trimmed.linesOf_unlines, fun doc member => ?_⟩
    cases member
    exact tidy_unlines trimmed empty

/-- A doc is what it says beyond the common tail, then blank lines, then the tail. -/
theorem remainder_commonTail {docs : List String} {doc : String}
    (tidy : ∀ doc ∈ docs, Doc.Tidy doc) (member : doc ∈ docs) :
    (∃ gap, (∀ line ∈ gap, blank line = true) ∧
      linesOf doc = linesOf? (remainder doc (commonTail docs)) ++ gap ++
        dropBlankStart (sharedEnd docs).reverse) ∧
      ∀ rest ∈ remainder doc (commonTail docs), Doc.Tidy rest := by
  have docTidy := tidy doc member
  have ends := (longestCommonEnd_sharedEnd tidy (List.ne_nil_of_mem member)).common doc member
  have trimmed := docTidy.trimmed_of_suffix ends
  obtain ⟨front, split⟩ := (dropBlankStart_suffix _).trans ends
  have frontTidy : ∀ line ∈ front, Text.Tidy line := fun line inside =>
    docTidy.trimmed.tidy line (split ▸ List.mem_append_left _ inside)
  have frontFirst : ∀ line ∈ front.head?, blank line = false := fun line inside => by
    refine docTidy.trimmed.first line ?_
    rw [← split, Option.mem_def, List.head?_append, Option.mem_def.mp inside]
    rfl
  -- Whatever the tail is, the remainder is the front without its last blank lines.
  have same : remainder doc (commonTail docs) = stripped (unlines front) := by
    unfold remainder commonTail
    by_cases empty : dropBlankStart (sharedEnd docs).reverse = []
    · rw [empty, List.append_nil] at split
      rw [empty, split, docTidy.joined]
      rfl
    · generalize dropBlankStart (sharedEnd docs).reverse = kept at *
      have visible : (unlines kept).isEmpty = false := by
        have shown := trimmed.not_blank_unlines empty
        rw [← Bool.not_eq_true, String.isEmpty_iff]
        intro nothing
        rw [nothing] at shown
        exact absurd shown (by decide)
      have take : (linesOf doc).take ((linesOf doc).length - kept.length) = front := by
        rw [← split]
        simp
      have drop : (linesOf doc).drop front.length = kept := by
        rw [← split]
        simp
      have short : kept.length ≤ (linesOf doc).length := by
        rw [← split]
        simp
      simp only [visible, Bool.false_eq_true, if_false, trimmed.linesOf_unlines, take, drop]
      simp [short]
  obtain ⟨lines, restTidy⟩ := stripped_unlines frontTidy frontFirst
  obtain ⟨gap, blanks, parts, _⟩ := dropBlankEnd_append front
  rw [same, lines]
  exact ⟨⟨gap, blanks, by rw [← parts, split]⟩, restTidy⟩

end Doc

end DocShapes
