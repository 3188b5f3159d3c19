import DocShapes.Proofs.Visible

/-! # Docs from their remainders

The common tail of some docs is found line by line, whatever blanks stand behind each line. A doc is
asked for the tail as a whole: its last lines are joined, as many as the tail has when it is cut into
lines again, and only the blanks at the very end of the join do not count. So a doc is its remainder
and the tail exactly if the tail does not end in an empty line and the doc has the lines in front of
the last visible one as the first doc has them (`reassembles_iff`). Otherwise its remainder is the
whole doc, the tail included.
-/

namespace DocShapes

/-! ## Lines in front of a line break -/

namespace Text

/-- A line in front of a line break is a line of the text, but for a carriage return at its end. -/
theorem exists_lines_append_feed {line : List Char} (unbroken : '\n' ∉ line) (rest : List Char) :
    ∃ first, lines (line ++ '\n' :: rest) = first :: lines rest ∧ trimEnd first = trimEnd line := by
  induction line with
  | nil => exact ⟨[], lines_cons_newline rest, rfl⟩
  | cons c more ih =>
    obtain ⟨here, later⟩ := List.ne_and_not_mem_of_not_mem_cons unbroken
    obtain ⟨first, parted, same⟩ := ih later
    rw [List.cons_append, lines, if_neg (Ne.symm here), parted]
    by_cases carriage : c = '\r' ∧ (more ++ '\n' :: rest).head? = some '\n'
    · rw [if_pos carriage]
      cases more with
      | nil =>
        rw [List.nil_append, lines_cons_newline, List.cons.injEq] at parted
        refine ⟨first, rfl, ?_⟩
        rw [← parted.1, carriage.1]
        decide
      | cons next others =>
        have feed : next = '\n' := by simpa using carriage.2
        exact absurd (feed ▸ List.mem_cons_self) later
    · rw [if_neg carriage]
      exact ⟨c :: first, rfl, trimEnd_cons_congr c same⟩

theorem head?_trimEnd {text : List Char} (nonempty : trimEnd text ≠ []) :
    (trimEnd text).head? = text.head? := by
  obtain ⟨behind, whole⟩ := prefix_trimEnd text
  conv_rhs => rw [← whole]
  rw [List.head?_append_of_ne_nil _ nonempty]

end Text

namespace Doc

open Text (blank linesOf unlines)

/-! ## What lines say, whatever blanks stand behind them -/

theorem blank_strip (line : String) : blank (strip line) = blank line := by
  rw [Bool.eq_iff_iff, Text.blank_iff, Text.blank_iff, strip, String.toList_ofList,
    Text.trimEnd_trimEnd]

theorem trimmed_strip (line : String) : Text.trimmed (strip line) = Text.trimmed line := by
  rw [Text.trimmed, strip, String.toList_ofList, Text.trim_trimEnd, Text.trimmed]

theorem dropBlankEnd_cons (line : String) (rest : List String) :
    dropBlankEnd (line :: rest) =
      if dropBlankEnd rest = [] ∧ blank line = true then [] else line :: dropBlankEnd rest := by
  rw [dropBlankEnd]
  cases dropBlankEnd rest with
  | nil => simp
  | cons => simp

theorem dropBlankEnd_dropBlankEnd (lines : List String) :
    dropBlankEnd (dropBlankEnd lines) = dropBlankEnd lines := by
  induction lines with
  | nil => rfl
  | cons line rest ih =>
    rw [dropBlankEnd_cons]
    split
    · rfl
    · rename_i kept
      rw [dropBlankEnd_cons, ih, if_neg kept]

/-- Lines without the blanks behind them and without the blank lines at their end. -/
def said (lines : List String) : List String := dropBlankEnd (lines.map strip)

theorem said_nil : said [] = [] := rfl

theorem said_cons (line : String) (rest : List String) :
    said (line :: rest) =
      if said rest = [] ∧ blank line = true then [] else strip line :: said rest := by
  rw [said, List.map_cons, dropBlankEnd_cons, blank_strip]
  rfl

theorem said_cons_congr {left right : String} {lefts rights : List String}
    (first : strip left = strip right) (rest : said lefts = said rights) :
    said (left :: lefts) = said (right :: rights) := by
  rw [said_cons, said_cons, rest, ← blank_strip left, first, blank_strip]

theorem said_congr {left right : List String} (same : left.map strip = right.map strip) :
    said left = said right := by
  rw [said, same, said]

theorem said_append_congr (front : List String) {left right : List String}
    (same : said left = said right) : said (front ++ left) = said (front ++ right) := by
  induction front with
  | nil => exact same
  | cons line rest ih => exact said_cons_congr rfl ih

/-- What lines say is what they are without their last blank lines. -/
theorem exists_said_append (lines : List String) :
    ∃ gap, (∀ line ∈ gap, blank line = true) ∧ lines.map strip = said lines ++ gap := by
  obtain ⟨gap, silent, same, _⟩ := dropBlankEnd_append (lines.map strip)
  exact ⟨gap, silent, same⟩

theorem visible_said (lines : List String) : Text.visible (said lines) = Text.visible lines := by
  obtain ⟨gap, silent, same⟩ := exists_said_append lines
  calc
    Text.visible (said lines) = Text.visible (said lines ++ gap) := by
      rw [Text.visible_append, Text.visible_of_blank silent, List.append_nil]
    _ = Text.visible (lines.map strip) := by rw [same]
    _ = Text.visible lines := Text.visible_congr (by simp [trimmed_strip])

/-- The lines of a text that was made of lines say what those said. -/
theorem said_linesOf_unlines {parts : List String} (unbroken : ∀ line ∈ parts, '\n' ∉ line.toList) :
    said (linesOf (unlines parts)) = said parts := by
  induction parts with
  | nil => rfl
  | cons first rest ih =>
    obtain ⟨firstUnbroken, restUnbroken⟩ := List.forall_mem_cons.mp unbroken
    cases rest with
    | nil =>
      by_cases empty : first = ""
      · rw [empty]
        decide
      · have nonempty : first.toList ≠ [] := fun none => empty (String.toList_eq_nil_iff.mp none)
        simp [linesOf, unlines, Text.lines_of_unbroken nonempty firstUnbroken]
    | cons second more =>
      obtain ⟨shown, parted, same⟩ :=
        Text.exists_lines_append_feed firstUnbroken (unlines (second :: more)).toList
      rw [linesOf, Text.toList_unlines_cons_cons, parted, List.map_cons]
      refine said_cons_congr ?_ (ih restUnbroken)
      rw [strip, String.toList_ofList, same, strip]

/-- Only an empty line at the end is no line of a text that was made of lines. -/
theorem length_linesOf_unlines {parts : List String}
    (unbroken : ∀ line ∈ parts, '\n' ∉ line.toList) :
    (linesOf (unlines parts)).length =
      parts.length - if parts.getLast? = some "" then 1 else 0 := by
  induction parts with
  | nil => rfl
  | cons first rest ih =>
    obtain ⟨firstUnbroken, restUnbroken⟩ := List.forall_mem_cons.mp unbroken
    cases rest with
    | nil =>
      by_cases empty : first = ""
      · simp [empty, unlines, linesOf]
      · have nonempty : first.toList ≠ [] := fun none => empty (String.toList_eq_nil_iff.mp none)
        simp [linesOf, unlines, Text.lines_of_unbroken nonempty firstUnbroken, empty]
    | cons second more =>
      obtain ⟨shown, parted, -⟩ :=
        Text.exists_lines_append_feed firstUnbroken (unlines (second :: more)).toList
      have tail := ih restUnbroken
      rw [linesOf, List.length_map] at tail
      rw [linesOf, Text.toList_unlines_cons_cons, parted, List.map_cons, List.length_cons,
        List.length_map, tail, List.getLast?_cons_cons]
      split
      · simp
      · simp

/-! ## Texts without blanks at their end -/

theorem said_eq_nil_iff {lines : List String} :
    said lines = [] ↔ ∀ line ∈ lines, blank line = true := by
  induction lines with
  | nil => simp [said_nil]
  | cons line rest ih =>
    rw [said_cons, List.forall_mem_cons, ← ih]
    split
    · rename_i silent
      simp [silent]
    · rename_i shown
      simp only [List.cons_ne_nil, false_iff]
      exact fun both => shown both.symm

theorem blank_ofList {line : List Char} :
    blank (String.ofList line) = true ↔ Text.trimEnd line = [] := by
  rw [Text.blank_iff, String.toList_ofList]

theorem said_lines_of_blank {text : List Char} (silent : Text.trimEnd text = []) :
    said ((Text.lines text).map String.ofList) = [] := by
  rw [said_eq_nil_iff, List.forall_mem_map]
  intro line member
  rw [blank_ofList, Text.trimEnd_eq_nil_iff]
  rw [Text.trimEnd_eq_nil_iff] at silent
  exact fun c inside => silent c (Text.subset_of_mem_lines member inside)

/-- A character in front of a line that says something is part of what the line says. -/
theorem said_extend (c : Char) {line shown : List Char} {rest others : List String}
    (same : said (String.ofList line :: rest) = String.ofList (Text.trimEnd shown) :: others) :
    said (String.ofList (c :: line) :: rest) =
      String.ofList (Text.trimEnd (c :: shown)) :: others := by
  rw [said_cons] at same ⊢
  split at same
  · cases same
  · rename_i visible
    rw [List.cons.injEq, strip, String.toList_ofList, String.ofList_inj] at same
    rw [if_neg, strip, String.toList_ofList, Text.trimEnd_cons_congr c same.1, same.2]
    rintro ⟨nothing, silent⟩
    refine visible ⟨nothing, ?_⟩
    rw [blank_ofList, Text.trimEnd_eq_nil_iff, List.forall_mem_cons] at silent
    rw [blank_ofList, Text.trimEnd_eq_nil_iff]
    exact silent.2

/-- A visible character with only blanks behind it is all that a text says. -/
theorem said_lines_of_alone {c : Char} {rest : List Char} (visible : Text.isBlank c = false)
    (silent : Text.trimEnd rest = []) :
    said ((Text.lines (c :: rest)).map String.ofList) = [String.ofList [c]] := by
  have feed : c ≠ '\n' := by rintro rfl; exact absurd visible (by decide)
  have carriage : c ≠ '\r' := by rintro rfl; exact absurd visible (by decide)
  have alone (line : List Char) (blanks : Text.trimEnd line = []) :
      Text.trimEnd (c :: line) = [c] := by simp [Text.trimEnd, blanks, visible]
  have one (line : List Char) (rest : List String) (blanks : Text.trimEnd line = [])
      (nothing : said rest = []) :
      said (String.ofList (c :: line) :: rest) = [String.ofList [c]] := by
    rw [said_cons, if_neg, strip, String.toList_ofList, alone line blanks, nothing]
    rw [blank_ofList, alone line blanks]
    simp
  have behind := said_lines_of_blank silent
  rw [Text.lines_cons_of_ne c rest feed carriage]
  cases parted : Text.lines rest with
  | nil => exact one [] [] rfl rfl
  | cons line more =>
    rw [parted, List.map_cons, said_eq_nil_iff, List.forall_mem_cons, blank_ofList,
      ← said_eq_nil_iff] at behind
    exact one line _ behind.1 behind.2

theorem map_strip_lines_of_blank_tail (c : Char) {rest : List Char}
    (nothing : Text.trimEnd rest = []) :
    ((Text.lines (Text.trimEnd (c :: rest))).map String.ofList).map strip =
      said ((Text.lines (c :: rest)).map String.ofList) := by
  cases visible : Text.isBlank c with
  | true =>
    have silent : Text.trimEnd (c :: rest) = [] := by simp [Text.trimEnd, nothing, visible]
    rw [said_lines_of_blank silent, silent]
    rfl
  | false =>
    have alone : Text.trimEnd (c :: rest) = Text.trimEnd [c] := Text.trimEnd_cons_congr c nothing
    have shown : Text.trimEnd [c] = [c] := by simp [Text.trimEnd, visible]
    have unbroken : '\n' ∉ [c] := by
      rintro inside
      rw [← List.mem_singleton.mp inside] at visible
      exact absurd visible (by decide)
    rw [said_lines_of_alone visible nothing, alone, shown,
      Text.lines_of_unbroken (by simp) unbroken, List.map_singleton, List.map_singleton, strip,
      String.toList_ofList, shown]

/-- The lines of a text without the blanks at its end are what the text says. -/
theorem map_strip_lines_trimEnd (text : List Char) :
    ((Text.lines (Text.trimEnd text)).map String.ofList).map strip =
      said ((Text.lines text).map String.ofList) := by
  induction text with
  | nil => rfl
  | cons c rest ih =>
    by_cases nothing : Text.trimEnd rest = []
    · exact map_strip_lines_of_blank_tail c nothing
    · have kept : Text.trimEnd (c :: rest) = c :: Text.trimEnd rest :=
        Text.trimEnd_append_of_ne_nil nothing [c]
      obtain ⟨first, others, parted⟩ : ∃ first others,
          Text.lines (Text.trimEnd rest) = first :: others := by
        obtain ⟨d, more, head⟩ := List.exists_cons_of_ne_nil nothing
        rw [head]
        exact Text.exists_lines_eq_cons d more
      rw [parted] at ih
      rw [kept, Text.lines, Text.lines, Text.head?_trimEnd nothing, parted]
      split
      · rw [List.map_cons, List.map_cons, ih, List.map_cons, said_cons, if_neg]
        rw [← ih]
        simp
      · split
        · exact ih
        · cases whole : Text.lines rest with
          | nil => simp [whole, said_nil] at ih
          | cons line more =>
            rw [whole, List.map_cons, List.map_cons, List.map_cons, strip,
              String.toList_ofList] at ih
            simp only [List.map_cons, said_extend c ih.symm, strip, String.toList_ofList]

theorem map_strip_stripped (text : String) :
    (linesOf? (stripped text)).map strip = said (linesOf text) := by
  rw [stripped, Text.nonBlank, blank_strip]
  split
  · rename_i silent
    rw [linesOf, said_lines_of_blank (Text.blank_iff.mp silent)]
    rfl
  · rw [linesOf, ← map_strip_lines_trimEnd]
    rw [linesOf?, Option.map_some, Option.getD_some, linesOf, strip, String.toList_ofList]

theorem visible_stripped (text : String) :
    visible (stripped text) = Text.visible (linesOf text) := by
  calc
    visible (stripped text) = Text.visible ((linesOf? (stripped text)).map strip) :=
      Text.visible_congr (by simp [trimmed_strip])
    _ = Text.visible (linesOf text) := by rw [map_strip_stripped, visible_said]

/-! ## Joins of lines up to their last visible line -/

theorem toList_unlines_cons (line : String) {rest : List String} (nonempty : rest ≠ []) :
    (unlines (line :: rest)).toList = line.toList ++ '\n' :: (unlines rest).toList := by
  obtain ⟨second, more, rfl⟩ := List.exists_cons_of_ne_nil nonempty
  exact Text.toList_unlines_cons_cons line second more

theorem trimEnd_unlines_of_blank {gap : List String} (silent : ∀ line ∈ gap, blank line = true) :
    Text.trimEnd (unlines gap).toList = [] := by
  induction gap with
  | nil => rfl
  | cons line rest ih =>
    obtain ⟨here, later⟩ := List.forall_mem_cons.mp silent
    have alone := Text.blank_iff.mp here
    by_cases last : rest = []
    · simpa [last, unlines] using alone
    · have tail : Text.trimEnd ('\n' :: (unlines rest).toList) = [] := by
        simp [Text.trimEnd, ih later, show Text.isBlank '\n' = true by decide]
      rw [toList_unlines_cons line last, Text.trimEnd_append_of_eq_nil tail, alone]

/-- Lines with a line feed behind each of them. -/
def fed (lines : List String) : List Char := lines.flatMap fun line => line.toList ++ ['\n']

/-- Of a join only the blanks behind its last visible line are dropped. -/
theorem trimEnd_unlines_append (front : List String) {last : String} {gap : List String}
    (shown : blank last = false) (silent : ∀ line ∈ gap, blank line = true) :
    Text.trimEnd (unlines (front ++ last :: gap)).toList =
      fed front ++ Text.trimEnd last.toList := by
  have visible : Text.trimEnd last.toList ≠ [] := by
    rw [← Text.blank_iff.ne]
    simp [shown]
  induction front with
  | nil =>
    by_cases alone : gap = []
    · simp [alone, unlines, fed]
    · have behind : Text.trimEnd ('\n' :: (unlines gap).toList) = [] := by
        simp [Text.trimEnd, trimEnd_unlines_of_blank silent,
          show Text.isBlank '\n' = true by decide]
      rw [List.nil_append, toList_unlines_cons last alone, Text.trimEnd_append_of_eq_nil behind]
      rfl
  | cons line rest ih =>
    have more : Text.trimEnd (unlines (rest ++ last :: gap)).toList ≠ [] := by
      rw [ih]
      simp [visible]
    have feed : Text.trimEnd ('\n' :: (unlines (rest ++ last :: gap)).toList) =
        '\n' :: Text.trimEnd (unlines (rest ++ last :: gap)).toList :=
      Text.trimEnd_append_of_ne_nil more ['\n']
    rw [List.cons_append, toList_unlines_cons line (by simp),
      Text.trimEnd_append_of_ne_nil (by rw [feed]; simp), feed, ih]
    simp [fed]

theorem takeWhile_feed {line : List Char} (unbroken : '\n' ∉ line) (rest : List Char) :
    (line ++ '\n' :: rest).takeWhile (fun c => c != '\n') = line := by
  refine Text.takeWhile_run (fun c inside => ?_) (by simp)
  rw [bne_iff_ne]
  rintro rfl
  exact unbroken inside

/-- Unbroken lines are found again in front of their line feeds. -/
theorem eq_of_fed_eq {left right : List String}
    (leftUnbroken : ∀ line ∈ left, '\n' ∉ line.toList)
    (rightUnbroken : ∀ line ∈ right, '\n' ∉ line.toList) (length : left.length = right.length)
    (same : fed left = fed right) : left = right := by
  induction left generalizing right with
  | nil => exact (List.length_eq_zero_iff.mp length.symm).symm
  | cons line rest ih =>
    cases right with
    | nil => cases length
    | cons other more =>
      obtain ⟨lineUnbroken, restUnbroken⟩ := List.forall_mem_cons.mp leftUnbroken
      obtain ⟨otherUnbroken, moreUnbroken⟩ := List.forall_mem_cons.mp rightUnbroken
      have heads : line.toList ++ '\n' :: fed rest = other.toList ++ '\n' :: fed more := by
        simpa [fed] using same
      have first : line.toList = other.toList := by
        rw [← takeWhile_feed lineUnbroken (fed rest), heads, takeWhile_feed otherUnbroken]
      rw [first, List.append_cancel_left_eq, List.cons.injEq] at heads
      rw [String.toList_inj.mp first,
        ih restUnbroken moreUnbroken (by simpa using length) heads.2]

/-! ## The common tail at the end of each doc -/

/-- The lines of the common tail, as the first doc has them. -/
def tailLines (docs : List String) : List String := dropBlankStart (sharedEnd docs).reverse

theorem commonTail_eq (docs : List String) : commonTail docs = unlines (tailLines docs) := rfl

theorem prefix_map_strip_sharedStart (left right : List String) :
    (sharedStart left right).map strip <+: right.map strip := by
  fun_induction sharedStart left right with
  | case1 first lefts second rights same ih => exact List.cons_prefix_cons.mpr ⟨same, ih⟩
  | case2 => exact List.nil_prefix
  | case3 => exact List.nil_prefix

theorem prefix_foldl_sharedStart (others shared : List String) :
    others.foldl (fun shared doc => sharedStart shared (linesOf doc).reverse) shared <+: shared ∧
      ∀ doc ∈ others,
        (others.foldl (fun shared doc => sharedStart shared (linesOf doc).reverse) shared).map strip
          <+: (linesOf doc).reverse.map strip := by
  induction others generalizing shared with
  | nil => exact ⟨List.prefix_rfl, by simp⟩
  | cons doc rest ih =>
    obtain ⟨within, ends⟩ := ih (sharedStart shared (linesOf doc).reverse)
    refine ⟨within.trans (sharedStart_prefix_left _ _), List.forall_mem_cons.mpr ⟨?_, ends⟩⟩
    exact (within.map strip).trans (prefix_map_strip_sharedStart _ _)

theorem sharedEnd_prefix {docs : List String} {doc : String} (member : doc ∈ docs) :
    (sharedEnd docs).map strip <+: (linesOf doc).reverse.map strip := by
  cases docs with
  | nil => cases member
  | cons first others =>
    obtain ⟨within, ends⟩ := prefix_foldl_sharedStart others (linesOf first).reverse
    rcases List.mem_cons.mp member with rfl | later
    · exact within.map strip
    · exact ends doc later

/-- Each doc ends in lines that differ from the common tail only in the blanks behind them. -/
theorem exists_tail {docs : List String} {doc : String} (member : doc ∈ docs) :
    ∃ front tail, linesOf doc = front ++ tail ∧ tail.map strip = (tailLines docs).map strip := by
  have ends : (tailLines docs).map strip <:+ (linesOf doc).map strip := by
    refine ((dropBlankStart_suffix _).map strip).trans ?_
    rw [← List.reverse_prefix, List.map_reverse, List.reverse_reverse, ← List.map_reverse]
    exact sharedEnd_prefix member
  obtain ⟨before, whole⟩ := ends
  obtain ⟨front, tail, parted, -, same⟩ := List.map_eq_append_iff.mp whole.symm
  exact ⟨front, tail, parted, same⟩

theorem unbroken_tailLines (docs : List String) : ∀ line ∈ tailLines docs, '\n' ∉ line.toList := by
  intro line member
  have inside := List.mem_reverse.mp ((dropBlankStart_suffix _).subset member)
  cases docs with
  | nil => cases inside
  | cons first others =>
    have within := (prefix_foldl_sharedStart others (linesOf first).reverse).1.subset inside
    exact Text.unbroken_of_mem_linesOf (List.mem_reverse.mp within)

/-! ## Remainders -/

section Remainder

variable {doc : String} {front tail kept : List String}

/-- Lines that begin with a visible one, up to their last visible one. -/
theorem exists_last_visible (nonempty : kept ≠ [])
    (first : ∀ line ∈ kept.head?, blank line = false) :
    ∃ last gap, kept = (dropBlankEnd kept).dropLast ++ last :: gap ∧ blank last = false ∧
      ∀ line ∈ gap, blank line = true := by
  obtain ⟨gap, silent, whole, shown⟩ := dropBlankEnd_append kept
  have visible : dropBlankEnd kept ≠ [] := by
    intro nothing
    obtain ⟨line, rest, rfl⟩ := List.exists_cons_of_ne_nil nonempty
    rw [nothing, List.nil_append] at whole
    have contrary := silent line (whole ▸ List.mem_cons_self)
    rw [first line rfl] at contrary
    cases contrary
  refine ⟨(dropBlankEnd kept).getLast visible, gap, ?_,
    shown _ (List.getLast?_eq_some_getLast visible), silent⟩
  calc
    kept = ((dropBlankEnd kept).dropLast ++ [(dropBlankEnd kept).getLast visible]) ++ gap := by
      rw [List.dropLast_append_getLast, ← whole]
    _ = _ := by rw [List.append_assoc, List.singleton_append]

theorem not_isEmpty_unlines (nonempty : kept ≠ [])
    (first : ∀ line ∈ kept.head?, blank line = false) :
    ¬(unlines kept).isEmpty = true := by
  obtain ⟨line, rest, rfl⟩ := List.exists_cons_of_ne_nil nonempty
  intro nothing
  have visible : blank (unlines (line :: rest)) = false :=
    blank_unlines_eq_false List.mem_cons_self (first line rfl)
  rw [String.isEmpty_iff.mp nothing] at visible
  cases visible

theorem strip_unlines_eq_iff (same : tail.map strip = kept.map strip)
    (tailUnbroken : ∀ line ∈ tail, '\n' ∉ line.toList)
    (keptUnbroken : ∀ line ∈ kept, '\n' ∉ line.toList)
    (nonempty : kept ≠ []) (first : ∀ line ∈ kept.head?, blank line = false) :
    strip (unlines tail) = strip (unlines kept) ↔ (dropBlankEnd kept).dropLast <+: tail := by
  obtain ⟨last, gap, whole, shown, silent⟩ := exists_last_visible nonempty first
  generalize (dropBlankEnd kept).dropLast = lead at whole ⊢
  subst whole
  rw [List.map_append, List.map_cons] at same
  obtain ⟨others, behind, rfl, sameLead, sameBehind⟩ := List.map_eq_append_iff.mp same
  obtain ⟨other, blanks, rfl, sameLast, sameGap⟩ := List.map_eq_cons_iff.mp sameBehind
  have length : others.length = lead.length := by simpa using congrArg List.length sameLead
  have otherShown : blank other = false := by rw [← blank_strip, sameLast, blank_strip, shown]
  have blanksSilent : ∀ line ∈ blanks, blank line = true := by
    intro line inside
    obtain ⟨blanked, within, matched⟩ := List.mem_map.mp (sameGap ▸ List.mem_map_of_mem inside)
    rw [← blank_strip, ← matched, blank_strip, silent blanked within]
  have sameEnd : Text.trimEnd other.toList = Text.trimEnd last.toList :=
    String.ofList_inj.mp sameLast
  rw [strip, strip, String.ofList_inj, trimEnd_unlines_append others otherShown blanksSilent,
    trimEnd_unlines_append lead shown silent, sameEnd, List.append_cancel_right_eq]
  constructor
  · intro alike
    have leads := eq_of_fed_eq
      (fun line inside => tailUnbroken line (List.mem_append_left _ inside))
      (fun line inside => keptUnbroken line (List.mem_append_left _ inside)) length alike
    rw [leads]
    exact List.prefix_append _ _
  · intro within
    have both : lead <+: others :=
      List.prefix_of_prefix_length_le within (List.prefix_append _ _) length.ge
    rw [both.eq_of_length length.symm]

/-- A tail is looked for in as many last lines of a doc as it has lines. -/
theorem remainder_eq {suffix : String} (nonempty : ¬suffix.isEmpty = true)
    (split : linesOf doc = front ++ tail) (length : (linesOf suffix).length = tail.length) :
    remainder doc suffix =
      if strip (unlines tail) = strip suffix then stripped (unlines front) else stripped doc := by
  have head : (linesOf doc).take ((linesOf doc).length - (linesOf suffix).length) = front := by
    rw [split, length, List.length_append, Nat.add_sub_cancel, List.take_left]
  have behind : (linesOf doc).drop front.length = tail := by rw [split, List.drop_left]
  have short : (linesOf suffix).length ≤ (linesOf doc).length := by
    rw [split, length, List.length_append]
    exact Nat.le_add_left _ _
  rw [remainder, if_neg nonempty]
  simp only [head, behind, short, decide_true, Bool.true_and, decide_eq_true_eq]

theorem visible_singleton {line : String} (shown : blank line = false) :
    Text.visible [line] = [Text.trimmed line] := by
  have nonempty : Text.trimmed line ≠ "" := by
    rw [Text.trimmed_eq_empty_iff.ne]
    simp [shown]
  simp [Text.visible, nonempty]

/-- What a text says is visible in it without the blanks at its end. -/
theorem visible_of_strip_eq {left right : List String}
    (leftUnbroken : ∀ line ∈ left, '\n' ∉ line.toList)
    (rightUnbroken : ∀ line ∈ right, '\n' ∉ line.toList)
    (same : strip (unlines left) = strip (unlines right)) :
    Text.visible left = Text.visible right := by
  have shown {lines : List String} (unbroken : ∀ line ∈ lines, '\n' ∉ line.toList) :
      visible (stripped (unlines lines)) = Text.visible lines := by
    rw [visible_stripped, ← visible_said, said_linesOf_unlines unbroken, visible_said]
  rw [← shown leftUnbroken, ← shown rightUnbroken, stripped, stripped, same]

/-- A tail that ends in an empty line is looked for in one line less than it has. -/
theorem remainder_of_empty_last (split : linesOf doc = front ++ tail)
    (same : tail.map strip = kept.map strip)
    (tailUnbroken : ∀ line ∈ tail, '\n' ∉ line.toList)
    (keptUnbroken : ∀ line ∈ kept, '\n' ∉ line.toList)
    (nonempty : kept ≠ []) (first : ∀ line ∈ kept.head?, blank line = false)
    (ended : kept.getLast? = some "") : remainder doc (unlines kept) = stripped doc := by
  obtain ⟨line, rest, rfl⟩ := List.exists_cons_of_ne_nil nonempty
  obtain ⟨other, others, rfl, sameFirst, sameRest⟩ := List.map_eq_cons_iff.mp same
  have count : (linesOf (unlines (line :: rest))).length = others.length := by
    rw [length_linesOf_unlines keptUnbroken, if_pos ended, List.length_cons, Nat.add_sub_cancel]
    simpa using (congrArg List.length sameRest).symm
  have parted : linesOf doc = (front ++ [other]) ++ others := by
    rw [split, List.append_assoc, List.singleton_append]
  rw [remainder_eq (not_isEmpty_unlines nonempty first) parted count, if_neg]
  -- The lines that are compared lack the first visible line of the tail.
  intro alike
  have visible := visible_of_strip_eq
    (fun line inside => tailUnbroken line (List.mem_cons_of_mem _ inside)) keptUnbroken alike
  have restVisible : Text.visible others = Text.visible rest := by
    rw [← visible_said, said_congr sameRest, visible_said]
  rw [Text.visible_cons, visible_singleton (first line rfl), restVisible] at visible
  simpa using congrArg List.length visible

end Remainder

/-! ## Putting docs together -/

/-- The lines of a doc are those of its remainder and those of the tail, up to the blanks behind
each line and to blank lines between the two and at the end. -/
def Reassembles (doc : String) (rest : Option String) (tail : String) : Prop :=
  ∃ gap : List String, (∀ line ∈ gap, blank line = true) ∧
    said (linesOf doc) = said (linesOf? rest ++ gap ++ linesOf tail)

/-- What is put together says what its parts say, so that no part says what another one says. -/
theorem Reassembles.visible {doc tail : String} {rest : Option String}
    (parts : Reassembles doc rest tail) :
    Text.visible (linesOf doc) = Doc.visible rest ++ Text.visible (linesOf tail) := by
  obtain ⟨gap, silent, same⟩ := parts
  rw [← visible_said, same, visible_said, Text.visible_append, Text.visible_append,
    Text.visible_of_blank silent, List.append_nil]
  rfl

theorem reassembles_stripped (doc : String) : Reassembles doc (stripped doc) "" := by
  refine ⟨[], by simp, ?_⟩
  rw [List.append_nil, show linesOf "" = [] from rfl, List.append_nil, said, said,
    map_strip_stripped, said, dropBlankEnd_dropBlankEnd]

theorem reassembles_front {doc : String} {front tail kept : List String}
    (split : linesOf doc = front ++ tail) (same : tail.map strip = kept.map strip)
    (frontUnbroken : ∀ line ∈ front, '\n' ∉ line.toList)
    (keptUnbroken : ∀ line ∈ kept, '\n' ∉ line.toList) :
    Reassembles doc (stripped (unlines front)) (unlines kept) := by
  obtain ⟨blanks, silent, whole⟩ := exists_said_append front
  obtain ⟨shown, gap, rfl, sameShown, sameGap⟩ := List.map_eq_append_iff.mp whole
  have rest : (linesOf? (stripped (unlines (shown ++ gap)))).map strip = shown.map strip := by
    rw [map_strip_stripped, said_linesOf_unlines frontUnbroken, sameShown]
  refine ⟨gap, fun line inside => ?_, ?_⟩
  · rw [← blank_strip]
    exact silent _ (sameGap ▸ List.mem_map_of_mem inside)
  calc
    said (linesOf doc) = said (shown ++ gap ++ tail) := by rw [split]
    _ = said (shown ++ gap ++ kept) := said_append_congr _ (said_congr same)
    _ = said (shown ++ gap ++ linesOf (unlines kept)) :=
      said_append_congr _ (said_linesOf_unlines keptUnbroken).symm
    _ = _ := said_congr (by simp only [List.map_append, rest])

/-- In front of its last visible line, a doc has the common tail as the first doc has it. -/
def SharesLiterally (docs : List String) (doc : String) : Prop :=
  tailLines docs = [] ∨
    (tailLines docs).getLast? ≠ some "" ∧
      (dropBlankEnd (tailLines docs)).dropLast <+:
        (linesOf doc).drop ((linesOf doc).length - (tailLines docs).length)

instance (docs : List String) (doc : String) : Decidable (SharesLiterally docs doc) :=
  inferInstanceAs (Decidable (_ ∨ _ ∧ _))

/-- A doc that is its own remainder has nothing in common with a tail that says something. -/
theorem not_reassembles (doc : String) {kept : List String}
    (unbroken : ∀ line ∈ kept, '\n' ∉ line.toList) (nonempty : kept ≠ [])
    (first : ∀ line ∈ kept.head?, blank line = false) :
    ¬Reassembles doc (stripped doc) (unlines kept) := by
  intro parts
  obtain ⟨line, rest, rfl⟩ := List.exists_cons_of_ne_nil nonempty
  have twice := parts.visible
  rw [visible_stripped, ← visible_said (linesOf (unlines _)), said_linesOf_unlines unbroken,
    visible_said, Text.visible_cons, visible_singleton (first line rfl)] at twice
  simpa using congrArg List.length twice

/-- Either a doc shares the common tail literally and is its remainder and the tail, or its
remainder is the whole doc, although it ends in the tail too. -/
theorem literal_or_whole {docs : List String} {doc : String} (member : doc ∈ docs) :
    SharesLiterally docs doc ∧
        Reassembles doc (remainder doc (commonTail docs)) (commonTail docs) ∨
      ¬SharesLiterally docs doc ∧ remainder doc (commonTail docs) = stripped doc ∧
        ¬Reassembles doc (stripped doc) (commonTail docs) := by
  obtain ⟨front, tail, split, same⟩ := exists_tail member
  have docUnbroken : ∀ line ∈ linesOf doc, '\n' ∉ line.toList :=
    fun line inside => Text.unbroken_of_mem_linesOf inside
  rw [split] at docUnbroken
  obtain ⟨frontUnbroken, tailUnbroken⟩ := List.forall_mem_append.mp docUnbroken
  have keptUnbroken := unbroken_tailLines docs
  have first : ∀ line ∈ (tailLines docs).head?, blank line = false :=
    not_blank_head_dropBlankStart _
  have length : (tailLines docs).length = tail.length := by
    simpa using (congrArg List.length same).symm
  rw [SharesLiterally, commonTail_eq, split, List.length_append, length, Nat.add_sub_cancel,
    List.drop_left]
  generalize tailLines docs = kept at same keptUnbroken first length ⊢
  by_cases empty : kept = []
  · subst empty
    exact .inl ⟨.inl rfl, reassembles_stripped doc⟩
  have lost := not_reassembles doc keptUnbroken empty first
  by_cases ended : kept.getLast? = some ""
  · have whole := remainder_of_empty_last split same tailUnbroken keptUnbroken empty first ended
    exact .inr ⟨by simp [empty, ended], whole, lost⟩
  · have count : (linesOf (unlines kept)).length = tail.length := by
      rw [length_linesOf_unlines keptUnbroken, if_neg ended, Nat.sub_zero, length]
    have found := strip_unlines_eq_iff same tailUnbroken keptUnbroken empty first
    rw [remainder_eq (not_isEmpty_unlines empty first) split count]
    by_cases literal : (dropBlankEnd kept).dropLast <+: tail
    · rw [if_pos (found.mpr literal)]
      exact .inl ⟨.inr ⟨ended, literal⟩, reassembles_front split same frontUnbroken keptUnbroken⟩
    · rw [if_neg (found.not.mpr literal)]
      exact .inr ⟨by simp [empty, literal], rfl, lost⟩

theorem reassembles_iff {docs : List String} {doc : String} (member : doc ∈ docs) :
    (Reassembles doc (remainder doc (commonTail docs)) (commonTail docs) ↔
      SharesLiterally docs doc) ∧
    (SharesLiterally docs doc → Text.visible (linesOf doc) =
      visible (remainder doc (commonTail docs)) ++ Text.visible (linesOf (commonTail docs))) ∧
    (¬SharesLiterally docs doc → remainder doc (commonTail docs) = stripped doc) := by
  rcases literal_or_whole member with ⟨literal, parts⟩ | ⟨differs, whole, lost⟩
  · exact ⟨iff_of_true parts literal, fun _ => parts.visible, fun no => absurd literal no⟩
  · rw [whole]
    exact ⟨iff_of_false lost differs, fun literal => absurd literal differs, fun _ => rfl⟩

/-- Two docs whose last lines differ in the blanks at the very end only. -/
def spacedDocs : List String := ["A  \nB", "Head.\nA  \nB \n"]

theorem reassembles_iff_spacedDocs :
    "Head.\nA  \nB \n" ∈ spacedDocs ∧ SharesLiterally spacedDocs "Head.\nA  \nB \n" ∧
      Reassembles "Head.\nA  \nB \n" (some "Head.") "A  \nB" := by
  have member : "Head.\nA  \nB \n" ∈ spacedDocs := by decide +kernel
  have literal : SharesLiterally spacedDocs "Head.\nA  \nB \n" := by decide +kernel
  have tail : commonTail spacedDocs = "A  \nB" := by decide +kernel
  have rest : remainder "Head.\nA  \nB \n" "A  \nB" = some "Head." := by decide +kernel
  have parts := (reassembles_iff member).1.mpr literal
  rw [tail, rest] at parts
  exact ⟨member, literal, parts⟩

/-- A line of the tail that has blanks behind it in one doc only is in the remainder and in the
tail. -/
theorem not_reassembles_blankEnd :
    ¬Reassembles "A\nB" (remainder "A\nB" (commonTail ["A  \nB", "A\nB"]))
      (commonTail ["A  \nB", "A\nB"]) := by
  have tail : commonTail ["A  \nB", "A\nB"] = "A  \nB" := by decide +kernel
  have rest : remainder "A\nB" "A  \nB" = some "A\nB" := by decide +kernel
  rw [tail, rest]
  intro parts
  have twice := congrArg List.length parts.visible
  revert twice
  decide +kernel

end Doc

end DocShapes
