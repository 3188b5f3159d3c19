import DocShapes.Proofs.LiteralText

/-! # Strict values in front of more text

A strict reader takes the same value from a text whatever stands behind it, and stops at the same
place, unless the text behind goes on with a number. No delimiter of specs does.
-/

namespace DocShapes.Json

variable {α : Type} {tail : List Char}

/-- A character that can go on with a number. -/
def continuesNumber (c : Char) : Bool := c.isDigit || c = '.' || c = 'e' || c = 'E'

/-- Nothing at the front of the text goes on with a number. -/
def EndsNumber (tail : List Char) : Prop := ∀ c ∈ tail.head?, continuesNumber c = false

/-- In front of the tail a reader finds what it finds without it, and stops at the same place. -/
def Keeps (reader : List Char → Option (α × List Char)) (tail text : List Char) : Prop :=
  ∀ found rest, reader text = some (found, rest) →
    reader (text ++ tail) = some (found, rest ++ tail)

theorem Keeps.map {β : Type} {reader : List Char → Option (α × List Char)} {text : List Char}
    (keeps : Keeps reader tail text) (view : α → β) :
    Keeps (fun text => (reader text).map fun (found, rest) => (view found, rest)) tail text := by
  intro found rest read
  obtain ⟨⟨first, behind⟩, here, same⟩ := Option.map_eq_some_iff.mp read
  cases same
  dsimp only
  rw [keeps first rest here]
  rfl

theorem skipSpace_append {text rest : List Char} {c : Char} (visible : skipSpace text = c :: rest) :
    skipSpace (text ++ tail) = c :: (rest ++ tail) := by
  rw [skipSpace] at visible ⊢
  rw [List.dropWhile_append, visible]
  rfl

theorem exists_of_skipSpace_append {text rest : List Char} {c : Char} (visible : skipSpace text ≠ [])
    (found : skipSpace (text ++ tail) = c :: rest) : ∃ more, skipSpace text = c :: more := by
  obtain ⟨d, more, here⟩ := List.exists_cons_of_ne_nil visible
  rw [skipSpace_append here] at found
  cases found
  exact ⟨more, here⟩

/-! ## Strings -/

theorem keeps_stringBody (tail text : List Char) : Keeps stringBody tail text := by
  fun_induction stringBody text with
  | case1 => simp [Keeps, stringBody]
  | case2 rest =>
    intro found behind read
    cases read
    rfl
  | case3 a b c d rest none => simp [Keeps, stringBody, none]
  | case4 a b c d high first upper e f g h rest none => simp [Keeps, stringBody, first, upper, none]
  | case5 a b c d high first upper e f g h rest found second ih =>
    simpa [Keeps, stringBody, first, upper, second] using ih.map (found :: ·)
  | case6 a b c d rest high first upper => simp [Keeps, stringBody, first, upper]
  | case7 a b c d rest high first upper lower => simp [Keeps, stringBody, first, upper, lower]
  | case8 a b c d rest high first upper lower ih =>
    simpa [Keeps, stringBody, first, upper, lower] using ih.map (Char.ofNat high :: ·)
  | case9 c rest long none => simp [Keeps, stringBody, none]
  | case10 c rest long found escape ih =>
    have other : c ≠ 'u' := by
      rintro rfl
      cases escape
    simpa [Keeps, stringBody, other, escape] using ih.map (found :: ·)
  | case11 c rest quote long short refused => simp [Keeps, stringBody, refused]
  | case12 c rest quote long short plain ih =>
    obtain ⟨slash, visible⟩ : c ≠ '\\' ∧ ¬c.toNat < 32 := by simpa using plain
    simpa [Keeps, stringBody, quote, slash, visible] using ih.map (c :: ·)

/-! ## Numbers -/

/-- A run of characters that is read up to the end stops in front of the tail. -/
theorem takeWhile_append {test : Char → Bool} (stops : ∀ c ∈ tail.head?, test c = false)
    (text : List Char) : (text ++ tail).takeWhile test = text.takeWhile test := by
  induction text with
  | nil =>
    cases tail with
    | nil => rfl
    | cons c rest => simp [stops c rfl]
  | cons c rest ih => simp [List.takeWhile_cons, ih]

theorem EndsNumber.head (ends : EndsNumber tail) :
    ∀ c ∈ tail.head?, c.isDigit = false ∧ c ≠ '.' ∧ c ≠ 'e' ∧ c ≠ 'E' := by
  intro c first
  simpa [continuesNumber, and_assoc] using ends c first

theorem EndsNumber.digits (ends : EndsNumber tail) (text : List Char) :
    (text ++ tail).takeWhile Char.isDigit = text.takeWhile Char.isDigit :=
  takeWhile_append (fun c first => (ends.head c first).1) text

theorem drop_digits (text : List Char) :
    (text ++ tail).drop (text.takeWhile Char.isDigit).length =
      text.drop (text.takeWhile Char.isDigit).length ++ tail :=
  List.drop_append_of_le_length (List.takeWhile_prefix _).length_le

/-- The digits that a text begins with, one or more. -/
theorem keeps_digits (ends : EndsNumber tail) (view : List Char → α) (text : List Char) :
    Keeps (fun text =>
      if (text.takeWhile Char.isDigit).isEmpty then none
      else some (view (text.takeWhile Char.isDigit),
        text.drop (text.takeWhile Char.isDigit).length)) tail text := by
  intro found rest read
  dsimp only at read ⊢
  rw [ends.digits, drop_digits]
  split at read
  · cases read
  · rename_i some
    cases read
    rw [if_neg some]

theorem fraction?_of_ne {c : Char} (point : c ≠ '.') (rest : List Char) :
    fraction? (c :: rest) = some ([], c :: rest) := by
  unfold fraction?
  split
  · rename_i same
    cases same
    exact absurd rfl point
  · rfl

theorem keeps_fraction? (ends : EndsNumber tail) (text : List Char) :
    Keeps fraction? tail text := by
  intro found rest read
  cases text with
  | nil =>
    cases read
    cases tail with
    | nil => rfl
    | cons c tail => exact fraction?_of_ne (ends.head c rfl).2.1 tail
  | cons c text =>
    by_cases point : c = '.'
    · subst point
      exact keeps_digits ends id text found rest read
    · rw [fraction?_of_ne point] at read
      cases read
      exact fraction?_of_ne point (text ++ tail)

/-- Behind an exponent's mark there may be a sign. -/
theorem signedExponent?_of_ne {c : Char} (plus : c ≠ '+') (minus : c ≠ '-') (rest : List Char) :
    signedExponent? (c :: rest) =
      if ((c :: rest).takeWhile Char.isDigit).isEmpty then none
      else some ((naturalOf ((c :: rest).takeWhile Char.isDigit) : Int),
        (c :: rest).drop ((c :: rest).takeWhile Char.isDigit).length) := by
  unfold signedExponent?
  split
  rename_i negative text sign
  split at sign
  · rename_i same
    cases same
    exact absurd rfl plus
  · rename_i same
    cases same
    exact absurd rfl minus
  · cases sign
    rfl

theorem keeps_signedExponent? (ends : EndsNumber tail) (text : List Char) :
    Keeps signedExponent? tail text := by
  intro found rest read
  cases text with
  | nil => cases read
  | cons c text =>
    by_cases plus : c = '+'
    · subst plus
      exact keeps_digits ends (fun run => (naturalOf run : Int)) text found rest read
    by_cases minus : c = '-'
    · subst minus
      exact keeps_digits ends (fun run => -(naturalOf run : Int)) text found rest read
    rw [List.cons_append, signedExponent?_of_ne plus minus]
    rw [signedExponent?_of_ne plus minus] at read
    exact keeps_digits ends (fun run => (naturalOf run : Int)) (c :: text) found rest read

theorem exponent?_of_ne {c : Char} (lower : c ≠ 'e') (upper : c ≠ 'E') (rest : List Char) :
    exponent? (c :: rest) = some (none, c :: rest) := by
  simp [exponent?, lower, upper]

theorem keeps_exponent? (ends : EndsNumber tail) (text : List Char) :
    Keeps exponent? tail text := by
  intro found rest read
  cases text with
  | nil =>
    cases read
    cases tail with
    | nil => rfl
    | cons c tail =>
      obtain ⟨_, _, lower, upper⟩ := ends.head c rfl
      exact exponent?_of_ne lower upper tail
  | cons c text =>
    by_cases mark : c = 'e' ∨ c = 'E'
    · have step (rest : List Char) : exponent? (c :: rest) =
          (signedExponent? rest).map fun found => (some found.1, found.2) := by
        simp [exponent?, mark]
      rw [step] at read
      rw [List.cons_append, step]
      exact (keeps_signedExponent? ends text).map some found rest read
    · obtain ⟨lower, upper⟩ := not_or.mp mark
      rw [exponent?_of_ne lower upper] at read
      cases read
      exact exponent?_of_ne lower upper (text ++ tail)

theorem keeps_unsigned (negative : Bool) (ends : EndsNumber tail) (text : List Char) :
    Keeps (unsigned negative) tail text := by
  intro found rest read
  unfold unsigned at read ⊢
  dsimp only at read ⊢
  rw [ends.digits]
  split at read
  · cases read
  rename_i whole
  rw [if_neg whole, drop_digits]
  simp only [Option.bind_eq_bind, Option.bind_eq_some_iff] at read
  obtain ⟨⟨fraction, _⟩, point, ⟨power, behind⟩, mark, value⟩ := read
  simp only [Option.bind_eq_bind, keeps_fraction? ends _ _ _ point, Option.bind_some,
    keeps_exponent? ends _ _ _ mark]
  dsimp only at value
  split at value
  · rename_i plain
    obtain ⟨number, fits, same⟩ := Option.bind_eq_some_iff.mp value
    cases same
    rw [if_pos plain, fits]
    rfl
  · rename_i decimal
    obtain ⟨number, fits, same⟩ := Option.bind_eq_some_iff.mp value
    cases same
    rw [if_neg decimal, fits]
    rfl

/-! ## Containers -/

theorem word?_append (word tail : List Char) {text rest : List Char}
    (read : word? word text = some rest) : word? word (text ++ tail) = some (rest ++ tail) := by
  induction word generalizing text with
  | nil =>
    cases read
    rfl
  | cons c word ih =>
    cases text with
    | nil => cases read
    | cons d text =>
      rw [List.cons_append, word?]
      rw [word?] at read
      split at read
      · rename_i same
        rw [if_pos same]
        exact ih read
      · cases read

theorem keeps_word (word : List Char) (meaning : α) (tail text : List Char) :
    Keeps (fun text => (word? word text).map fun rest => (meaning, rest)) tail text := by
  intro found rest read
  obtain ⟨behind, here, same⟩ := Option.map_eq_some_iff.mp read
  cases same
  dsimp only
  rw [word?_append word tail here]
  rfl

/-- With more fuel the items are the same. -/
theorem elements_append {item : List Char → Option (Json × List Char)}
    (each : ∀ text, Keeps item tail text) {fuel more : Nat} (enough : fuel ≤ more)
    {text rest : List Char} {items : List Json}
    (read : elements item fuel text = some (items, rest)) :
    elements item more (text ++ tail) = some (items, rest ++ tail) := by
  induction fuel generalizing more text items with
  | zero => cases read
  | succ fuel ih =>
    obtain ⟨more, rfl⟩ := Nat.exists_eq_add_one_of_ne_zero (Nat.ne_zero_of_lt enough)
    rw [elements] at read
    split at read
    · cases read
    rename_i first behind here
    simp only [elements, each text first behind here]
    split at read
    · rename_i others next
      obtain ⟨⟨further, last⟩, later, same⟩ := Option.map_eq_some_iff.mp read
      cases same
      simp only [skipSpace_append next, ih (Nat.le_of_succ_le_succ enough) later, Option.map_some]
    · rename_i others next
      cases read
      simp only [skipSpace_append next]
    · cases read

theorem keeps_memberKey (tail text : List Char) : Keeps memberKey tail text := by
  intro key rest read
  rw [memberKey] at read
  split at read
  · rename_i behind quote
    split at read
    · cases read
    rename_i body last closed
    split at read
    · rename_i colon
      cases read
      simp only [memberKey, skipSpace_append quote, keeps_stringBody tail behind body last closed,
        skipSpace_append colon]
    · cases read
  · cases read

theorem entries_append {item : List Char → Option (Json × List Char)}
    (each : ∀ text, Keeps item tail text) {fuel more : Nat} (enough : fuel ≤ more)
    {before members : List (String × Json)} {text rest : List Char}
    (read : entries item fuel before text = some (members, rest)) :
    entries item more before (text ++ tail) = some (members, rest ++ tail) := by
  induction fuel generalizing more before text with
  | zero => cases read
  | succ fuel ih =>
    obtain ⟨more, rfl⟩ := Nat.exists_eq_add_one_of_ne_zero (Nat.ne_zero_of_lt enough)
    rw [entries] at read
    split at read
    · cases read
    rename_i key behind named
    split at read
    · cases read
    rename_i value last here
    simp only [entries, keeps_memberKey tail text key behind named, each behind value last here]
    dsimp only at read
    split at read
    · rename_i others next
      simp only [skipSpace_append next]
      exact ih (Nat.le_of_succ_le_succ enough) read
    · rename_i others next
      cases read
      simp only [skipSpace_append next]
    · cases read

/-! ## Values -/

theorem value_of_blank {depth : Nat} {text : List Char} (blank : skipSpace text = []) :
    value depth text = none := by
  rw [value, blank]

theorem visible_of_elements {depth fuel : Nat} {text : List Char} {found : List Json × List Char}
    (read : elements (value depth) fuel text = some found) : skipSpace text ≠ [] := by
  intro blank
  cases fuel with
  | zero => cases read
  | succ fuel =>
    rw [elements, value_of_blank blank] at read
    cases read

theorem visible_of_entries {depth fuel : Nat} {before : List (String × Json)} {text : List Char}
    {found : List (String × Json) × List Char}
    (read : entries (value depth) fuel before text = some found) : skipSpace text ≠ [] := by
  intro blank
  cases fuel with
  | zero => cases read
  | succ fuel =>
    rw [entries, memberKey, blank] at read
    cases read

theorem length_le_append (text tail : List Char) : text.length ≤ (text ++ tail).length := by
  rw [List.length_append]
  exact Nat.le_add_right _ _

theorem keeps_array {depth : Nat} (each : ∀ text, Keeps (value depth) tail text)
    (text : List Char) : Keeps (fun text => value (depth + 1) ('[' :: text)) tail text := by
  intro found rest read
  simp only [value_bracket] at read ⊢
  split at read
  · rename_i closed
    cases read
    rw [skipSpace_append closed]
    rfl
  · rename_i opened
    obtain ⟨⟨items, last⟩, parts, same⟩ := Option.map_eq_some_iff.mp read
    cases same
    split
    · rename_i closed
      obtain ⟨more, same⟩ := exists_of_skipSpace_append (visible_of_elements parts) closed
      exact absurd same (opened more)
    · rw [elements_append each (length_le_append text tail) parts]
      rfl

theorem keeps_object {depth : Nat} (each : ∀ text, Keeps (value depth) tail text)
    (text : List Char) : Keeps (fun text => value (depth + 1) ('\x7b' :: text)) tail text := by
  intro found rest read
  simp only [value_brace] at read ⊢
  split at read
  · rename_i closed
    cases read
    rw [skipSpace_append closed]
    rfl
  · rename_i opened
    obtain ⟨⟨members, last⟩, parts, same⟩ := Option.map_eq_some_iff.mp read
    cases same
    split
    · rename_i closed
      obtain ⟨more, same⟩ := exists_of_skipSpace_append (visible_of_entries parts) closed
      exact absurd same (opened more)
    · rw [entries_append each (length_le_append text tail) parts]
      rfl

/-- A container keeps what is read with one level less. -/
theorem keeps_value_of (ends : EndsNumber tail) {depth : Nat}
    (inner : ∀ less, depth = less + 1 → ∀ text, Keeps (value less) tail text) (text : List Char) :
    Keeps (value depth) tail text := by
  intro found rest read
  rw [value] at read ⊢
  cases start : skipSpace text with
  | nil =>
    rw [start] at read
    cases read
  | cons c behind =>
    rw [skipSpace_append start]
    rw [start] at read
    dsimp only at read ⊢
    by_cases quote : c = '"'
    · rw [if_pos quote] at read ⊢
      exact (keeps_stringBody tail behind).map (.string <| String.ofList ·) found rest read
    rw [if_neg quote] at read ⊢
    by_cases sign : c = '-'
    · rw [if_pos sign] at read ⊢
      exact keeps_unsigned true ends behind found rest read
    rw [if_neg sign] at read ⊢
    by_cases digit : c.isDigit
    · rw [if_pos digit] at read ⊢
      exact keeps_unsigned false ends (c :: behind) found rest read
    rw [if_neg digit] at read ⊢
    by_cases null : c = 'n'
    · rw [if_pos null] at read ⊢
      exact keeps_word _ _ tail behind found rest read
    rw [if_neg null] at read ⊢
    by_cases yes : c = 't'
    · rw [if_pos yes] at read ⊢
      exact keeps_word _ _ tail behind found rest read
    rw [if_neg yes] at read ⊢
    by_cases no : c = 'f'
    · rw [if_pos no] at read ⊢
      exact keeps_word _ _ tail behind found rest read
    rw [if_neg no] at read ⊢
    cases depth with
    | zero => cases read
    | succ depth =>
      have each := inner depth rfl
      dsimp only at read ⊢
      by_cases array : c = '['
      · rw [if_pos array] at read ⊢
        exact keeps_array each behind found rest read
      rw [if_neg array] at read ⊢
      by_cases object : c = '\x7b'
      · rw [if_pos object] at read ⊢
        exact keeps_object each behind found rest read
      rw [if_neg object] at read
      cases read

/-- A value is the same whatever stands behind its text. -/
theorem keeps_value (depth : Nat) (ends : EndsNumber tail) (text : List Char) :
    Keeps (value depth) tail text := by
  induction depth generalizing text with
  | zero =>
    apply keeps_value_of ends
    intro less same
    cases same
  | succ depth ih =>
    apply keeps_value_of ends
    intro less same
    cases same
    exact ih

end DocShapes.Json

namespace DocShapes

variable {text blanks behind passed tail : List Char}

theorem Text.Delimited.endsNumber (delimited : Text.Delimited tail) : Json.EndsNumber tail :=
  delimited.head_fails Json.continuesNumber (by decide)

theorem Text.delimited_append (blank : ∀ c ∈ blanks, c = ' ' ∨ c = '\t')
    (mark : ∀ c ∈ behind.head?, c ∈ delimiters) : Delimited (blanks ++ behind) := by
  induction blanks with
  | nil =>
    cases behind with
    | nil => exact .nil
    | cons c rest => exact .mark (mark c rfl)
  | cons c rest ih =>
    obtain ⟨here, others⟩ := List.forall_mem_cons.mp blank
    exact .blank here (ih others)

theorem Text.trimStart_append (blank : ∀ c ∈ blanks, c = ' ' ∨ c = '\t')
    (mark : ∀ c ∈ behind.head?, c ∈ delimiters) : trimStart (blanks ++ behind) = behind := by
  have visible : ∀ c ∈ delimiters, isBlank c = false := List.all_iff_forall_prop.mp (by decide)
  induction blanks with
  | nil =>
    cases behind with
    | nil => rfl
    | cons c rest => exact trimStart_of_visible (visible c (mark c rfl))
  | cons c rest ih =>
    obtain ⟨here, others⟩ := List.forall_mem_cons.mp blank
    rw [List.cons_append, trimStart_of_blank (isBlank_of_eq here).1, ih others]

theorem Cursor.forward_append (run rest passed : List Char) :
    Cursor.forward run.length ⟨passed, run ++ rest⟩ = ⟨run.reverse ++ passed, rest⟩ := by
  induction run generalizing passed with
  | nil => rfl
  | cons c run ih => simp [Cursor.forward, ih]

namespace Literal

variable {words : Words} {found : Json}

theorem value_of_read (read : Json.read (String.ofList text) = some found) :
    ∃ rest, Json.value Json.deepest text = some (found, rest) ∧ Json.skipSpace rest = [] := by
  rw [Json.read, Json.readWithin, String.toList_ofList] at read
  split at read
  · rename_i value rest here
    split at read
    · rename_i empty
      cases read
      exact ⟨rest, here, List.isEmpty_iff.mp empty⟩
    · cases read
  · cases read

/-- The text of a literal without bytes is a text of its JSON view. -/
theorem read_chars {value : Literal} (formed : value.WellFormed) (numberless : value.Numberless)
    (strict : value.strict Json.deepest = true) :
    Json.read (String.ofList value.chars) = some value.toJson := by
  have taken := takenStrictly formed numberless Json.deepest [] .nil
  rw [if_pos strict, List.append_nil] at taken
  rw [Json.read, Json.readWithin, String.toList_ofList, taken]
  rfl

/-- A whole strict text is taken with the blanks behind it. -/
theorem strict?_append (line : '\n' ∉ text) (read : Json.read (String.ofList text) = some found)
    (delimited : Text.Delimited tail) :
    strict? (text ++ tail) = some (found, Text.trimStart tail) := by
  obtain ⟨rest, here, done⟩ := value_of_read read
  have kept := Json.keeps_value _ delimited.endsNumber text found rest here
  have left : Json.skipSpace (rest ++ tail) = Json.skipSpace tail := by
    rw [Json.skipSpace] at done
    rw [Json.skipSpace, List.dropWhile_append, done]
    rfl
  have lines : ((text ++ tail).take
      ((text ++ tail).length - (Json.skipSpace tail).length)).contains '\n' = false := by
    rw [take_skipSpace]
    simpa using And.intro line delimited.newline_not_mem
  simp only [strict?, kept, left, lines, Bool.and_false, Bool.false_eq_true, if_false]
  rw [delimited.skipSpace_eq]

/-- Behind the zero of a number there is no mark of hexadecimal digits. -/
theorem not_hex_of_read {rest more : List Char} {d : Char}
    (read : Json.read (String.ofList ('0' :: rest)) = some found)
    (delimited : Text.Delimited tail) (second : rest ++ tail = d :: more) : d ≠ 'x' ∧ d ≠ 'X' := by
  cases rest with
  | nil =>
    have outside := delimited.head_fails (fun c => c = 'x' || c = 'X') (by decide) d
    rw [List.nil_append] at second
    simpa [second] using outside
  | cons e rest =>
    cases second
    obtain ⟨_, here, done⟩ := value_of_read read
    constructor
    · rintro rfl
      cases here
      cases done
    · rintro rfl
      cases here
      cases done

theorem ends_takeStrict_append (line : '\n' ∉ text)
    (read : Json.read (String.ofList text) = some found)
    (blank : ∀ c ∈ blanks, c = ' ' ∨ c = '\t') (mark : ∀ c ∈ behind.head?, c ∈ Text.delimiters) :
    Ends takeStrict ⟨passed, text ++ (blanks ++ behind)⟩
      (fun result next => result = some (ofJson found) ∧
        next = ⟨(text ++ blanks).reverse ++ passed, behind⟩) fun _ => False := by
  have taken := strict?_append line read (Text.delimited_append blank mark)
  rw [Text.trimStart_append blank mark] at taken
  have length : (text ++ (blanks ++ behind)).length - behind.length = (text ++ blanks).length := by
    simp only [List.length_append]
    omega
  simp only [takeStrict, ends_bind, ends_get, taken, Scan.forward, ends_modify, ends_pure, length]
  rw [← List.append_assoc, Cursor.forward_append]
  exact ⟨trivial, rfl⟩

/-- A strict text without line feeds is read as its value in front of every delimiter, and the
reader stops at the delimiter. -/
theorem constant?_strict_prefix (words : Words)
    (front : ∃ c ∈ text.head?, c.isDigit = true ∨ c ∈ ['-', '"', '[', '\x7b'])
    (line : '\n' ∉ text) (read : Json.read (String.ofList text) = some found)
    (blank : ∀ c ∈ blanks, c = ' ' ∨ c = '\t')
    (mark : ∀ c ∈ behind.head?, c ∈ Text.delimiters) :
    constant? words ⟨passed, text ++ (blanks ++ behind)⟩ =
      .ok (some (ofJson found)) ⟨(text ++ blanks).reverse ++ passed, behind⟩ := by
  have strictly := @ends_takeStrict_append text blanks behind passed found line read blank mark
  obtain ⟨c, first, opens⟩ := front
  obtain ⟨rest, rfl⟩ : ∃ rest, text = c :: rest := List.head?_eq_some_iff.mp first
  suffices ends : Ends (constant? words) ⟨passed, c :: rest ++ (blanks ++ behind)⟩
      (fun result next => result = some (ofJson found) ∧
        next = ⟨(c :: rest ++ blanks).reverse ++ passed, behind⟩) fun _ => False by
    obtain ⟨_, _, done, rfl, rfl⟩ := ends.exists_ok
    exact done
  by_cases number : c.isDigit = true ∨ c = '-'
  · apply ends_constant?_number number rfl _ strictly
    intro zero d more second
    subst zero
    exact not_hex_of_read read (Text.delimited_append blank mark) second
  · have opening : c ∈ ['"', '[', '\x7b'] := by
      rw [not_or] at number
      simpa [number] using opens
    apply ends_constant?_opening opening rfl
    apply strictly.imp
    rintro _ next ⟨rfl, rfl⟩
    exact ⟨rfl, rfl⟩

/-- A list with a record in it. -/
def nested : Literal := .list [.integer (-12), .record [("é", .string "]")]]

theorem chars_nested : nested.chars = "[-12, \x7b\"é\": \"]\"\x7d]".toList := by decide +kernel

/-- The text of the list stands in front of a closing bracket and of a comment. -/
theorem constant?_strict_prefix_nested :
    constant? .standard ⟨[], "[-12, \x7b\"é\": \"]\"\x7d]".toList ++ ([' ', '\t'] ++ ") # 3".toList)⟩ =
      .ok (some nested)
        ⟨("[-12, \x7b\"é\": \"]\"\x7d]".toList ++ [' ', '\t']).reverse ++ [], ") # 3".toList⟩ := by
  have read : Json.read (String.ofList nested.chars) = some nested.toJson := read_chars rfl rfl rfl
  rw [← chars_nested, ← ofJson_toJson (show nested.strict Json.deepest = true from rfl)]
  have blank : ∀ c ∈ [' ', '\t'], c = ' ' ∨ c = '\t' := List.all_iff_forall_prop.mp (by decide)
  have mark : ∀ c ∈ ") # 3".toList.head?, c ∈ Text.delimiters := by simp [Text.delimiters]
  exact constant?_strict_prefix .standard ⟨'[', rfl, by decide⟩ (by decide) read blank mark

end Literal

end DocShapes
