import DocShapes.Proofs.LenientText

/-! # Reading the text of literals

The text of a legible literal is read back as the literal, whichever reader takes it: a strict one
if the literal has a JSON text, else a lenient one. The reader stops at the next delimiter.
-/

namespace DocShapes.Literal

variable {value : Literal} {cursor : Cursor} {tail : List Char}

/-- The literals that texts have: a strict text opens few containers, a lenient one has no empty
key. -/
structure Legible (value : Literal) : Prop where
  formed : value.WellFormed
  written : value.strict Json.deepest = true ∨ value.Keyed

/-- The literals that are read back from their texts. A lenient reader knows fewer escapes than a
strict one, so that it loses the rare control characters. -/
structure Restorable (value : Literal) : Prop where
  formed : value.WellFormed
  numberless : value.Numberless
  written : value.strict Json.deepest = true ∨ value.Keyed ∧ value.Clear

theorem Legible.restorable (legible : value.Legible) (plain : value.Plain) :
    value.Restorable where
  formed := legible.formed
  numberless := plain.numberless
  written := legible.written.imp_right fun keyed => ⟨keyed, (plain_iff.mp plain).2⟩

/-! ## Visible characters -/

/-- Control characters are escaped. -/
theorem visible_of_mem_escaped {c d : Char} (member : d ∈ Json.escaped c) : 32 ≤ d.toNat := by
  by_cases control : c.toNat < 32
  · have table : ∀ k : Fin 32,
        (Json.escaped (Char.ofNat k)).all (fun d => 32 ≤ d.toNat) = true := by decide
    have here := table ⟨c.toNat, control⟩
    rw [Char.ofNat_toNat, List.all_eq_true] at here
    simpa using here d member
  · have plain : isPlain c = true := by simp [isPlain, Nat.not_lt.mp control]
    rcases escaped_of_isPlain plain with common | ⟨same, _⟩
    · have table : ∀ entry ∈ commonEscapes, entry.2.all (fun d => 32 ≤ d.toNat) = true :=
        List.all_iff_forall_prop.mp (by decide)
      have here := table _ common
      rw [List.all_eq_true] at here
      simpa using here d member
    · rw [same, List.mem_singleton] at member
      rw [member]
      exact Nat.not_lt.mp control

theorem visible_of_mem_quote {text : List Char} {c : Char} (member : c ∈ Json.quote text) :
    32 ≤ c.toNat := by
  rw [Json.quote, List.cons_append, List.mem_cons, List.mem_append, List.mem_singleton] at member
  rcases member with rfl | inside | rfl
  · decide
  · obtain ⟨_, _, here⟩ := List.mem_flatMap.mp inside
    exact visible_of_mem_escaped here
  · decide

theorem visible_of_mem_separated {parts : List (List Char)}
    (each : ∀ part ∈ parts, ∀ c ∈ part, 32 ≤ c.toNat) :
    ∀ c ∈ Json.separated [',', ' '] parts, 32 ≤ c.toNat := by
  have separator : ∀ c ∈ [',', ' '], 32 ≤ c.toNat := List.all_iff_forall_prop.mp (by decide)
  cases parts with
  | nil => simp [Json.separated]
  | cons first rest =>
    obtain ⟨here, others⟩ := List.forall_mem_cons.mp each
    rw [Json.separated_cons, List.forall_mem_append]
    constructor
    · exact here
    · intro c member
      obtain ⟨part, inside, member⟩ := List.mem_flatMap.mp member
      rcases List.mem_append.mp member with between | member
      · exact separator c between
      · exact others part inside c member

theorem visible_of_wordy {c : Char} (wordy : isWordy c = true) : 32 ≤ c.toNat := by
  simpa using forall_isWordy (fun c => 32 ≤ c.toNat) (by decide) wordy

/-- The text of a literal without numbers is one line without control characters. -/
theorem visible_of_mem_chars (numberless : value.Numberless) :
    ∀ c ∈ value.chars, 32 ≤ c.toNat := by
  have between {first last : Char} {inner : List Char} (ends : 32 ≤ first.toNat ∧ 32 ≤ last.toNat)
      (inside : ∀ c ∈ inner, 32 ≤ c.toNat) : ∀ c ∈ first :: inner ++ [last], 32 ≤ c.toNat := by
    rw [List.cons_append, List.forall_mem_cons, List.forall_mem_append, List.forall_mem_singleton]
    exact ⟨ends.1, inside, ends.2⟩
  induction value using Literal.induction with
  | null => exact List.all_iff_forall_prop.mp (by decide)
  | boolean value => cases value <;> exact List.all_iff_forall_prop.mp (by decide)
  | integer value => exact fun c member => visible_of_wordy (isWordy_of_mem_wholeText member)
  | number value => cases numberless
  | string value => exact fun c => visible_of_mem_quote
  | byte value => exact fun c member => visible_of_wordy (isWordy_of_mem_hex c member)
  | bytes values => exact fun c member => visible_of_wordy (isWordy_of_mem_hex c member)
  | list items ih =>
    obtain ⟨_, numberless⟩ := (everywhere_list _ _).mp numberless
    rw [chars_list]
    apply between (by decide) (visible_of_mem_separated _)
    intro part member
    obtain ⟨item, inside, rfl⟩ := List.mem_map.mp member
    exact ih item inside (numberless item inside)
  | record fields ih =>
    obtain ⟨_, numberless⟩ := (everywhere_record _ _).mp numberless
    rw [chars_record]
    apply between (by decide) (visible_of_mem_separated _)
    intro part member
    obtain ⟨field, inside, rfl⟩ := List.mem_map.mp member
    have value := ih field inside (numberless field inside)
    rw [fieldChars, List.forall_mem_append, List.forall_mem_cons, List.forall_mem_cons]
    exact ⟨fun c => visible_of_mem_quote, by decide, by decide, value⟩

theorem newline_not_mem_chars (numberless : value.Numberless) : '\n' ∉ value.chars := by
  intro member
  have visible := visible_of_mem_chars numberless '\n' member
  exact absurd visible (by decide)

/-! ## Strict texts -/

/-- What a strict reading takes: the literal with the blanks behind it. -/
theorem take_skipSpace (run tail : List Char) :
    (run ++ tail).take ((run ++ tail).length - (Json.skipSpace tail).length) =
      run ++ tail.takeWhile Json.isSpace := by
  have whole : run ++ tail = (run ++ tail.takeWhile Json.isSpace) ++ Json.skipSpace tail := by
    rw [List.append_assoc, Json.skipSpace, List.takeWhile_append_dropWhile]
  rw [whole, List.length_append, Nat.add_sub_cancel, List.take_left]

theorem strict?_chars (formed : value.WellFormed) (numberless : value.Numberless)
    (delimited : Text.Delimited tail) (strict : value.strict Json.deepest = true) :
    strict? (value.chars ++ tail) = some (value.toJson, Text.trimStart tail) := by
  have taken := takenStrictly formed numberless Json.deepest tail delimited
  rw [if_pos strict] at taken
  have line : ((value.chars ++ tail).take
      ((value.chars ++ tail).length - (Json.skipSpace tail).length)).contains '\n' = false := by
    rw [take_skipSpace]
    simpa using And.intro (newline_not_mem_chars numberless) delimited.newline_not_mem
  simp only [strict?, taken, line, Bool.and_false, Bool.false_eq_true, if_false]
  rw [delimited.skipSpace_eq]

theorem strict?_eq_none (formed : value.WellFormed) (numberless : value.Numberless)
    (delimited : Text.Delimited tail) (lax : value.strict Json.deepest = false)
    (front : value.chars.head? ≠ some '0') : strict? (value.chars ++ tail) = none := by
  have taken := takenStrictly formed numberless Json.deepest tail delimited
  rw [if_neg (by simp [lax])] at taken
  unfold strict?
  cases read : Json.value Json.deepest (value.chars ++ tail) with
  | none => rfl
  | some found =>
    obtain ⟨digits, text, _⟩ := taken _ _ read
    rw [text] at front
    exact absurd rfl front

theorem ends_takeStrict (formed : value.WellFormed) (numberless : value.Numberless)
    (delimited : Text.Delimited tail) (strict : value.strict Json.deepest = true)
    (here : cursor.rest = value.chars ++ tail) :
    Ends takeStrict cursor
      (fun found next => found = some value ∧ next.rest = Text.trimStart tail)
      fun _ => False := by
  have whole : cursor.rest =
      (value.chars ++ tail.takeWhile Text.isBlank) ++ Text.trimStart tail := by
    rw [here, List.append_assoc, Text.trimStart, List.takeWhile_append_dropWhile]
  have found : strict? cursor.rest = some (value.toJson, Text.trimStart tail) := by
    rw [here, strict?_chars formed numberless delimited strict]
  simp only [takeStrict, ends_bind, ends_get, found, Scan.forward, ends_modify, ends_pure]
  exact ⟨congrArg some (ofJson_toJson strict), rest_forward_run whole⟩

theorem ends_takeStrict_none (none : strict? cursor.rest = none) :
    Ends takeStrict cursor (fun found next => found = .none ∧ next = cursor) fun _ => False := by
  simp only [takeStrict, ends_bind, ends_get, none, ends_pure]
  exact ⟨trivial, trivial⟩

/-! ## Bytes -/

theorem ends_takeHex {values : List UInt8} (hex : ofHex? (Text.hexOfBytes values) = some value)
    (delimited : Text.Delimited tail)
    (here : cursor.rest = '0' :: 'x' :: (Text.hexOfBytes values ++ tail)) :
    Ends takeHex cursor (fun found next => found = value ∧ next.rest = tail) fun _ => False := by
  have digits : (cursor.rest.drop 2).takeWhile Text.isHexDigit = Text.hexOfBytes values := by
    rw [here]
    exact Text.takeWhile_run Text.isHexDigit_of_mem_hexOfBytes (delimited.head_fails _ (by decide))
  have passed : (cursor.forward (2 + (Text.hexOfBytes values).length)).rest = tail := by
    rw [Cursor.rest_forward, here, Nat.add_comm]
    exact List.drop_left
  simp only [takeHex, ends_bind, ends_get, digits, hex, Scan.forward, ends_modify, ends_pure]
  exact ⟨trivial, passed⟩

/-! ## Literals -/

/-- A reader leaves what stands behind a literal, or has passed the blanks there. -/
def Left (tail : List Char) (next : Cursor) : Prop :=
  next.rest = tail ∨ next.rest = Text.trimStart tail

theorem Left.trimStart {next : Cursor} (left : Left tail next) :
    Text.trimStart next.rest = Text.trimStart tail := by
  rcases left with rest | rest
  · rw [rest]
  · rw [rest, Text.trimStart_trimStart]

/-- A literal that is written as a word. -/
def isWord : Literal → Bool
  | .null => true
  | .boolean _ => true
  | _ => false

/-- A word is no constant by itself. -/
theorem ends_constant?_word (word : value.isWord = true)
    (here : cursor.rest = value.chars ++ tail) :
    Ends (constant? .standard) cursor (fun found next => found = none ∧ next = cursor)
      fun _ => False := by
  cases value with
  | null =>
    simp only [constant?, ends_bind, ends_get, here]
    exact ⟨rfl, rfl⟩
  | boolean value =>
    cases value with
    | false =>
      simp only [constant?, ends_bind, ends_get, here]
      exact ⟨rfl, rfl⟩
    | true =>
      simp only [constant?, ends_bind, ends_get, here]
      exact ⟨rfl, rfl⟩
  | _ => cases word

/-- Behind a whole number nothing makes it bytes. -/
theorem not_hex_of_wholeText {whole : Int64} {c d : Char} {rest : List Char}
    (delimited : Text.Delimited tail)
    (text : Json.wholeText whole.toInt ++ tail = c :: d :: rest) : d ≠ 'x' ∧ d ≠ 'X' := by
  have outside := delimited.head_fails (fun c => c = 'x' || c = 'X') (by decide)
  have inside : ∀ c ∈ Json.wholeText whole.toInt, c ≠ 'x' ∧ c ≠ 'X' := by
    intro c member
    rcases mem_wholeText member with digit | sign
    · have table := Json.forall_isDigit (fun c => c ≠ 'x' && c ≠ 'X') (by decide) digit
      simpa using table
    · subst sign
      decide
  match run : Json.wholeText whole.toInt with
  | [] =>
    obtain ⟨_, _, some, _⟩ := @exists_chars_eq_cons (.integer whole) rfl
    rw [chars, run] at some
    cases some
  | [only] =>
    rw [run] at text
    obtain ⟨_, rfl⟩ := List.cons.inj text
    simpa using outside d rfl
  | first :: second :: more =>
    rw [run] at text inside
    obtain ⟨_, text⟩ := List.cons.inj text
    obtain ⟨rfl, _⟩ := List.cons.inj text
    exact inside second (by simp)

theorem ends_takeLenient (formed : value.WellFormed) (plain : value.Plain)
    (keyed : value.Keyed) (delimited : Text.Delimited tail)
    (here : Text.trimStart cursor.rest = value.chars ++ tail) :
    Ends (takeLenient .standard) cursor (fun found next => found = value ∧ next.rest = tail)
      fun _ => False := by
  have room : value.chars.length ≤ cursor.rest.length + 1 := by
    have shorter := Text.length_trimStart_le cursor.rest
    rw [here, List.length_append] at shorter
    omega
  simp only [takeLenient, ends_bind, ends_get]
  exact takenLeniently formed plain keyed room cursor tail delimited here

theorem ends_constant?_hex {values : List UInt8}
    (hex : ofHex? (Text.hexOfBytes values) = some value) (delimited : Text.Delimited tail)
    (here : cursor.rest = '0' :: 'x' :: (Text.hexOfBytes values ++ tail)) :
    Ends (constant? .standard) cursor (fun found next => found = some value ∧ Left tail next)
      fun _ => False := by
  simp only [constant?, ends_bind, ends_get, here, ends_map]
  refine (ends_takeHex hex delimited here).imp ?_
  rintro _ next ⟨rfl, rest⟩
  exact ⟨rfl, .inl rest⟩

/-- A constant that begins with a digit or a sign is a strict one. -/
theorem ends_constant?_number {words : Words} {c : Char} {rest : List Char} {found : Literal}
    {holds : Cursor → Prop} (front : c.isDigit = true ∨ c = '-') (here : cursor.rest = c :: rest)
    (decimal : c = '0' → ∀ d more, rest = d :: more → d ≠ 'x' ∧ d ≠ 'X')
    (strictly : Ends takeStrict cursor (fun result next => result = some found ∧ holds next)
      fun _ => False) :
    Ends (constant? words) cursor (fun result next => result = some found ∧ holds next)
      fun _ => False := by
  have number : (c.isDigit || c = '-') = true := by simpa using front
  simp only [constant?, ends_bind, ends_get, here]
  split
  · rename_i same
    obtain ⟨zero, same⟩ := List.cons.inj same
    exact absurd rfl (decimal zero _ _ same).1
  · rename_i same
    obtain ⟨zero, same⟩ := List.cons.inj same
    exact absurd rfl (decimal zero _ _ same).2
  · rename_i same
    obtain ⟨rfl, _⟩ := List.cons.inj same
    rw [if_pos number, ends_bind]
    refine strictly.imp ?_
    rintro _ next ⟨rfl, holds⟩
    exact ⟨rfl, holds⟩
  · rename_i same
    cases same

/-- A constant that begins with a quote or a bracket is a strict one or else a lenient one. -/
theorem ends_constant?_opening {words : Words} {c : Char} {rest : List Char}
    {done : Option Literal → Cursor → Prop} {failed : Cursor → Prop}
    (front : c ∈ ['"', '[', '\x7b']) (here : cursor.rest = c :: rest)
    (taken : Ends takeStrict cursor
      (fun result next =>
        match result with
        | some found => done (some found) next
        | none => Ends (takeLenient words) next (fun found => done (some found)) failed)
      failed) :
    Ends (constant? words) cursor done failed := by
  have table : ∀ c ∈ ['"', '[', '\x7b'], (c.isDigit || c = '-') = false ∧ c ≠ '0' ∧
      (c = '"' || c = '\'' || c = '\x7b' || c = '[') = true :=
    List.all_iff_forall_prop.mp (by decide)
  have other := table c front
  simp only [constant?, ends_bind, ends_get, here]
  split
  · rename_i same
    obtain ⟨rfl, _⟩ := List.cons.inj same
    exact absurd rfl other.2.1
  · rename_i same
    obtain ⟨rfl, _⟩ := List.cons.inj same
    exact absurd rfl other.2.1
  · rename_i same
    obtain ⟨rfl, _⟩ := List.cons.inj same
    rw [if_neg (by simp [other.1]), if_pos other.2.2, ends_bind]
    apply taken.imp
    intro result next found
    cases result with
    | some => exact found
    | none =>
      rw [ends_map]
      exact found
  · rename_i same
    cases same

/-- A literal that is no word is a constant, which ends in front of the next delimiter. -/
theorem ends_constant? (restorable : value.Restorable) (word : value.isWord = false)
    (delimited : Text.Delimited tail) (here : cursor.rest = value.chars ++ tail) :
    Ends (constant? .standard) cursor (fun found next => found = some value ∧ Left tail next)
      fun _ => False := by
  obtain ⟨formed, numberless, written⟩ := restorable
  have strictly (strict : value.strict Json.deepest = true) :
      Ends takeStrict cursor (fun found next => found = some value ∧ Left tail next)
        fun _ => False := by
    refine (ends_takeStrict formed numberless delimited strict here).imp ?_
    rintro found next ⟨same, rest⟩
    exact ⟨same, .inr rest⟩
  have opening {c : Char} {rest : List Char} (front : c ∈ ['"', '[', '\x7b'])
      (text : value.chars = c :: rest) :
      Ends (constant? .standard) cursor (fun found next => found = some value ∧ Left tail next)
        fun _ => False := by
    have start : cursor.rest = c :: (rest ++ tail) := by rw [here, text, List.cons_append]
    refine ends_constant?_opening front start ?_
    by_cases strict : value.strict Json.deepest
    · refine (strictly strict).imp ?_
      rintro _ next ⟨rfl, left⟩
      exact ⟨rfl, left⟩
    · have lax : value.strict Json.deepest = false := by simpa using strict
      obtain ⟨keyed, clear⟩ := written.resolve_left strict
      have letters : ∀ c ∈ ['"', '[', '\x7b'], c ≠ '0' ∧ Text.isBlank c = false :=
        List.all_iff_forall_prop.mp (by decide)
      have refused : strict? cursor.rest = none := by
        rw [here]
        refine strict?_eq_none formed numberless delimited lax ?_
        rw [text]
        simpa using (letters c front).1
      have visible : Text.trimStart cursor.rest = value.chars ++ tail := by
        rw [start, Text.trimStart_of_visible (letters c front).2, text, List.cons_append]
      have plain : value.Plain := plain_iff.mpr ⟨numberless, clear⟩
      refine (ends_takeStrict_none refused).imp ?_
      rintro _ _ ⟨rfl, rfl⟩
      refine (ends_takeLenient formed plain keyed delimited visible).imp ?_
      rintro _ next ⟨rfl, rest⟩
      exact ⟨rfl, .inl rest⟩
  cases value with
  | null => cases word
  | boolean => cases word
  | number => cases numberless
  | integer whole =>
    obtain ⟨c, more, text, _⟩ := exists_chars_eq_cons numberless
    have front : c.isDigit = true ∨ c = '-' := by
      have member : c ∈ Json.wholeText whole.toInt := by
        rw [show Json.wholeText whole.toInt = c :: more from text]
        exact List.mem_cons_self
      exact mem_wholeText member
    rw [text, List.cons_append] at here
    refine ends_constant?_number front here (fun _ d rest same => ?_) (strictly rfl)
    have whole : Json.wholeText whole.toInt ++ tail = c :: d :: rest := by
      rw [show Json.wholeText whole.toInt = c :: more from text, List.cons_append, same]
    exact not_hex_of_wholeText delimited whole
  | string => exact opening (by decide) rfl
  | byte only => exact @ends_constant?_hex _ _ _ [only] (by simp [ofHex?]) delimited here
  | bytes values => exact ends_constant?_hex (ofHex?_hexOfBytes formed) delimited here
  | list => exact opening (by decide) rfl
  | record => exact opening (by decide) rfl

/-- Where literals and words may stand, every restorable literal is read back. -/
theorem ends_value (restorable : value.Restorable) (delimited : Text.Delimited tail)
    (here : cursor.rest = value.chars ++ tail) :
    Ends (Literal.value .standard) cursor (fun found next => found = value ∧ Left tail next)
      fun _ => False := by
  rw [Literal.value, ends_bind]
  by_cases word : value.isWord
  · refine (ends_constant?_word word here).imp ?_
    rintro _ stopped ⟨rfl, same⟩
    rw [same]
    obtain ⟨plain, keyed⟩ : value.Plain ∧ value.Keyed := by
      cases value with
      | null => exact ⟨rfl, rfl⟩
      | boolean => exact ⟨rfl, rfl⟩
      | _ => cases word
    obtain ⟨c, rest, text, blank, _⟩ := exists_chars_eq_cons restorable.numberless
    have visible : Text.trimStart cursor.rest = value.chars ++ tail := by
      rw [here, text, List.cons_append, Text.trimStart_of_visible blank]
    refine (ends_takeLenient restorable.formed plain keyed delimited visible).imp ?_
    rintro _ next ⟨rfl, rest⟩
    exact ⟨rfl, .inl rest⟩
  · refine (ends_constant? restorable (by simpa using word) delimited here).imp ?_
    rintro _ next ⟨rfl, left⟩
    exact ⟨rfl, left⟩

end DocShapes.Literal
