import DocShapes.Proofs.Delimiting
import DocShapes.Proofs.Literals

/-! # Strict reading of the text of literals

The text of a literal without bytes is a JSON text, up to the depth that is read, and a strict
reader stops right behind it. A text with bytes in it has no strict reading.
-/

namespace DocShapes.Json

variable {tail : List Char}

/-! ## Strings -/

theorem unit?_control {n : Nat} (small : n < 32) :
    unit? '0' '0' (Text.hexDigit (n / 16)) (Text.hexDigit (n % 16)) = some n := by
  have zero : Text.hexValue? '0' = some 0 := by decide
  simp [unit?, zero, Text.hexValue?_hexDigit, show n / 16 < 16 by omega,
    show n % 16 < 16 by omega, Nat.div_add_mod]

/-- A character is read back from the way it is written. -/
theorem stringBody_escaped (c : Char) (rest : List Char) :
    stringBody (escaped c ++ rest) =
      (stringBody rest).map fun (text, rest) => (c :: text, rest) := by
  by_cases quote : c = '"'
  · subst quote
    rfl
  by_cases slash : c = '\\'
  · subst slash
    rfl
  by_cases backspace : c.toNat = 8
  · obtain rfl : c = '\x08' := Char.toNat_inj.mp backspace
    rfl
  by_cases feed : c.toNat = 12
  · obtain rfl : c = '\x0c' := Char.toNat_inj.mp feed
    rfl
  by_cases line : c = '\n'
  · subst line
    rfl
  by_cases back : c = '\r'
  · subst back
    rfl
  by_cases tab : c = '\t'
  · subst tab
    rfl
  by_cases control : c.toNat < 32
  · have unit := unit?_control control
    have low : ¬(0xd800 ≤ c.toNat ∧ c.toNat ≤ 0xdbff) := by omega
    have high : ¬(0xdc00 ≤ c.toNat ∧ c.toNat ≤ 0xdfff) := by omega
    simp [escaped, quote, slash, backspace, feed, line, back, tab, control, stringBody, unit, low,
      high, Char.ofNat_toNat]
  · have same : escaped c = [c] := by
      simp [escaped, quote, slash, backspace, feed, line, back, tab, control]
    rw [same, List.singleton_append, stringBody.eq_def]
    split <;> simp_all [Nat.not_lt.mpr]

theorem stringBody_quoted (text tail : List Char) :
    stringBody (text.flatMap escaped ++ '"' :: tail) = some (text, tail) := by
  induction text with
  | nil => rfl
  | cons c rest ih =>
    rw [List.flatMap_cons, List.append_assoc, stringBody_escaped, ih]
    rfl

/-! ## Whole numbers -/

theorem naturalOf_digits (n : Nat) : naturalOf (Decimal.digits n) = n :=
  Nat.ofDigitChars_ten_toDigits

theorem isDigit_of_mem_digits {n : Nat} {c : Char} (member : c ∈ Decimal.digits n) :
    c.isDigit = true :=
  Nat.isDigit_of_mem_toDigits (by decide) (by decide) member

/-- Only zero is written with a zero in front. -/
theorem head?_digits (n : Nat) (front : (Decimal.digits n).head? = some '0') : n = 0 := by
  induction n using Nat.strongRecOn with
  | ind n ih =>
    by_cases small : n < 10
    · rw [Decimal.digits, Nat.toDigits_of_lt_base small] at front
      simpa using front
    · have before : Decimal.digits n = Decimal.digits (n / 10) ++ [Nat.digitChar (n % 10)] :=
        Nat.toDigits_of_base_le (by decide) (by omega)
      have nonempty : Decimal.digits (n / 10) ≠ [] := Nat.toDigits_ne_nil
      rw [before, List.head?_append_of_ne_nil _ nonempty] at front
      have zero := ih (n / 10) (by omega) front
      omega

theorem fraction?_delimited (delimited : Text.Delimited tail) :
    fraction? tail = some ([], tail) := by
  have other := delimited.head_fails (· == '.') (by decide)
  unfold fraction?
  split
  · simp at other
  · rfl

theorem exponent?_delimited (delimited : Text.Delimited tail) :
    exponent? tail = some (none, tail) := by
  have other := delimited.head_fails (fun c => c = 'e' || c = 'E') (by decide)
  cases tail with
  | nil => rfl
  | cons c rest =>
    have plain : ¬(c = 'e' || c = 'E') = true := by simpa using other c rfl
    rw [exponent?, if_neg plain]

theorem unsigned_digits (negative : Bool) (n : Nat) (delimited : Text.Delimited tail) :
    unsigned negative (Decimal.digits n ++ tail) =
      (ofWhole negative (Decimal.digits n)).map fun found => (found, tail) := by
  have run : (Decimal.digits n ++ tail).takeWhile Char.isDigit = Decimal.digits n :=
    Text.takeWhile_run (fun _ => isDigit_of_mem_digits) (delimited.head_fails _ (by decide))
  have nonempty : Decimal.digits n ≠ [] := Nat.toDigits_ne_nil
  have front : (Decimal.digits n).head? = some '0' → (Decimal.digits n).length = 1 := by
    intro front
    rw [head?_digits n front]
    rfl
  simp only [unsigned, run, List.drop_left, fraction?_delimited delimited,
    Option.bind_eq_bind, Option.bind_some, exponent?_delimited delimited]
  rw [if_neg (by simpa [nonempty] using front)]
  cases ofWhole negative (Decimal.digits n) <;> rfl

/-! ## Values -/

theorem skipSpace_of_visible {c : Char} {rest : List Char} (visible : isSpace c = false) :
    skipSpace (c :: rest) = c :: rest := by
  simp [skipSpace, visible]

theorem value_space (depth : Nat) (text : List Char) :
    value depth (' ' :: text) = value depth text := by
  rw [value, value]
  rfl

theorem value_mark (depth : Nat) (rest : List Char) :
    value depth ('"' :: rest) =
      (stringBody rest).map fun (text, rest) => (.string (String.ofList text), rest) := by
  cases depth <;> rfl

theorem value_sign (depth : Nat) (rest : List Char) :
    value depth ('-' :: rest) = unsigned true rest := by
  cases depth <;> rfl

theorem quote_append (text tail : List Char) :
    quote text ++ tail = '"' :: (text.flatMap escaped ++ '"' :: tail) := by
  simp [quote]

theorem value_quote (depth : Nat) (text tail : List Char) :
    value depth (quote text ++ tail) = some (.string (String.ofList text), tail) := by
  rw [quote_append, value_mark]
  simp [stringBody_quoted]

/-- A test that each of the ten digits passes. -/
theorem forall_isDigit (test : Char → Bool)
    (table : ∀ k : Fin 10, test (Char.ofNat (48 + k.val)) = true) {c : Char}
    (digit : c.isDigit = true) : test c = true := by
  have bounds : 48 ≤ c.toNat ∧ c.toNat ≤ 57 := by
    simpa [Char.isDigit, UInt32.le_iff_toNat_le] using digit
  have here := table ⟨c.toNat - 48, by omega⟩
  rwa [Nat.add_sub_cancel' bounds.1, Char.ofNat_toNat] at here

theorem value_digits (depth n : Nat) (delimited : Text.Delimited tail) :
    value depth (Decimal.digits n ++ tail) =
      (ofWhole false (Decimal.digits n)).map fun found => (found, tail) := by
  rw [← unsigned_digits false n delimited]
  cases run : Decimal.digits n with
  | nil => exact absurd run Nat.toDigits_ne_nil
  | cons c rest =>
    have digit : c.isDigit = true := isDigit_of_mem_digits (n := n) (by rw [run]; simp)
    have plain : isSpace c = false ∧ c ≠ '"' ∧ c ≠ '-' := by
      have table := forall_isDigit (fun c => !isSpace c && c ≠ '"' && c ≠ '-') (by decide)
        digit
      simpa [and_assoc] using table
    rw [List.cons_append, value, skipSpace_of_visible plain.1]
    simp only [plain, digit, if_true, if_false]

/-- A whole number that fits 64 bits is read back. -/
theorem value_wholeText (depth : Nat) (whole : Int64) (delimited : Text.Delimited tail) :
    value depth (wholeText whole.toInt ++ tail) = some (.integer whole.toInt, tail) := by
  have low : -2 ^ 63 ≤ whole.toInt := Int64.le_toInt whole
  have high : whole.toInt < 2 ^ 63 := Int64.toInt_lt whole
  have small : whole.toInt.natAbs ≤ Binary64.twoTo 63 := by
    rw [show Binary64.twoTo 63 = 2 ^ 63 from rfl]
    omega
  have fitting : whole.toInt.natAbs < Binary64.twoTo 64 :=
    Nat.lt_of_le_of_lt small (by decide)
  by_cases negative : whole.toInt < 0
  · have fits : ofWhole true (Decimal.digits whole.toInt.natAbs) =
        some (.integer whole.toInt) := by
      have nonzero : whole.toInt.natAbs ≠ 0 := by omega
      have within : (whole.toInt.natAbs ≠ 0 && whole.toInt.natAbs ≤ Binary64.twoTo 63) = true := by
        simp [nonzero, small]
      have size : -(whole.toInt.natAbs : Int) = whole.toInt := by omega
      simp only [ofWhole, naturalOf_digits, if_true, within, size]
    rw [wholeText, if_pos negative, List.cons_append, value_sign]
    simp [unsigned_digits true _ delimited, fits]
  · have fits : ofWhole false (Decimal.digits whole.toInt.natAbs) =
        some (.integer whole.toInt) := by
      have size : (whole.toInt.natAbs : Int) = whole.toInt := by omega
      simp [ofWhole, naturalOf_digits, fitting, size]
    rw [wholeText, if_neg negative, value_digits depth _ delimited, fits]
    rfl

/-! ## Containers -/

theorem value_bracket (depth : Nat) (text : List Char) :
    value (depth + 1) ('[' :: text) =
      match skipSpace text with
      | ']' :: rest => some (.array [], rest)
      | _ => (elements (value depth) text.length text).map fun (items, rest) =>
          (.array items, rest) := rfl

theorem value_brace (depth : Nat) (text : List Char) :
    value (depth + 1) ('\x7b' :: text) =
      match skipSpace text with
      | '\x7d' :: rest => some (.object [], rest)
      | _ => (entries (value depth) text.length [] text).map fun (members, rest) =>
          (.object members, rest) := rfl

theorem elements_space (depth fuel : Nat) (text : List Char) :
    elements (value depth) fuel (' ' :: text) = elements (value depth) fuel text := by
  cases fuel with
  | zero => rfl
  | succ fuel => rw [elements, elements, value_space]

theorem entries_space (depth fuel : Nat) (before : List (String × Json)) (text : List Char) :
    entries (value depth) fuel before (' ' :: text) = entries (value depth) fuel before text := by
  have key : memberKey (' ' :: text) = memberKey text := rfl
  cases fuel with
  | zero => rfl
  | succ fuel => rw [entries, entries, key]

theorem memberKey_quote (key : String) (text : List Char) :
    memberKey (quote key.toList ++ ':' :: text) = some (key, text) := by
  have here : skipSpace (quote key.toList ++ ':' :: text) = quote key.toList ++ ':' :: text := by
    rw [quote_append]
    exact skipSpace_of_visible (by decide)
  rw [memberKey, here, quote_append]
  simp [stringBody_quoted, skipSpace, isSpace, String.ofList_toList]

end DocShapes.Json

namespace DocShapes.Literal

open Json (elements entries separated quote skipSpace)

/-! ### Items and fields -/

theorem chars_items (items : List Literal) : chars.eachItem items = items.map chars := by
  induction items with
  | nil => rfl
  | cons item rest ih => rw [chars.eachItem, ih, List.map_cons]

theorem chars_string (value : String) : (Literal.string value).chars = quote value.toList := rfl

theorem chars_list (items : List Literal) :
    (Literal.list items).chars = '[' :: separated [',', ' '] (items.map chars) ++ [']'] := by
  rw [← chars_items]
  rfl

/-- The text of a field of a record. -/
def fieldChars (field : String × Literal) : List Char :=
  quote field.1.toList ++ ':' :: ' ' :: field.2.chars

theorem chars_fields (fields : List (String × Literal)) :
    chars.eachField fields = fields.map fieldChars := by
  induction fields with
  | nil => rfl
  | cons field rest ih => rw [chars.eachField, ih, List.map_cons, fieldChars]

theorem chars_record (fields : List (String × Literal)) :
    (Literal.record fields).chars =
      '\x7b' :: separated [',', ' '] (fields.map fieldChars) ++ ['\x7d'] := by
  rw [← chars_fields]
  rfl

/-- How a strict reader takes the text of a literal in front of a delimiter: one that has no JSON
text is refused, or read as a zero up to the mark of its bytes. -/
def TakenStrictly (depth : Nat) (literal : Literal) : Prop :=
  ∀ tail, Text.Delimited tail →
    if literal.strict depth then
      Json.value depth (literal.chars ++ tail) = some (literal.toJson, tail)
    else
      ∀ found rest, Json.value depth (literal.chars ++ tail) = some (found, rest) →
        ∃ digits, literal.chars = '0' :: 'x' :: digits ∧ rest = 'x' :: (digits ++ tail)

/-- What a strict reader of items or members sees behind a value with a delimiter behind it. -/
theorem TakenStrictly.step {depth : Nat} {literal : Literal} (taken : TakenStrictly depth literal)
    {c : Char} (mark : c ∈ Text.delimiters) (rest : List Char) :
    Json.value depth (literal.chars ++ c :: rest) =
        (if literal.strict depth then some (literal.toJson, c :: rest) else none) ∨
      literal.strict depth = false ∧ ∃ found stop,
        Json.value depth (literal.chars ++ c :: rest) = some (found, 'x' :: stop) := by
  have here := taken (c :: rest) (.mark mark)
  by_cases strict : literal.strict depth
  · rw [if_pos strict] at here
    exact .inl (by rw [here, if_pos strict])
  · rw [if_neg strict] at here
    cases read : Json.value depth (literal.chars ++ c :: rest) with
    | none => exact .inl (by rw [if_neg strict])
    | some found =>
      obtain ⟨digits, _, stop⟩ := here _ _ read
      exact .inr ⟨by simpa using strict, found.1, digits ++ c :: rest, by rw [← stop]⟩

theorem elements_last {depth fuel : Nat} {item : Literal} (taken : TakenStrictly depth item)
    (tail : List Char) :
    elements (Json.value depth) (fuel + 1) (item.chars ++ ']' :: tail) =
      if item.strict depth then some ([item.toJson], tail) else none := by
  rcases taken.step (c := ']') (by decide) tail with here | ⟨lax, found, stop, here⟩
  · rw [elements, here]
    by_cases strict : item.strict depth
    · simp [strict, skipSpace, Json.isSpace]
    · simp [strict]
  · rw [elements, here]
    simp [lax, skipSpace, Json.isSpace]

theorem elements_next {depth fuel : Nat} {item : Literal} (taken : TakenStrictly depth item)
    (text : List Char) :
    elements (Json.value depth) (fuel + 1) (item.chars ++ ',' :: ' ' :: text) =
      if item.strict depth then
        (elements (Json.value depth) fuel text).map fun (others, rest) =>
          (item.toJson :: others, rest)
      else none := by
  rcases taken.step (c := ',') (by decide) (' ' :: text) with here | ⟨lax, found, stop, here⟩
  · rw [elements, here]
    by_cases strict : item.strict depth
    · simp [strict, skipSpace, Json.isSpace, Json.elements_space]
    · simp [strict]
  · rw [elements, here]
    simp [lax, skipSpace, Json.isSpace]

theorem elements_items {depth fuel : Nat} (first : Literal) (rest : List Literal)
    (tail : List Char) (each : ∀ item ∈ first :: rest, TakenStrictly depth item)
    (room : rest.length < fuel) :
    elements (Json.value depth) fuel
        (separated [',', ' '] ((first :: rest).map chars) ++ ']' :: tail) =
      if (first :: rest).all fun item => item.strict depth then
        some ((first :: rest).map toJson, tail)
      else none := by
  induction rest generalizing first fuel with
  | nil =>
    obtain ⟨fuel, rfl⟩ := Nat.exists_eq_add_one_of_ne_zero (Nat.ne_zero_of_lt room)
    obtain ⟨here, _⟩ := List.forall_mem_cons.mp each
    simpa [separated] using elements_last here tail
  | cons second others ih =>
    obtain ⟨fuel, rfl⟩ := Nat.exists_eq_add_one_of_ne_zero (Nat.ne_zero_of_lt room)
    obtain ⟨here, each⟩ := List.forall_mem_cons.mp each
    have more := ih second each (Nat.lt_of_succ_lt_succ room)
    have text : separated [',', ' '] ((first :: second :: others).map chars) ++ ']' :: tail =
        first.chars ++ ',' :: ' ' ::
          (separated [',', ' '] ((second :: others).map chars) ++ ']' :: tail) := by
      simp [separated]
    rw [text, elements_next here, more]
    by_cases strict : first.strict depth
    · have all : ((first :: second :: others).all fun item => item.strict depth) =
          (second :: others).all fun item => item.strict depth := by
        rw [List.all_cons, strict, Bool.true_and]
      rw [if_pos strict, all]
      split <;> rfl
    · simp [strict]

/-- Members with different keys are put behind one another. -/
theorem entries_last {depth fuel : Nat} {before : List (String × Json)}
    {field : String × Literal} (taken : TakenStrictly depth field.2)
    (fresh : field.1 ∉ before.map Prod.fst) (tail : List Char) :
    entries (Json.value depth) (fuel + 1) before (fieldChars field ++ '\x7d' :: tail) =
      if field.2.strict depth then some (before ++ [(field.1, field.2.toJson)], tail)
      else none := by
  have text : fieldChars field ++ '\x7d' :: tail =
      quote field.1.toList ++ ':' :: ' ' :: (field.2.chars ++ '\x7d' :: tail) := by
    simp [fieldChars]
  rw [text, entries, Json.memberKey_quote]
  simp only [Json.value_space, OrderedMap.put_of_not_mem _ fresh]
  rcases taken.step (c := '\x7d') (by decide) tail with here | ⟨lax, found, stop, here⟩
  · rw [here]
    by_cases strict : field.2.strict depth
    · simp [strict, skipSpace, Json.isSpace]
    · simp [strict]
  · rw [here]
    simp [lax, skipSpace, Json.isSpace]

theorem entries_next {depth fuel : Nat} {before : List (String × Json)}
    {field : String × Literal} (taken : TakenStrictly depth field.2)
    (fresh : field.1 ∉ before.map Prod.fst) (text : List Char) :
    entries (Json.value depth) (fuel + 1) before (fieldChars field ++ ',' :: ' ' :: text) =
      if field.2.strict depth then
        entries (Json.value depth) fuel (before ++ [(field.1, field.2.toJson)]) text
      else none := by
  have whole : fieldChars field ++ ',' :: ' ' :: text =
      quote field.1.toList ++ ':' :: ' ' :: (field.2.chars ++ ',' :: ' ' :: text) := by
    simp [fieldChars]
  rw [whole, entries, Json.memberKey_quote]
  simp only [Json.value_space, OrderedMap.put_of_not_mem _ fresh]
  rcases taken.step (c := ',') (by decide) (' ' :: text) with here | ⟨lax, found, stop, here⟩
  · rw [here]
    by_cases strict : field.2.strict depth
    · simp [strict, skipSpace, Json.isSpace, Json.entries_space]
    · simp [strict]
  · rw [here]
    simp [lax, skipSpace, Json.isSpace]

theorem entries_fields {depth fuel : Nat} (before : List (String × Json))
    (first : String × Literal) (rest : List (String × Literal)) (tail : List Char)
    (each : ∀ field ∈ first :: rest, TakenStrictly depth field.2)
    (distinct : (before.map Prod.fst ++ (first :: rest).map Prod.fst).Nodup)
    (room : rest.length < fuel) :
    entries (Json.value depth) fuel before
        (separated [',', ' '] ((first :: rest).map fieldChars) ++ '\x7d' :: tail) =
      if (first :: rest).all fun field => field.2.strict depth then
        some (before ++ (first :: rest).map fun field => (field.1, field.2.toJson), tail)
      else none := by
  have fresh : first.1 ∉ before.map Prod.fst := by
    intro member
    exact (List.nodup_append.mp distinct).2.2 _ member _ (by simp) rfl
  induction rest generalizing before first fuel with
  | nil =>
    obtain ⟨fuel, rfl⟩ := Nat.exists_eq_add_one_of_ne_zero (Nat.ne_zero_of_lt room)
    obtain ⟨here, _⟩ := List.forall_mem_cons.mp each
    simpa [separated] using entries_last here fresh tail
  | cons second others ih =>
    obtain ⟨fuel, rfl⟩ := Nat.exists_eq_add_one_of_ne_zero (Nat.ne_zero_of_lt room)
    obtain ⟨here, each⟩ := List.forall_mem_cons.mp each
    have text :
        separated [',', ' '] ((first :: second :: others).map fieldChars) ++ '\x7d' :: tail =
        fieldChars first ++ ',' :: ' ' ::
          (separated [',', ' '] ((second :: others).map fieldChars) ++ '\x7d' :: tail) := by
      simp [separated]
    have further : ((before ++ [(first.1, first.2.toJson)]).map Prod.fst ++
        (second :: others).map Prod.fst).Nodup := by
      simpa using distinct
    have new : second.1 ∉ (before ++ [(first.1, first.2.toJson)]).map Prod.fst := by
      intro member
      exact (List.nodup_append.mp further).2.2 _ member _ (by simp) rfl
    have more := ih (before ++ [(first.1, first.2.toJson)]) second each further
      (Nat.lt_of_succ_lt_succ room) new
    rw [text, entries_next here fresh, more, List.append_assoc]
    by_cases strict : first.2.strict depth
    · have all : ((first :: second :: others).all fun field => field.2.strict depth) =
          (second :: others).all fun field => field.2.strict depth := by
        rw [List.all_cons, strict, Bool.true_and]
      rw [if_pos strict, all]
      rfl
    · simp [strict]

/-! ### Literals -/

theorem TakenStrictly.of_strict {depth : Nat} {value : Literal} (strict : value.strict depth = true)
    (read : ∀ tail, Text.Delimited tail →
      Json.value depth (value.chars ++ tail) = some (value.toJson, tail)) :
    TakenStrictly depth value := by
  intro tail delimited
  rw [if_pos strict]
  exact read tail delimited

theorem TakenStrictly.of_hex {depth : Nat} {value : Literal} {digits : List Char}
    (lax : value.strict depth = false) (text : value.chars = '0' :: 'x' :: digits) :
    TakenStrictly depth value := by
  intro tail _
  rw [if_neg (by simp [lax]), text]
  intro found rest read
  have zero : Json.value depth ('0' :: 'x' :: (digits ++ tail)) =
      some (.integer 0, 'x' :: (digits ++ tail)) := by
    cases depth <;> rfl
  rw [List.cons_append, List.cons_append, zero] at read
  cases read
  exact ⟨digits, rfl, rfl⟩

theorem TakenStrictly.of_refused {depth : Nat} {value : Literal} (lax : value.strict depth = false)
    (refused : ∀ tail, Json.value depth (value.chars ++ tail) = none) :
    TakenStrictly depth value := by
  intro tail _
  rw [if_neg (by simp [lax]), refused]
  intro found rest read
  cases read

theorem TakenStrictly.of_container {depth : Nat} {value : Literal}
    (read : ∀ tail, Json.value depth (value.chars ++ tail) =
      if value.strict depth then some (value.toJson, tail) else none) :
    TakenStrictly depth value := by
  by_cases strict : value.strict depth
  · exact .of_strict strict fun tail _ => by rw [read, if_pos strict]
  · exact .of_refused (by simpa using strict) fun tail => by rw [read, if_neg strict]

/-- The text of a literal begins with a character that is no blank and closes nothing. -/
theorem exists_chars_eq_cons {value : Literal} (numberless : value.Numberless) :
    ∃ c rest, value.chars = c :: rest ∧ Text.isBlank c = false ∧ Json.isSpace c = false ∧
      c ∉ [']', '\x7d', ')'] := by
  cases value with
  | null => exact ⟨'n', _, rfl, by decide⟩
  | boolean value =>
    cases value with
    | false => exact ⟨'f', _, rfl, by decide⟩
    | true => exact ⟨'t', _, rfl, by decide⟩
  | integer value =>
    by_cases negative : value.toInt < 0
    · exact ⟨'-', _, if_pos negative, by decide⟩
    · cases run : Decimal.digits value.toInt.natAbs with
      | nil => exact absurd run Nat.toDigits_ne_nil
      | cons c rest =>
        have digit := Json.isDigit_of_mem_digits (run ▸ List.mem_cons_self)
        have table := Json.forall_isDigit (fun c =>
          !Text.isBlank c && !Json.isSpace c && c ∉ [']', '\x7d', ')']) (by decide) digit
        refine ⟨c, rest, (if_neg negative).trans run, ?_⟩
        simpa [and_assoc] using table
  | number => cases numberless
  | string => exact ⟨'"', _, rfl, by decide⟩
  | byte => exact ⟨'0', _, rfl, by decide⟩
  | bytes => exact ⟨'0', _, rfl, by decide⟩
  | list => exact ⟨'[', _, rfl, by decide⟩
  | record => exact ⟨'\x7b', _, rfl, by decide⟩

theorem chars_list_append (items : List Literal) (tail : List Char) :
    (Literal.list items).chars ++ tail =
      '[' :: (separated [',', ' '] (items.map chars) ++ ']' :: tail) := by
  simp [chars_list]

theorem chars_record_append (fields : List (String × Literal)) (tail : List Char) :
    (Literal.record fields).chars ++ tail =
      '\x7b' :: (separated [',', ' '] (fields.map fieldChars) ++ '\x7d' :: tail) := by
  simp [chars_record]

/-- Each part behind the first takes a separator. -/
theorem length_lt_separated (first : List Char) (rest : List (List Char)) (tail : List Char)
    (last : Char) :
    rest.length < (separated [',', ' '] (first :: rest) ++ last :: tail).length := by
  induction rest generalizing first with
  | nil =>
    rw [List.length_append, List.length_nil, List.length_cons]
    omega
  | cons second others ih =>
    have shorter := ih second
    simp only [separated, List.length_append, List.length_cons] at shorter ⊢
    omega

theorem length_le_separated (parts : List (List Char)) (tail : List Char) (last : Char) :
    parts.length ≤ (separated [',', ' '] parts ++ last :: tail).length := by
  cases parts with
  | nil => exact Nat.zero_le _
  | cons first rest => exact length_lt_separated first rest tail last

theorem value_list {depth : Nat} (items : List Literal) (tail : List Char)
    (each : ∀ item ∈ items, TakenStrictly depth item)
    (numberless : ∀ item ∈ items, item.Numberless) :
    Json.value (depth + 1) ((Literal.list items).chars ++ tail) =
      if (Literal.list items).strict (depth + 1) then some ((Literal.list items).toJson, tail)
      else none := by
  rw [chars_list_append, Json.value_bracket, strict_list, toJson, map_toJson]
  cases items with
  | nil => rfl
  | cons first rest =>
    have room : rest.length <
        (separated [',', ' '] ((first :: rest).map chars) ++ ']' :: tail).length := by
      rw [← List.length_map chars]
      exact length_lt_separated first.chars (rest.map chars) tail ']'
    have taken := elements_items first rest tail each room
    obtain ⟨c, more, text, _, visible, inside⟩ := exists_chars_eq_cons (numberless first (by simp))
    have front : ∃ others, separated [',', ' '] ((first :: rest).map chars) ++ ']' :: tail =
        c :: others := by
      rw [List.map_cons, Json.separated_cons, text]
      exact ⟨_, rfl⟩
    obtain ⟨others, front⟩ := front
    rw [front] at taken ⊢
    rw [Json.skipSpace_of_visible visible]
    split
    · rename_i closing
      cases closing
      simp at inside
    · rw [taken]
      split <;> rfl

theorem value_record {depth : Nat} (fields : List (String × Literal)) (tail : List Char)
    (each : ∀ field ∈ fields, TakenStrictly depth field.2)
    (distinct : (fields.map Prod.fst).Nodup) :
    Json.value (depth + 1) ((Literal.record fields).chars ++ tail) =
      if (Literal.record fields).strict (depth + 1) then
        some ((Literal.record fields).toJson, tail)
      else none := by
  rw [chars_record_append, Json.value_brace, strict_record, toJson, map_toJson_fields]
  cases fields with
  | nil => rfl
  | cons first rest =>
    have room : rest.length <
        (separated [',', ' '] ((first :: rest).map fieldChars) ++ '\x7d' :: tail).length := by
      rw [← List.length_map fieldChars]
      exact length_lt_separated (fieldChars first) (rest.map fieldChars) tail '\x7d'
    have taken := entries_fields [] first rest tail each (by simpa using distinct) room
    have front : ∃ others, separated [',', ' '] ((first :: rest).map fieldChars) ++
        '\x7d' :: tail = '"' :: others := by
      rw [List.map_cons, Json.separated_cons, fieldChars, quote]
      exact ⟨_, rfl⟩
    obtain ⟨others, front⟩ := front
    rw [front] at taken ⊢
    rw [Json.skipSpace_of_visible (by decide)]
    split
    · rename_i closing
      cases closing
    · rw [taken]
      split <;> rfl

/-- A strict reader takes every literal without numbers that is well formed. -/
theorem takenStrictly {value : Literal} (formed : value.WellFormed)
    (numberless : value.Numberless) (depth : Nat) : TakenStrictly depth value := by
  induction value using Literal.induction generalizing depth with
  | null =>
    refine .of_strict rfl fun _ _ => ?_
    cases depth <;> rfl
  | boolean value =>
    refine .of_strict rfl fun _ _ => ?_
    cases value <;> cases depth <;> rfl
  | integer value => exact .of_strict rfl fun _ => Json.value_wholeText depth value
  | number value => cases numberless
  | string value =>
    refine .of_strict rfl fun tail _ => ?_
    rw [chars_string, Json.value_quote, String.ofList_toList]
    rfl
  | byte value => exact .of_hex rfl rfl
  | bytes values => exact .of_hex rfl rfl
  | list items ih =>
    obtain ⟨_, formed⟩ := (everywhere_list _ _).mp formed
    obtain ⟨_, numberless⟩ := (everywhere_list _ _).mp numberless
    cases depth with
    | zero =>
      refine .of_refused rfl fun tail => ?_
      rw [chars_list_append]
      rfl
    | succ depth =>
      have each : ∀ item ∈ items, TakenStrictly depth item := fun item member =>
        ih item member (formed item member) (numberless item member) depth
      exact .of_container fun tail => value_list items tail each numberless
  | record fields ih =>
    obtain ⟨distinct, formed⟩ := (everywhere_record _ _).mp formed
    obtain ⟨_, numberless⟩ := (everywhere_record _ _).mp numberless
    cases depth with
    | zero =>
      refine .of_refused rfl fun tail => ?_
      rw [chars_record_append]
      rfl
    | succ depth =>
      have each : ∀ field ∈ fields, TakenStrictly depth field.2 := fun field member =>
        ih field member (formed field member) (numberless field member) depth
      exact .of_container fun tail =>
        value_record fields tail each (by simpa [wellFormedHere] using distinct)

end DocShapes.Literal
