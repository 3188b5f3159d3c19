import DocShapes.Proofs.Shadowing

/-! # Literals in a list

A literal alone goes to a reader of bytes, to a strict reader or to a lenient one. In a list it goes
to the strict reader if all of the list does, and to the lenient one otherwise. Both give what the
literal is alone (`readsAs_pair`), but for an upper-case mark of bytes, for escapes that only the
strict reader knows and for empty keys.
-/

namespace DocShapes

open Json (skipSpace)

/-! ## Room for more levels -/

namespace Json

section

variable {item other : List Char → Option (Json × List Char)}
  (deeper : ∀ text found, item text = some found → other text = some found)

include deeper

theorem elements_deeper {fuel : Nat} {text : List Char} {found : List Json × List Char}
    (read : elements item fuel text = some found) : elements other fuel text = some found := by
  induction fuel generalizing text found with
  | zero => cases read
  | succ fuel ih =>
    obtain ⟨first, behind, here, further⟩ := elements_succ_iff.mp read
    refine elements_succ_iff.mpr ⟨first, behind, deeper _ _ here, further.imp_left ?_⟩
    rintro ⟨more, others, comma, parts, same⟩
    exact ⟨more, others, comma, ih parts, same⟩

theorem entries_deeper {fuel : Nat} {before : List (String × Json)} {text : List Char}
    {found : List (String × Json) × List Char} (read : entries item fuel before text = some found) :
    entries other fuel before text = some found := by
  induction fuel generalizing before text with
  | zero => cases read
  | succ fuel ih =>
    obtain ⟨key, opened, value, behind, named, here, further⟩ := entries_succ_iff.mp read
    refine entries_succ_iff.mpr
      ⟨key, opened, value, behind, named, deeper _ _ here, further.imp_left ?_⟩
    rintro ⟨more, comma, parts⟩
    exact ⟨more, comma, ih parts⟩

end

/-- A value that is no container needs no room. -/
theorem value_of_plain {text rest : List Char} {c : Char} (front : skipSpace text = c :: rest)
    (plain : c ≠ '[' ∧ c ≠ '\x7b') (depth other : Nat) : value depth text = value other text := by
  rw [value, value, front]
  cases depth <;> cases other <;> simp [plain]

/-- A value is the same with room for one level more. -/
theorem value_deeper {depth : Nat} {text : List Char} {found : Json × List Char}
    (read : value depth text = some found) : value (depth + 1) text = some found := by
  induction depth generalizing text found with
  | zero =>
    obtain ⟨c, rest, front, _⟩ := Literal.exists_front_of_value read
    rw [← Literal.value_skipSpace, front] at read
    have plain : c ≠ '[' ∧ c ≠ '\x7b' := by
      constructor
      · rintro rfl
        cases read
      · rintro rfl
        cases read
    rw [← front, Literal.value_skipSpace] at read
    rwa [value_of_plain front plain 1 0]
  | succ depth ih =>
    obtain ⟨c, rest, front, _⟩ := Literal.exists_front_of_value read
    by_cases plain : c ≠ '[' ∧ c ≠ '\x7b'
    · rwa [value_of_plain front plain _ (depth + 1)]
    rw [← Literal.value_skipSpace, front] at read ⊢
    rcases Decidable.not_and_iff_not_or_not.mp plain with same | same
    · rw [Decidable.not_not.mp same, value_bracket] at read ⊢
      split at read
      · exact read
      · obtain ⟨parts, here, same⟩ := Option.map_eq_some_iff.mp read
        rw [elements_deeper (fun _ _ => ih) here, Option.map_some, same]
    · rw [Decidable.not_not.mp same, value_brace] at read ⊢
      split at read
      · exact read
      · obtain ⟨parts, here, same⟩ := Option.map_eq_some_iff.mp read
        rw [entries_deeper (fun _ _ => ih) here, Option.map_some, same]

end Json

namespace Literal

open Json (common)

variable {words : Words} {text : List Char} {found : Literal}

/-! ## A text alone -/

/-- The text as a whole is read as the literal. -/
def ReadsAs (words : Words) (text : List Char) (found : Literal) : Prop :=
  ∃ next, value words (.ofList text) = .ok found next ∧ next.rest = []

/-- A lenient reader takes the text as the literal, but for spaces behind it. -/
def ReadsLeniently (words : Words) (text : List Char) (found : Literal) : Prop :=
  ∃ next, lenient words (text.length + 1) (.ofList text) = .ok found next ∧
    skipSpace next.rest = []

/-- The text does not mark bytes with an upper-case letter, and as a JSON text it has no escape that
a lenient reader does not know and no empty key. -/
structure Alike (text : List Char) : Prop where
  lower : ∀ rest, text ≠ '0' :: 'X' :: rest
  common : ∀ json, Json.read (String.ofList text) = some json → common text = true

/-- The text is a JSON text that begins with no blank and leaves room for a list around it. -/
structure Nestable (text : List Char) : Prop where
  json : ∃ json, Json.readWithin (Json.deepest - 1) (String.ofList text) = some json
  visible : ∀ c ∈ text.head?, Text.isBlank c = false

theorem readWithin_eq_some_iff {depth : Nat} {json : Json} :
    Json.readWithin depth (String.ofList text) = some json ↔
      ∃ rest, Json.value depth text = some (json, rest) ∧ skipSpace rest = [] := by
  rw [Json.readWithin, String.toList_ofList]
  cases Json.value depth text with
  | none => simp
  | some found =>
    obtain ⟨other, rest⟩ := found
    by_cases empty : skipSpace rest = []
    · simp [empty]
    · simp [empty]

/-- A lenient reader takes a strict text without rare escapes and empty keys as the same literal. -/
theorem readsLeniently_of_strict (faithful : words.aliases.Faithful)
    (marker : Outside words.marker) {json : Json} {rest : List Char}
    (read : Json.value Json.deepest text = some (json, rest)) (blank : skipSpace rest = [])
    (tame : common text = true) :
    ∃ next, lenient words (text.length + 1) (.ofList text) = .ok (ofJson json) next ∧
      next.rest = rest := by
  have settled : Settled text rest := .inr (by simp [Stops, blank])
  have ends := follows outside_nil marker Json.deepest (text.length + 1) (.ofList text) json rest
    (by rwa [List.append_nil]) settled
  have never (stuck : Stuck [] (text.length + 1) (.ofList text)) : False :=
    Nat.not_succ_le_self _ (stuck rfl tame)
  obtain ⟨found, next, taken, tracks, _, means⟩ :=
    (ends.mono (fun _ _ done => done) fun _ => never).exists_ok
  obtain rfl := means tame faithful
  exact ⟨next, taken, by rw [tracks.rest, List.append_nil]⟩

theorem strict?_eq_some {json : Json} {rest : List Char}
    (read : strict? text = some (json, rest)) :
    ∃ behind, Json.value Json.deepest text = some (json, behind) ∧ rest = skipSpace behind := by
  rw [strict?] at read
  split at read
  · cases read
  · rename_i value
    dsimp only at read
    split at read
    · cases read
    · cases read
      exact ⟨_, value, rfl⟩

/-- A strict value that takes all of a text. -/
theorem exists_value_of_takeStrict {next : Cursor} (filled : text ≠ [])
    (taken : takeStrict (.ofList text) = .ok (some found) next) (left : next.rest = []) :
    ∃ json rest, Json.value Json.deepest text = some (json, rest) ∧ skipSpace rest = [] ∧
      found = ofJson json := by
  rw [takeStrict_eq] at taken
  cases strictly : strict? (Cursor.ofList text).rest with
  | none =>
    rw [strictly] at taken
    cases taken
  | some read =>
    obtain ⟨json, rest⟩ := read
    rw [strictly] at taken
    cases taken
    obtain ⟨behind, value, rfl⟩ := strict?_eq_some strictly
    refine ⟨json, behind, value, ?_, rfl⟩
    rw [Cursor.rest_forward, List.drop_eq_nil_iff] at left
    have long : 0 < text.length := List.length_pos_of_ne_nil filled
    have short : (skipSpace behind).length = 0 := by
      change text.length ≤ text.length - _ at left
      omega
    exact List.length_eq_zero_iff.mp short

/-- Bytes that take all of a text. -/
theorem digits_of_takeHex {next : Cursor} {c : Char} {rest : List Char}
    (taken : takeHex (.ofList ('0' :: c :: rest)) = .ok found next) (left : next.rest = []) :
    (∀ d ∈ rest, Text.isHexDigit d = true) ∧ ofHex? rest = some found := by
  have behind : (Cursor.ofList ('0' :: c :: rest)).rest.drop 2 = rest := rfl
  rw [takeHex_eq, behind] at taken
  cases hex : ofHex? (rest.takeWhile Text.isHexDigit) with
  | none =>
    rw [hex] at taken
    cases taken
  | some value =>
    rw [hex] at taken
    cases taken
    rw [Cursor.rest_forward, List.drop_eq_nil_iff] at left
    have long : rest.length + 2 ≤ 2 + (rest.takeWhile Text.isHexDigit).length := left
    have whole : rest.takeWhile Text.isHexDigit = rest :=
      (List.takeWhile_prefix _).eq_of_length_le (by omega)
    rw [whole] at hex
    exact ⟨fun d member => List.mem_takeWhile_imp (whole ▸ member), hex⟩

/-- A text as a whole is bytes, a strict text, or a text that a lenient reader takes because no
strict reader takes it or because it begins like a word. -/
theorem readsAs_cases (read : ReadsAs words text found) :
    (∃ c digits, text = '0' :: c :: digits ∧ (c = 'x' ∨ c = 'X') ∧
        (∀ d ∈ digits, Text.isHexDigit d = true) ∧ ofHex? digits = some found) ∨
      (∃ json rest, Json.value Json.deepest text = some (json, rest) ∧ skipSpace rest = [] ∧
        found = ofJson json) ∨
      (∃ next, lenient words (text.length + 1) (.ofList text) = .ok found next ∧ next.rest = []) ∧
        (strict? text = none ∨
          ∀ c ∈ text.head?, c.isDigit = false ∧ c ∉ ['-', '"', '\'', '[', '\x7b']) := by
  obtain ⟨next, read, left⟩ := read
  obtain ⟨constant, _, taken, ended⟩ := of_bind_eq_ok read
  rcases front_cases text with
    plain | ⟨c, rest, rfl, mark⟩ | ⟨c, rest, rfl, digit, decimal⟩ | ⟨c, rest, rfl, opening⟩
  · rw [constant?_other plain] at taken
    cases taken
    exact .inr (.inr ⟨⟨next, ended, left⟩, .inr plain⟩)
  · rw [constant?_hex rfl mark] at taken
    obtain ⟨value, bytes, rfl⟩ := map_eq_ok_iff.mp taken
    cases ended
    obtain ⟨digits, meant⟩ := digits_of_takeHex bytes left
    exact .inl ⟨c, rest, rfl, mark, digits, meant⟩
  · rw [constant?_number rfl digit decimal] at taken
    obtain ⟨value, _, strictly, found⟩ := of_bind_eq_ok taken
    cases value with
    | none => cases found
    | some value =>
      cases found
      cases ended
      exact .inr (.inl (exists_value_of_takeStrict (by simp) strictly left))
  · rw [constant?_opening rfl opening] at taken
    obtain ⟨value, _, strictly, found⟩ := of_bind_eq_ok taken
    cases value with
    | some value =>
      cases found
      cases ended
      exact .inr (.inl (exists_value_of_takeStrict (by simp) strictly left))
    | none =>
      obtain ⟨value, lenient, rfl⟩ := map_eq_ok_iff.mp found
      cases ended
      rw [takeStrict_eq] at strictly
      split at strictly
      · rename_i refused
        cases strictly
        exact .inr (.inr ⟨⟨_, lenient, left⟩, .inl refused⟩)
      · cases strictly

/-- A strict reader takes all of a text that begins with a bracket. -/
theorem readsAs_of_strict {json : Json} (strictly : strict? ('[' :: text) = some (json, [])) :
    ReadsAs words ('[' :: text) (ofJson json) := by
  have here : (Cursor.ofList ('[' :: text)).rest = '[' :: text := rfl
  have constant : constant? words (.ofList ('[' :: text)) =
      .ok (some (ofJson json)) ((Cursor.ofList ('[' :: text)).forward ('[' :: text).length) := by
    rw [constant?_opening here (by decide), bind_of_ok (by rw [takeStrict_eq, here, strictly])]
    rfl
  refine ⟨_, by rw [value, bind_of_ok constant]; rfl, ?_⟩
  rw [Cursor.rest_forward, here, List.drop_length]

/-- A lenient reader takes all of a text that begins with a bracket and that no strict one takes. -/
theorem readsAs_of_lenient {next : Cursor} (refused : strict? ('[' :: text) = none)
    (taken : lenient words (text.length + 2) (.ofList ('[' :: text)) = .ok found next)
    (left : next.rest = []) : ReadsAs words ('[' :: text) found := by
  have here : (Cursor.ofList ('[' :: text)).rest = '[' :: text := rfl
  have constant : constant? words (.ofList ('[' :: text)) = .ok (some found) next := by
    rw [constant?_opening here (by decide), bind_of_ok (by rw [takeStrict_eq, here, refused])]
    exact map_eq_ok_iff.mpr ⟨found, taken, rfl⟩
  exact ⟨next, by rw [value, bind_of_ok constant]; rfl, left⟩

/-! ## Readers of a text alone -/

/-- A hexadecimal digit is one of the characters of bare runs. -/
theorem isBare_of_isHexDigit {c : Char} (digit : Text.isHexDigit c = true) : isBare c = true :=
  Text.forall_isHexDigit isBare (by decide) digit

/-- Without quotes and backslashes there are neither escapes nor keys. -/
theorem common_of_plain (plain : ∀ c ∈ text, c ≠ '\\' ∧ c ≠ '"') : common text = true := by
  induction text with
  | nil => rfl
  | cons c rest ih =>
    obtain ⟨⟨slash, quote⟩, others⟩ := List.forall_mem_cons.mp plain
    rw [common]
    · exact ih others
    · exact fun _ _ same _ => slash same
    · exact quote

theorem isSpace_of_blank (blank : skipSpace text = []) : ∀ c ∈ text, Json.isSpace c = true := by
  rwa [skipSpace, List.dropWhile_eq_nil_iff] at blank

theorem stops_of_blank (blank : skipSpace text = []) : Stops text := by simp [Stops, blank]

/-- A strict text that begins with no quote and no bracket is a scalar between blanks. -/
theorem common_of_scalar {depth : Nat} {json : Json} {c : Char} {rest more : List Char}
    (read : Json.value depth text = some (json, rest)) (blank : skipSpace rest = [])
    (front : skipSpace text = c :: more) (plain : c ∉ ['"', '[', '\x7b']) :
    common text = true := by
  obtain ⟨run, whole, scalar⟩ :=
    Json.exists_scalar front plain (stops_of_blank blank).outside read
  have split : text = text.takeWhile Json.isSpace ++ (run ++ rest) := by
    rw [← whole, ← front, skipSpace, List.takeWhile_append_dropWhile]
  have spaces : ∀ c, Json.isSpace c = true → c ≠ '\\' ∧ c ≠ '"' := by
    rintro c space
    constructor
    · rintro rfl
      cases space
    · rintro rfl
      cases space
  rw [split]
  apply common_of_plain
  simp only [List.mem_append]
  rintro d (member | member | member)
  · exact spaces d (List.mem_takeWhile_imp member)
  · obtain ⟨_, _, _, slash, quote⟩ := plain_of_isBare (scalar.bare d member)
    simp only [List.mem_cons, not_or] at quote
    exact ⟨slash, quote.1⟩
  · exact spaces d (isSpace_of_blank blank d member)

theorem strict?_of_value {json : Json} {rest : List Char}
    (read : Json.value Json.deepest text = some (json, rest)) (blank : skipSpace rest = []) :
    strict? text = some (json, []) := by
  rw [strict?, read]
  simp [blank]

section

variable (faithful : words.aliases.Faithful) (marker : Outside words.marker)

include faithful marker

/-- A lenient reader takes the run of bytes as a bare word. -/
theorem readsLeniently_of_hex {digits : List Char}
    (hex : ∀ d ∈ digits, Text.isHexDigit d = true) (meant : ofHex? digits = some found) :
    ReadsLeniently words ('0' :: 'x' :: digits) found := by
  have bare : ∀ d ∈ '0' :: 'x' :: digits, isBare d = true :=
    List.forall_mem_cons.mpr ⟨by decide, List.forall_mem_cons.mpr ⟨by decide, fun d member =>
      isBare_of_isHexDigit (hex d member)⟩⟩
  have word : bareWord valueStops words.marker ('0' :: 'x' :: digits) = '0' :: 'x' :: digits := by
    simpa using @bareWord_run _ _ [] bare marker (by simp [Stops, skipSpace])
  have means : ofWord words.aliases ('0' :: 'x' :: digits) = found := by
    rw [ofWord_of_not_mem (faithful.numeric '0' _ (.inl (by decide)))]
    simp [Json.word?, meant]
  have start : (Cursor.ofList ('0' :: 'x' :: digits)).skipBlank.rest = '0' :: 'x' :: digits :=
    (peek_skipBlank (Text.trimStart_of_visible (by decide))).2
  have front : ∀ c ∈ (Text.trimStart (Cursor.ofList ('0' :: 'x' :: digits)).rest).head?,
      c ∉ ['"', '\'', '[', '\x7b'] := by
    rw [← Cursor.rest_skipBlank, start]
    rintro _ ⟨⟩
    decide
  refine ⟨_, (lenient_word_eq_ok_iff front).mpr
    ⟨'0' :: 'x' :: digits, by rw [takeBare_eq, start, word], by simp, means.symm⟩, ?_⟩
  rw [Cursor.rest_forward, start, List.drop_length]
  rfl

theorem Alike.readsLeniently (alike : Alike text) (read : ReadsAs words text found) :
    ReadsLeniently words text found := by
  rcases readsAs_cases read with
    ⟨c, digits, rfl, mark, hex, meant⟩ | ⟨json, rest, strictly, blank, rfl⟩ |
      ⟨⟨next, taken, left⟩, _⟩
  · have lower : c = 'x' := mark.resolve_right fun upper => alike.lower digits (by rw [upper])
    rw [lower]
    exact readsLeniently_of_hex faithful marker hex meant
  · have known : Json.read (String.ofList text) = some json :=
      readWithin_eq_some_iff.mpr ⟨rest, strictly, blank⟩
    obtain ⟨next, taken, left⟩ :=
      readsLeniently_of_strict faithful marker strictly blank (alike.common json known)
    exact ⟨next, taken, by rw [left, blank]⟩
  · exact ⟨next, taken, by rw [left]; rfl⟩

/-- What a strict reader finds in a strict text is what a lenient reader finds in it. -/
theorem eq_of_readsLeniently (read : ReadsLeniently words text found) {json : Json}
    {rest : List Char} (strictly : Json.value Json.deepest text = some (json, rest))
    (blank : skipSpace rest = []) (tame : common text = true) : found = ofJson json := by
  obtain ⟨_, taken, _⟩ := read
  obtain ⟨_, again, _⟩ := readsLeniently_of_strict faithful marker strictly blank tame
  rw [taken] at again
  cases again
  rfl

/-- A text that a strict reader takes in a list is alone what it is there. -/
theorem Nestable.exists_value (nestable : Nestable text) (read : ReadsAs words text found) :
    ∃ json rest, Json.value (Json.deepest - 1) text = some (json, rest) ∧ skipSpace rest = [] ∧
      found = ofJson json := by
  obtain ⟨json, here⟩ := nestable.json
  obtain ⟨rest, inside, blank⟩ := readWithin_eq_some_iff.mp here
  have alone : Json.value Json.deepest text = some (json, rest) := Json.value_deeper inside
  refine ⟨json, rest, inside, blank, ?_⟩
  rcases readsAs_cases read with
    ⟨d, digits, rfl, mark, _⟩ | ⟨other, left, strictly, _, rfl⟩ | ⟨⟨next, taken, left⟩, refused⟩
  · have zero : Json.value (Json.deepest - 1) ('0' :: d :: digits) =
        some (.integer 0, d :: digits) := by
      rcases mark with rfl | rfl <;> rfl
    rw [zero] at inside
    cases inside
    rcases mark with rfl | rfl <;> cases blank
  · rw [alone] at strictly
    cases strictly
    rfl
  · obtain ⟨c, more, front, _⟩ := exists_front_of_value inside
    rcases refused with none | plain
    · rw [strict?_of_value alone blank] at none
      cases none
    · obtain ⟨d, others, rfl⟩ := List.exists_cons_of_ne_nil (show text ≠ [] by
        rintro rfl
        cases front)
      have first : Json.isSpace d = false := by
        by_cases space : Json.isSpace d = true
        · have blank := isBlank_of_isSpace space
          rw [nestable.visible d rfl] at blank
          cases blank
        · simpa using space
      obtain ⟨_, other⟩ := plain d rfl
      have scalar : d ∉ ['"', '[', '\x7b'] := by
        simp only [List.mem_cons, List.not_mem_nil, or_false, not_or] at other ⊢
        exact ⟨other.2.1, other.2.2.2.1, other.2.2.2.2⟩
      have lenient : ReadsLeniently words (d :: others) found := ⟨next, taken, by rw [left]; rfl⟩
      exact eq_of_readsLeniently faithful marker lenient alone blank
        (common_of_scalar alone blank (Json.skipSpace_of_visible first) scalar)

end

/-! ## Texts in a list -/

/-- The text of a list behind its first bracket. -/
def listed (texts : List (List Char)) : List Char := Json.separated [',', ' '] texts ++ [']']

theorem listed_last (text : List Char) : listed [text] = text ++ [']'] := rfl

theorem listed_cons (first second : List Char) (others : List (List Char)) :
    listed (first :: second :: others) = first ++ ',' :: ' ' :: listed (second :: others) := by
  simp [listed, Json.separated]

theorem length_lt_listed (first : List Char) (others : List (List Char)) :
    others.length < (listed (first :: others)).length := length_lt_separated first others [] ']'

theorem length_le_listed {texts : List (List Char)} (member : text ∈ texts) :
    text.length ≤ (listed texts).length := by
  induction texts with
  | nil => cases member
  | cons first others ih =>
    cases others with
    | nil =>
      rw [List.mem_singleton.mp member, listed_last, List.length_append]
      omega
    | cons second others =>
      rw [listed_cons, List.length_append, List.length_cons, List.length_cons]
      rcases List.mem_cons.mp member with rfl | member
      · omega
      · have shorter := ih member
        omega

/-- Behind each text of a list stands a mark that ends it. -/
theorem exists_listed (first : List Char) (others : List (List Char)) :
    ∃ c rest, listed (first :: others) = first ++ c :: rest ∧ c ∈ [',', ']'] := by
  cases others with
  | nil => exact ⟨']', [], rfl, by decide⟩
  | cons second others => exact ⟨',', _, listed_cons first second others, by decide⟩

theorem outside_mark {c : Char} (mark : c ∈ [',', ']']) (tail : List Char) :
    Outside (c :: tail) := by
  have marks : ∀ c ∈ [',', ']'], isBare c = false := List.all_iff_forall_prop.mp (by decide)
  rintro _ ⟨⟩
  exact marks c mark

theorem skipSpace_append_of_blank {left tail : List Char} (blank : skipSpace left = []) :
    skipSpace (left ++ tail) = skipSpace tail := by
  rw [skipSpace] at blank
  rw [skipSpace, List.dropWhile_append, blank]
  rfl

theorem trimStart_append_of_blank {left tail : List Char} (blank : skipSpace left = []) :
    Text.trimStart (left ++ tail) = Text.trimStart tail := by
  have trimmed := trimStart_of_skipSpace_nil blank
  rw [Text.trimStart] at trimmed
  rw [Text.trimStart, List.dropWhile_append, trimmed]
  rfl

/-- Nothing that a lenient reader takes closes a list. -/
theorem front_of_lenient {depth : Nat} {cursor next : Cursor}
    (read : lenient words depth cursor = .ok found next) :
    ∃ c rest, Text.trimStart cursor.rest = c :: rest ∧ c ≠ ']' := by
  obtain ⟨c, rest, front⟩ := List.exists_cons_of_ne_nil (visible_of_lenient read)
  refine ⟨c, rest, front, ?_⟩
  rintro rfl
  cases depth with
  | zero => cases read
  | succ depth =>
    obtain ⟨word, taken, filled, _⟩ := (lenient_word_eq_ok_iff (by simp [front])).mp read
    rw [takeBare_eq, Cursor.rest_skipBlank, front] at taken
    cases taken
    exact filled (by simp [bareWord, valueStops, beforeMarker, Text.trimEnd])

/-- In front of the mark behind it, a text is what it is alone. -/
theorem ReadsLeniently.ends (alone : ReadsLeniently words text found) {depth : Nat}
    (room : text.length < depth) {c : Char} (stop : c ∈ [',', ']']) {cursor : Cursor}
    {tail : List Char} (here : Text.trimStart cursor.rest = Text.trimStart (text ++ c :: tail)) :
    Ends (lenient words depth) cursor
      (fun other next => other = found ∧ Text.trimStart next.rest = c :: tail)
      fun _ => False := by
  obtain ⟨next, taken, blank⟩ := alone
  have marks : ∀ c ∈ [',', ']'], c ∈ valueStops ∧ Text.isBlank c = false :=
    List.all_iff_forall_prop.mp (by decide)
  obtain ⟨inside, visible⟩ := marks c stop
  have bounds : Bounds words.marker (c :: tail) := bounds_of_stop (by
    rintro _ ⟨⟩
    exact inside)
  have shown : Text.trimStart text ≠ [] := visible_of_lenient taken
  rw [Text.trimStart_append_of_visible shown] at here
  obtain ⟨after, again, left⟩ := (prolongs_lenient bounds room).append taken here
  apply ends_of_ok again
  rw [left, trimStart_append_of_blank blank, Text.trimStart_of_visible visible]
  exact ⟨rfl, rfl⟩

theorem head_listed (alone : ReadsLeniently words text found) (others : List (List Char)) :
    (Text.trimStart (listed (text :: others))).head? ≠ some ']' := by
  obtain ⟨_, taken, _⟩ := alone
  obtain ⟨c, rest, front, other⟩ := front_of_lenient taken
  have shown : Text.trimStart text = c :: rest := front
  obtain ⟨mark, tail, whole, _⟩ := exists_listed text others
  rw [whole, Text.trimStart_append_of_visible (by simp [shown]), shown]
  simpa using other

/-- A lenient reader takes the texts of a list as it takes them alone. -/
theorem ends_takeItems_listed {depth fuel : Nat} {first : List Char × Literal}
    {others : List (List Char × Literal)} {cursor : Cursor}
    (each : ∀ part ∈ first :: others,
      ReadsLeniently words part.1 part.2 ∧ part.1.length < depth)
    (room : others.length < fuel)
    (here : Text.trimStart cursor.rest =
      Text.trimStart (listed ((first :: others).map Prod.fst))) :
    Ends (takeItems (lenient words depth) fuel) cursor
      (fun items next => items = (first :: others).map Prod.snd ∧ next.rest = [])
      fun _ => False := by
  induction others generalizing first fuel cursor with
  | nil =>
    obtain ⟨fuel, rfl⟩ := Nat.exists_eq_add_one_of_ne_zero (Nat.ne_zero_of_lt room)
    obtain ⟨alone, short⟩ := each first List.mem_cons_self
    rw [takeItems, ends_bind]
    refine Scan.ends_eat_false (by rw [here]; exact head_listed alone []) ?_
    rw [if_neg (by simp), ends_bind]
    refine (alone.ends short (by decide) here).imp ?_
    rintro _ next ⟨rfl, behind⟩
    rw [ends_bind]
    refine Scan.ends_eat_false (by simp [behind]) ?_
    rw [if_neg (by simp), ends_bind]
    exact Scan.ends_eat_true behind fun last rest => ⟨rfl, rest⟩
  | cons second others ih =>
    obtain ⟨fuel, rfl⟩ := Nat.exists_eq_add_one_of_ne_zero (Nat.ne_zero_of_lt room)
    obtain ⟨⟨alone, short⟩, rest⟩ := List.forall_mem_cons.mp each
    rw [takeItems, ends_bind]
    refine Scan.ends_eat_false (by rw [here]; exact head_listed alone _) ?_
    rw [List.map_cons, List.map_cons, listed_cons] at here
    rw [if_neg (by simp), ends_bind]
    refine (alone.ends short (by decide) here).imp ?_
    rintro _ next ⟨rfl, behind⟩
    rw [ends_bind]
    refine Scan.ends_eat_true behind fun last left => ?_
    rw [if_pos rfl, ends_bind]
    refine (ih rest (Nat.lt_of_succ_lt_succ room) ?_).imp ?_
    · rw [left, Text.trimStart_space, List.map_cons]
    · rintro _ final ⟨rfl, ended⟩
      exact ⟨rfl, ended⟩

theorem exists_lenient_listed {first : List Char × Literal} {others : List (List Char × Literal)}
    (each : ∀ part ∈ first :: others, ReadsLeniently words part.1 part.2) :
    ∃ next, lenient words ((listed ((first :: others).map Prod.fst)).length + 2)
        (.ofList ('[' :: listed ((first :: others).map Prod.fst))) =
          .ok (.list ((first :: others).map Prod.snd)) next ∧ next.rest = [] := by
  have front : Text.trimStart
      (Cursor.ofList ('[' :: listed ((first :: others).map Prod.fst))).rest =
        '[' :: listed ((first :: others).map Prod.fst) := Text.trimStart_of_visible (by decide)
  have inside := (@tracks_step [] _ _ '[' (by decide) front).1
  have short : ∀ part ∈ first :: others, ReadsLeniently words part.1 part.2 ∧
      part.1.length < (listed ((first :: others).map Prod.fst)).length + 1 := fun part member =>
    ⟨each part member, Nat.lt_succ_of_le (length_le_listed (List.mem_map_of_mem member))⟩
  have room := length_lt_listed first.1 (others.map Prod.fst)
  rw [List.length_map] at room
  obtain ⟨_, next, taken, rfl, ended⟩ :=
    (ends_takeItems_listed short (Nat.lt_add_right 2 room) (by rw [inside])).exists_ok
  exact ⟨next, by rw [lenient_bracket front]; exact map_eq_ok_iff.mpr ⟨_, taken, rfl⟩, ended⟩

/-- A strict reader takes strict texts in a list as what they are alone. -/
theorem exists_elements_listed {depth fuel : Nat} {first : List Char × Literal}
    {others : List (List Char × Literal)}
    (each : ∀ part ∈ first :: others, ∃ json rest,
      Json.value depth part.1 = some (json, rest) ∧ skipSpace rest = [] ∧ part.2 = ofJson json)
    (room : others.length < fuel) :
    ∃ items, Json.elements (Json.value depth) fuel
        (listed ((first :: others).map Prod.fst)) = some (items, []) ∧
      items.map ofJson = (first :: others).map Prod.snd := by
  induction others generalizing first fuel with
  | nil =>
    obtain ⟨fuel, rfl⟩ := Nat.exists_eq_add_one_of_ne_zero (Nat.ne_zero_of_lt room)
    obtain ⟨json, rest, alone, blank, means⟩ := each first List.mem_cons_self
    have ends := Json.Outside.endsNumber (outside_mark (c := ']') (by decide) [])
    have here := Json.keeps_value depth ends first.1 json rest alone
    have closed : skipSpace (rest ++ [']']) = [']'] := skipSpace_append_of_blank blank
    refine ⟨[json], ?_, ?_⟩
    · exact Json.elements_succ_iff.mpr ⟨json, _, here, .inr ⟨closed, rfl⟩⟩
    · simp only [List.map_cons, List.map_nil, means]
  | cons second others ih =>
    obtain ⟨fuel, rfl⟩ := Nat.exists_eq_add_one_of_ne_zero (Nat.ne_zero_of_lt room)
    obtain ⟨⟨json, rest, alone, blank, means⟩, further⟩ := List.forall_mem_cons.mp each
    obtain ⟨items, parts, same⟩ := ih further (Nat.lt_of_succ_lt_succ room)
    rw [List.map_cons] at parts
    have ends := Json.Outside.endsNumber (outside_mark (c := ',') (by decide)
      (' ' :: listed (second.1 :: others.map Prod.fst)))
    have here := Json.keeps_value depth ends first.1 json rest alone
    have comma : skipSpace (rest ++ ',' :: ' ' :: listed (second.1 :: others.map Prod.fst)) =
        ',' :: ' ' :: listed (second.1 :: others.map Prod.fst) := skipSpace_append_of_blank blank
    refine ⟨json :: items, ?_, ?_⟩
    · rw [List.map_cons, List.map_cons, listed_cons]
      rw [← Json.elements_space] at parts
      exact Json.elements_succ_iff.mpr ⟨json, _, here, .inl ⟨_, items, comma, parts, rfl⟩⟩
    · simp only [List.map_cons, same, means]

section

variable (faithful : words.aliases.Faithful) (marker : Outside words.marker)

include faithful marker

/-- What a strict reader finds at a text in front of the end of a value is what the text is
alone. -/
theorem Alike.value_append (alike : Alike text) (alone : ReadsLeniently words text found)
    {tail rest : List Char} {json : Json} (outside : Outside tail)
    (read : Json.value (Json.deepest - 1) (text ++ tail) = some (json, rest))
    (stops : Stops rest) : found = ofJson json ∧ skipSpace rest = skipSpace tail := by
  obtain ⟨next, taken, blank⟩ := alone
  have ends := follows outside marker _ (text.length + 1) (.ofList text) json rest read
    (.inr stops)
  obtain ⟨tracks, strictly, means⟩ := ends.of_ok taken
  have known : Json.read (String.ofList text) = some json :=
    readWithin_eq_some_iff.mpr ⟨_, Json.value_deeper strictly, blank⟩
  refine ⟨means (alike.common json known) faithful, ?_⟩
  rw [tracks.rest, skipSpace_append_of_blank blank]

/-- What a strict reader finds in a list of texts is what the texts are alone. -/
theorem eq_of_elements_listed {fuel : Nat} {first : List Char × Literal}
    {others : List (List Char × Literal)} {items : List Json} {rest : List Char}
    (each : ∀ part ∈ first :: others, Alike part.1 ∧ ReadsLeniently words part.1 part.2)
    (read : Json.elements (Json.value (Json.deepest - 1)) fuel
      (listed ((first :: others).map Prod.fst)) = some (items, rest)) :
    items.map ofJson = (first :: others).map Prod.snd ∧ rest = [] := by
  induction fuel generalizing first others items with
  | zero => cases read
  | succ fuel ih =>
    obtain ⟨⟨alike, alone⟩, each⟩ := List.forall_mem_cons.mp each
    obtain ⟨json, behind, here, further⟩ := Json.elements_succ_iff.mp read
    have stops : Stops behind := by
      rcases further with ⟨_, _, comma, _⟩ | ⟨closed, _⟩
      · exact stops_of_mark comma (by decide)
      · exact stops_of_mark closed (by decide)
    cases others with
    | nil =>
      obtain ⟨means, same⟩ :=
        alike.value_append faithful marker alone (outside_mark (by decide) []) here stops
      rcases further with ⟨_, _, comma, _⟩ | ⟨closed, rfl⟩
      · rw [comma] at same
        cases same
      · rw [closed] at same
        cases same
        simp only [List.map_cons, List.map_nil, means, and_self]
    | cons second others =>
      rw [List.map_cons, List.map_cons, listed_cons] at here
      obtain ⟨means, same⟩ :=
        alike.value_append faithful marker alone (outside_mark (by decide) _) here stops
      rcases further with ⟨_, _, comma, parts, rfl⟩ | ⟨closed, _⟩
      · rw [comma] at same
        cases same
        rw [Json.elements_space] at parts
        obtain ⟨same, ended⟩ := ih each parts
        simp only [List.map_cons, same, means, ended, and_self]
      · rw [closed] at same
        cases same

omit faithful marker in
/-- A strict list of texts has elements. -/
theorem exists_elements_of_listed {first : List Char × Literal}
    {others : List (List Char × Literal)} {json : Json} {rest : List Char}
    (each : ∀ part ∈ first :: others, ReadsLeniently words part.1 part.2)
    (read : Json.value Json.deepest ('[' :: listed ((first :: others).map Prod.fst)) =
      some (json, rest)) :
    ∃ items, Json.elements (Json.value (Json.deepest - 1))
        (listed ((first :: others).map Prod.fst)).length
        (listed ((first :: others).map Prod.fst)) = some (items, rest) ∧
      json = .array items := by
  rw [show Json.deepest = Json.deepest - 1 + 1 from rfl, Json.value_bracket] at read
  split at read
  · rename_i closed
    have front := trimStart_of_skipSpace closed (by decide)
    exact absurd (congrArg List.head? front)
      (head_listed (each first List.mem_cons_self) (others.map Prod.fst))
  · obtain ⟨⟨items, last⟩, parts, same⟩ := Option.map_eq_some_iff.mp read
    cases same
    exact ⟨items, parts, rfl⟩

/-- Texts that are read alone are read in a list as the same literals, if all are strict texts with
room for the list around them or if both readers take each of them alike. -/
theorem readsAs_listed {parts : List (List Char × Literal)}
    (each : ∀ part ∈ parts, ReadsAs words part.1 part.2)
    (kind : (∀ part ∈ parts, Nestable part.1) ∨ ∀ part ∈ parts, Alike part.1) :
    ReadsAs words ('[' :: listed (parts.map Prod.fst)) (.list (parts.map Prod.snd)) := by
  cases parts with
  | nil =>
    have empty : strict? ('[' :: listed []) = some (.array [], []) := rfl
    exact readsAs_of_strict empty
  | cons first others =>
    have room := length_lt_listed first.1 (others.map Prod.fst)
    rw [List.length_map] at room
    rcases kind with nestable | alike
    · obtain ⟨items, parts, same⟩ := exists_elements_listed (fun part member =>
        (nestable part member).exists_value faithful marker (each part member)) room
      have whole : Json.value Json.deepest ('[' :: listed ((first :: others).map Prod.fst)) =
          some (.array items, []) := value_of_elements parts
      rw [← same, ← map_ofJson, ← ofJson]
      exact readsAs_of_strict (strict?_of_value whole rfl)
    have lenient : ∀ part ∈ first :: others, ReadsLeniently words part.1 part.2 :=
      fun part member => (alike part member).readsLeniently faithful marker (each part member)
    cases strictly : strict? ('[' :: listed ((first :: others).map Prod.fst)) with
    | none =>
      obtain ⟨next, taken, ended⟩ := exists_lenient_listed lenient
      exact readsAs_of_lenient strictly taken ended
    | some found =>
      obtain ⟨json, rest⟩ := found
      obtain ⟨behind, whole, rfl⟩ := strict?_eq_some strictly
      obtain ⟨items, parts, rfl⟩ := exists_elements_of_listed lenient whole
      obtain ⟨same, rfl⟩ := eq_of_elements_listed faithful marker
        (fun part member => ⟨alike part member, lenient part member⟩) parts
      rw [← same, ← map_ofJson, ← ofJson]
      exact readsAs_of_strict strictly

/-- Two texts that are read alone are read in a list as the same two literals, if both are strict
texts with room for the list around them or if both readers take each of them alike. -/
theorem readsAs_pair {left right : List Char} {first second : Literal}
    (firstRead : ReadsAs words left first) (secondRead : ReadsAs words right second)
    (kind : Nestable left ∧ Nestable right ∨ Alike left ∧ Alike right) :
    ReadsAs words ('[' :: (left ++ ',' :: ' ' :: (right ++ [']']))) (.list [first, second]) := by
  have each : ∀ part ∈ [(left, first), (right, second)], ReadsAs words part.1 part.2 := by
    simpa using ⟨firstRead, secondRead⟩
  have text : listed [left, right] = left ++ ',' :: ' ' :: (right ++ [']']) :=
    listed_cons left right []
  have whole := readsAs_listed faithful marker each (by simpa using kind)
  simp only [List.map_cons, List.map_nil, text] at whole
  exact whole

end

/-- A reading of a fixed text, found by running the reader. -/
theorem readsAs_of_passes {test : Literal → Bool}
    (only : ∀ value, test value = true → value = found)
    (passes : succeedsWith test (value words) (.ofList text) = true)
    (ended : (leaves (value words) (.ofList text)).rest = []) : ReadsAs words text found := by
  obtain ⟨value, read, same⟩ := eq_ok_of_succeedsWith passes
  rw [only value same] at read
  exact ⟨_, read, ended⟩

/-- Nothing but the byte. -/
def isByte (byte : UInt8) : Literal → Bool
  | .byte value => value = byte
  | _ => false

theorem eq_byte {byte : UInt8} {value : Literal} (passes : isByte byte value = true) :
    value = .byte byte := by
  unfold isByte at passes
  split at passes
  · rw [of_decide_eq_true passes]
  · cases passes

/-- Nothing but the list of the number and the text. -/
def isEntry (number : Int64) (text : String) : Literal → Bool
  | .list [.integer value, .string own] => value = number && own = text
  | _ => false

theorem eq_entry {number : Int64} {text : String} {value : Literal}
    (passes : isEntry number text value = true) :
    value = .list [.integer number, .string text] := by
  unfold isEntry at passes
  split at passes
  · obtain ⟨rfl, rfl⟩ : _ = number ∧ _ = text := by simpa using passes
    rfl
  · cases passes

/-- A strict list beside bytes, where a lenient reader takes it. -/
theorem readsAs_pair_bytes :
    ReadsAs .standard "[1, \"\\t\"]".toList (.list [.integer 1, .string "\t"]) ∧
      ReadsAs .standard "0xff".toList (.byte 255) ∧
      ReadsAs .standard
        ('[' :: ("[1, \"\\t\"]".toList ++ ',' :: ' ' :: ("0xff".toList ++ [']'])))
        (.list [.list [.integer 1, .string "\t"], .byte 255]) := by
  have left : ReadsAs .standard "[1, \"\\t\"]".toList (.list [.integer 1, .string "\t"]) :=
    readsAs_of_passes (fun _ => eq_entry) (by decide +kernel) (by decide +kernel)
  have right : ReadsAs .standard "0xff".toList (.byte 255) :=
    readsAs_of_passes (fun _ => eq_byte) (by decide +kernel) (by decide +kernel)
  have hash : Outside Words.standard.marker := by
    rintro _ ⟨⟩
    decide
  have alike : Alike "[1, \"\\t\"]".toList ∧ Alike "0xff".toList :=
    ⟨⟨by simp, fun _ _ => by decide⟩, ⟨by simp, fun _ _ => by decide⟩⟩
  exact ⟨left, right, readsAs_pair AliasTable.faithful_builtin hash left right (.inr alike)⟩

/-- An upper-case mark of bytes is known outside of lists only. -/
theorem not_readsAs_pair_upper :
    ReadsAs .standard "0XFF".toList (.byte 255) ∧ ReadsAs .standard "0x01".toList (.byte 1) ∧
      ¬ReadsAs .standard ('[' :: ("0XFF".toList ++ ',' :: ' ' :: ("0x01".toList ++ [']'])))
        (.list [.byte 255, .byte 1]) := by
  have left : ReadsAs .standard "0XFF".toList (.byte 255) :=
    readsAs_of_passes (fun _ => eq_byte) (by decide +kernel) (by decide +kernel)
  have right : ReadsAs .standard "0x01".toList (.byte 1) :=
    readsAs_of_passes (fun _ => eq_byte) (by decide +kernel) (by decide +kernel)
  have passes : succeedsWith (isPair "0XFF" 1) (value .standard)
      (.ofList ('[' :: ("0XFF".toList ++ ',' :: ' ' :: ("0x01".toList ++ [']'])))) = true := by
    decide +kernel
  obtain ⟨other, read, same⟩ := eq_ok_of_succeedsWith passes
  obtain rfl := eq_pair same
  refine ⟨left, right, ?_⟩
  rintro ⟨next, whole, _⟩
  rw [read] at whole
  cases whole

end Literal

end DocShapes
