import DocShapes.Literal.Reader
import DocShapes.Proofs.StrictText

/-! # Lenient reading of the text of literals

A lenient reader takes the text of every literal without an empty key, bytes included. It knows
fewer escapes than a strict one, so that only the common control characters survive.
-/

namespace DocShapes

/-! ## Words -/

namespace Text

theorem trimEnd_of_blank {blanks : List Char} (blank : ∀ c ∈ blanks, isBlank c = true) :
    trimEnd blanks = [] := by
  induction blanks with
  | nil => rfl
  | cons c rest ih =>
    obtain ⟨here, others⟩ := List.forall_mem_cons.mp blank
    simp [trimEnd, ih others, here]

theorem trimEnd_append {word blanks : List Char} (visible : ∀ c ∈ word, isBlank c = false)
    (blank : ∀ c ∈ blanks, isBlank c = true) : trimEnd (word ++ blanks) = word := by
  induction word with
  | nil => exact trimEnd_of_blank blank
  | cons c rest ih =>
    obtain ⟨here, others⟩ := List.forall_mem_cons.mp visible
    rw [List.cons_append, trimEnd, ih others]
    cases rest with
    | nil => simp [here]
    | cons => rfl

end Text

namespace Literal

/-- The built-in spellings, and the mark that comments have by default. -/
def Words.standard : Words := ⟨.builtin, ['#']⟩

/-- The characters of words that stand for a constant, a whole number or bytes. -/
def isWordy (c : Char) : Bool := c.isAlphanum || c = '-'

/-- A test that each wordy ASCII character passes. -/
theorem forall_isWordy (test : Char → Bool)
    (table : ∀ k : Fin 128, isWordy (Char.ofNat k) = true → test (Char.ofNat k) = true) {c : Char}
    (wordy : isWordy c = true) : test c = true := by
  have bound : c.toNat < 128 := by
    rcases Bool.or_eq_true_iff.mp wordy with letter | sign
    · change (decide ('A'.val ≤ c.val ∧ c.val ≤ 'Z'.val) || ('a'.val ≤ c.val && c.val ≤ 'z'.val) ||
        ('0'.val ≤ c.val && c.val ≤ '9'.val)) = true at letter
      simp only [Bool.or_eq_true, Bool.and_eq_true, decide_eq_true_eq, UInt32.le_iff_toNat_le]
        at letter
      change ((65 ≤ c.toNat ∧ c.toNat ≤ 90) ∨ (97 ≤ c.toNat ∧ c.toNat ≤ 122)) ∨
        (48 ≤ c.toNat ∧ c.toNat ≤ 57) at letter
      omega
    · rw [of_decide_eq_true sign]
      decide
  have here := table ⟨c.toNat, bound⟩
  rw [Char.ofNat_toNat] at here
  exact here wordy

theorem visible_of_isWordy {c : Char} (wordy : isWordy c = true) :
    Text.isBlank c = false ∧ c ∉ valueStops ∧ c ≠ '#' := by
  have table := forall_isWordy (fun c =>
    !Text.isBlank c && c ∉ valueStops && c ≠ '#') (by decide) wordy
  simpa [and_assoc] using table

/-- Before a comment, what stands in front of the next delimiter is blank. -/
theorem blank_before_delimiter {tail : List Char} (delimited : Text.Delimited tail) :
    ∀ c ∈ beforeMarker ['#'] (tail.takeWhile fun c => !valueStops.contains c),
      Text.isBlank c = true := by
  induction delimited with
  | nil => simp [beforeMarker]
  | @mark c rest mark =>
    by_cases comment : c = '#'
    · subst comment
      simp [valueStops, beforeMarker]
    · have stops : ∀ c ∈ Text.delimiters, c ≠ '#' → c ∈ valueStops :=
        List.all_iff_forall_prop.mp (by decide)
      simp [stops c mark comment, beforeMarker]
  | @blank c rest blank _ ih =>
    have other : c ∉ valueStops ∧ '#' ≠ c := by
      rcases blank with same | same
      · subst same
        decide
      · subst same
        decide
    simpa [other, beforeMarker, Text.isBlank_of_eq blank] using ih

theorem beforeMarker_append {word text : List Char} (free : '#' ∉ word) :
    beforeMarker ['#'] (word ++ text) = word ++ beforeMarker ['#'] text := by
  induction word with
  | nil => rfl
  | cons c rest ih =>
    rw [List.mem_cons, not_or] at free
    obtain ⟨different, others⟩ := free
    simp [beforeMarker, different, ih others]

/-- A word ends in front of a delimiter and leaves the blanks. -/
theorem bareWord_append {word tail : List Char} (wordy : ∀ c ∈ word, isWordy c = true)
    (delimited : Text.Delimited tail) : bareWord valueStops ['#'] (word ++ tail) = word := by
  have inside : ∀ c ∈ word, (!valueStops.contains c) = true := by
    intro c member
    simpa using (visible_of_isWordy (wordy c member)).2.1
  have free : '#' ∉ word := fun member => (visible_of_isWordy (wordy _ member)).2.2 rfl
  have visible : ∀ c ∈ word, Text.isBlank c = false := fun c member =>
    (visible_of_isWordy (wordy c member)).1
  rw [bareWord, List.takeWhile_append_of_pos inside, if_neg (by simp), beforeMarker_append free]
  exact Text.trimEnd_append visible (blank_before_delimiter delimited)

/-! ### What words mean -/

theorem find_eq_none {α : Type} {key : String} {entries : List (String × α)}
    (absent : key ∉ entries.map Prod.fst) : OrderedMap.find key entries = none := by
  induction entries with
  | nil => rfl
  | cons entry rest ih =>
    rw [List.map_cons, List.mem_cons, not_or] at absent
    rw [OrderedMap.find, if_neg (Ne.symm absent.1), ih absent.2]

/-- A word that stands for no constant is bytes, a number or text. -/
theorem ofWord_of_not_mem {aliases : AliasTable} {word : List Char}
    (other : aliases.resolveWord (String.ofList word) ∉ ["null", "true", "false"]) :
    ofWord aliases word =
      match (Json.word? ['0', 'x'] word).bind ofHex? with
      | some found => found
      | none =>
          match Json.read (String.ofList word) with
          | some (.integer value) => ofJson (.integer value)
          | some (.number value) => .number value
          | _ => .string (String.ofList word) := by
  rw [ofWord]
  split
  · rename_i same
    simp [same] at other
  · rename_i same
    simp [same] at other
  · rename_i same
    simp [same] at other
  · rfl

/-- All words with a meaning of their own begin with a letter. -/
theorem resolveWord_of_front {c : Char} {rest : List Char} (front : Name.startsSymbol c = false) :
    AliasTable.builtin.resolveWord (String.ofList (c :: rest)) ∉ ["null", "true", "false"] := by
  have letters : ∀ word ∈ AliasTable.builtin.targets.entries.map Prod.fst ++
      AliasTable.constantWords.map Prod.fst ++ ["null", "true", "false"],
      word.toList.head?.map Name.startsSymbol = some true := by decide
  have other : String.ofList (c :: rest) ∉ AliasTable.builtin.targets.entries.map Prod.fst ++
      AliasTable.constantWords.map Prod.fst ++ ["null", "true", "false"] := by
    intro member
    have starts := letters _ member
    simp [front] at starts
  simp only [List.mem_append, not_or] at other
  obtain ⟨⟨spelling, constant⟩, word⟩ := other
  rw [AliasTable.resolveWord, AliasTable.target?, OrderedMap.get?, find_eq_none spelling,
    find_eq_none constant]
  exact word

theorem ofWord_hex {digits : List Char} {value : Literal} (hex : ofHex? digits = some value) :
    ofWord .builtin ('0' :: 'x' :: digits) = value := by
  rw [ofWord_of_not_mem (resolveWord_of_front (by decide))]
  simp [Json.word?, hex]

theorem ofHex?_hexOfBytes {values : List UInt8} (formed : (Literal.bytes values).WellFormed) :
    ofHex? (Text.hexOfBytes values) = some (.bytes values) := by
  have several : 2 ≤ values.length := of_decide_eq_true formed
  rw [ofHex?, Text.bytesOfHex?_hexOfBytes]
  match values, several with
  | first :: second :: rest, _ => rfl

theorem mem_wholeText {value : Int} {c : Char} (member : c ∈ Json.wholeText value) :
    c.isDigit = true ∨ c = '-' := by
  by_cases negative : value < 0
  · rw [Json.wholeText, if_pos negative, List.mem_cons] at member
    rcases member with sign | digit
    · exact .inr sign
    · exact .inl (Json.isDigit_of_mem_digits digit)
  · rw [Json.wholeText, if_neg negative] at member
    exact .inl (Json.isDigit_of_mem_digits member)

theorem not_startsSymbol_of_mem_wholeText {value : Int} {c : Char}
    (member : c ∈ Json.wholeText value) : Name.startsSymbol c = false ∧ c ≠ 'x' := by
  rcases mem_wholeText member with digit | sign
  · have table := Json.forall_isDigit (fun c => !Name.startsSymbol c && c ≠ 'x')
      (by decide) digit
    simpa using table
  · subst sign
    decide

theorem word?_hex_eq_none {text : List Char} (unmarked : 'x' ∉ text) :
    Json.word? ['0', 'x'] text = none := by
  match text with
  | [] => rfl
  | [c] => simp [Json.word?]
  | c :: d :: rest =>
    have other : 'x' ≠ d := by
      rintro rfl
      simp at unmarked
    simp [Json.word?, other]

theorem ofWord_whole (whole : Int64) :
    ofWord .builtin (Json.wholeText whole.toInt) = .integer whole := by
  obtain ⟨c, rest, text, _⟩ := @exists_chars_eq_cons (.integer whole) rfl
  have front : Name.startsSymbol c = false := by
    have member : c ∈ Json.wholeText whole.toInt := by
      rw [show Json.wholeText whole.toInt = c :: rest from text]
      exact List.mem_cons_self
    exact (not_startsSymbol_of_mem_wholeText member).1
  have unmarked : 'x' ∉ Json.wholeText whole.toInt := fun member =>
    (not_startsSymbol_of_mem_wholeText member).2 rfl
  have read : Json.read (String.ofList (Json.wholeText whole.toInt)) =
      some (.integer whole.toInt) := by
    have taken := Json.value_wholeText Json.deepest whole .nil
    rw [List.append_nil] at taken
    rw [Json.read, Json.readWithin, String.toList_ofList, taken]
    rfl
  have back : ofJson (Literal.integer whole).toJson = .integer whole :=
    @ofJson_toJson (.integer whole) 0 rfl
  rw [chars] at text
  rw [text] at unmarked read ⊢
  rw [ofWord_of_not_mem (resolveWord_of_front front), word?_hex_eq_none unmarked, read]
  exact back

/-! ## Quoted text -/

/-- The characters with an escape that both readers know. -/
def commonEscapes : List (Char × List Char) :=
  [('"', ['\\', '"']), ('\\', ['\\', '\\']), ('\n', ['\\', 'n']), ('\r', ['\\', 'r']),
    ('\t', ['\\', 't'])]

/-- A character that is not a rare control character is written as it is or by such an escape. -/
theorem escaped_of_isPlain {c : Char} (plain : isPlain c = true) :
    (c, Json.escaped c) ∈ commonEscapes ∨
      Json.escaped c = [c] ∧ c ∉ commonEscapes.map Prod.fst := by
  by_cases common : c ∈ commonEscapes.map Prod.fst
  · have table : ∀ c ∈ commonEscapes.map Prod.fst, (c, Json.escaped c) ∈ commonEscapes :=
      List.all_iff_forall_prop.mp (by decide)
    exact .inl (table c common)
  · obtain ⟨quote, slash, line, back, tab⟩ :
        c ≠ '"' ∧ c ≠ '\\' ∧ c ≠ '\n' ∧ c ≠ '\r' ∧ c ≠ '\t' := by
      simpa [commonEscapes] using common
    have visible : 32 ≤ c.toNat := by simpa [isPlain, line, back, tab] using plain
    have backspace : c.toNat ≠ 8 := by omega
    have feed : c.toNat ≠ 12 := by omega
    refine .inr ⟨?_, common⟩
    simp [Json.escaped, quote, slash, line, back, tab, backspace, feed, Nat.not_lt.mpr visible]

theorem doubleQuoted_escaped {c : Char} (plain : isPlain c = true) (rest : List Char) :
    doubleQuoted (Json.escaped c ++ rest) =
      (doubleQuoted rest).map fun (body, rest) => (c :: body, rest) := by
  rcases escaped_of_isPlain plain with common | ⟨same, other⟩
  · simp only [commonEscapes, List.mem_cons, Prod.mk.injEq, List.not_mem_nil, or_false] at common
    rcases common with ⟨rfl, text⟩ | ⟨rfl, text⟩ | ⟨rfl, text⟩ | ⟨rfl, text⟩ | ⟨rfl, text⟩ <;> rfl
  · rw [same, List.singleton_append, doubleQuoted.eq_def]
    split <;> simp_all [commonEscapes]

theorem doubleQuoted_quoted {text : List Char} (plain : ∀ c ∈ text, isPlain c = true)
    (tail : List Char) :
    doubleQuoted (text.flatMap Json.escaped ++ '"' :: tail) = some (text, tail) := by
  induction text with
  | nil => rfl
  | cons c rest ih =>
    obtain ⟨here, others⟩ := List.forall_mem_cons.mp plain
    rw [List.flatMap_cons, List.append_assoc, doubleQuoted_escaped here, ih others]
    rfl

/-- What is left behind a run that has been passed. -/
theorem rest_forward_run {cursor : Cursor} {run tail : List Char}
    (here : cursor.rest = run ++ tail) :
    (cursor.forward (cursor.rest.length - tail.length)).rest = tail := by
  rw [Cursor.rest_forward, here, List.length_append, Nat.add_sub_cancel, List.drop_left]

theorem ends_takeQuoted {cursor : Cursor} {text tail : List Char}
    (plain : ∀ c ∈ text, isPlain c = true) (here : cursor.rest = Json.quote text ++ tail) :
    Ends takeQuoted cursor (fun found next => found = String.ofList text ∧ next.rest = tail)
      fun _ => False := by
  have front : cursor.rest = '"' :: (text.flatMap Json.escaped ++ '"' :: tail) := by
    rw [here, Json.quote_append]
  have passed := rest_forward_run here
  rw [front] at passed
  simp only [takeQuoted, ends_bind, ends_get, front, doubleQuoted_quoted plain, Scan.forward,
    ends_modify, ends_pure]
  exact ⟨trivial, passed⟩

/-! ## Lenient values -/

/-- How a lenient reader with room for `depth` levels takes the text of a literal. -/
def TakenLeniently (depth : Nat) (literal : Literal) : Prop :=
  ∀ (cursor : Cursor) (tail : List Char), Text.Delimited tail →
    Text.trimStart cursor.rest = literal.chars ++ tail →
      Ends (lenient .standard depth) cursor
        (fun found next => found = literal ∧ next.rest = tail) fun _ => False

/-- A word is taken by what it means. -/
theorem takenLeniently_word (literal : Literal) {c : Char} {more : List Char}
    (text : literal.chars = c :: more) (wordy : ∀ c ∈ literal.chars, isWordy c = true)
    (means : ofWord .builtin literal.chars = literal) (depth : Nat) :
    TakenLeniently (depth + 1) literal := by
  intro cursor tail delimited here
  have start : cursor.skipBlank.rest = literal.chars ++ tail := by
    rw [Cursor.rest_skipBlank, here]
  have peek : cursor.skipBlank.peek = some c := by
    rw [Cursor.peek, start, text, List.cons_append, List.head?_cons]
  have front : isWordy c = true := wordy c (by rw [text]; exact List.mem_cons_self)
  have word : bareWord valueStops ['#'] cursor.skipBlank.rest = literal.chars := by
    rw [start, bareWord_append wordy delimited]
  have passed : (cursor.skipBlank.forward literal.chars.length).rest = tail := by
    rw [Cursor.rest_forward, start, List.drop_left]
  simp only [lenient, Scan.skipBlank, ends_bind, ends_modify, ends_get, peek]
  split
  case h_5 =>
    have nonempty : literal.chars.isEmpty = false := by
      rw [text]
      rfl
    simp only [takeBare, Words.standard, ends_bind, ends_get, word, Scan.forward, ends_modify,
      ends_pure, means, nonempty]
    exact ⟨rfl, passed⟩
  all_goals
    rename_i same
    cases same
    cases front

/-- What a lenient reader finds first behind blanks. -/
theorem peek_skipBlank {cursor : Cursor} {c : Char} {rest : List Char}
    (here : Text.trimStart cursor.rest = c :: rest) :
    cursor.skipBlank.peek = some c ∧ cursor.skipBlank.rest = c :: rest := by
  have start : cursor.skipBlank.rest = c :: rest := by rw [Cursor.rest_skipBlank, here]
  exact ⟨by rw [Cursor.peek, start, List.head?_cons], start⟩

theorem takenLeniently_string {value : String} (plain : (Literal.string value).Plain)
    (depth : Nat) : TakenLeniently (depth + 1) (.string value) := by
  intro cursor tail _ here
  rw [chars, Json.quote_append] at here
  obtain ⟨peek, start⟩ := peek_skipBlank here
  rw [← Json.quote_append] at start
  simp only [lenient, Scan.skipBlank, ends_bind, ends_modify, ends_get, peek, ends_map]
  refine (ends_takeQuoted (List.all_eq_true.mp plain) start).imp ?_
  intro found next taken
  rw [taken.1, String.ofList_toList]
  exact ⟨rfl, taken.2⟩

/-- The text of items begins with no blank and with nothing that closes a list. -/
theorem front_items {first : Literal} (plain : first.Plain) (rest : List Literal)
    (tail : List Char) :
    ∃ c others, Json.separated [',', ' '] ((first :: rest).map chars) ++ tail = c :: others ∧
      Text.isBlank c = false ∧ c ≠ ']' := by
  obtain ⟨c, more, text, blank, _, inside⟩ := exists_chars_eq_cons plain.numberless
  have other : c ≠ ']' := by
    rintro rfl
    simp at inside
  rw [List.map_cons, Json.separated_cons, text]
  exact ⟨c, _, rfl, blank, other⟩

theorem ends_takeItems {depth fuel : Nat} {items : List Literal} {cursor : Cursor}
    {tail : List Char} (each : ∀ item ∈ items, TakenLeniently depth item)
    (plain : ∀ item ∈ items, item.Plain) (room : items.length < fuel)
    (here : Text.trimStart cursor.rest =
      Json.separated [',', ' '] (items.map chars) ++ ']' :: tail) :
    Ends (takeItems (lenient .standard depth) fuel) cursor
      (fun found next => found = items ∧ next.rest = tail) fun _ => False := by
  induction items generalizing fuel cursor with
  | nil =>
    obtain ⟨fuel, rfl⟩ := Nat.exists_eq_add_one_of_ne_zero (Nat.ne_zero_of_lt room)
    rw [takeItems, ends_bind]
    refine Scan.ends_eat_true here fun next rest => ?_
    exact ⟨rfl, rest⟩
  | cons item rest ih =>
    obtain ⟨fuel, rfl⟩ := Nat.exists_eq_add_one_of_ne_zero (Nat.ne_zero_of_lt room)
    obtain ⟨first, others⟩ := List.forall_mem_cons.mp each
    obtain ⟨firstPlain, othersPlain⟩ := List.forall_mem_cons.mp plain
    obtain ⟨c, more, front, blank, inside⟩ := front_items firstPlain rest (']' :: tail)
    rw [takeItems, ends_bind]
    refine Scan.ends_eat_false (by rw [here, front]; simpa using inside) ?_
    cases rest with
    | nil =>
      have text : Text.trimStart cursor.rest = item.chars ++ ']' :: tail := by
        simpa [Json.separated] using here
      simp only [Bool.false_eq_true, if_false, ends_bind]
      refine (first cursor _ (.mark (by decide)) text).imp ?_
      rintro _ next ⟨rfl, behind⟩
      have visible : Text.trimStart next.rest = ']' :: tail := by
        rw [behind, Text.trimStart_of_visible (by decide)]
      refine Scan.ends_eat_false (by simp [visible]) ?_
      simp only [Bool.false_eq_true, if_false, ends_bind]
      refine Scan.ends_eat_true visible fun last rest => ?_
      exact ⟨rfl, rest⟩
    | cons second more =>
      have text : Text.trimStart cursor.rest = item.chars ++ ',' :: ' ' ::
          (Json.separated [',', ' '] ((second :: more).map chars) ++ ']' :: tail) := by
        simpa [Json.separated] using here
      simp only [Bool.false_eq_true, if_false, ends_bind]
      refine (first cursor _ (.mark (by decide)) text).imp ?_
      rintro _ next ⟨rfl, behind⟩
      have visible : Text.trimStart next.rest = ',' :: ' ' ::
          (Json.separated [',', ' '] ((second :: more).map chars) ++ ']' :: tail) := by
        rw [behind, Text.trimStart_of_visible (by decide)]
      refine Scan.ends_eat_true visible fun last rest => ?_
      simp only [if_true, ends_bind]
      obtain ⟨d, _, secondFront, secondBlank, _⟩ :=
        front_items (othersPlain second (by simp)) more (']' :: tail)
      refine (ih others othersPlain (Nat.lt_of_succ_lt_succ room) ?_).imp ?_
      · rw [rest, Text.trimStart_space, secondFront, Text.trimStart_of_visible secondBlank]
      · rintro _ final ⟨rfl, finalRest⟩
        exact ⟨rfl, finalRest⟩

theorem takenLeniently_list {depth : Nat} {items : List Literal}
    (each : ∀ item ∈ items, TakenLeniently depth item) (plain : ∀ item ∈ items, item.Plain) :
    TakenLeniently (depth + 1) (.list items) := by
  intro cursor tail _ here
  rw [chars_list_append] at here
  obtain ⟨peek, start⟩ := peek_skipBlank here
  have room : items.length < cursor.skipBlank.rest.length + 1 := by
    have longer := length_le_separated (items.map chars) tail ']'
    rw [List.length_map] at longer
    rw [start, List.length_cons]
    omega
  have behind : Text.trimStart (cursor.skipBlank.forward 1).rest =
      Json.separated [',', ' '] (items.map chars) ++ ']' :: tail := by
    rw [Cursor.rest_forward, start, List.drop_one, List.tail_cons]
    cases items with
    | nil => exact Text.trimStart_of_visible (by decide)
    | cons first rest =>
      obtain ⟨c, others, front, blank, _⟩ := front_items (plain first (by simp)) rest (']' :: tail)
      rw [front, Text.trimStart_of_visible blank]
  simp only [lenient, Scan.skipBlank, ends_bind, ends_modify, ends_get, peek, ends_map,
    Scan.forward]
  refine (ends_takeItems each plain room behind).imp ?_
  rintro _ next ⟨rfl, rest⟩
  exact ⟨rfl, rest⟩

/-! ### Records -/

theorem ends_takeKey {cursor : Cursor} {key : String} {tail : List Char}
    (plain : ∀ c ∈ key.toList, isPlain c = true) (nonempty : key ≠ "")
    (here : Text.trimStart cursor.rest = Json.quote key.toList ++ tail) :
    Ends (takeKey ['#']) cursor (fun found next => found = key ∧ next.rest = tail)
      fun _ => False := by
  rw [Json.quote_append] at here
  obtain ⟨peek, start⟩ := peek_skipBlank here
  rw [← Json.quote_append] at start
  simp only [takeKey, Scan.skipBlank, ends_bind, ends_modify, ends_get, peek]
  refine (ends_takeQuoted plain start).imp ?_
  rintro _ next ⟨rfl, rest⟩
  have filled : key.isEmpty = false := by simpa using nonempty
  rw [String.ofList_toList, filled]
  exact ⟨rfl, rest⟩

/-- A field is taken by taking its key, the colon and its value. -/
theorem ends_takeField {α : Type} {depth : Nat} {field : String × Literal} {cursor : Cursor}
    {tail : List Char} {more : String → Literal → Scan α} {done : α → Cursor → Prop}
    (value : TakenLeniently depth field.2) (valuePlain : field.2.Plain)
    (plain : ∀ c ∈ field.1.toList, isPlain c = true) (nonempty : field.1 ≠ "")
    (delimited : Text.Delimited tail)
    (here : Text.trimStart cursor.rest = fieldChars field ++ tail)
    (follows : ∀ next : Cursor, next.rest = tail →
      Ends (more field.1 field.2) next done fun _ => False) :
    Ends (do
      let key ← takeKey ['#']
      unless ← Scan.eat ':' do Scan.fail .keyDelimiter
      let value ← lenient .standard depth
      more key value) cursor done fun _ => False := by
  have text : Text.trimStart cursor.rest =
      Json.quote field.1.toList ++ ':' :: ' ' :: (field.2.chars ++ tail) := by
    rw [here, fieldChars]
    simp
  rw [ends_bind]
  refine (ends_takeKey plain nonempty text).imp ?_
  rintro _ next ⟨rfl, behind⟩
  have colon : Text.trimStart next.rest = ':' :: ' ' :: (field.2.chars ++ tail) := by
    rw [behind, Text.trimStart_of_visible (by decide)]
  rw [ends_bind]
  refine Scan.ends_eat_true colon fun further rest => ?_
  obtain ⟨c, _, front, blank, _⟩ := exists_chars_eq_cons valuePlain.numberless
  have start : Text.trimStart further.rest = field.2.chars ++ tail := by
    rw [rest, Text.trimStart_space, front, List.cons_append, Text.trimStart_of_visible blank]
  rw [if_pos rfl, ends_bind]
  refine (value further tail delimited start).imp ?_
  rintro _ last ⟨rfl, lastRest⟩
  exact follows last lastRest

theorem ends_takeFields {depth fuel : Nat} {before fields : List (String × Literal)}
    {cursor : Cursor} {tail : List Char}
    (each : ∀ field ∈ fields, TakenLeniently depth field.2 ∧ field.2.Plain)
    (plain : ∀ field ∈ fields, ∀ c ∈ field.1.toList, isPlain c = true)
    (keyed : ∀ field ∈ fields, field.1 ≠ "")
    (distinct : (before.map Prod.fst ++ fields.map Prod.fst).Nodup)
    (room : fields.length < fuel)
    (here : Text.trimStart cursor.rest =
      Json.separated [',', ' '] (fields.map fieldChars) ++ '\x7d' :: tail) :
    Ends (takeFields ['#'] (lenient .standard depth) fuel before) cursor
      (fun found next => found = before ++ fields ∧ next.rest = tail) fun _ => False := by
  induction fields generalizing before fuel cursor with
  | nil =>
    obtain ⟨fuel, rfl⟩ := Nat.exists_eq_add_one_of_ne_zero (Nat.ne_zero_of_lt room)
    rw [takeFields, ends_bind]
    refine Scan.ends_eat_true here fun next rest => ?_
    exact ⟨(List.append_nil before).symm, rest⟩
  | cons field rest ih =>
    obtain ⟨fuel, rfl⟩ := Nat.exists_eq_add_one_of_ne_zero (Nat.ne_zero_of_lt room)
    obtain ⟨⟨first, firstPlain⟩, others⟩ := List.forall_mem_cons.mp each
    obtain ⟨keyPlain, plain⟩ := List.forall_mem_cons.mp plain
    obtain ⟨nonempty, keyed⟩ := List.forall_mem_cons.mp keyed
    have fresh : field.1 ∉ before.map Prod.fst := by
      intro member
      exact (List.nodup_append.mp distinct).2.2 _ member _ (by simp) rfl
    have sofar := OrderedMap.put_of_not_mem field.2 fresh
    have inside : (Text.trimStart cursor.rest).head? ≠ some '\x7d' := by
      rw [here, List.map_cons, Json.separated_cons, fieldChars, Json.quote]
      simp
    rw [takeFields, ends_bind]
    refine Scan.ends_eat_false inside ?_
    simp only [Bool.false_eq_true, if_false]
    cases rest with
    | nil =>
      have text : Text.trimStart cursor.rest = fieldChars field ++ '\x7d' :: tail := by
        simpa [Json.separated] using here
      refine ends_takeField first firstPlain keyPlain nonempty (.mark (by decide)) text
        fun next behind => ?_
      have visible : Text.trimStart next.rest = '\x7d' :: tail := by
        rw [behind, Text.trimStart_of_visible (by decide)]
      simp only [sofar, ends_bind]
      refine Scan.ends_eat_false (by simp [visible]) ?_
      simp only [Bool.false_eq_true, if_false, ends_bind]
      refine Scan.ends_eat_true visible fun last rest => ?_
      exact ⟨rfl, rest⟩
    | cons second more =>
      have text : Text.trimStart cursor.rest = fieldChars field ++ ',' :: ' ' ::
          (Json.separated [',', ' '] ((second :: more).map fieldChars) ++ '\x7d' :: tail) := by
        simpa [Json.separated] using here
      refine ends_takeField first firstPlain keyPlain nonempty (.mark (by decide)) text
        fun next behind => ?_
      have visible : Text.trimStart next.rest = ',' :: ' ' ::
          (Json.separated [',', ' '] ((second :: more).map fieldChars) ++ '\x7d' :: tail) := by
        rw [behind, Text.trimStart_of_visible (by decide)]
      simp only [sofar, ends_bind]
      refine Scan.ends_eat_true visible fun last rest => ?_
      simp only [if_true]
      have further : ((before ++ [field]).map Prod.fst ++
          (second :: more).map Prod.fst).Nodup := by
        simpa using distinct
      refine (ih others plain keyed further (Nat.lt_of_succ_lt_succ room) ?_).imp ?_
      · rw [rest, Text.trimStart_space, List.map_cons, Json.separated_cons, fieldChars,
          Json.quote]
        exact Text.trimStart_of_visible (by decide)
      · rintro _ final ⟨rfl, finalRest⟩
        exact ⟨by simp, finalRest⟩

theorem takenLeniently_record {depth : Nat} {fields : List (String × Literal)}
    (each : ∀ field ∈ fields, TakenLeniently depth field.2 ∧ field.2.Plain)
    (plain : ∀ field ∈ fields, ∀ c ∈ field.1.toList, isPlain c = true)
    (keyed : ∀ field ∈ fields, field.1 ≠ "") (distinct : (fields.map Prod.fst).Nodup) :
    TakenLeniently (depth + 1) (.record fields) := by
  intro cursor tail _ here
  rw [chars_record_append] at here
  obtain ⟨peek, start⟩ := peek_skipBlank here
  have room : fields.length < cursor.skipBlank.rest.length + 1 := by
    have longer := length_le_separated (fields.map fieldChars) tail '\x7d'
    rw [List.length_map] at longer
    rw [start, List.length_cons]
    omega
  have behind : Text.trimStart (cursor.skipBlank.forward 1).rest =
      Json.separated [',', ' '] (fields.map fieldChars) ++ '\x7d' :: tail := by
    rw [Cursor.rest_forward, start, List.drop_one, List.tail_cons]
    cases fields with
    | nil => exact Text.trimStart_of_visible (by decide)
    | cons first rest =>
      rw [List.map_cons, Json.separated_cons, fieldChars, Json.quote]
      exact Text.trimStart_of_visible (by decide)
  simp only [lenient, Scan.skipBlank, ends_bind, ends_modify, ends_get, peek, ends_map,
    Scan.forward]
  refine (ends_takeFields each plain keyed (by simpa using distinct) room behind).imp ?_
  rintro _ next ⟨rfl, rest⟩
  exact ⟨rfl, rest⟩

theorem isWordy_of_mem_wholeText {value : Int} {c : Char} (member : c ∈ Json.wholeText value) :
    isWordy c = true := by
  rcases mem_wholeText member with digit | sign
  · exact Json.forall_isDigit isWordy (by decide) digit
  · subst sign
    rfl

theorem isWordy_of_mem_hex {values : List UInt8} :
    ∀ c ∈ '0' :: 'x' :: Text.hexOfBytes values, isWordy c = true := by
  have digits : ∀ c ∈ Text.hexOfBytes values, isWordy c = true := fun c member =>
    Text.forall_isHexDigit isWordy (by decide) (Text.isHexDigit_of_mem_hexOfBytes c member)
  exact List.forall_mem_cons.mpr ⟨by decide, List.forall_mem_cons.mpr ⟨by decide, digits⟩⟩

/-- A lenient reader takes every well-formed literal without empty keys, without numbers and
without rare control characters. -/
theorem takenLeniently {value : Literal} (formed : value.WellFormed) (plain : value.Plain)
    (keyed : value.Keyed) {depth : Nat} (room : value.chars.length ≤ depth) :
    TakenLeniently depth value := by
  induction value using Literal.induction generalizing depth with
  | null =>
    obtain ⟨depth, rfl⟩ := Nat.exists_eq_add_one_of_ne_zero (Nat.ne_zero_of_lt room)
    exact takenLeniently_word _ rfl (List.all_eq_true.mp (by decide)) rfl depth
  | boolean value =>
    obtain ⟨depth, rfl⟩ : ∃ less, depth = less + 1 := by
      cases value <;> exact Nat.exists_eq_add_one_of_ne_zero (Nat.ne_zero_of_lt room)
    cases value with
    | false => exact takenLeniently_word _ rfl (List.all_eq_true.mp (by decide)) rfl depth
    | true => exact takenLeniently_word _ rfl (List.all_eq_true.mp (by decide)) rfl depth
  | integer value =>
    obtain ⟨c, more, text, _⟩ := exists_chars_eq_cons plain.numberless
    rw [text] at room
    obtain ⟨depth, rfl⟩ := Nat.exists_eq_add_one_of_ne_zero (Nat.ne_zero_of_lt room)
    exact takenLeniently_word (.integer value) text (fun _ => isWordy_of_mem_wholeText)
      (ofWord_whole value) depth
  | number value => cases plain
  | string value =>
    obtain ⟨depth, rfl⟩ := Nat.exists_eq_add_one_of_ne_zero (Nat.ne_zero_of_lt room)
    exact takenLeniently_string plain depth
  | byte value =>
    obtain ⟨depth, rfl⟩ := Nat.exists_eq_add_one_of_ne_zero (Nat.ne_zero_of_lt room)
    exact takenLeniently_word (.byte value) rfl isWordy_of_mem_hex
      (ofWord_hex (by simp [ofHex?])) depth
  | bytes values =>
    obtain ⟨depth, rfl⟩ := Nat.exists_eq_add_one_of_ne_zero (Nat.ne_zero_of_lt room)
    exact takenLeniently_word (.bytes values) rfl isWordy_of_mem_hex
      (ofWord_hex (ofHex?_hexOfBytes formed)) depth
  | list items ih =>
    obtain ⟨depth, rfl⟩ := Nat.exists_eq_add_one_of_ne_zero (Nat.ne_zero_of_lt room)
    obtain ⟨_, formed⟩ := (everywhere_list _ _).mp formed
    obtain ⟨_, plain⟩ := (everywhere_list _ _).mp plain
    obtain ⟨_, keyed⟩ := (everywhere_list _ _).mp keyed
    refine takenLeniently_list (fun item member => ?_) plain
    have shorter : item.chars.length ≤
        (Json.separated [',', ' '] (items.map chars)).length :=
      Json.length_le_of_mem (List.mem_map_of_mem member)
    refine ih item member (formed item member) (plain item member) (keyed item member) ?_
    simp only [chars_list, List.length_cons, List.length_append, List.length_nil] at room
    omega
  | record fields ih =>
    obtain ⟨depth, rfl⟩ := Nat.exists_eq_add_one_of_ne_zero (Nat.ne_zero_of_lt room)
    obtain ⟨distinct, formed⟩ := (everywhere_record _ _).mp formed
    obtain ⟨keysPlain, plain⟩ := (everywhere_record _ _).mp plain
    obtain ⟨keysFilled, keyed⟩ := (everywhere_record _ _).mp keyed
    have keyPlain : ∀ field ∈ fields, ∀ c ∈ field.1.toList, isPlain c = true := by
      simpa [plainHere] using keysPlain
    have filled : ∀ field ∈ fields, field.1 ≠ "" := by simpa [keyedHere] using keysFilled
    refine takenLeniently_record (fun field member => ⟨?_, plain field member⟩) keyPlain filled
      (by simpa [wellFormedHere] using distinct)
    have shorter : (fieldChars field).length ≤
        (Json.separated [',', ' '] (fields.map fieldChars)).length :=
      Json.length_le_of_mem (List.mem_map_of_mem member)
    refine ih field member (formed field member) (plain field member) (keyed field member) ?_
    simp only [chars_record, List.length_cons, List.length_append, List.length_nil] at room
    simp only [fieldChars, List.length_append, List.length_cons] at shorter
    omega

end Literal

end DocShapes
