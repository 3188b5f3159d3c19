import DocShapes.Proofs.Consistency
import DocShapes.Proofs.LiteralText
import DocShapes.Proofs.Reading

/-! # Reading the text of specs

A spec is written with a sequence in parentheses, also where a text needs none. An atom reader that
has room for as many levels of parentheses as the text has characters gives the spec back, and it
stops where the next delimiter stands.
-/

namespace DocShapes

/-! ## Names -/

namespace Name

theorem exists_of_leading_eq {more : Char → Bool} {text : List Char} (filled : text ≠ [])
    (whole : leading more text = text) :
    ∃ c rest, text = c :: rest ∧ startsSymbol c = true ∧ ∀ d ∈ rest, more d = true := by
  cases text with
  | nil => exact absurd rfl filled
  | cons c rest =>
    by_cases starts : startsSymbol c
    · rw [leading, if_pos starts] at whole
      have run : rest.takeWhile more = rest := (List.cons.inj whole).2
      exact ⟨c, rest, rfl, starts, List.takeWhile_eq_self_iff.mp run⟩
    · rw [leading, if_neg starts] at whole
      cases whole

/-- A name ends in front of a character that cannot continue it. -/
theorem leading_append {more : Char → Bool} {text tail : List Char} (filled : text ≠ [])
    (whole : leading more text = text) (outside : ∀ c ∈ tail.head?, more c = false) :
    leading more (text ++ tail) = text := by
  obtain ⟨c, rest, rfl, starts, inside⟩ := exists_of_leading_eq filled whole
  rw [List.cons_append, leading, if_pos starts, Text.takeWhile_run inside outside]

theorem isSymbol_iff {word : String} :
    isSymbol word = true ↔ word.toList ≠ [] ∧ symbol word.toList = word.toList := by
  simp [isSymbol]

/-- What a name begins with is no blank and no parenthesis. -/
theorem front_of_startsSymbol {c : Char} (starts : startsSymbol c = true) :
    Text.isBlank c = false ∧ c ≠ '(' ∧ c ≠ ')' := by
  rcases Bool.or_eq_true_iff.mp starts with letter | underscore
  · have wordy : Literal.isWordy c = true := by simp [Literal.isWordy, Char.isAlphanum, letter]
    have table := Literal.forall_isWordy (fun c => !Text.isBlank c && c ≠ '(' && c ≠ ')')
      (by decide) wordy
    simpa [and_assoc] using table
  · rw [of_decide_eq_true underscore]
    decide

end Name

namespace Connective

/-- The operator between two items. -/
def mark : Connective → Char
  | .oneof => '|'
  | .union => '&'

theorem separator_eq (connective : Connective) :
    connective.separator.toList = [' ', connective.mark, ' '] := by
  cases connective <;> rfl

theorem ofChar?_mark (connective : Connective) : ofChar? connective.mark = some connective := by
  cases connective <;> rfl

theorem mark_mem_delimiters (connective : Connective) : connective.mark ∈ Text.delimiters := by
  cases connective <;> decide

theorem isBlank_mark (connective : Connective) : Text.isBlank connective.mark = false := by
  cases connective <;> decide

/-- Texts with a separator in front of each. -/
def behind (connective : Connective) (texts : List (List Char)) : List Char :=
  texts.flatMap fun text => connective.separator.toList ++ text

/-- The text of a sequence with items of given texts. -/
def enclosed (connective : Connective) : List (List Char) → List Char
  | [] => connective.word.toList
  | first :: rest => '(' :: (first ++ (connective.behind rest ++ [')']))

/-- Behind an item there is an operator or the closing parenthesis. -/
theorem delimited_behind (connective : Connective) (texts : List (List Char)) (tail : List Char) :
    Text.Delimited (connective.behind texts ++ ')' :: tail) := by
  cases texts with
  | nil => exact .mark (by decide)
  | cons text rest =>
    rw [behind, List.flatMap_cons, separator_eq]
    exact .blank (.inl rfl) (.mark connective.mark_mem_delimiters)

/-- What follows the blank in front of an operator. -/
theorem trimStart_behind_cons (connective : Connective) (first : List Char)
    (rest : List (List Char)) (tail : List Char) :
    Text.trimStart (connective.behind (first :: rest) ++ tail) =
      connective.mark :: ' ' :: (first ++ (connective.behind rest ++ tail)) := by
  rw [behind, List.flatMap_cons, ← behind, separator_eq]
  simp only [List.cons_append, List.nil_append, List.append_assoc]
  rw [Text.trimStart_space, Text.trimStart_of_visible connective.isBlank_mark]

/-- Each text takes an operator, so that there are fewer texts than characters. -/
theorem length_le_behind (connective : Connective) (texts : List (List Char)) :
    texts.length ≤ (connective.behind texts).length := by
  induction texts with
  | nil => exact Nat.le_refl _
  | cons text rest ih =>
    rw [behind, List.flatMap_cons, ← behind, separator_eq]
    simp only [List.length_append, List.length_cons]
    omega

theorem length_mem_le_behind (connective : Connective) {text : List Char}
    {texts : List (List Char)} (member : text ∈ texts) :
    text.length ≤ (connective.behind texts).length := by
  obtain ⟨before, after, rfl⟩ := List.append_of_mem member
  simp only [behind, List.flatMap_append, List.flatMap_cons, List.length_append]
  omega

end Connective

namespace Spec

open Literal (Words)

/-! ## Texts -/

/-- The word that stands for a spec without its parts; it is the name of the type, too. -/
def word : Spec → String
  | .scalar name => name
  | .constant value => value.kind
  | .named name => name
  | .list => "list"
  | .listOf _ => "list"
  | .reference => "reference"
  | .referenceTo _ => "reference"
  | .record => "record"
  | .sequence connective _ => connective.word

/-- The text of a word with an argument in parentheses. -/
def applied (word : String) (argument : List Char) : List Char :=
  word.toList ++ '(' :: (argument ++ [')'])

/-- The text of a spec, the way the spec text of its type is made. -/
def chars : Spec → List Char
  | .constant value => value.chars
  | .listOf item => applied (word (.listOf item)) (chars item)
  | .referenceTo target => applied (word (.referenceTo target)) (chars target)
  | .sequence connective items => connective.enclosed (each items)
  | spec => spec.word.toList
where
  each : List Spec → List (List Char)
    | [] => []
    | item :: rest => chars item :: each rest

theorem map_chars (items : List Spec) : chars.each items = items.map chars := by
  induction items with
  | nil => rfl
  | cons item rest ih => rw [chars.each, ih, List.map_cons]

theorem chars_sequence_cons (connective : Connective) (first : Spec) (rest : List Spec) :
    chars (.sequence connective (first :: rest)) =
      '(' :: (first.chars ++ (connective.behind (rest.map chars) ++ [')'])) := by
  rw [chars, map_chars, List.map_cons, Connective.enclosed]

/-- A symbol that is its own canonical name. -/
def Proper (word : String) : Prop :=
  Name.isSymbol word = true ∧ AliasTable.builtin.resolve word = word

theorem proper_keyword {word : String} (keyword : word ∈ Name.scalars ++
      ["null", "true", "false", "list", "reference", "record", "oneof", "union"]) :
    Proper word := by
  have table : ∀ word ∈ Name.scalars ++
      ["null", "true", "false", "list", "reference", "record", "oneof", "union"],
      Name.isSymbol word = true ∧ AliasTable.builtin.resolve word = word := by decide
  exact table word keyword

/-- What a symbol stands for is a symbol, too. -/
theorem proper_resolve {word : String} (symbol : Name.isSymbol word = true) :
    Proper (AliasTable.builtin.resolve word) := by
  have targets : ∀ entry ∈ AliasTable.builtin.targets.entries, Name.isSymbol entry.2 = true := by
    decide
  refine ⟨?_, AliasTable.resolve_of_not_isSpelling
    (AliasTable.flat_builtin.not_isSpelling_resolve word)⟩
  unfold AliasTable.resolve
  cases found : AliasTable.builtin.target? word with
  | none => exact symbol
  | some target => exact targets (word, target) (OrderedMap.mem_entries_of_get? found)

/-- The specs whose texts are read back. -/
inductive Written : Spec → Prop
  | scalar {name : String} (member : name ∈ Name.scalars) : Written (.scalar name)
  | constant {value : Literal} (legible : value.Legible) (plain : value.Plain) :
      Written (.constant value)
  | named {name : String} (other : Name.keyword? name = none) (proper : Proper name) :
      Written (.named name)
  | list : Written .list
  | listOf {item : Spec} (part : Written item) : Written (.listOf item)
  | reference : Written .reference
  | referenceTo {target : Spec} (part : Written target) : Written (.referenceTo target)
  | record : Written .record
  | sequence {connective : Connective} {items : List Spec} (several : items.length ≠ 1)
      (each : ∀ item ∈ items, Written item) : Written (.sequence connective items)

/-- A literal that is no word begins with neither a name nor a parenthesis. -/
theorem front_of_not_isWord {value : Literal} {c : Char} {rest : List Char}
    (word : value.isWord = false) (plain : value.Plain) (text : value.chars = c :: rest) :
    Name.startsSymbol c = false ∧ c ≠ '(' := by
  cases value with
  | null => cases word
  | boolean => cases word
  | number => cases plain
  | integer whole =>
    have member : c ∈ Json.wholeText whole.toInt := by
      rw [show Json.wholeText whole.toInt = c :: rest from text]
      exact List.mem_cons_self
    rcases Literal.mem_wholeText member with digit | sign
    · have table := Json.forall_isDigit (fun c => !Name.startsSymbol c && c ≠ '(') (by decide) digit
      simpa using table
    · subst sign
      decide
  | _ =>
    obtain ⟨rfl, _⟩ := List.cons.inj text
    decide

/-- The text of a spec begins with a character that is no blank and closes nothing. -/
theorem Written.exists_chars_eq_cons {spec : Spec} (written : spec.Written) :
    ∃ c rest, spec.chars = c :: rest ∧ Text.isBlank c = false ∧ c ≠ ')' := by
  have name {word : String} (proper : Proper word) :
      ∃ c rest, word.toList = c :: rest ∧ Text.isBlank c = false ∧ c ≠ ')' := by
    obtain ⟨filled, whole⟩ := Name.isSymbol_iff.mp proper.1
    obtain ⟨c, rest, text, starts, _⟩ := Name.exists_of_leading_eq filled whole
    have front := Name.front_of_startsSymbol starts
    exact ⟨c, rest, text, front.1, front.2.2⟩
  have call {word : String} (argument : List Char) (proper : Proper word) :
      ∃ c rest, applied word argument = c :: rest ∧ Text.isBlank c = false ∧ c ≠ ')' := by
    obtain ⟨c, rest, text, front⟩ := name proper
    exact ⟨c, _, by rw [applied, text, List.cons_append], front⟩
  cases written with
  | scalar member => exact name (proper_keyword (List.mem_append_left _ member))
  | constant legible plain =>
    obtain ⟨c, rest, text, blank, _, closing⟩ := Literal.exists_chars_eq_cons plain.numberless
    refine ⟨c, rest, text, blank, ?_⟩
    rintro rfl
    exact closing (by decide)
  | named _ proper => exact name proper
  | @sequence connective items =>
    cases items with
    | nil => cases connective <;> exact name (proper_keyword (by decide))
    | cons first rest => exact ⟨'(', _, rfl, by decide⟩
  | list => exact @name "list" (proper_keyword (by decide))
  | listOf => exact @call "list" _ (proper_keyword (by decide))
  | reference => exact @name "reference" (proper_keyword (by decide))
  | referenceTo => exact @call "reference" _ (proper_keyword (by decide))
  | record => exact @name "record" (proper_keyword (by decide))

theorem Written.trimStart_append {spec : Spec} (written : spec.Written) (tail : List Char) :
    Text.trimStart (spec.chars ++ tail) = spec.chars ++ tail := by
  obtain ⟨c, rest, text, blank, _⟩ := written.exists_chars_eq_cons
  rw [text, List.cons_append, Text.trimStart_of_visible blank]

/-! ## Steps of a reader -/

@[simp] theorem bind_ok {α β : Type} (found : α) (next : α → Reading β) :
    ((.ok found : Reading α) >>= next) = next found := rfl

@[simp] theorem after_ok {α : Type} (completed : List Spec) (found : α) :
    Reading.after completed (.ok found) = .ok found := rfl

section

variable {inner item : Reader Spec} {cursor : Cursor} {tail : List Char} {spec : Spec}

/-- The reader gives the spec, and a text follows behind blanks. -/
def Gives (reader : Reader Spec) (cursor : Cursor) (spec : Spec) (text : List Char) : Prop :=
  ∃ next, reader cursor = .ok (spec, next) ∧ Text.trimStart next.rest = text

theorem closed_eq (gives : Gives inner cursor spec (')' :: tail)) :
    ∃ last, closed inner cursor = .ok (spec, last) ∧ last.rest = tail := by
  obtain ⟨next, read, here⟩ := gives
  obtain ⟨last, eaten, rest⟩ := Cursor.eat_eq_some here
  exact ⟨last, by simp only [closed, read, bind_ok, eaten], rest⟩

/-- There is no argument in front of a delimiter. -/
theorem argument_eq_none (inner : Reader Spec) (delimited : Text.Delimited cursor.rest) :
    argument inner cursor = .ok (none, cursor) := by
  have absent : (Text.trimStart cursor.rest).head? ≠ some '(' := fun opening => by
    have mark := delimited.head_trimStart '(' opening
    exact absurd mark (by decide)
  simp only [argument, Cursor.eat_eq_none absent]

/-- An argument stands between parentheses and does not begin with a closing one. -/
theorem argument_eq_some {text : List Char} (written : ∃ c rest, text = c :: rest ∧
      Text.isBlank c = false ∧ c ≠ ')')
    (here : cursor.rest = '(' :: text)
    (gives : ∀ opened : Cursor, opened.rest = text → Gives inner opened spec (')' :: tail)) :
    ∃ last, argument inner cursor = .ok (some spec, last) ∧ last.rest = tail := by
  obtain ⟨c, rest, rfl, blank, inside⟩ := written
  have opening : Text.trimStart cursor.rest = '(' :: c :: rest := by
    rw [here, Text.trimStart_of_visible (by decide)]
  obtain ⟨opened, eaten, behind⟩ := Cursor.eat_eq_some opening
  have filled : opened.eat ')' = none := by
    refine Cursor.eat_eq_none ?_
    rw [behind, Text.trimStart_of_visible blank]
    simpa using inside
  obtain ⟨last, closing, rest⟩ := closed_eq (gives opened behind)
  exact ⟨last, by simp only [argument, eaten, filled, closing, bind_ok], rest⟩

/-- No operator stands at the front of a text. -/
def Final (text : List Char) : Prop := ∀ c ∈ text.head?, Connective.ofChar? c = none

theorem operands_eq_nil (final : Final (Text.trimStart cursor.rest)) (fuel : Nat) :
    operands item fuel cursor = .ok ([], cursor) := by
  cases fuel with
  | zero => rfl
  | succ fuel =>
    have none : cursor.skipBlank.peek.bind Connective.ofChar? = none := by
      rw [Cursor.peek, Cursor.rest_skipBlank]
      cases front : (Text.trimStart cursor.rest).head? with
      | none => rfl
      | some c => exact final c front
    simp only [operands, none]

theorem chain_eq_single (gives : Gives item cursor spec tail) (final : Final tail) :
    Gives (chain item) cursor spec tail := by
  obtain ⟨next, read, rfl⟩ := gives
  exact ⟨next, by simp only [chain, read, bind_ok, operands_eq_nil final, after_ok], rfl⟩

/-- The reader gives back a written spec that stands in front of a delimiter. -/
def ReadsBack (reader : Reader Spec) (spec : Spec) : Prop :=
  ∀ cursor tail, Text.Delimited tail → Text.trimStart cursor.rest = spec.chars ++ tail →
    Gives reader cursor spec (Text.trimStart tail)

/-- The items behind the first one are read with their operators, up to the parenthesis. -/
theorem operands_behind (connective : Connective) {items : List Spec}
    (written : ∀ item ∈ items, item.Written) (reads : ∀ spec ∈ items, ReadsBack item spec)
    {fuel : Nat} (enough : items.length ≤ fuel)
    (here : Text.trimStart cursor.rest =
      Text.trimStart (connective.behind (items.map chars) ++ ')' :: tail)) :
    ∃ next, operands item fuel cursor = .ok (items.map fun spec => (connective, spec), next) ∧
      Text.trimStart next.rest = ')' :: tail := by
  induction items generalizing cursor fuel with
  | nil =>
    rw [List.map_nil, Connective.behind, List.flatMap_nil, List.nil_append,
      Text.trimStart_of_visible (by decide)] at here
    refine ⟨cursor, operands_eq_nil ?_ fuel, here⟩
    rw [here]
    simp [Final, Connective.ofChar?]
  | cons first rest ih =>
    obtain ⟨firstWritten, restWritten⟩ := List.forall_mem_cons.mp written
    obtain ⟨firstReads, restReads⟩ := List.forall_mem_cons.mp reads
    cases fuel with
    | zero => cases enough
    | succ fuel =>
      rw [List.map_cons, Connective.trimStart_behind_cons] at here
      have operator : cursor.skipBlank.peek.bind Connective.ofChar? = some connective := by
        rw [Cursor.peek, Cursor.rest_skipBlank, here]
        exact connective.ofChar?_mark
      have start : Text.trimStart cursor.skipBlank.step.rest =
          first.chars ++ (connective.behind (rest.map chars) ++ ')' :: tail) := by
        rw [Cursor.step, Cursor.rest_forward, Cursor.rest_skipBlank, here]
        exact (Text.trimStart_space _).trans (firstWritten.trimStart_append _)
      obtain ⟨next, read, behind⟩ :=
        firstReads _ _ (connective.delimited_behind (rest.map chars) tail) start
      obtain ⟨last, others, closing⟩ :=
        ih restWritten restReads (Nat.le_of_succ_le_succ enough) behind
      refine ⟨last, ?_, closing⟩
      simp only [operands, operator, read, others, bind_ok, after_ok, List.map_cons]

/-- A sequence of several items, read up to the parenthesis behind it. -/
theorem chain_eq_sequence (connective : Connective) {first second : Spec} {rest : List Spec}
    (written : ∀ item ∈ first :: second :: rest, item.Written)
    (reads : ∀ spec ∈ first :: second :: rest, ReadsBack item spec)
    (here : Text.trimStart cursor.rest =
      first.chars ++ (connective.behind ((second :: rest).map chars) ++ ')' :: tail)) :
    Gives (chain item) cursor (.sequence connective (first :: second :: rest)) (')' :: tail) := by
  obtain ⟨firstReads, othersReads⟩ := List.forall_mem_cons.mp reads
  obtain ⟨next, read, behind⟩ :=
    firstReads _ _ (connective.delimited_behind ((second :: rest).map chars) tail) here
  have room : (second :: rest).length ≤ next.rest.length := by
    have shorter := Text.length_trimStart_le next.rest
    rw [behind, List.map_cons, Connective.trimStart_behind_cons] at shorter
    have items := connective.length_le_behind (rest.map chars)
    simp only [List.length_cons, List.length_append, List.length_map] at shorter items ⊢
    omega
  obtain ⟨last, others, closing⟩ := operands_behind connective
    (List.forall_mem_cons.mp written).2 othersReads room behind
  refine ⟨last, ?_, closing⟩
  simp only [chain, read, others, bind_ok, after_ok, List.map_cons, List.map_map]
  simp [Function.comp_def]

/-! ## Atoms -/

/-- A symbol is read as the keyword or the name that it stands for. -/
theorem atom_symbol (words : Words) (inner : Reader Spec) {word : String}
    (symbol : Name.isSymbol word = true)
    (outside : ∀ c ∈ tail.head?, Name.continuesSymbol c = false)
    (here : Text.trimStart cursor.rest = word.toList ++ tail) :
    ∃ next : Cursor, next.rest = tail ∧
      (∀ keyword, Name.keyword? (words.aliases.resolve word) = some keyword →
        atom words inner cursor = ofKeyword inner next keyword) ∧
      (Name.keyword? (words.aliases.resolve word) = none →
        atom words inner cursor = .ok (.named (words.aliases.resolve word), next)) := by
  obtain ⟨filled, whole⟩ := Name.isSymbol_iff.mp symbol
  have start : cursor.skipBlank.rest = word.toList ++ tail := by rw [Cursor.rest_skipBlank, here]
  have taken : Name.symbol cursor.skipBlank.rest = word.toList := by
    rw [start]
    exact Name.leading_append filled whole outside
  have bare : cursor.skipBlank.peek ≠ some '(' := by
    obtain ⟨c, rest, text, starts, _⟩ := Name.exists_of_leading_eq filled whole
    rw [Cursor.peek, start, text]
    simpa using (Name.front_of_startsSymbol starts).2.1
  have named : word.toList.isEmpty = false := by simpa using filled
  refine ⟨cursor.skipBlank.forward word.toList.length, ?_, fun keyword means => ?_, fun other => ?_⟩
  · rw [Cursor.rest_forward, start, List.drop_left]
  · simp only [atom, if_neg bare, taken, named, Bool.false_eq_true, if_false,
      String.ofList_toList, means]
  · simp only [atom, if_neg bare, taken, named, Bool.false_eq_true, if_false,
      String.ofList_toList, other]

/-- A canonical word is read as its keyword or as a name. -/
theorem atom_word (inner : Reader Spec) {word : String} (proper : Proper word)
    (outside : ∀ c ∈ tail.head?, Name.continuesSymbol c = false)
    (here : Text.trimStart cursor.rest = word.toList ++ tail) :
    ∃ next : Cursor, next.rest = tail ∧
      (∀ keyword, Name.keyword? word = some keyword →
        atom .standard inner cursor = ofKeyword inner next keyword) ∧
      (Name.keyword? word = none → atom .standard inner cursor = .ok (.named word, next)) := by
  have read := atom_symbol .standard inner proper.1 outside here
  rwa [show Words.standard.aliases.resolve word = word from proper.2] at read

theorem atom_parenthesis (words : Words) (inner : Reader Spec) {text : List Char}
    (here : Text.trimStart cursor.rest = '(' :: text) :
    ∃ opened : Cursor, opened.rest = text ∧ atom words inner cursor = closed inner opened := by
  have start : cursor.skipBlank.rest = '(' :: text := by rw [Cursor.rest_skipBlank, here]
  have opening : cursor.skipBlank.peek = some '(' := by rw [Cursor.peek, start, List.head?_cons]
  refine ⟨cursor.skipBlank.step, ?_, by simp only [atom, if_pos opening]⟩
  rw [Cursor.step, Cursor.rest_forward, start]
  rfl

theorem gives_atom_parenthesis {text : List Char}
    (here : Text.trimStart cursor.rest = '(' :: text)
    (gives : ∀ opened : Cursor, opened.rest = text → Gives inner opened spec (')' :: tail)) :
    Gives (atom .standard inner) cursor spec (Text.trimStart tail) := by
  obtain ⟨opened, behind, read⟩ := atom_parenthesis .standard inner here
  obtain ⟨last, closing, rest⟩ := closed_eq (gives opened behind)
  exact ⟨last, by rw [read, closing], by rw [rest]⟩

theorem readsBack_constant {value : Literal} (legible : value.Legible) (plain : value.Plain)
    (word : value.isWord = false) : ReadsBack (atom .standard inner) (.constant value) := by
  intro cursor tail delimited here
  have start : cursor.skipBlank.rest = value.chars ++ tail := by
    rw [Cursor.rest_skipBlank, here, chars]
  obtain ⟨c, rest, text, _⟩ := Literal.exists_chars_eq_cons plain.numberless
  obtain ⟨unnamed, bare⟩ := front_of_not_isWord word plain text
  have closed : cursor.skipBlank.peek ≠ some '(' := by
    rw [Cursor.peek, start, text]
    simpa using bare
  have symbol : (Name.symbol cursor.skipBlank.rest).isEmpty = true := by
    rw [start, text, List.cons_append, Name.symbol, Name.leading, if_neg (by simp [unnamed])]
    rfl
  obtain ⟨_, next, read, rfl, left⟩ :=
    (Literal.ends_constant? (legible.restorable plain) word delimited start).exists_ok
  exact ⟨next, by simp only [atom, if_neg closed, symbol, if_true, Reader.ofScan, read, bind_ok],
    left.trimStart⟩

theorem readsBack_name {name : String} (other : Name.keyword? name = none) (proper : Proper name) :
    ReadsBack (atom .standard inner) (.named name) := by
  intro cursor tail delimited here
  obtain ⟨next, rest, _, read⟩ := atom_word inner proper (delimited.head_fails _ (by decide)) here
  exact ⟨next, read other, by rw [rest]⟩

/-- A keyword without an argument. -/
theorem readsBack_keyword {word : String} {keyword : Name.Keyword} (proper : Proper word)
    (text : spec.chars = word.toList) (means : Name.keyword? word = some keyword)
    (meant : ∀ cursor : Cursor, argument inner cursor = .ok (none, cursor) →
      ofKeyword inner cursor keyword = .ok (spec, cursor)) :
    ReadsBack (atom .standard inner) spec := by
  intro cursor tail delimited here
  rw [text] at here
  obtain ⟨next, rest, read, _⟩ := atom_word inner proper (delimited.head_fails _ (by decide)) here
  have none := argument_eq_none inner (rest ▸ delimited)
  exact ⟨next, by rw [read keyword means, meant next none], by rw [rest]⟩

/-- What a sequence reader gives for a single item in parentheses. -/
theorem gives_nested {depth : Nat} {spec : Spec} {cursor : Cursor} {tail : List Char}
    (reads : ReadsBack (atom .standard (nested .standard depth)) spec)
    (here : Text.trimStart cursor.rest = spec.chars ++ ')' :: tail) :
    Gives (nested .standard (depth + 1)) cursor spec (')' :: tail) := by
  have gives := reads cursor (')' :: tail) (.mark (by decide)) here
  rw [Text.trimStart_of_visible (by decide)] at gives
  exact chain_eq_single gives (by simp [Final, Connective.ofChar?])

/-- A keyword with an argument. -/
theorem readsBack_argument {word : String} {part : Spec} {keyword : Name.Keyword} {depth : Nat}
    (proper : Proper word) (written : part.Written)
    (text : spec.chars = applied word part.chars)
    (means : Name.keyword? word = some keyword)
    (meant : ∀ (inner : Reader Spec) (cursor next : Cursor),
      argument inner cursor = .ok (some part, next) →
        ofKeyword inner cursor keyword = .ok (spec, next))
    (room : spec.chars.length ≤ depth)
    (reads : ∀ {less : Nat}, part.chars.length ≤ less →
      ReadsBack (atom .standard (nested .standard less)) part) :
    ReadsBack (atom .standard (nested .standard depth)) spec := by
  intro cursor tail delimited here
  rw [text, applied, List.length_append, List.length_cons, List.length_append,
    List.length_singleton] at room
  rw [text, applied, List.append_assoc, List.cons_append, List.append_assoc] at here
  have outside : ∀ c ∈ ('(' :: (part.chars ++ ([')'] ++ tail))).head?,
      Name.continuesSymbol c = false := by
    rintro _ ⟨⟩
    decide
  obtain ⟨next, rest, read, _⟩ := atom_word (nested .standard depth) proper outside here
  obtain ⟨c, more, front, blank, inside⟩ := written.exists_chars_eq_cons
  cases depth with
  | zero => omega
  | succ depth =>
    obtain ⟨last, found, behind⟩ := argument_eq_some
      ⟨c, more ++ ([')'] ++ tail), by rw [front]; rfl, blank, inside⟩ rest
      fun opened same => gives_nested (@reads depth (by omega))
        (by rw [same, List.singleton_append, written.trimStart_append])
    exact ⟨last, by rw [read keyword means, meant _ next last found], by rw [behind]⟩

/-- A sequence of several items. -/
theorem readsBack_items {connective : Connective} {first second : Spec} {rest : List Spec}
    {depth : Nat} (written : ∀ item ∈ first :: second :: rest, item.Written)
    (room : (Spec.sequence connective (first :: second :: rest)).chars.length ≤ depth)
    (reads : ∀ item ∈ first :: second :: rest, ∀ {less : Nat}, item.chars.length ≤ less →
      ReadsBack (atom .standard (nested .standard less)) item) :
    ReadsBack (atom .standard (nested .standard depth))
      (.sequence connective (first :: second :: rest)) := by
  intro cursor tail _ here
  have short : ∀ item ∈ first :: second :: rest, item.chars.length + 1 ≤ depth := by
    intro item member
    rw [chars_sequence_cons, List.length_cons, List.length_append, List.length_append] at room
    rcases List.mem_cons.mp member with same | later
    · subst same
      omega
    · have listed : item.chars ∈ (second :: rest).map chars := List.mem_map_of_mem later
      have inside := connective.length_mem_le_behind listed
      omega
  cases depth with
  | zero => exact absurd (short first List.mem_cons_self) (by omega)
  | succ depth =>
    rw [chars_sequence_cons, List.cons_append, List.append_assoc, List.append_assoc] at here
    refine gives_atom_parenthesis here fun opened same => ?_
    refine chain_eq_sequence connective written (fun item member => reads item member ?_) ?_
    · exact Nat.le_of_succ_le_succ (short item member)
    · rw [same, (written first List.mem_cons_self).trimStart_append, List.singleton_append]

end

/-- With room for all levels of parentheses, every written spec is read back. -/
theorem Written.readsBack {spec : Spec} (written : spec.Written) {depth : Nat}
    (room : spec.chars.length ≤ depth) :
    ReadsBack (atom .standard (nested .standard depth)) spec := by
  -- What stands in parentheses is shorter than the whole, as there is a level less for it.
  induction written generalizing depth with
  | scalar member =>
    exact readsBack_keyword (proper_keyword (List.mem_append_left _ member)) rfl (if_pos member)
      fun _ _ => rfl
  | @constant value legible plain =>
    by_cases word : value.isWord
    · cases value with
      | null => exact readsBack_keyword (proper_keyword (by decide)) rfl rfl fun _ _ => rfl
      | boolean value =>
        cases value <;>
          exact readsBack_keyword (proper_keyword (by decide)) rfl rfl fun _ _ => rfl
      | _ => cases word
    · exact readsBack_constant legible plain (by simpa using word)
  | named other proper => exact readsBack_name other proper
  | list =>
    exact @readsBack_keyword _ _ "list" _ (proper_keyword (by decide)) rfl rfl
      fun _ none => by simp only [ofKeyword, none, bind_ok, Option.elim]
  | reference =>
    exact @readsBack_keyword _ _ "reference" _ (proper_keyword (by decide)) rfl rfl
      fun _ none => by simp only [ofKeyword, none, bind_ok, Option.elim]
  | record =>
    exact @readsBack_keyword _ _ "record" _ (proper_keyword (by decide)) rfl rfl
      fun _ none => by simp only [ofKeyword, none, bind_ok]
  | listOf written ih =>
    exact @readsBack_argument _ "list" _ _ _ (proper_keyword (by decide)) written rfl rfl
      (fun _ _ _ found => by simp only [ofKeyword, found, bind_ok, Option.elim]) room ih
  | referenceTo written ih =>
    exact @readsBack_argument _ "reference" _ _ _ (proper_keyword (by decide)) written rfl rfl
      (fun _ _ _ found => by simp only [ofKeyword, found, bind_ok, Option.elim]) room ih
  | @sequence connective items several each ih =>
    match items with
    | [] =>
      cases connective <;>
        exact readsBack_keyword (proper_keyword (by decide)) rfl rfl fun _ _ => rfl
    | [_] => exact absurd rfl several
    | first :: second :: rest => exact readsBack_items each room ih

end Spec

end DocShapes
