import DocShapes.Proofs.SpecText

/-! # Reading the text of declarations

The text of qualifiers behind a type is read back entry by entry, each key with the value that it
has in the text or with the true flag that a lone key stands for.
-/

namespace DocShapes

/-! ## Qualifiers in text -/

namespace Qualifiers

/-- The text of a value behind its key; a true flag has none. -/
def valueChars (value : Literal) : List Char :=
  if value.asBool? = some true then [] else ':' :: ' ' :: value.chars

/-- The text of one qualifier behind others. -/
def entryChars (entry : String × Literal) : List Char :=
  ',' :: ' ' :: (entry.1.toList ++ valueChars entry.2)

/-- The text of qualifiers behind a type. -/
def chars (entries : List (String × Literal)) : List Char := entries.flatMap entryChars

theorem toList_entryText (key : String) (value : Literal) :
    (entryText key value).toList = entryChars (key, value) := by
  have comma : ", ".toList = [',', ' '] := rfl
  have colon : ": ".toList = [':', ' '] := rfl
  unfold entryText entryChars valueChars
  split
  · simp [comma]
  · simp [comma, colon, Literal.text]

theorem toList_text (qualifiers : Qualifiers) :
    qualifiers.text.toList = chars qualifiers.values.entries := by
  unfold text chars
  generalize qualifiers.values.entries = entries
  induction entries with
  | nil => rfl
  | cons entry rest ih =>
    rw [List.map_cons, String.join_cons, String.toList_append, ih, List.flatMap_cons,
      ← toList_entryText]

/-- Behind a qualifier there is another one or nothing. -/
theorem chars_eq_nil_or (entries : List (String × Literal)) :
    chars entries = [] ∨ ∃ rest, chars entries = ',' :: rest := by
  cases entries with
  | nil => exact .inl rfl
  | cons entry rest => exact .inr ⟨_, rfl⟩

theorem delimited_chars (entries : List (String × Literal)) :
    Text.Delimited (chars entries) := by
  rcases chars_eq_nil_or entries with none | ⟨rest, some⟩
  · rw [none]
    exact .nil
  · rw [some]
    exact .mark (by decide)

theorem trimStart_chars (entries : List (String × Literal)) :
    Text.trimStart (chars entries) = chars entries := by
  rcases chars_eq_nil_or entries with none | ⟨rest, some⟩
  · rw [none]
    rfl
  · rw [some, Text.trimStart_of_visible (by decide)]

theorem length_le_chars (entries : List (String × Literal)) :
    entries.length ≤ (chars entries).length := by
  induction entries with
  | nil => exact Nat.le_refl _
  | cons entry rest ih =>
    rw [chars, List.flatMap_cons, ← chars, entryChars]
    simp only [List.length_append, List.length_cons]
    omega

/-- A key ends in front of a colon or a comma. -/
theorem head_valueChars (value : Literal) (entries : List (String × Literal)) :
    ∀ c ∈ (valueChars value ++ chars entries).head?, c = ',' ∨ c = ':' := by
  unfold valueChars
  split
  · rcases chars_eq_nil_or entries with none | ⟨rest, some⟩
    · simp [none]
    · simp [some]
  · simp

end Qualifiers

namespace Spec

open Qualifiers (entryChars valueChars)

variable {cursor : Cursor} {entries : List (String × Literal)}

/-! ## Values -/

/-- The value behind a key is read back, also where it stands for itself. -/
theorem qualifierValue_eq {value : Literal} (legible : value.Legible) (plain : value.Plain)
    (here : cursor.rest = valueChars value ++ Qualifiers.chars entries) :
    ∃ next, qualifierValue .standard cursor = .ok (value, next) ∧
      Text.trimStart next.rest = Qualifiers.chars entries := by
  by_cases flag : value.asBool? = some true
  · rw [valueChars, if_pos flag, List.nil_append] at here
    have own : value = .boolean true := by
      cases value with
      | boolean value => exact congrArg Literal.boolean (Option.some.inj flag)
      | _ => cases flag
    have lone : cursor.eat ':' = none := by
      refine Cursor.eat_eq_none fun colon => ?_
      rw [here] at colon
      have mark := (Qualifiers.delimited_chars entries).head_trimStart ':' colon
      exact absurd mark (by decide)
    refine ⟨cursor, ?_, by rw [here, Qualifiers.trimStart_chars]⟩
    simp only [qualifierValue, lone, own]
  · rw [valueChars, if_neg flag, List.cons_append, List.cons_append] at here
    have colon : Text.trimStart cursor.rest =
        ':' :: ' ' :: (value.chars ++ Qualifiers.chars entries) := by
      rw [here, Text.trimStart_of_visible (by decide)]
    obtain ⟨behind, eaten, rest⟩ := Cursor.eat_eq_some colon
    obtain ⟨c, more, text, blank, _⟩ := Literal.exists_chars_eq_cons plain.numberless
    have start : behind.skipBlank.rest = value.chars ++ Qualifiers.chars entries := by
      rw [Cursor.rest_skipBlank, rest, Text.trimStart_space, text, List.cons_append,
        Text.trimStart_of_visible blank]
    obtain ⟨_, next, read, rfl, left⟩ :=
      (Literal.ends_value (legible.restorable plain) (Qualifiers.delimited_chars entries)
        start).exists_ok
    refine ⟨next, by simp only [qualifierValue, eaten, Reader.ofScan, read], ?_⟩
    rw [left.trimStart, Qualifiers.trimStart_chars]

/-! ## Entries -/

theorem ended_of_nil (none : cursor.rest = []) : ended .standard cursor = true := by
  simp [ended, Cursor.atEnd, none]

theorem not_ended_of_comma {rest : List Char} (comma : cursor.rest = ',' :: rest) :
    ended .standard cursor = false := by
  simp [ended, Cursor.atEnd, comma, Literal.Words.standard, List.isPrefixOf]

/-- The key that a text begins with, in front of a value or of what follows the entry. -/
theorem qualifierKey_append {key : String} (named : Name.isKey key = true) {tail : List Char}
    (outside : ∀ c ∈ tail.head?, c = ',' ∨ c = ':') :
    Name.qualifierKey (key.toList ++ tail) = key.toList ∧ key.toList.isEmpty = false ∧
      Text.trimStart (key.toList ++ tail) = key.toList ++ tail := by
  obtain ⟨filled, whole⟩ : key.toList ≠ [] ∧ Name.qualifierKey key.toList = key.toList := by
    simpa [Name.isKey] using named
  obtain ⟨c, rest, text, starts, _⟩ := Name.exists_of_leading_eq filled whole
  refine ⟨Name.leading_append filled whole fun d front => ?_, by simpa using filled, ?_⟩
  · rcases outside d front with same | same
    · subst same
      decide
    · subst same
      decide
  · rw [text, List.cons_append, Text.trimStart_of_visible (Name.front_of_startsSymbol starts).1]

/-- One more qualifier with a new key. -/
theorem set_of_not_mem {before : Qualifiers} {key : String} (value : Literal)
    (fresh : key ∉ before.values.entries.map Prod.fst) :
    before.contains key = false ∧
      before.set key value = ⟨⟨before.values.entries ++ [(key, value)]⟩⟩ := by
  refine ⟨?_, by rw [Qualifiers.set, OrderedMap.set, OrderedMap.put_of_not_mem value fresh]⟩
  refine Bool.eq_false_iff.mpr fun present => fresh ?_
  exact OrderedMap.mem_keys_iff.mpr (Option.isSome_iff_exists.mp present)

/-- The qualifiers of a text come behind those that are there already. -/
theorem qualifiers_chars {before : Qualifiers}
    (keys : ∀ entry ∈ entries, Name.isKey entry.1 = true)
    (values : ∀ entry ∈ entries, entry.2.Legible ∧ entry.2.Plain)
    (distinct : ((before.values.entries ++ entries).map Prod.fst).Nodup)
    {fuel : Nat} (enough : entries.length < fuel)
    (here : Text.trimStart cursor.rest = Qualifiers.chars entries) :
    ∃ last, qualifiers .standard fuel before cursor =
      .ok (⟨⟨before.values.entries ++ entries⟩⟩, last) := by
  induction entries generalizing cursor fuel before with
  | nil =>
    obtain ⟨fuel, rfl⟩ := Nat.exists_eq_add_one.mpr enough
    have stop := ended_of_nil ((Cursor.rest_skipBlank cursor).trans here)
    exact ⟨cursor.skipBlank, by simp only [qualifiers, stop, if_true, List.append_nil]⟩
  | cons entry rest ih =>
    obtain ⟨key, value⟩ := entry
    obtain ⟨named, keys⟩ := List.forall_mem_cons.mp keys
    obtain ⟨⟨legible, plain⟩, values⟩ := List.forall_mem_cons.mp values
    cases fuel with
    | zero => cases enough
    | succ fuel =>
      rw [Qualifiers.chars, List.flatMap_cons, entryChars, List.cons_append, List.cons_append,
        List.append_assoc, ← Qualifiers.chars] at here
      have comma := (Cursor.rest_skipBlank cursor).trans here
      obtain ⟨behind, eaten, start⟩ := Cursor.eat_eq_some (by
        rw [comma, Text.trimStart_of_visible (by decide)])
      obtain ⟨taken, filled, visible⟩ :=
        qualifierKey_append named (Qualifiers.head_valueChars value rest)
      have keyStart : behind.skipBlank.rest =
          key.toList ++ (valueChars value ++ Qualifiers.chars rest) := by
        rw [Cursor.rest_skipBlank, start, Text.trimStart_space, visible]
      have keyEnd : (behind.skipBlank.forward key.toList.length).rest =
          valueChars value ++ Qualifiers.chars rest := by
        rw [Cursor.rest_forward, keyStart, List.drop_left]
      obtain ⟨next, read, final⟩ := qualifierValue_eq legible plain keyEnd
      rw [List.map_append, List.map_cons] at distinct
      have fresh : key ∉ before.values.entries.map Prod.fst := fun member =>
        (List.nodup_append.mp distinct).2.2 key member key List.mem_cons_self rfl
      obtain ⟨absent, grown⟩ := set_of_not_mem value fresh
      obtain ⟨last, others⟩ := @ih next (before.set key value) keys values
        (by rw [grown]; simpa using distinct) fuel (Nat.lt_of_succ_lt_succ enough) final
      refine ⟨last, ?_⟩
      rw [grown] at others
      simp only [qualifiers, not_ended_of_comma comma, Bool.false_eq_true, if_false, eaten,
        keyStart, taken, filled, read, bind_ok, String.ofList_toList, absent, grown, others]
      simp

/-! ## Declarations -/

/-- The text of a spec and its qualifiers is read back as a whole. -/
theorem readDeclaration_eq {spec : Spec} {found : Qualifiers} (written : spec.Written)
    (legible : found.Legible) (plain : ∀ entry ∈ found.values.entries, entry.2.Plain)
    {text : String} (whole : text.toList = spec.chars ++ Qualifiers.chars found.values.entries) :
    readDeclaration .standard text = .ok (spec, found) := by
  have start : Text.trimStart (Cursor.ofString text).rest =
      spec.chars ++ Qualifiers.chars found.values.entries := by
    rw [show (Cursor.ofString text).rest = text.toList from rfl, whole, written.trimStart_append]
  have room : spec.chars.length ≤ (Cursor.ofString text).rest.length := by
    rw [show (Cursor.ofString text).rest = text.toList from rfl, whole, List.length_append]
    exact Nat.le_add_right _ _
  have final : Final (Text.trimStart (Qualifiers.chars found.values.entries)) := by
    rw [Qualifiers.trimStart_chars]
    rcases Qualifiers.chars_eq_nil_or found.values.entries with none | ⟨rest, some⟩
    · simp [Final, none]
    · simp [Final, some, Connective.ofChar?]
  obtain ⟨next, read, behind⟩ := chain_eq_single (written.readsBack room _ _
    (Qualifiers.delimited_chars found.values.entries) start) final
  rw [Qualifiers.trimStart_chars] at behind
  have enough : found.values.entries.length < next.rest.length + 1 := by
    have shorter := Text.length_trimStart_le next.rest
    have entries := Qualifiers.length_le_chars found.values.entries
    rw [behind] at shorter
    omega
  have values : ∀ entry ∈ found.values.entries, entry.2.Legible ∧ entry.2.Plain :=
    fun entry member => ⟨legible.values entry member, plain entry member⟩
  obtain ⟨last, others⟩ :=
    @qualifiers_chars _ _ .empty legible.keys values legible.distinct _ enough behind
  have front : readFront .standard text = .ok (spec, next) := read
  simp only [readDeclaration, front, bind_ok, others, after_ok]
  rfl

end Spec

end DocShapes
