import DocShapes.Proofs.Grammar
import DocShapes.Proofs.Rendering
import DocShapes.Proofs.Shadowing

/-! # Comments behind declarations

A comment behind a declaration changes neither its type nor its qualifiers, whatever stands in it.
Every reader that succeeds without the comment stops in front of it.
-/

namespace DocShapes

open Json (skipSpace)

variable {α : Type} {note : List Char} {cursor other next : Cursor} {c : Char}

/-! ## Places in front of a comment -/

/-- At the other cursor, the rest of the line at the first one has a comment behind it. The blank in
front of the comment may have been passed already. -/
structure Commented (note : List Char) (cursor other : Cursor) : Prop where
  line : '\n' ∉ cursor.rest
  rest : other.rest = cursor.rest ++ ' ' :: '#' :: note ∨
    cursor.rest = [] ∧ other.rest = '#' :: note

theorem Commented.of_suffix {middle after : Cursor} (commented : Commented note cursor other)
    (inside : middle.rest <:+ cursor.rest)
    (rest : after.rest = middle.rest ++ ' ' :: '#' :: note ∨
      middle.rest = [] ∧ after.rest = '#' :: note) : Commented note middle after :=
  ⟨fun member => commented.line (inside.subset member), rest⟩

theorem Commented.trimStart (commented : Commented note cursor other) :
    Text.trimStart cursor.rest = [] ∧ Text.trimStart other.rest = '#' :: note ∨
      Text.trimStart cursor.rest ≠ [] ∧
        Text.trimStart other.rest = Text.trimStart cursor.rest ++ ' ' :: '#' :: note := by
  have mark : Text.trimStart ('#' :: note) = '#' :: note := Text.trimStart_of_visible (by decide)
  rcases commented.rest with whole | ⟨none, left⟩
  · by_cases blank : Text.trimStart cursor.rest = []
    · refine .inl ⟨blank, ?_⟩
      have skipped : Text.trimStart (cursor.rest ++ ' ' :: '#' :: note) =
          Text.trimStart (' ' :: '#' :: note) := by
        rw [Text.trimStart, List.dropWhile_append, ← Text.trimStart, blank]
        rfl
      rw [whole, skipped, Text.trimStart_space, mark]
    · exact .inr ⟨blank, by rw [whole, Text.trimStart_append_of_visible blank]⟩
  · exact .inl ⟨by rw [none]; rfl, by rw [left, mark]⟩

theorem Commented.skipBlank (commented : Commented note cursor other) :
    Commented note cursor.skipBlank other.skipBlank := by
  apply commented.of_suffix
  · rw [Cursor.rest_skipBlank]
    exact List.dropWhile_suffix _
  · rw [Cursor.rest_skipBlank, Cursor.rest_skipBlank]
    rcases commented.trimStart with blank | ⟨_, whole⟩
    · exact .inr blank
    · exact .inl whole

theorem suffix_of_eat (eaten : cursor.eat c = some next) : next.rest <:+ cursor.rest := by
  have inside : c :: next.rest <:+ cursor.rest := by
    rw [← Cursor.trimStart_of_eat eaten]
    exact List.dropWhile_suffix _
  exact (List.suffix_cons _ _).trans inside

theorem Commented.eat (commented : Commented note cursor other) (eaten : cursor.eat c = some next) :
    ∃ after, other.eat c = some after ∧ Commented note next after := by
  have front := Cursor.trimStart_of_eat eaten
  rcases commented.trimStart with ⟨blank, _⟩ | ⟨_, whole⟩
  · rw [front] at blank
    cases blank
  · rw [front] at whole
    obtain ⟨after, again, rest⟩ := Cursor.eat_eq_some whole
    exact ⟨after, again, commented.of_suffix (suffix_of_eat eaten) (.inl rest)⟩

theorem head_of_eat_none (absent : cursor.eat c = none) :
    (Text.trimStart cursor.rest).head? ≠ some c := by
  intro front
  obtain ⟨rest, same⟩ := List.head?_eq_some_iff.mp front
  obtain ⟨_, eaten, _⟩ := Cursor.eat_eq_some same
  rw [absent] at eaten
  cases eaten

theorem Commented.eat_none (commented : Commented note cursor other) (absent : cursor.eat c = none)
    (mark : c ≠ '#') : other.eat c = none := by
  apply Cursor.eat_eq_none
  rcases commented.trimStart with ⟨_, whole⟩ | ⟨visible, whole⟩
  · rw [whole, List.head?_cons]
    exact fun same => mark (Option.some.inj same).symm
  · obtain ⟨d, rest, front⟩ := List.exists_cons_of_ne_nil visible
    have different := head_of_eat_none absent
    rw [front] at whole different
    rwa [whole]

/-- A run that has been passed at both cursors. -/
theorem Commented.forward (commented : Commented note cursor other) {count : Nat}
    (filled : cursor.rest ≠ []) (inside : count ≤ cursor.rest.length) :
    Commented note (cursor.forward count) (other.forward count) := by
  apply commented.of_suffix (suffix_forward cursor count)
  · rcases commented.rest with whole | ⟨none, _⟩
    · refine .inl ?_
      rw [Cursor.rest_forward, Cursor.rest_forward, whole, List.drop_append_of_le_length inside]
    · exact absurd none filled

namespace Name

/-- A comment behind a blank goes on with no name. -/
theorem leading_comment {more : Char → Bool} (outside : more ' ' = false) (text note : List Char) :
    leading more (text ++ ' ' :: '#' :: note) = leading more text := by
  cases text with
  | nil => rfl
  | cons c rest =>
    have run : (rest ++ ' ' :: '#' :: note).takeWhile more = rest.takeWhile more :=
      Json.takeWhile_append (fun d front => by cases front; exact outside) rest
    rw [List.cons_append, leading, leading, run]

end Name

theorem Commented.length_le (commented : Commented note cursor other) :
    cursor.rest.length ≤ other.rest.length := by
  rcases commented.rest with whole | ⟨none, _⟩
  · rw [whole, List.length_append]
    exact Nat.le_add_right _ _
  · simp [none]

theorem suffix_skipBlank (cursor : Cursor) : cursor.skipBlank.rest <:+ cursor.rest := by
  rw [Cursor.rest_skipBlank]
  exact List.dropWhile_suffix _

/-- The name that a text begins with is the same in front of a comment. -/
theorem Commented.leading {more : Char → Bool} (placed : Commented note cursor other)
    (outside : more ' ' = false) :
    Name.leading more other.rest = Name.leading more cursor.rest := by
  rcases placed.rest with whole | ⟨none, whole⟩
  · rw [whole, Name.leading_comment outside]
  · rw [none, whole]
    rfl

theorem Commented.forward_leading {more : Char → Bool} (placed : Commented note cursor other)
    (filled : (Name.leading more cursor.rest).isEmpty = false) :
    Commented note (cursor.forward (Name.leading more cursor.rest).length)
      (other.forward (Name.leading more cursor.rest).length) := by
  apply placed.forward
  · intro none
    rw [none] at filled
    cases filled
  · exact (Name.leading_prefix _ _).length_le

theorem Commented.peek_iff (placed : Commented note cursor other) (visible : c ≠ ' ')
    (mark : c ≠ '#') : other.peek = some c ↔ cursor.peek = some c := by
  rw [Cursor.peek, Cursor.peek]
  rcases placed.rest with whole | ⟨none, whole⟩
  · rw [whole]
    cases cursor.rest with
    | nil => simp [visible.symm]
    | cons d rest => simp
  · rw [none, whole]
    simp [mark.symm]

theorem Commented.step (placed : Commented note cursor other) (peek : cursor.peek = some c) :
    cursor.step.rest <:+ cursor.rest ∧ Commented note cursor.step other.step := by
  obtain ⟨rest, front⟩ := List.head?_eq_some_iff.mp peek
  exact ⟨suffix_forward cursor 1, placed.forward (by simp [front]) (by simp [front])⟩

namespace Literal

variable {words : Words}

/-! ## Literals -/

/-- On one line, a strict value is taken with the blanks behind it. -/
theorem strict?_of_line {text : List Char} (line : '\n' ∉ text) :
    strict? text =
      (Json.value Json.deepest text).map fun found => (found.1, skipSpace found.2) := by
  have inside (count : Nat) : (text.take count).contains '\n' = false := by
    simpa using fun member => line (List.mem_of_mem_take member)
  rw [strict?]
  cases Json.value Json.deepest text with
  | none => rfl
  | some found => simp only [inside, Bool.and_false, Bool.false_eq_true, if_false, Option.map_some]

theorem skipSpace_comment (rest note : List Char) :
    skipSpace (rest ++ ' ' :: '#' :: note) = skipSpace rest ++ ' ' :: '#' :: note ∨
      skipSpace rest = [] ∧ skipSpace (rest ++ ' ' :: '#' :: note) = '#' :: note := by
  cases front : skipSpace rest with
  | nil =>
    refine .inr ⟨rfl, ?_⟩
    rw [skipSpace, List.dropWhile_append, ← skipSpace, front]
    rfl
  | cons c more => exact .inl (Json.skipSpace_append front)

theorem append_comment (text note : List Char) :
    text ++ ' ' :: '#' :: note = (text ++ [' ']) ++ '#' :: note := by simp

/-- A strict value is the same in front of a comment, which the blanks behind the value lead to. -/
theorem strict?_comment {text rest : List Char} {found : Json} (line : '\n' ∉ text)
    (read : Json.value Json.deepest text = some (found, rest)) :
    strict? (text ++ ' ' :: '#' :: note) =
      some (found, skipSpace (rest ++ ' ' :: '#' :: note)) := by
  have ends : Json.EndsNumber (' ' :: '#' :: note) := fun c front => by
    cases front
    rfl
  have kept := Json.keeps_value Json.deepest ends text found rest read
  have long : note.length + 1 ≤ (skipSpace (rest ++ ' ' :: '#' :: note)).length := by
    rcases skipSpace_comment rest note with same | ⟨_, same⟩
    · rw [same]
      simp only [List.length_append, List.length_cons]
      omega
    · rw [same, List.length_cons]
  have inside : ((text ++ ' ' :: '#' :: note).take ((text ++ ' ' :: '#' :: note).length -
      (skipSpace (rest ++ ' ' :: '#' :: note)).length)).contains '\n' = false := by
    have short : (text ++ ' ' :: '#' :: note).length -
        (skipSpace (rest ++ ' ' :: '#' :: note)).length ≤ (text ++ [' ']).length := by
      simp only [List.length_append, List.length_cons, List.length_nil]
      omega
    rw [append_comment] at short ⊢
    rw [List.take_append_of_le_length short]
    simpa using fun member => line (by simpa using List.mem_of_mem_take member)
  simp only [strict?, kept, inside, Bool.and_false, Bool.false_eq_true, if_false]

theorem commented_takeStrict (commented : Commented note cursor other) {found : Literal}
    (read : takeStrict cursor = .ok (some found) next) :
    ∃ after, takeStrict other = .ok (some found) after ∧ Commented note next after := by
  rw [takeStrict_eq, strict?_of_line commented.line] at read
  cases value : Json.value Json.deepest cursor.rest with
  | none =>
    rw [value] at read
    cases read
  | some taken =>
    obtain ⟨json, rest⟩ := taken
    rw [value] at read
    cases read
    have whole : other.rest = cursor.rest ++ ' ' :: '#' :: note := by
      refine commented.rest.resolve_right fun ended => ?_
      rw [ended.1] at value
      cases value
    rw [takeStrict_eq, whole, strict?_comment commented.line value]
    refine ⟨_, rfl, commented.of_suffix (suffix_forward _ _) ?_⟩
    rw [Cursor.rest_forward, Cursor.rest_forward, whole]
    dsimp only
    rcases skipSpace_comment rest note with same | ⟨blank, same⟩
    · refine .inl ?_
      rw [same, List.length_append, List.length_append, Nat.add_sub_add_right,
        List.drop_append_of_le_length (Nat.sub_le _ _)]
    · refine .inr ⟨by rw [blank]; simp, ?_⟩
      have count : (cursor.rest ++ ' ' :: '#' :: note).length - ('#' :: note).length =
          (cursor.rest ++ [' ']).length := by
        simp only [List.length_append, List.length_cons, List.length_nil]
        omega
      rw [same, count, append_comment, List.drop_left]

theorem commented_takeHex (commented : Commented note cursor other) {found : Literal}
    (marked : 2 ≤ cursor.rest.length) (read : takeHex cursor = .ok found next) :
    ∃ after, takeHex other = .ok found after ∧ Commented note next after := by
  have filled : cursor.rest ≠ [] := by
    rintro empty
    simp [empty] at marked
  have whole := commented.rest.resolve_right fun ended => filled ended.1
  have digits : (other.rest.drop 2).takeWhile Text.isHexDigit =
      (cursor.rest.drop 2).takeWhile Text.isHexDigit := by
    rw [whole, List.drop_append_of_le_length marked]
    apply Json.takeWhile_append
    intro c front
    cases front
    decide
  rw [takeHex_eq] at read ⊢
  rw [digits]
  cases hex : ofHex? ((cursor.rest.drop 2).takeWhile Text.isHexDigit) with
  | none =>
    rw [hex] at read
    cases read
  | some value =>
    rw [hex] at read
    cases read
    refine ⟨_, rfl, commented.forward filled ?_⟩
    have inside := (List.takeWhile_prefix Text.isHexDigit (l := cursor.rest.drop 2)).length_le
    rw [List.length_drop] at inside
    omega

/-- Where a strict reader finds nothing and a lenient one does, the comment gives a strict reader
nothing either. -/
theorem strict?_comment_eq_none (marker : words.marker = ['#']) {rest : List Char} {found : Literal}
    {depth : Nat} (line : '\n' ∉ cursor.rest) (front : cursor.rest = c :: rest)
    (opening : c ∈ ['"', '\'', '[', '\x7b']) (refused : strict? cursor.rest = none)
    (read : lenient words depth cursor = .ok found next) :
    strict? (cursor.rest ++ ' ' :: '#' :: note) = none := by
  have none : Json.value Json.deepest (cursor.rest ++ ' ' :: '#' :: note) = none := by
    cases value : Json.value Json.deepest (cursor.rest ++ ' ' :: '#' :: note) with
    | none => rfl
    | some taken =>
      obtain ⟨json, behind⟩ := taken
      have outside : Outside (' ' :: '#' :: note) := fun c front => by
        cases front
        decide
      have apart : Outside words.marker := fun c front => by
        rw [marker] at front
        cases front
        decide
      have settled : Settled cursor.rest behind := by
        refine .inl fun d first => ?_
        have visible : ∀ c ∈ ['"', '\'', '[', '\x7b'], Json.isSpace c = false :=
          List.all_iff_forall_prop.mp (by decide)
        rw [front, Json.skipSpace_of_visible (visible c opening)] at first
        cases first
        have double : c ≠ '\'' := by
          rintro rfl
          rw [front] at value
          cases value
        simpa [double] using opening
      have alone := ((follows outside apart Json.deepest depth cursor json behind value settled).of_ok
        read).2.1
      rw [strict?_of_line line, alone] at refused
      cases refused
  rw [strict?, none]

theorem commented_takeLenient (marker : words.marker = ['#'])
    (commented : Commented note cursor other) {found : Literal}
    (read : takeLenient words cursor = .ok found next) :
    ∃ after, takeLenient words other = .ok found after ∧ Commented note next after := by
  rw [takeLenient, get_bind] at read ⊢
  have visible := visible_of_lenient read
  have filled : cursor.rest ≠ [] := by
    rintro empty
    rw [empty] at visible
    exact visible rfl
  have whole := commented.rest.resolve_right fun ended => filled ended.1
  have bounds : Bounds words.marker (' ' :: '#' :: note) := by
    rw [marker]
    exact bounds_comment note
  have room : cursor.rest.length + 1 ≤ other.rest.length + 1 := by
    rw [whole, List.length_append]
    omega
  obtain ⟨after, again, rest⟩ := (prolongs_lenient bounds room).append read
    (by rw [whole, Text.trimStart_append_of_visible visible])
  exact ⟨after, again, commented.of_suffix (suffix_lenient read) (.inl rest)⟩

/-! ## Constants and values -/

/-- A constant that begins with a digit or a sign. -/
theorem commented_number {rest : List Char} {found : Option Literal}
    (commented : Commented note cursor other) (front : cursor.rest = c :: rest)
    (digit : c.isDigit = true ∨ c = '-')
    (decimal : c = '0' → ∀ d ∈ rest.head?, d ≠ 'x' ∧ d ≠ 'X')
    (whole : other.rest = c :: (rest ++ ' ' :: '#' :: note))
    (read : constant? words cursor = .ok found next) :
    ∃ after, constant? words other = .ok found after ∧ Commented note next after := by
  have further (zero : c = '0') :
      ∀ d ∈ (rest ++ ' ' :: '#' :: note).head?, d ≠ 'x' ∧ d ≠ 'X' := by
    cases rest with
    | nil => simp
    | cons d more => exact decimal zero
  rw [constant?_number front digit decimal] at read
  rw [constant?_number whole digit further]
  obtain ⟨value, middle, taken, ended⟩ := of_bind_eq_ok read
  cases value with
  | none => cases ended
  | some value =>
    cases ended
    obtain ⟨after, again, left⟩ := commented_takeStrict commented taken
    exact ⟨after, by rw [bind_of_ok again]; rfl, left⟩

/-- A constant that begins with a quote or a bracket. -/
theorem commented_opening (marker : words.marker = ['#']) {rest : List Char}
    {found : Option Literal} (commented : Commented note cursor other)
    (front : cursor.rest = c :: rest) (opening : c ∈ ['"', '\'', '[', '\x7b'])
    (whole : other.rest = c :: (rest ++ ' ' :: '#' :: note))
    (read : constant? words cursor = .ok found next) :
    ∃ after, constant? words other = .ok found after ∧ Commented note next after := by
  rw [constant?_opening front opening] at read
  rw [constant?_opening whole opening]
  obtain ⟨value, middle, taken, ended⟩ := of_bind_eq_ok read
  cases value with
  | none =>
    obtain ⟨value, lenient, rfl⟩ := map_eq_ok_iff.mp ended
    rw [takeStrict_eq] at taken
    cases refused : strict? cursor.rest with
    | some =>
      rw [refused] at taken
      cases taken
    | none =>
      rw [refused] at taken
      cases taken
      obtain ⟨after, again, left⟩ := commented_takeLenient marker commented lenient
      have still : strict? (cursor.rest ++ ' ' :: '#' :: note) = none :=
        strict?_comment_eq_none marker commented.line front opening refused lenient
      have strictly : takeStrict other = .ok none other := by
        rw [takeStrict_eq, whole, ← List.cons_append, ← front, still]
      refine ⟨after, ?_, left⟩
      rw [bind_of_ok strictly]
      exact map_eq_ok_iff.mpr ⟨value, again, rfl⟩
  | some value =>
    cases ended
    obtain ⟨after, again, left⟩ := commented_takeStrict commented taken
    exact ⟨after, by rw [bind_of_ok again]; rfl, left⟩

theorem commented_constant? (marker : words.marker = ['#'])
    (commented : Commented note cursor other) {found : Option Literal}
    (read : constant? words cursor = .ok found next) :
    ∃ after, constant? words other = .ok found after ∧ Commented note next after := by
  have whole {c : Char} {rest : List Char} (front : cursor.rest = c :: rest) :
      other.rest = c :: (rest ++ ' ' :: '#' :: note) := by
    rw [commented.rest.resolve_right fun ended => by simp [front] at ended, front,
      List.cons_append]
  rcases front_cases cursor.rest with
    plain | ⟨c, rest, front, mark⟩ | ⟨c, rest, front, digit, decimal⟩ | ⟨c, rest, front, opening⟩
  · rw [constant?_other plain] at read
    cases read
    refine ⟨other, constant?_other ?_, commented⟩
    rcases commented.rest with whole | ⟨_, whole⟩
    · rw [whole]
      cases front : cursor.rest with
      | nil => simp
      | cons c rest => simpa [front] using plain
    · rw [whole]
      simp
  · rw [constant?_hex front mark] at read
    obtain ⟨value, taken, rfl⟩ := map_eq_ok_iff.mp read
    obtain ⟨after, again, left⟩ := commented_takeHex commented (by simp [front]) taken
    rw [constant?_hex (whole front) mark]
    exact ⟨after, map_eq_ok_iff.mpr ⟨value, again, rfl⟩, left⟩
  · exact commented_number commented front digit decimal (whole front) read
  · exact commented_opening marker commented front opening (whole front) read

theorem commented_value (marker : words.marker = ['#']) (commented : Commented note cursor other)
    {found : Literal} (read : value words cursor = .ok found next) :
    ∃ after, value words other = .ok found after ∧ Commented note next after := by
  obtain ⟨constant, middle, taken, ended⟩ := of_bind_eq_ok read
  obtain ⟨beyond, again, placed⟩ := commented_constant? marker commented taken
  rw [value, bind_of_ok again]
  cases constant with
  | none => exact commented_takeLenient marker placed ended
  | some literal =>
    cases ended
    exact ⟨beyond, rfl, placed⟩

/-! ### What is left -/

section

variable {left : Cursor → Prop}

theorem gives_takeStrict_of (lasting : Lasting left) : Gives left takeStrict fun _ => True := by
  apply gives_get.bind
  intro start _
  dsimp only
  split
  · exact gives_pure trivial
  · apply (gives_forward lasting _).bind
    intro _ _
    exact gives_pure trivial

theorem gives_takeHex_of (lasting : Lasting left) : Gives left takeHex fun _ => True := by
  apply gives_get.bind
  intro start _
  dsimp only
  split
  · apply (gives_forward lasting _).bind
    intro _ _
    exact gives_pure trivial
  · exact gives_throw _

theorem gives_strictly_or (lasting : Lasting left) {otherwise : Scan (Option Literal)}
    (gives : Gives left otherwise fun _ => True) :
    Gives left (do
      match ← takeStrict with
      | some found => return some found
      | none => otherwise) fun _ => True := by
  apply (gives_takeStrict_of lasting).bind
  intro found _
  split
  · exact gives_pure trivial
  · exact gives

theorem gives_constant?_of (words : Words) (lasting : Lasting left) :
    Gives left (constant? words) fun _ => True := by
  have lenient := (handed_of words lasting).takeLenient
  apply gives_get.bind
  intro start _
  split
  · exact (gives_takeHex_of lasting).map fun _ _ => trivial
  · exact (gives_takeHex_of lasting).map fun _ _ => trivial
  · apply gives_ite
    · exact gives_strictly_or lasting (gives_fail _)
    apply gives_ite
    · exact gives_strictly_or lasting (lenient.map fun _ _ => trivial)
    · exact gives_pure trivial
  · exact gives_pure trivial

theorem suffix_constant? {found : Option Literal} (read : constant? words cursor = .ok found next) :
    next.rest <:+ cursor.rest :=
  suffix_of_gives (fun _ lasting => gives_constant?_of words lasting) read

theorem suffix_value {found : Literal} (read : value words cursor = .ok found next) :
    next.rest <:+ cursor.rest := by
  obtain ⟨constant, middle, taken, ended⟩ := of_bind_eq_ok read
  have inside := suffix_constant? taken
  cases constant with
  | none => exact (suffix_lenient ended).trans inside
  | some =>
    cases ended
    exact inside

end

end Literal

namespace Spec

open Literal (Words)

variable {words : Words} {item inner longer : Reader Spec}

/-! ## Specs -/

/-- In front of a comment the longer reader gives what the reader gives without it. -/
def Transparent (note : List Char) (reader longer : Reader α) : Prop :=
  ∀ {cursor other found next}, Commented note cursor other → reader cursor = .ok (found, next) →
    next.rest <:+ cursor.rest ∧
      ∃ after, longer other = .ok (found, after) ∧ Commented note next after

theorem transparent_ofScan {scan : Scan α}
    (suffix : ∀ {cursor found next}, scan cursor = .ok found next → next.rest <:+ cursor.rest)
    (commented : ∀ {cursor other found next}, Commented note cursor other →
      scan cursor = .ok found next →
        ∃ after, scan other = .ok found after ∧ Commented note next after) :
    Transparent note (Reader.ofScan scan) (Reader.ofScan scan) := by
  intro cursor other found next placed read
  unfold Reader.ofScan at read ⊢
  split at read
  · rename_i taken
    cases read
    obtain ⟨after, again, left⟩ := commented placed taken
    exact ⟨suffix taken, after, by rw [again], left⟩
  · cases read

theorem Transparent.closed (transparent : Transparent note inner longer) :
    Transparent note (Spec.closed inner) (Spec.closed longer) := by
  intro cursor other found next placed read
  obtain ⟨⟨spec, middle⟩, inside, ended⟩ := bind_eq_ok read
  dsimp only at ended
  split at ended
  · rename_i last eaten
    cases ended
    obtain ⟨within, after, again, left⟩ := transparent placed inside
    obtain ⟨final, closing, left⟩ := left.eat eaten
    refine ⟨(suffix_of_eat eaten).trans within, final, ?_, left⟩
    simp only [Spec.closed, again, bind_ok, closing]
  · cases ended

theorem Transparent.argument (transparent : Transparent note inner longer) :
    Transparent note (Spec.argument inner) (Spec.argument longer) := by
  intro cursor other found next placed read
  unfold Spec.argument at read ⊢
  split at read
  · rename_i absent
    cases read
    exact ⟨List.suffix_refl _, other, by rw [placed.eat_none absent (by decide)], placed⟩
  · rename_i opened eaten
    obtain ⟨beyond, opening, left⟩ := placed.eat eaten
    rw [opening]
    dsimp only
    split at read
    · rename_i last closed
      cases read
      obtain ⟨final, closing, left⟩ := left.eat closed
      exact ⟨(suffix_of_eat closed).trans (suffix_of_eat eaten), final, by rw [closing], left⟩
    · rename_i unclosed
      obtain ⟨⟨spec, last⟩, inside, ended⟩ := bind_eq_ok read
      cases ended
      obtain ⟨within, after, again, further⟩ := transparent.closed left inside
      refine ⟨within.trans (suffix_of_eat eaten), after, ?_, further⟩
      rw [left.eat_none unclosed (by decide)]
      simp only [again, bind_ok]

/-- What is known of an argument is known of the spec of its keyword. -/
theorem Transparent.ofKeyword (transparent : Transparent note inner longer)
    {keyword : Name.Keyword} {spec : Spec} (placed : Commented note cursor other)
    (read : Spec.ofKeyword inner cursor keyword = .ok (spec, next)) :
    next.rest <:+ cursor.rest ∧
      ∃ after, Spec.ofKeyword longer other keyword = .ok (spec, after) ∧
        Commented note next after := by
  cases keyword with
  | list =>
    obtain ⟨⟨found, last⟩, argument, ended⟩ := bind_eq_ok read
    cases ended
    obtain ⟨within, after, again, left⟩ := transparent.argument placed argument
    exact ⟨within, after, by simp only [Spec.ofKeyword, again, bind_ok], left⟩
  | reference =>
    obtain ⟨⟨found, last⟩, argument, ended⟩ := bind_eq_ok read
    cases ended
    obtain ⟨within, after, again, left⟩ := transparent.argument placed argument
    exact ⟨within, after, by simp only [Spec.ofKeyword, again, bind_ok], left⟩
  | record =>
    obtain ⟨⟨found, last⟩, argument, ended⟩ := bind_eq_ok read
    obtain ⟨within, after, again, left⟩ := transparent.argument placed argument
    cases found with
    | none =>
      cases ended
      exact ⟨within, after, by simp only [Spec.ofKeyword, again, bind_ok], left⟩
    | some => cases ended
  | _ =>
    cases read
    exact ⟨List.suffix_refl _, other, rfl, placed⟩

theorem operator_of_commented (placed : Commented note cursor other) :
    other.peek.bind Connective.ofChar? = cursor.peek.bind Connective.ofChar? := by
  rw [Cursor.peek, Cursor.peek]
  rcases placed.rest with whole | ⟨none, whole⟩
  · rw [whole]
    cases cursor.rest <;> rfl
  · rw [none, whole]
    rfl

theorem transparent_constant? (marker : words.marker = ['#']) :
    Transparent note (Reader.ofScan (Literal.constant? words))
      (Reader.ofScan (Literal.constant? words)) :=
  transparent_ofScan Literal.suffix_constant? fun placed => Literal.commented_constant? marker placed

theorem Transparent.atom (marker : words.marker = ['#'])
    (transparent : Transparent note inner longer) :
    Transparent note (Spec.atom words inner) (Spec.atom words longer) := by
  intro cursor other found next placed read
  have start := placed.skipBlank
  have front := suffix_skipBlank cursor
  unfold Spec.atom at read ⊢
  dsimp only at read ⊢
  generalize cursor.skipBlank = place at read start front
  generalize other.skipBlank = beyond at start ⊢
  have same : Name.symbol beyond.rest = Name.symbol place.rest := start.leading (by decide)
  rw [same]
  split at read
  · rename_i opening
    rw [if_pos ((start.peek_iff (by decide) (by decide)).mpr opening)]
    obtain ⟨behind, step⟩ := start.step opening
    obtain ⟨within, ended⟩ := transparent.closed step read
    exact ⟨within.trans (behind.trans front), ended⟩
  · rename_i opening
    rw [if_neg (mt (start.peek_iff (by decide) (by decide)).mp opening)]
    split at read
    · rename_i empty
      rw [if_pos empty]
      obtain ⟨⟨value?, last⟩, scanned, ended⟩ := bind_eq_ok read
      obtain ⟨within, after, again, left⟩ := transparent_constant? marker start scanned
      cases value? with
      | none => cases ended
      | some value =>
        cases ended
        exact ⟨within.trans front, after, by simp only [again, bind_ok], left⟩
    · rename_i filled
      rw [if_neg filled]
      have named := start.forward_leading (Bool.eq_false_iff.mpr filled)
      have behind : (place.forward (Name.symbol place.rest).length).rest <:+ cursor.rest :=
        (suffix_forward _ _).trans front
      split at read
      · obtain ⟨within, ended⟩ := transparent.ofKeyword named read
        exact ⟨within.trans behind, ended⟩
      · cases read
        exact ⟨behind, _, rfl, named⟩

theorem operands_of_absent (placed : Commented note cursor other) (more : Nat)
    (absent : cursor.skipBlank.peek.bind Connective.ofChar? = none) :
    Spec.operands longer more other = .ok ([], other) := by
  cases more with
  | zero => rfl
  | succ => simp only [Spec.operands, operator_of_commented placed.skipBlank, absent]

/-- Every operand takes a character, so that the text bounds their number. -/
theorem Transparent.operands (transparent : Transparent note item longer) {fuel more : Nat}
    {others : List (Connective × Spec)} (placed : Commented note cursor other)
    (enough : cursor.rest.length ≤ fuel) (below : fuel ≤ more)
    (read : Spec.operands item fuel cursor = .ok (others, next)) :
    next.rest <:+ cursor.rest ∧
      ∃ after, Spec.operands longer more other = .ok (others, after) ∧ Commented note next after := by
  induction fuel generalizing more cursor other others with
  | zero =>
    have empty : cursor.rest = [] := List.length_eq_zero_iff.mp (Nat.le_zero.mp enough)
    cases read
    refine ⟨List.suffix_refl _, other, operands_of_absent placed more ?_, placed⟩
    rw [Cursor.peek, Cursor.rest_skipBlank, empty]
    rfl
  | succ fuel ih =>
    simp only [Spec.operands] at read
    split at read
    · rename_i absent
      cases read
      exact ⟨List.suffix_refl _, other, operands_of_absent placed more absent, placed⟩
    · rename_i connective operator
      obtain ⟨more, rfl⟩ := Nat.exists_eq_add_one_of_ne_zero (Nat.ne_zero_of_lt below)
      obtain ⟨⟨part, middle⟩, atom, further⟩ := bind_eq_ok read
      obtain ⟨⟨rest, last⟩, behind, ended⟩ := bind_eq_ok further
      cases ended
      obtain ⟨c, front, _⟩ := Option.bind_eq_some_iff.mp operator
      obtain ⟨step, stepped⟩ := placed.skipBlank.step front
      obtain ⟨within, beyond, again, left⟩ := transparent stepped atom
      have inside := within.trans (step.trans (suffix_skipBlank cursor))
      have shorter : middle.rest.length < cursor.rest.length := by
        have whole := Text.length_trimStart_le cursor.rest
        rw [Cursor.trimStart_of_peek front, List.length_cons] at whole
        have least := within.length_le
        omega
      obtain ⟨others, after, parts, final⟩ :=
        ih left (by omega) (Nat.le_of_succ_le_succ below) (after_eq_ok behind)
      refine ⟨others.trans inside, after, ?_, final⟩
      simp only [Spec.operands, operator_of_commented placed.skipBlank, operator, again, bind_ok,
        parts, after_ok]

theorem Transparent.chain (transparent : Transparent note item longer) :
    Transparent note (Spec.chain item) (Spec.chain longer) := by
  intro cursor other spec next placed read
  obtain ⟨first, middle, others, atom, behind, rfl⟩ := chain_eq_ok_iff.mp read
  obtain ⟨within, beyond, again, left⟩ := transparent placed atom
  obtain ⟨inside, after, parts, final⟩ :=
    transparent.operands left (Nat.le_refl _) left.length_le behind
  exact ⟨inside.trans within, after, chain_eq_ok_iff.mpr ⟨first, beyond, others, again, parts, rfl⟩,
    final⟩

theorem transparent_nested (marker : words.marker = ['#']) {depth more : Nat}
    (below : depth ≤ more) : Transparent note (nested words depth) (nested words more) := by
  induction depth generalizing more with
  | zero =>
    intro cursor other found next _ read
    cases read
  | succ depth ih =>
    obtain ⟨more, rfl⟩ := Nat.exists_eq_add_one_of_ne_zero (Nat.ne_zero_of_lt below)
    exact Transparent.chain (Transparent.atom marker (ih (Nat.le_of_succ_le_succ below)))

theorem transparent_sequenceAt (marker : words.marker = ['#']) :
    Transparent note (sequenceAt words) (sequenceAt words) := by
  intro cursor other found next placed read
  exact transparent_nested marker (Nat.succ_le_succ placed.length_le) placed read

/-! ## Qualifiers -/

theorem transparent_qualifierValue (marker : words.marker = ['#']) :
    Transparent note (qualifierValue words) (qualifierValue words) := by
  intro cursor other found next placed read
  unfold qualifierValue at read ⊢
  split at read
  · rename_i opened eaten
    obtain ⟨beyond, colon, left⟩ := placed.eat eaten
    obtain ⟨within, ended⟩ := transparent_ofScan Literal.suffix_value
      (fun placed => Literal.commented_value marker placed) left.skipBlank read
    rw [colon]
    exact ⟨within.trans ((suffix_skipBlank opened).trans (suffix_of_eat eaten)), ended⟩
  · rename_i absent
    cases read
    exact ⟨List.suffix_refl _, other, by rw [placed.eat_none absent (by decide)], placed⟩

/-- Nothing is left in front of the comment exactly if nothing is left without it. -/
theorem ended_of_commented (marker : words.marker = ['#']) (placed : Commented note cursor other) :
    ended words other.skipBlank = ended words cursor.skipBlank := by
  rw [ended, ended, Cursor.atEnd, Cursor.atEnd, Cursor.rest_skipBlank, Cursor.rest_skipBlank, marker]
  rcases placed.trimStart with ⟨blank, whole⟩ | ⟨visible, whole⟩
  · rw [blank, whole]
    rfl
  · obtain ⟨c, rest, front⟩ := List.exists_cons_of_ne_nil visible
    rw [whole, front]
    rfl

/-- Every qualifier takes a comma, so that the text bounds their number. -/
theorem commented_qualifiers (marker : words.marker = ['#']) {fuel more : Nat}
    {before found : Qualifiers} (placed : Commented note cursor other)
    (room : cursor.rest.length < fuel) (below : fuel ≤ more)
    (read : qualifiers words fuel before cursor = .ok (found, next)) :
    ∃ after, qualifiers words more before other = .ok (found, after) := by
  induction fuel generalizing more cursor other before with
  | zero => exact absurd room (Nat.not_lt_zero _)
  | succ fuel ih =>
    obtain ⟨more, rfl⟩ := Nat.exists_eq_add_one_of_ne_zero (Nat.ne_zero_of_lt below)
    simp only [qualifiers, ended_of_commented marker placed] at read ⊢
    split at read
    · rename_i finished
      cases read
      rw [if_pos finished]
      exact ⟨_, rfl⟩
    rename_i further
    rw [if_neg further]
    split at read
    · cases read
    rename_i behind eaten
    obtain ⟨beyond, comma, left⟩ := placed.skipBlank.eat eaten
    have start := left.skipBlank
    have key : Name.qualifierKey beyond.skipBlank.rest = Name.qualifierKey behind.skipBlank.rest :=
      start.leading (by decide)
    simp only [comma, key]
    split at read
    · cases read
    rename_i filled
    rw [if_neg filled]
    have named : Commented note
        (behind.skipBlank.forward (Name.qualifierKey behind.skipBlank.rest).length)
        (beyond.skipBlank.forward (Name.qualifierKey behind.skipBlank.rest).length) :=
      start.forward_leading (Bool.eq_false_iff.mpr filled)
    obtain ⟨⟨value, middle⟩, given, rest⟩ := bind_eq_ok read
    obtain ⟨within, after, again, final⟩ := transparent_qualifierValue marker named given
    have shorter : middle.rest.length < cursor.rest.length := calc
      _ ≤ behind.rest.length :=
        (within.trans ((suffix_forward _ _).trans (suffix_skipBlank behind))).length_le
      _ < cursor.skipBlank.rest.length := Literal.length_lt_of_eat eaten
      _ ≤ cursor.rest.length := (suffix_skipBlank cursor).length_le
    dsimp only at rest
    split at rest
    · cases rest
    · rename_i fresh
      obtain ⟨last, others⟩ := ih final (by omega) (Nat.le_of_succ_le_succ below) rest
      exact ⟨last, by simp only [again, bind_ok, if_neg fresh, others]⟩

/-! ## Declarations -/

theorem commented_ofString {text : String} (comment : String) (line : '\n' ∉ text.toList) :
    Commented (' ' :: comment.toList) (.ofString text) (.ofString (text ++ " # " ++ comment)) where
  line := line
  rest := by
    refine .inl ?_
    simp [Cursor.ofString, Cursor.ofList, String.toList_append]

/-- A declaration is read the same with a comment behind it. -/
theorem readDeclaration_comment (marker : words.marker = ['#']) {text : String} (comment : String)
    {found : Spec × Qualifiers} (line : '\n' ∉ text.toList)
    (read : readDeclaration words text = .ok found) :
    readDeclaration words (text ++ " # " ++ comment) = .ok found := by
  obtain ⟨⟨spec, middle⟩, front, further⟩ := bind_eq_ok read
  obtain ⟨⟨qualifiers, last⟩, behind, ended⟩ := bind_eq_ok further
  cases ended
  obtain ⟨_, beyond, again, left⟩ :=
    transparent_sequenceAt marker (commented_ofString comment line) front
  obtain ⟨final, others⟩ := commented_qualifiers marker left (Nat.lt_succ_self _)
    (Nat.succ_le_succ left.length_le) (after_eq_ok behind)
  rw [readDeclaration, readFront, again, bind_ok]
  dsimp only
  rw [others]
  rfl

end Spec

namespace Catalog

/-- A comment behind a declaration on one line is transparent: the declaration has the same type,
the same qualifiers and leaves the same catalog. -/
theorem parseDeclaration_comment {catalog after : Catalog}
    (marker : catalog.marker = Config.standard.marker) {text : String} (comment : String)
    {found : TypeId × Qualifiers} (line : '\n' ∉ text.toList)
    (parsed : parseDeclaration text catalog = .ok found after) :
    parseDeclaration (text ++ " # " ++ comment) catalog = .ok found after := by
  obtain ⟨spec, qualifiers, read⟩ := exists_read_of_parseDeclaration parsed
  have again := Spec.readDeclaration_comment (words_of_marker marker) comment line read
  rw [parseDeclaration, get_bind] at parsed ⊢
  rwa [again, ← read]

/-- A declaration that ends with a lenient list, and a comment that would go on with it. -/
theorem parseDeclaration_comment_list :
    ∃ found after,
      parseDeclaration "list('r' | 0x01), default: [1, 'it''s']" empty = .ok found after ∧
        parseDeclaration ("list('r' | 0x01), default: [1, 'it''s']" ++ " # " ++
          ", optional] # 'x' | \x7b\"k\": 0x") empty = .ok found after := by
  have accepted :
      succeeds (parseDeclaration "list('r' | 0x01), default: [1, 'it''s']") empty = true := by
    decide +kernel
  obtain ⟨found, parsed⟩ := eq_ok_of_succeeds accepted
  exact ⟨found, _, parsed, parseDeclaration_comment rfl _ (by decide +kernel) parsed⟩

end Catalog

end DocShapes
