import DocShapes.Json.Reader
import DocShapes.Json.Writer
import DocShapes.Scan
import DocShapes.Proofs.Outcome
import Mathlib.Data.Bool.AllAny
import Mathlib.Data.List.DropRight

/-! # What stands behind a literal

A literal in a text is followed by blanks, by one of the delimiters of specs, or by nothing. None
of these can continue a literal, so that every reader stops in front of them.
-/

namespace DocShapes

/-! ## Delimited text -/

namespace Text

/-- The characters that end a literal or a type. -/
def delimiters : List Char := [',', ')', ']', '\x7d', '|', '&', '#']

/-- Nothing, or a delimiter behind spaces and tabs. -/
inductive Delimited : List Char → Prop
  | nil : Delimited []
  | mark {c : Char} {rest : List Char} (mark : c ∈ delimiters) : Delimited (c :: rest)
  | blank {c : Char} {rest : List Char} (blank : c = ' ' ∨ c = '\t') (behind : Delimited rest) :
      Delimited (c :: rest)

variable {tail : List Char}

theorem isBlank_of_eq {c : Char} (blank : c = ' ' ∨ c = '\t') :
    isBlank c = true ∧ Json.isSpace c = true := by
  rcases blank with same | same
  · subst same
    decide
  · subst same
    decide

/-- A test that fails for blanks and for delimiters fails for what a delimited text begins with. -/
theorem Delimited.head_fails (delimited : Delimited tail) (test : Char → Bool)
    (marks : (' ' :: '\t' :: delimiters).all (fun c => !test c) = true) :
    ∀ c ∈ tail.head?, test c = false := by
  have fails : ∀ c ∈ ' ' :: '\t' :: delimiters, test c = false := by simpa using marks
  cases delimited with
  | nil => simp
  | mark mark => simpa using fails _ (List.mem_cons_of_mem _ (List.mem_cons_of_mem _ mark))
  | blank blank =>
    rcases blank with same | same
    · simpa [same] using fails ' ' (by simp)
    · simpa [same] using fails '\t' (by simp)

theorem Delimited.head_trimStart (delimited : Delimited tail) :
    ∀ c ∈ (trimStart tail).head?, c ∈ delimiters := by
  have visible : ∀ c ∈ delimiters, isBlank c = false := List.all_iff_forall_prop.mp (by decide)
  induction delimited with
  | nil => simp [trimStart]
  | mark mark => simpa [trimStart, visible _ mark] using mark
  | blank blank _ ih => simpa [trimStart, List.dropWhile_cons, (isBlank_of_eq blank).1] using ih

theorem Delimited.skipSpace_eq (delimited : Delimited tail) :
    Json.skipSpace tail = trimStart tail := by
  have visible : ∀ c ∈ delimiters, isBlank c = false ∧ Json.isSpace c = false :=
    List.all_iff_forall_prop.mp (by decide)
  induction delimited with
  | nil => rfl
  | mark mark => simp [Json.skipSpace, trimStart, visible _ mark]
  | blank blank _ ih =>
    simpa [Json.skipSpace, trimStart, List.dropWhile_cons, isBlank_of_eq blank] using ih

/-- No line ends among the blanks in front of a delimiter. -/
theorem Delimited.newline_not_mem (delimited : Delimited tail) :
    '\n' ∉ tail.takeWhile Json.isSpace := by
  have visible : ∀ c ∈ delimiters, Json.isSpace c = false :=
    List.all_iff_forall_prop.mp (by decide)
  induction delimited with
  | nil => simp
  | mark mark => simp [visible _ mark]
  | @blank c _ blank _ ih =>
    have different : '\n' ≠ c := by
      rintro rfl
      rcases blank with same | same <;> cases same
    simpa [List.takeWhile_cons, isBlank_of_eq blank, different] using ih

theorem trimStart_of_visible {c : Char} {rest : List Char} (visible : isBlank c = false) :
    trimStart (c :: rest) = c :: rest := by
  simp [trimStart, visible]

theorem trimStart_of_blank {c : Char} {rest : List Char} (blank : isBlank c = true) :
    trimStart (c :: rest) = trimStart rest := by
  simp [trimStart, blank]

theorem trimStart_space (text : List Char) : trimStart (' ' :: text) = trimStart text := by
  have blank : isBlank ' ' = true := by decide
  simp [trimStart, blank]

theorem trimStart_trimStart (text : List Char) : trimStart (trimStart text) = trimStart text :=
  List.dropWhile_idempotent _ _

theorem length_trimStart_le (text : List Char) : (trimStart text).length ≤ text.length :=
  (List.dropWhile_sublist _).length_le

/-- A run of characters that pass a test, up to one that fails it. -/
theorem takeWhile_run {test : Char → Bool} {run tail : List Char}
    (inside : ∀ c ∈ run, test c = true) (outside : ∀ c ∈ tail.head?, test c = false) :
    (run ++ tail).takeWhile test = run := by
  rw [List.takeWhile_append_of_pos inside]
  cases tail with
  | nil => simp
  | cons c rest => simp [outside c rfl]

end Text

/-! ## Separated parts -/

namespace Json

/-- All parts but the first have a separator in front of them. -/
theorem separated_cons (separator first : List Char) (rest : List (List Char)) :
    separated separator (first :: rest) =
      first ++ rest.flatMap fun part => separator ++ part := by
  induction rest generalizing first with
  | nil => simp [separated]
  | cons second others ih => simp [separated, ih second]

theorem length_le_of_mem {separator part : List Char} {parts : List (List Char)}
    (member : part ∈ parts) : part.length ≤ (separated separator parts).length := by
  cases parts with
  | nil => cases member
  | cons first rest =>
    rw [separated_cons, List.length_append]
    rcases List.mem_cons.mp member with same | later
    · rw [same]
      exact Nat.le_add_right _ _
    · have inside : part.length ≤ (rest.flatMap fun part => separator ++ part).length := by
        obtain ⟨before, behind, whole⟩ := List.append_of_mem later
        rw [whole, List.flatMap_append, List.flatMap_cons]
        simp only [List.length_append]
        omega
      omega

end Json

/-! ## Cursors -/

namespace Cursor

variable {cursor : Cursor} {c : Char} {rest : List Char}

theorem rest_skipBlank (cursor : Cursor) : cursor.skipBlank.rest = Text.trimStart cursor.rest := by
  rw [skipBlank, rest_forward]
  generalize cursor.rest = text
  induction text with
  | nil => rfl
  | cons c rest ih =>
    by_cases blank : Text.isBlank c
    · simpa [Text.trimStart, blank] using ih
    · simp [Text.trimStart, blank]

theorem eat_eq_some (found : Text.trimStart cursor.rest = c :: rest) :
    ∃ next, cursor.eat c = some next ∧ next.rest = rest := by
  have here : cursor.skipBlank.rest = c :: rest := (rest_skipBlank cursor).trans found
  have peek : cursor.skipBlank.peek = some c := by rw [Cursor.peek, here, List.head?_cons]
  refine ⟨cursor.skipBlank.step, ?_, ?_⟩
  · rw [eat]
    exact if_pos peek
  · rw [step, rest_forward, here]
    rfl

theorem eat_eq_none (absent : (Text.trimStart cursor.rest).head? ≠ some c) :
    cursor.eat c = none := by
  rw [eat]
  refine if_neg fun peek => absent ?_
  rwa [Cursor.peek, rest_skipBlank] at peek

theorem trimStart_of_peek (front : cursor.skipBlank.peek = some c) :
    Text.trimStart cursor.rest = c :: cursor.skipBlank.step.rest := by
  obtain ⟨rest, text⟩ := List.head?_eq_some_iff.mp front
  rw [step, rest_forward, ← rest_skipBlank, text]
  rfl

theorem trimStart_of_eat {next : Cursor} (eaten : cursor.eat c = some next) :
    Text.trimStart cursor.rest = c :: next.rest := by
  unfold eat at eaten
  dsimp only at eaten
  split at eaten
  · rename_i front
    cases eaten
    exact trimStart_of_peek front
  · cases eaten

end Cursor

/-! ## Scans -/

namespace Scan

variable {α : Type} {cursor : Cursor} {c : Char} {rest : List Char} {failed : Cursor → Prop}

theorem ends_eat_true {done : Bool → Cursor → Prop}
    (found : Text.trimStart cursor.rest = c :: rest)
    (eaten : ∀ next : Cursor, next.rest = rest → done true next) :
    Ends (eat c) cursor done failed := by
  obtain ⟨next, same, here⟩ := Cursor.eat_eq_some found
  simp only [eat, ends_bind, ends_get, same, ends_set, ends_pure]
  exact eaten next here

theorem ends_eat_false {done : Bool → Cursor → Prop}
    (absent : (Text.trimStart cursor.rest).head? ≠ some c) (stays : done false cursor) :
    Ends (eat c) cursor done failed := by
  simpa only [eat, ends_bind, ends_get, Cursor.eat_eq_none absent, ends_pure] using stays

end Scan

end DocShapes
