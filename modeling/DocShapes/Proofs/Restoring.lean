import DocShapes.Proofs.LiteralOrigin
import DocShapes.Proofs.Prose

/-! # Literals that their texts restore

The text of a literal that was read gives the literal back when it is a JSON text, or when the
literal has no rare control characters (`value_text_iff`). A rare control character is lost in a
text that a lenient reader has to take, since that reader does not know its escape.
-/

namespace DocShapes

namespace Literal

/-! ## Readings of visible text -/

/-- No rare control character is left to read. -/
def PlainLeft (cursor : Cursor) : Prop := ∀ c ∈ cursor.rest, isPlain c = true

theorem lasting_plainLeft : Lasting PlainLeft := by
  intro cursor count plain c member
  rw [Cursor.rest_forward] at member
  exact plain c (List.mem_of_mem_drop member)

/-! ### Quoted text and words -/

theorem plain_of_doubleQuoted {text body rest : List Char}
    (plain : ∀ c ∈ text, isPlain c = true) (quoted : doubleQuoted text = some (body, rest)) :
    ∀ c ∈ body, isPlain c = true := by
  fun_induction doubleQuoted text generalizing body rest with
  | case1 => cases quoted
  | case2 =>
    cases quoted
    simp
  | case3 c text meant =>
    rename_i ih
    obtain ⟨_, unescaped⟩ := List.forall_mem_cons.mp plain
    obtain ⟨own, others⟩ := List.forall_mem_cons.mp unescaped
    obtain ⟨⟨inner, _⟩, more, same⟩ := Option.map_eq_some_iff.mp quoted
    cases same
    have here : isPlain meant = true := by
      unfold meant
      split
      · rfl
      split
      · rfl
      split
      · rfl
      · exact own
    exact List.forall_mem_cons.mpr ⟨here, ih others more⟩
  | case4 => cases quoted
  | case5 c text _ _ _ ih =>
    obtain ⟨own, others⟩ := List.forall_mem_cons.mp plain
    obtain ⟨⟨inner, _⟩, more, same⟩ := Option.map_eq_some_iff.mp quoted
    cases same
    exact List.forall_mem_cons.mpr ⟨own, ih others more⟩

theorem plain_of_singleQuoted {text body rest : List Char}
    (plain : ∀ c ∈ text, isPlain c = true) (quoted : singleQuoted text = some (body, rest)) :
    ∀ c ∈ body, isPlain c = true := by
  fun_induction singleQuoted text generalizing body rest with
  | case1 => cases quoted
  | case2 text ih =>
    obtain ⟨own, doubled⟩ := List.forall_mem_cons.mp plain
    obtain ⟨_, others⟩ := List.forall_mem_cons.mp doubled
    obtain ⟨⟨inner, _⟩, more, same⟩ := Option.map_eq_some_iff.mp quoted
    cases same
    exact List.forall_mem_cons.mpr ⟨own, ih others more⟩
  | case3 =>
    cases quoted
    simp
  | case4 c text _ _ ih =>
    obtain ⟨own, others⟩ := List.forall_mem_cons.mp plain
    obtain ⟨⟨inner, _⟩, more, same⟩ := Option.map_eq_some_iff.mp quoted
    cases same
    exact List.forall_mem_cons.mpr ⟨own, ih others more⟩

theorem gives_takeQuoted :
    Gives PlainLeft takeQuoted fun text => ∀ c ∈ text.toList, isPlain c = true := by
  apply gives_get.bind
  intro start plain
  have inside {c : Char} {rest : List Char} (here : start.rest = c :: rest) :
      ∀ c ∈ rest, isPlain c = true := by
    rw [PlainLeft, here, List.forall_mem_cons] at plain
    exact plain.2
  dsimp only
  split
  · rename_i body rest found
    apply (gives_forward lasting_plainLeft _).bind
    intro _ _
    apply gives_pure
    rw [String.toList_ofList]
    split at found
    · rename_i opened
      exact plain_of_doubleQuoted (inside opened) found
    · rename_i opened
      exact plain_of_singleQuoted (inside opened) found
    · cases found
  · apply (gives_forward lasting_plainLeft _).bind
    intro _ _
    exact gives_throw _

theorem prefix_beforeMarker (marker text : List Char) : beforeMarker marker text <+: text := by
  induction text with
  | nil => exact List.nil_prefix
  | cons c rest ih =>
    rw [beforeMarker]
    split
    · exact List.nil_prefix
    · exact (List.prefix_cons_inj c).mpr ih

theorem prefix_bareWord (stops marker text : List Char) : bareWord stops marker text <+: text := by
  rw [bareWord]
  apply (Text.prefix_trimEnd _).trans
  split
  · exact List.takeWhile_prefix _
  · exact (prefix_beforeMarker marker _).trans (List.takeWhile_prefix _)

theorem gives_takeBare (stops marker : List Char) :
    Gives PlainLeft (takeBare stops marker) fun word => ∀ c ∈ word, isPlain c = true := by
  apply gives_get.bind
  intro start plain
  apply (gives_forward lasting_plainLeft _).bind
  intro _ _
  apply gives_pure
  intro c member
  exact plain c ((prefix_bareWord _ _ _).subset member)

/-! ### Clear literals -/

theorem clear_list {items : List Literal} (each : ∀ item ∈ items, item.Clear) :
    (Literal.list items).Clear :=
  (everywhere_list _ _).mpr ⟨rfl, each⟩

theorem clear_record_iff {fields : List (String × Literal)} :
    (Literal.record fields).Clear ↔
      ∀ field ∈ fields, (∀ c ∈ field.1.toList, isPlain c = true) ∧ field.2.Clear := by
  rw [Clear, everywhere_record, clearHere, List.all_eq_true]
  simp only [List.all_eq_true]
  exact forall₂_and.symm

theorem clear_of_ofHex? {digits : List Char} {value : Literal}
    (hex : ofHex? digits = some value) : value.Clear := by
  unfold ofHex? at hex
  split at hex
  · cases hex
    rfl
  · cases hex
    rfl
  · cases hex

theorem clear_ofWord (aliases : AliasTable) {word : List Char}
    (plain : ∀ c ∈ word, isPlain c = true) : (ofWord aliases word).Clear := by
  unfold ofWord
  split
  · rfl
  · rfl
  · rfl
  split
  · rename_i hex
    obtain ⟨_, _, hex⟩ := Option.bind_eq_some_iff.mp hex
    exact clear_of_ofHex? hex
  split
  · unfold ofJson
    split
    · rfl
    · rfl
  · rfl
  · change (String.ofList word).toList.all isPlain = true
    rw [String.toList_ofList, List.all_eq_true]
    exact plain

/-- What a lenient reader gives is clear where no rare control characters are left. -/
theorem handed_clear (words : Words) :
    Handed words PlainLeft (fun key => ∀ c ∈ key.toList, isPlain c = true) Clear where
  lasting := lasting_plainLeft
  quoted := gives_takeQuoted.imp fun _ plain => List.all_eq_true.mpr plain
  named := by
    apply gives_takeKey_of lasting_plainLeft
    · exact gives_takeQuoted.imp fun _ plain _ => plain
    · apply (gives_takeBare _ _).imp
      intro word plain _
      rwa [String.toList_ofList]
  word := (gives_takeBare _ _).imp fun _ plain => clear_ofWord _ plain
  list _ each := clear_list each
  record _ each := clear_record_iff.mpr fun field member =>
    ⟨each.key field member, each.value field member⟩

/-! ## Restored literals -/

theorem exists_related {α β : Type} {related : α → β → Prop} {lefts : List α} {rights : List β}
    (all : List.Forall₂ related lefts rights) {left : α} (member : left ∈ lefts) :
    ∃ right ∈ rights, related left right := by
  induction all with
  | nil => cases member
  | cons here _ ih =>
    rcases List.mem_cons.mp member with rfl | inside
    · exact ⟨_, List.mem_cons_self, here⟩
    · obtain ⟨right, within, agree⟩ := ih inside
      exact ⟨right, List.mem_cons_of_mem _ within, agree⟩

/-- What is the same as a literal without rare control characters has none. -/
theorem clear_of_same {value found : Literal} (formed : value.WellFormed)
    (same : value.same found = true) (clear : found.Clear) : value.Clear := by
  induction value using Literal.induction generalizing found with
  | string text => exact (same_iff_of_isExact rfl).mp same ▸ clear
  | list items ih =>
    cases found with
    | list others =>
      obtain ⟨_, formed⟩ := (everywhere_list _ _).mp formed
      obtain ⟨_, clear⟩ := (everywhere_list _ _).mp clear
      apply clear_list
      intro item member
      obtain ⟨other, inside, agree⟩ := exists_related (same_list_iff.mp same) member
      exact ih item member (formed item member) agree (clear other inside)
    | _ => cases same
  | record fields ih =>
    cases found with
    | record others =>
      obtain ⟨distinct, formed⟩ := (everywhere_record _ _).mp formed
      have keys : (fields.map Prod.fst).Nodup := by simpa [wellFormedHere] using distinct
      apply clear_record_iff.mpr
      intro field member
      have own := @OrderedMap.get?_of_mem_entries _ _ _ ⟨fields⟩ _ _ keys member
      obtain ⟨other, there, agree⟩ := (same_record_iff.mp same).1 field.1 field.2 own
      obtain ⟨key, value⟩ := clear_record_iff.mp clear _ (mem_of_find there)
      exact ⟨key, ih field member (formed field member) agree value⟩
    | _ => cases same
  | _ => rfl

/-- A lenient reader takes the text of a list or a record that has no strict one. -/
theorem ends_value_clear {value : Literal} {cursor : Cursor} {c : Char} {rest : List Char}
    (front : c ∈ ['"', '[', '\x7b']) (text : value.chars = c :: rest)
    (formed : value.WellFormed) (numberless : value.Numberless)
    (lax : value.strict Json.deepest = false) (here : cursor.rest = value.chars) :
    Ends (Literal.value .standard) cursor (fun found _ => found.Clear) fun _ => True := by
  have letters : ∀ c ∈ ['"', '[', '\x7b'], c ≠ '0' := List.all_iff_forall_prop.mp (by decide)
  have refused : strict? cursor.rest = none := by
    have zero : value.chars.head? ≠ some '0' := by simpa [text] using letters c front
    have none := strict?_eq_none formed numberless .nil lax zero
    rwa [here, ← List.append_nil value.chars]
  have plain : PlainLeft cursor := by
    intro d member
    have visible := visible_of_mem_chars numberless d (here ▸ member)
    simp [isPlain, visible]
  rw [Literal.value, ends_bind]
  apply ends_constant?_opening front (here.trans text)
  apply ((ends_takeStrict_none refused).mono (fun _ _ found => found) fun _ never => never.elim).imp
  rintro _ _ ⟨rfl, rfl⟩
  exact ((handed_clear .standard).takeLenient _ plain).imp fun _ _ found => found.1

/-- Every literal without numbers that was read is read back from its text if it has a strict text
or no rare control characters, and no other one is. -/
theorem value_text_iff {cursor behind : Cursor} {value : Literal}
    (read : Literal.value .standard cursor = .ok value behind) (numberless : value.Numberless) :
    (∃ found after, Literal.value .standard (.ofString value.text) = .ok found after ∧
      value.same found = true ∧ after.rest = []) ↔
      value.strict Json.deepest = true ∨ value.Clear := by
  obtain ⟨formed, keyed⟩ := (ends_value_legible .standard cursor).of_ok read
  have here : (Cursor.ofString value.text).rest = value.chars := String.toList_ofList
  constructor
  · rintro ⟨found, after, read, same, _⟩
    by_cases strict : value.strict Json.deepest = true
    · exact .inl strict
    right
    have opening {c : Char} {rest : List Char} (front : c ∈ ['"', '[', '\x7b'])
        (text : value.chars = c :: rest) : value.Clear := by
      have lax : value.strict Json.deepest = false := by simpa using strict
      have ends := ends_value_clear front text formed numberless lax here
      exact clear_of_same formed same (ends.of_ok read)
    cases value with
    | list => exact opening (by decide) rfl
    | record => exact opening (by decide) rfl
    | string => exact absurd rfl strict
    | _ => rfl
  · intro written
    have restorable : value.Restorable := by
      refine ⟨formed, numberless, ?_⟩
      by_cases strict : value.strict Json.deepest = true
      · exact .inl strict
      · exact .inr ⟨keyed.resolve_left strict, written.resolve_left strict⟩
    obtain ⟨found, after, read, rfl, left⟩ :=
      (ends_value restorable .nil (here.trans (List.append_nil _).symm)).exists_ok
    refine ⟨_, after, read, same_self _, ?_⟩
    rcases left with rest | rest
    · exact rest
    · exact rest

/-- A list of a text and a byte. -/
def pair (text : String) (byte : UInt8) : Literal := .list [.string text, .byte byte]

/-- Nothing but the list of the text and the byte. -/
def isPair (text : String) (byte : UInt8) : Literal → Bool
  | .list [.string own, .byte value] => own = text && value = byte
  | _ => false

theorem eq_pair {text : String} {byte : UInt8} {value : Literal}
    (passes : isPair text byte value = true) : value = pair text byte := by
  unfold isPair at passes
  split at passes
  · obtain ⟨rfl, rfl⟩ : _ = text ∧ _ = byte := by simpa using passes
    rfl
  · cases passes

/-- The text of a list with a tab and a byte in it is a lenient one. -/
theorem value_text_iff_tab :
    ∃ behind, Literal.value .standard (.ofString "['\t', 0x01]") = .ok (pair "\t" 1) behind ∧
      ∃ found after, Literal.value .standard (.ofString (pair "\t" 1).text) = .ok found after ∧
        (pair "\t" 1).same found = true ∧ after.rest = [] := by
  have passes : succeedsWith (isPair "\t" 1) (Literal.value .standard)
      (.ofString "['\t', 0x01]") = true := by decide +kernel
  obtain ⟨value, read, same⟩ := eq_ok_of_succeedsWith passes
  obtain rfl := eq_pair same
  have clear : (pair "\t" 1).Clear := rfl
  exact ⟨_, read, (value_text_iff read rfl).mpr (.inr clear)⟩

/-- The text of a list has the escape of a backspace, and the byte in it keeps a strict reader
away. The lenient one reads the escape as a letter. -/
theorem not_restored_backspace :
    ∃ behind, Literal.value .standard (.ofString "['\x08', 0x01]") =
        .ok (pair "\x08" 1) behind ∧ (pair "\x08" 1).Numberless ∧
      ¬∃ found after, Literal.value .standard (.ofString (pair "\x08" 1).text) = .ok found after ∧
        (pair "\x08" 1).same found = true ∧ after.rest = [] := by
  have first : succeedsWith (isPair "\x08" 1) (Literal.value .standard)
      (.ofString "['\x08', 0x01]") = true := by decide +kernel
  have second : succeedsWith (isPair "b" 1) (Literal.value .standard)
      (.ofString (pair "\x08" 1).text) = true := by decide +kernel
  obtain ⟨value, read, same⟩ := eq_ok_of_succeedsWith first
  obtain rfl := eq_pair same
  obtain ⟨other, again, lost⟩ := eq_ok_of_succeedsWith second
  obtain rfl := eq_pair lost
  refine ⟨_, read, rfl, ?_⟩
  rintro ⟨found, after, reread, restored, _⟩
  cases again.symm.trans reread
  exact absurd restored (by decide)

end Literal

end DocShapes
