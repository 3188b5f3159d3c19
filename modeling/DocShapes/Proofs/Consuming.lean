import DocShapes.Proofs.Shadowing

/-! # What strict readers leave

A strict reader takes a piece from the front of a text and leaves the end of it
(`suffix_of_strict?`). So the bytes that it has taken are those of the text without those of what
it leaves.
-/

namespace DocShapes

namespace Json

variable {text rest : List Char}

theorem skipSpace_suffix (text : List Char) : skipSpace text <:+ text := List.dropWhile_suffix _

theorem suffix_of_skipSpace {c : Char} (front : skipSpace text = c :: rest) : rest <:+ text :=
  (List.suffix_cons c rest).trans (front ▸ skipSpace_suffix text)

theorem suffix_of_stringBody {body : List Char} (read : stringBody text = some (body, rest)) :
    rest <:+ text := by
  obtain ⟨used, rfl, _⟩ := exists_stringBody read
  exact List.suffix_append _ _

theorem suffix_of_unsigned {negative : Bool} {found : Json}
    (read : unsigned negative text = some (found, rest)) : rest <:+ text := by
  obtain ⟨run, rfl, _⟩ := isRun_unsigned read
  exact List.suffix_append _ _

theorem suffix_of_word? {word : List Char} (read : word? word text = some rest) :
    rest <:+ text := by
  fun_induction word? word text with
  | case1 =>
    cases read
    exact List.suffix_refl _
  | case2 c word behind ih => exact (ih read).trans (List.suffix_cons _ _)
  | case3 => cases read
  | case4 => cases read

/-! ## Lists and records -/

section

variable {item : List Char → Option (Json × List Char)} {fuel : Nat}

theorem suffix_of_elements {items : List Json}
    (each : ∀ text found rest, item text = some (found, rest) → rest <:+ text)
    (read : elements item fuel text = some (items, rest)) : rest <:+ text := by
  induction fuel generalizing text items with
  | zero => cases read
  | succ fuel ih =>
    obtain ⟨first, behind, here, ⟨more, others, comma, parts, _⟩ | ⟨closed, _⟩⟩ :=
      elements_succ_iff.mp read
    · exact (ih parts).trans ((suffix_of_skipSpace comma).trans (each _ _ _ here))
    · exact (suffix_of_skipSpace closed).trans (each _ _ _ here)

theorem suffix_of_memberKey {key : String} (read : memberKey text = some (key, rest)) :
    rest <:+ text := by
  obtain ⟨quoted, body, closed, front, string, colon, _⟩ := memberKey_eq_some_iff.mp read
  exact (suffix_of_skipSpace colon).trans
    ((suffix_of_stringBody string).trans (suffix_of_skipSpace front))

theorem suffix_of_entries {before members : List (String × Json)}
    (each : ∀ text found rest, item text = some (found, rest) → rest <:+ text)
    (read : entries item fuel before text = some (members, rest)) : rest <:+ text := by
  induction fuel generalizing text before with
  | zero => cases read
  | succ fuel ih =>
    obtain ⟨key, opened, value, behind, named, here, ⟨more, comma, parts⟩ | ⟨closed, _⟩⟩ :=
      entries_succ_iff.mp read
    · have front := (each _ _ _ here).trans (suffix_of_memberKey named)
      exact (ih parts).trans ((suffix_of_skipSpace comma).trans front)
    · exact (suffix_of_skipSpace closed).trans ((each _ _ _ here).trans (suffix_of_memberKey named))

end

/-! ## Values -/

theorem suffix_of_map {α β : Type} {taken : Option (α × List Char)}
    {view : α × List Char → β × List Char} {found : β} (read : taken.map view = some (found, rest))
    (keeps : ∀ result, (view result).2 = result.2)
    (leaves : ∀ first, taken = some (first, rest) → rest <:+ text) : rest <:+ text := by
  obtain ⟨⟨first, behind⟩, same, whole⟩ := Option.map_eq_some_iff.mp read
  obtain rfl : behind = rest := (keeps (first, behind)).symm.trans (congrArg Prod.snd whole)
  exact leaves first same

theorem suffix_of_word_map {word : List Char} {meaning found : Json}
    (read : ((word? word text).map fun rest => (meaning, rest)) = some (found, rest)) :
    rest <:+ text := by
  obtain ⟨behind, same, whole⟩ := Option.map_eq_some_iff.mp read
  cases whole
  exact suffix_of_word? same

/-- A container leaves what its parts leave, read with one level less. -/
theorem suffix_of_value_of {depth : Nat} {found : Json}
    (inner : ∀ less, depth = less + 1 → ∀ text found rest,
      value less text = some (found, rest) → rest <:+ text)
    (read : value depth text = some (found, rest)) : rest <:+ text := by
  rw [value] at read
  cases start : skipSpace text with
  | nil =>
    rw [start] at read
    cases read
  | cons c behind =>
    have front := suffix_of_skipSpace start
    rw [start] at read
    dsimp only at read
    split at read
    · exact (suffix_of_map read (fun _ => rfl) fun _ => suffix_of_stringBody).trans front
    split at read
    · exact (suffix_of_unsigned read).trans front
    split at read
    · exact (suffix_of_unsigned read).trans (start ▸ skipSpace_suffix text)
    split at read
    · exact (suffix_of_word_map read).trans front
    split at read
    · exact (suffix_of_word_map read).trans front
    split at read
    · exact (suffix_of_word_map read).trans front
    cases depth with
    | zero => cases read
    | succ depth =>
      have each := inner depth rfl
      dsimp only at read
      split at read
      · split at read
        · rename_i closed
          cases read
          exact (suffix_of_skipSpace closed).trans front
        · exact (suffix_of_map read (fun _ => rfl) fun _ => suffix_of_elements each).trans front
      split at read
      · split at read
        · rename_i closed
          cases read
          exact (suffix_of_skipSpace closed).trans front
        · exact (suffix_of_map read (fun _ => rfl) fun _ => suffix_of_entries each).trans front
      · cases read

theorem suffix_of_value {depth : Nat} {found : Json}
    (read : value depth text = some (found, rest)) : rest <:+ text := by
  induction depth generalizing text found rest with
  | zero =>
    apply suffix_of_value_of _ read
    intro less same
    cases same
  | succ depth ih =>
    apply suffix_of_value_of _ read
    intro less same
    cases same
    exact fun _ _ _ => ih

end Json

/-- A strict literal leaves an end of the text. -/
theorem Literal.suffix_of_strict? {text rest : List Char} {found : Json}
    (read : strict? text = some (found, rest)) : rest <:+ text := by
  unfold strict? at read
  split at read
  · cases read
  · rename_i behind taken
    dsimp only at read
    split at read
    · cases read
    · cases read
      exact (Json.skipSpace_suffix _).trans (Json.suffix_of_value taken)

end DocShapes
