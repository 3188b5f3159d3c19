import DocShapes.Proofs.LenientScans
import DocShapes.Proofs.LiteralText

/-! # What readers of literals give

Every literal that is read is legible: a strict reader opens a bounded number of containers, and a
lenient one refuses an empty key. No reader gives bytes that are one byte or none, or a record with
a key twice.
-/

namespace DocShapes

/-! ## Strict readings -/

namespace Json

/-- The value stands for a well-formed literal with at most `depth` open containers. -/
def Sound (depth : Nat) (json : Json) : Prop :=
  (Literal.ofJson json).WellFormed ∧ (Literal.ofJson json).strict depth = true

variable {depth : Nat}

theorem sound_integer (value : Int) : Sound depth (.integer value) := by
  unfold Sound Literal.ofJson
  split <;> exact ⟨rfl, rfl⟩

theorem sound_array {items : List Json} (each : ∀ item ∈ items, Sound depth item) :
    Sound (depth + 1) (.array items) := by
  rw [Sound, Literal.ofJson, Literal.map_ofJson, Literal.strict_list, List.all_eq_true]
  refine ⟨(Literal.everywhere_list _ _).mpr ⟨rfl, ?_⟩, ?_⟩
  · exact List.forall_mem_map.mpr fun item member => (each item member).1
  · exact List.forall_mem_map.mpr fun item member => (each item member).2

theorem sound_object {members : List (String × Json)} (distinct : (members.map Prod.fst).Nodup)
    (each : ∀ member ∈ members, Sound depth member.2) : Sound (depth + 1) (.object members) := by
  rw [Sound, Literal.ofJson, Literal.map_ofJson_members, Literal.strict_record, List.all_eq_true]
  refine ⟨(Literal.everywhere_record _ _).mpr ⟨?_, ?_⟩, ?_⟩
  · simpa [Literal.wellFormedHere, Function.comp_def] using distinct
  · exact List.forall_mem_map.mpr fun member inside => (each member inside).1
  · exact List.forall_mem_map.mpr fun member inside => (each member inside).2

theorem sound_of_ofWhole {negative : Bool} {run : List Char} {found : Json}
    (read : ofWhole negative run = some found) : Sound depth found := by
  unfold ofWhole at read
  extract_lets size fits at read
  split at read
  · cases read
    exact sound_integer _
  · obtain ⟨_, _, rfl⟩ := Option.map_eq_some_iff.mp read
    exact ⟨rfl, rfl⟩

theorem sound_of_unsigned {negative : Bool} {text rest : List Char} {found : Json}
    (read : unsigned negative text = some (found, rest)) : Sound depth found := by
  unfold unsigned at read
  dsimp only at read
  split at read
  · cases read
  · simp only [Option.bind_eq_bind, Option.bind_eq_some_iff] at read
    obtain ⟨fraction, _, power, _, read⟩ := read
    split at read
    · obtain ⟨whole, same, read⟩ := Option.bind_eq_some_iff.mp read
      cases read
      exact sound_of_ofWhole same
    · obtain ⟨_, _, read⟩ := Option.bind_eq_some_iff.mp read
      cases read
      exact ⟨rfl, rfl⟩

theorem forall_of_elements {holds : Json → Prop}
    {item : List Char → Option (Json × List Char)}
    (each : ∀ text found rest, item text = some (found, rest) → holds found)
    {fuel : Nat} {text rest : List Char} {items : List Json}
    (read : elements item fuel text = some (items, rest)) : ∀ item ∈ items, holds item := by
  induction fuel generalizing text items rest with
  | zero => cases read
  | succ fuel ih =>
    rw [elements] at read
    split at read
    · cases read
    · rename_i first rest' here
      split at read
      · obtain ⟨⟨others, _⟩, more, same⟩ := Option.map_eq_some_iff.mp read
        cases same
        exact List.forall_mem_cons.mpr ⟨each _ _ _ here, ih more⟩
      · cases read
        simpa using each _ _ _ here
      · cases read

theorem forall_of_entries {holds : Json → Prop}
    {item : List Char → Option (Json × List Char)}
    (each : ∀ text found rest, item text = some (found, rest) → holds found)
    {fuel : Nat} {before members : List (String × Json)} {text rest : List Char}
    (distinct : (before.map Prod.fst).Nodup) (start : ∀ member ∈ before, holds member.2)
    (read : entries item fuel before text = some (members, rest)) :
    (members.map Prod.fst).Nodup ∧ ∀ member ∈ members, holds member.2 := by
  induction fuel generalizing text before with
  | zero => cases read
  | succ fuel ih =>
    rw [entries] at read
    split at read
    · cases read
    · rename_i key _ _
      split at read
      · cases read
      · rename_i value _ here
        have further : ((OrderedMap.put key value before).map Prod.fst).Nodup :=
          @OrderedMap.nodup_keys_set _ _ _ ⟨before⟩ distinct key value
        have all : ∀ member ∈ OrderedMap.put key value before, holds member.2 := by
          intro member inside
          rcases @OrderedMap.mem_entries_set _ _ _ ⟨before⟩ _ _ _ inside with same | old
          · rw [same]
            exact each _ _ _ here
          · exact start member old
        dsimp only at read
        split at read
        · exact ih further all read
        · cases read
          exact ⟨further, all⟩
        · cases read

/-- One level of a strict reading, with what the levels below give. -/
theorem sound_of_level {text rest : List Char} {found : Json}
    (below : ∀ less, depth = less + 1 → ∀ text found rest,
      value less text = some (found, rest) → Sound less found)
    (read : value depth text = some (found, rest)) : Sound depth found := by
  rw [value] at read
  split at read
  · cases read
  split at read
  · obtain ⟨_, _, same⟩ := Option.map_eq_some_iff.mp read
    cases same
    exact ⟨rfl, rfl⟩
  split at read
  · exact sound_of_unsigned read
  split at read
  · exact sound_of_unsigned read
  split at read
  · obtain ⟨_, _, same⟩ := Option.map_eq_some_iff.mp read
    cases same
    exact ⟨rfl, rfl⟩
  split at read
  · obtain ⟨_, _, same⟩ := Option.map_eq_some_iff.mp read
    cases same
    exact ⟨rfl, rfl⟩
  split at read
  · obtain ⟨_, _, same⟩ := Option.map_eq_some_iff.mp read
    cases same
    exact ⟨rfl, rfl⟩
  split at read
  · cases read
  · rename_i less
    have parts := below less rfl
    split at read
    · split at read
      · cases read
        exact sound_array (by simp)
      · obtain ⟨_, items, same⟩ := Option.map_eq_some_iff.mp read
        cases same
        exact sound_array (forall_of_elements parts items)
    split at read
    · split at read
      · cases read
        exact sound_object (by simp) (by simp)
      · obtain ⟨_, members, same⟩ := Option.map_eq_some_iff.mp read
        cases same
        obtain ⟨distinct, each⟩ := forall_of_entries parts (by simp) (by simp) members
        exact sound_object distinct each
    · cases read

/-- What a strict reader gives is sound. -/
theorem sound_of_value {text rest : List Char} {found : Json}
    (read : value depth text = some (found, rest)) : Sound depth found := by
  induction depth generalizing text found rest with
  | zero => exact sound_of_level (fun _ impossible => by cases impossible) read
  | succ depth ih =>
    refine sound_of_level (fun less same _ _ _ inner => ?_) read
    obtain rfl := Nat.succ.inj same
    exact ih inner

end Json

/-! ## Lenient readings -/

namespace Literal

/-- What a lenient reader gives. -/
def Loose (value : Literal) : Prop := value.WellFormed ∧ value.Keyed

theorem loose_of_ofHex? {digits : List Char} {value : Literal}
    (hex : ofHex? digits = some value) : value.Loose := by
  unfold ofHex? at hex
  cases read : Text.bytesOfHex? digits with
  | none =>
    rw [read] at hex
    cases hex
  | some run =>
    rw [read] at hex
    match run with
    | [] => cases hex
    | [only] =>
      cases hex
      exact ⟨rfl, rfl⟩
    | first :: second :: rest =>
      cases hex
      exact ⟨by simp [WellFormed, everywhere, wellFormedHere], rfl⟩

theorem loose_ofWord (aliases : AliasTable) (word : List Char) : (ofWord aliases word).Loose := by
  unfold ofWord
  split
  · exact ⟨rfl, rfl⟩
  · exact ⟨rfl, rfl⟩
  · exact ⟨rfl, rfl⟩
  · split
    · rename_i hex
      obtain ⟨_, _, hex⟩ := Option.bind_eq_some_iff.mp hex
      exact loose_of_ofHex? hex
    · split
      · rename_i value _
        unfold ofJson
        split <;> exact ⟨rfl, rfl⟩
      · exact ⟨rfl, rfl⟩
      · exact ⟨rfl, rfl⟩

theorem loose_list {items : List Literal} (each : ∀ item ∈ items, item.Loose) :
    (Literal.list items).Loose :=
  ⟨(everywhere_list _ _).mpr ⟨rfl, fun item member => (each item member).1⟩,
    (everywhere_list _ _).mpr ⟨rfl, fun item member => (each item member).2⟩⟩

theorem loose_record {fields : List (String × Literal)} (each : EachField (· ≠ "") Loose fields) :
    (Literal.record fields).Loose := by
  refine ⟨(everywhere_record _ _).mpr ⟨?_, fun field member => (each.value field member).1⟩,
    (everywhere_record _ _).mpr ⟨?_, fun field member => (each.value field member).2⟩⟩
  · simpa [wellFormedHere] using each.distinct
  · simpa [keyedHere] using each.key

/-- What a lenient reader gives is loose, at any depth. -/
theorem handed_loose (words : Words) : Handed words (fun _ => True) (· ≠ "") Loose where
  lasting _ _ _ := trivial
  quoted := gives_of_forall fun _ => ⟨rfl, rfl⟩
  named := by
    apply gives_takeKey_of
    · exact fun _ _ _ => trivial
    · exact gives_of_forall fun _ filled => filled
    · exact gives_of_forall fun _ filled => filled
  word := gives_of_forall fun word => loose_ofWord words.aliases word
  list _ each := loose_list each
  record _ each := loose_record each

/-! ## Literals -/

theorem ends_takeLenient_legible (words : Words) (cursor : Cursor) :
    Ends (takeLenient words) cursor (fun found _ => found.Legible) fun _ => True := by
  apply ((handed_loose words).takeLenient cursor trivial).imp
  intro found _ given
  obtain ⟨loose, _⟩ := given
  exact ⟨loose.1, .inr loose.2⟩

theorem ends_takeStrict_legible (cursor : Cursor) :
    Ends takeStrict cursor (fun found _ => ∀ value ∈ found, value.Legible) fun _ => True := by
  simp only [takeStrict, ends_bind, ends_get]
  split
  · simp
  · rename_i found rest strictly
    have sound : Json.Sound Json.deepest found := by
      unfold strict? at strictly
      split at strictly
      · cases strictly
      · rename_i read
        dsimp only at strictly
        split at strictly
        · cases strictly
        · cases strictly
          exact Json.sound_of_value read
    simp only [Scan.forward, ends_bind, ends_modify, ends_pure]
    intro value member
    cases member
    exact ⟨sound.1, .inl sound.2⟩

theorem ends_takeHex_legible (cursor : Cursor) :
    Ends takeHex cursor (fun found _ => found.Legible) fun _ => True := by
  simp only [takeHex, ends_bind, ends_get]
  split
  · rename_i hex
    have loose := loose_of_ofHex? hex
    simp only [Scan.forward, ends_bind, ends_modify, ends_pure]
    exact ⟨loose.1, .inr loose.2⟩
  · trivial

/-- Every constant that is read is legible. -/
theorem ends_constant?_legible (words : Words) (cursor : Cursor) :
    Ends (constant? words) cursor (fun found _ => ∀ value ∈ found, value.Legible)
      fun _ => True := by
  have hex : Ends (some <$> takeHex) cursor (fun found _ => ∀ value ∈ found, value.Legible)
      fun _ => True := by
    rw [ends_map]
    exact (ends_takeHex_legible cursor).imp fun _ _ legible => by simpa using legible
  simp only [constant?, ends_bind, ends_get]
  split
  · exact hex
  · exact hex
  · refine ends_ite (fun _ => ?_) fun _ => ends_ite (fun _ => ?_) fun _ => by simp
    · rw [ends_bind]
      refine (ends_takeStrict_legible cursor).imp fun found next legible => ?_
      cases found with
      | none => exact trivial
      | some => exact legible
    · rw [ends_bind]
      refine (ends_takeStrict_legible cursor).imp fun found next legible => ?_
      cases found with
      | none =>
        rw [ends_map]
        exact (ends_takeLenient_legible words next).imp
          fun _ _ legible => by simpa using legible
      | some => exact legible
  · simp

/-- Every literal that is read is legible. -/
theorem ends_value_legible (words : Words) (cursor : Cursor) :
    Ends (Literal.value words) cursor (fun found _ => found.Legible) fun _ => True := by
  rw [Literal.value, ends_bind]
  refine (ends_constant?_legible words cursor).imp fun found next legible => ?_
  cases found with
  | none => exact ends_takeLenient_legible words next
  | some found => exact legible found rfl

end Literal

end DocShapes
