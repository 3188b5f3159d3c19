import DocShapes.Literal.Reader
import DocShapes.Proofs.Arena
import DocShapes.Proofs.Outcome

/-! # What lenient readers give

A lenient reader puts literals together from words, quoted texts and keys. So what holds of these,
and of every list and record of such parts, holds of all that it gives (`Handed.lenient`). The text
that is left to read may have a property too, as long as every later part of the text has it.
-/

namespace DocShapes.Literal

variable {α β : Type} {left : Cursor → Prop} {holds : α → Prop}

/-! ## Scans -/

/-- What a scan gives where the text has a property that it keeps. -/
def Gives (left : Cursor → Prop) (scan : Scan α) (holds : α → Prop) : Prop :=
  ∀ cursor, left cursor →
    Ends scan cursor (fun found next => holds found ∧ left next) fun _ => True

/-- The property stays when the cursor moves on. -/
def Lasting (left : Cursor → Prop) : Prop :=
  ∀ cursor count, left cursor → left (cursor.forward count)

theorem Lasting.eat (lasting : Lasting left) {cursor next : Cursor} {c : Char}
    (here : left cursor) (eaten : cursor.eat c = some next) : left next := by
  rw [Cursor.eat] at eaten
  split at eaten
  · cases eaten
    exact lasting _ 1 (lasting cursor _ here)
  · cases eaten

theorem Gives.imp {scan : Scan α} {weaker : α → Prop} (gives : Gives left scan holds)
    (implies : ∀ found, holds found → weaker found) : Gives left scan weaker :=
  fun cursor here => (gives cursor here).imp fun found _ ended => ⟨implies found ended.1, ended.2⟩

theorem Gives.bind {scan : Scan α} {next : α → Scan β} {after : β → Prop}
    (gives : Gives left scan holds) (follows : ∀ found, holds found → Gives left (next found) after) :
    Gives left (scan >>= next) after := by
  intro cursor here
  rw [ends_bind]
  exact (gives cursor here).imp fun found behind ended => follows found ended.1 behind ended.2

theorem Gives.map {scan : Scan α} {view : α → β} {after : β → Prop}
    (gives : Gives left scan holds) (views : ∀ found, holds found → after (view found)) :
    Gives left (view <$> scan) after := by
  intro cursor here
  rw [ends_map]
  exact (gives cursor here).imp fun found _ ended => ⟨views found ended.1, ended.2⟩

theorem gives_pure {found : α} (here : holds found) : Gives left (pure found) holds :=
  fun _ stays => ⟨here, stays⟩

theorem gives_throw (error : Error) : Gives left (throw error) holds := fun _ _ => trivial

theorem gives_fail (fault : SpecFault) : Gives left (Scan.fail fault) holds := fun _ _ => trivial

theorem gives_fail_bind (fault : SpecFault) (next : β → Scan α) :
    Gives left (Scan.fail fault >>= next) holds := fun _ _ => trivial

theorem gives_get : Gives left get left := fun _ here => ⟨here, here⟩

theorem gives_forward (lasting : Lasting left) (count : Nat) :
    Gives left (Scan.forward count) fun _ => True :=
  fun cursor here => ⟨trivial, lasting cursor count here⟩

theorem gives_skipBlank (lasting : Lasting left) : Gives left Scan.skipBlank fun _ => True :=
  fun cursor here => ⟨trivial, lasting cursor _ here⟩

theorem gives_eat (lasting : Lasting left) (c : Char) : Gives left (Scan.eat c) fun _ => True := by
  intro cursor here
  simp only [Scan.eat, ends_bind, ends_get]
  split
  · rename_i next eaten
    exact ⟨trivial, lasting.eat here eaten⟩
  · exact ⟨trivial, here⟩

/-- What holds of everything holds of what any scan gives. -/
theorem gives_of_forall {scan : Scan α} (all : ∀ found, holds found) :
    Gives (fun _ => True) scan holds := by
  intro cursor _
  unfold Ends
  split
  · exact ⟨all _, trivial⟩
  · trivial

theorem gives_ite {condition : Prop} [Decidable condition] {scan other : Scan α}
    (first : Gives left scan holds) (second : Gives left other holds) :
    Gives left (if condition then scan else other) holds := by
  split
  · exact first
  · exact second

/-! ## Lists and records -/

/-- Fields with different keys, and what holds of each key and each value. -/
structure EachField (key : String → Prop) (holds : Literal → Prop)
    (fields : List (String × Literal)) : Prop where
  distinct : (fields.map Prod.fst).Nodup
  key : ∀ field ∈ fields, key field.1
  value : ∀ field ∈ fields, holds field.2

section

variable {key : String → Prop} {holds : Literal → Prop} {element : Scan Literal}

theorem EachField.nil : EachField key holds [] := ⟨by simp, by simp, by simp⟩

theorem EachField.put {fields : List (String × Literal)} (each : EachField key holds fields)
    {name : String} {value : Literal} (named : key name) (own : holds value) :
    EachField key holds (OrderedMap.put name value fields) where
  distinct := @OrderedMap.nodup_keys_set _ _ _ ⟨fields⟩ each.distinct name value
  key field inside := by
    rcases @OrderedMap.mem_entries_set _ _ _ ⟨fields⟩ _ _ _ inside with same | old
    · rwa [same]
    · exact each.key field old
  value field inside := by
    rcases @OrderedMap.mem_entries_set _ _ _ ⟨fields⟩ _ _ _ inside with same | old
    · rwa [same]
    · exact each.value field old

theorem gives_takeItems (lasting : Lasting left) (each : Gives left element holds) (fuel : Nat) :
    Gives left (takeItems element fuel) fun items => ∀ item ∈ items, holds item := by
  induction fuel with
  | zero => exact gives_pure (by simp)
  | succ fuel ih =>
    apply (gives_eat lasting ']').bind
    intro closed _
    apply gives_ite
    · exact gives_pure (by simp)
    apply each.bind
    intro first own
    apply (gives_eat lasting ',').bind
    intro comma _
    apply gives_ite
    · apply ih.bind
      intro others rest
      exact gives_pure (List.forall_mem_cons.mpr ⟨own, rest⟩)
    apply (gives_eat lasting ']').bind
    intro last _
    apply gives_ite
    · exact gives_pure (by simpa using own)
    · exact gives_fail _

theorem gives_takeFields (lasting : Lasting left) {marker : List Char}
    (named : Gives left (takeKey marker) key) (each : Gives left element holds) (fuel : Nat)
    {before : List (String × Literal)} (start : EachField key holds before) :
    Gives left (takeFields marker element fuel before) (EachField key holds) := by
  induction fuel generalizing before with
  | zero => exact gives_pure start
  | succ fuel ih =>
    apply (gives_eat lasting '\x7d').bind
    intro closed _
    apply gives_ite
    · exact gives_pure start
    apply named.bind
    intro name here
    apply (gives_eat lasting ':').bind
    intro colon _
    have rest : Gives left (do
        let value ← element
        let sofar := OrderedMap.put name value before
        if ← Scan.eat ',' then takeFields marker element fuel sofar
        else if ← Scan.eat '\x7d' then return sofar
        else Scan.fail .recordDelimiter) (EachField key holds) := by
      apply each.bind
      intro value own
      have grown := start.put here own
      apply (gives_eat lasting ',').bind
      intro comma _
      apply gives_ite
      · exact ih grown
      apply (gives_eat lasting '\x7d').bind
      intro last _
      apply gives_ite
      · exact gives_pure grown
      · exact gives_fail _
    split
    · exact rest
    · exact gives_fail_bind _ _

end

/-- The check of a key for being empty. -/
theorem gives_takeKey_of (lasting : Lasting left) {marker : List Char} {key : String → Prop}
    (quoted : Gives left takeQuoted fun text => text ≠ "" → key text)
    (bare : Gives left (takeBare keyStops marker) fun word =>
      String.ofList word ≠ "" → key (String.ofList word)) :
    Gives left (takeKey marker) key := by
  have checked (start : Cursor) {taken : Scan String}
      (gives : Gives left taken fun text => text ≠ "" → key text) :
      Gives left (do
        let key ← taken
        if key.isEmpty then Scan.failAt start .missingKey
        return key) key := by
    apply gives.bind
    intro text named
    by_cases empty : text.isEmpty = true
    · rw [if_pos empty]
      exact fun _ _ => trivial
    · rw [if_neg empty]
      exact gives_pure (named (by simpa using empty))
  apply (gives_skipBlank lasting).bind
  intro _ _
  apply gives_get.bind
  intro start _
  dsimp only
  split
  · exact checked start quoted
  · exact checked start quoted
  · exact checked start (bare.map fun _ named => named)

/-! ## Values -/

/-- What holds of the words, the texts and the keys that a lenient reader takes, and passes from
the parts to the whole. -/
structure Handed (words : Words) (left : Cursor → Prop) (key : String → Prop)
    (holds : Literal → Prop) : Prop where
  lasting : Lasting left
  quoted : Gives left takeQuoted fun text => holds (.string text)
  named : Gives left (takeKey words.marker) key
  word : Gives left (takeBare valueStops words.marker) fun word => holds (ofWord words.aliases word)
  list : ∀ items, (∀ item ∈ items, holds item) → holds (.list items)
  record : ∀ fields, EachField key holds fields → holds (.record fields)

variable {words : Words} {key : String → Prop} {holds : Literal → Prop}

/-- All that a lenient reader gives has the property, at any depth. -/
theorem Handed.lenient (handed : Handed words left key holds) (depth : Nat) :
    Gives left (lenient words depth) holds := by
  have lasting := handed.lasting
  induction depth with
  | zero => exact gives_fail _
  | succ depth ih =>
    apply (gives_skipBlank lasting).bind
    intro _ _
    apply gives_get.bind
    intro start _
    dsimp only
    split
    · exact handed.quoted.map fun _ own => own
    · exact handed.quoted.map fun _ own => own
    · apply (gives_forward lasting 1).bind
      intro _ _
      exact (gives_takeItems lasting ih _).map handed.list
    · apply (gives_forward lasting 1).bind
      intro _ _
      exact (gives_takeFields lasting handed.named ih _ .nil).map handed.record
    · apply handed.word.bind
      intro word own
      apply gives_ite
      · exact gives_throw _
      · exact gives_pure own

theorem Handed.takeLenient (handed : Handed words left key holds) :
    Gives left (takeLenient words) holds := by
  apply gives_get.bind
  intro start _
  exact handed.lenient _

end DocShapes.Literal
