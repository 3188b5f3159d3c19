import DocShapes.Proofs.LiteralOrigin
import DocShapes.Spec.Reader

/-! # What the specs of a text are like

A reader gives a spec or rejects a text, and either way there are specs that it has completed.
Every name in them is the canonical form of a word of the text and no keyword, every constant is
legible, and no sequence has a single item.
-/

namespace DocShapes

/-! ## Names and keys -/

namespace Name

theorem leading_leading (more : Char → Bool) (text : List Char) :
    leading more (leading more text) = leading more text := by
  cases text with
  | nil => rfl
  | cons c rest =>
    by_cases starts : startsSymbol c
    · simp only [leading, starts, if_true, List.takeWhile_idem]
    · simp [leading, starts]

theorem isSymbol_of_symbol {text : List Char} (nonempty : (symbol text).isEmpty = false) :
    isSymbol (String.ofList (symbol text)) = true := by
  have same : symbol (symbol text) = symbol text := leading_leading _ text
  simpa [isSymbol, same] using nonempty

/-- A text that a qualifier can have as its key. -/
def isKey (text : String) : Bool := !text.isEmpty && qualifierKey text.toList = text.toList

theorem isKey_of_qualifierKey {text : List Char} (nonempty : (qualifierKey text).isEmpty = false) :
    isKey (String.ofList (qualifierKey text)) = true := by
  have same : qualifierKey (qualifierKey text) = qualifierKey text := leading_leading _ text
  simpa [isKey, same] using nonempty

end Name

/-- The qualifiers that texts have. -/
structure Qualifiers.Legible (qualifiers : Qualifiers) : Prop where
  distinct : qualifiers.values.keys.Nodup
  keys : ∀ entry ∈ qualifiers.values.entries, Name.isKey entry.1 = true
  values : ∀ entry ∈ qualifiers.values.entries, entry.2.Legible

theorem Qualifiers.Legible.set {qualifiers : Qualifiers} (legible : qualifiers.Legible)
    {key : String} {value : Literal} (named : Name.isKey key = true) (own : value.Legible) :
    (qualifiers.set key value).Legible where
  distinct := OrderedMap.nodup_keys_set legible.distinct key value
  keys entry member := by
    rcases OrderedMap.mem_entries_set member with same | old
    · rwa [same]
    · exact legible.keys entry old
  values entry member := by
    rcases OrderedMap.mem_entries_set member with same | old
    · rwa [same]
    · exact legible.values entry old

theorem Qualifiers.legible_empty : Qualifiers.empty.Legible :=
  ⟨by simp [empty, OrderedMap.keys, OrderedMap.empty], by simp [empty, OrderedMap.empty],
    by simp [empty, OrderedMap.empty]⟩

namespace Spec

/-! ## Canonical specs -/

/-- The specs that texts have. -/
def Canonical (aliases : AliasTable) : Spec → Prop
  | .scalar name => name ∈ Name.scalars
  | .constant value => value.Legible
  | .named name => Name.keyword? name = none ∧
      ∃ word, Name.isSymbol word = true ∧ name = aliases.resolve word
  | .listOf item => Canonical aliases item
  | .referenceTo target => Canonical aliases target
  | .sequence _ items => items.length ≠ 1 ∧ each items
  | _ => True
where
  each : List Spec → Prop
    | [] => True
    | item :: rest => Canonical aliases item ∧ each rest

theorem canonical_each_iff {aliases : AliasTable} {items : List Spec} :
    Canonical.each aliases items ↔ ∀ item ∈ items, item.Canonical aliases := by
  induction items with
  | nil => simp [Canonical.each]
  | cons item rest ih => simp [Canonical.each, ih]

/-! ## Readings -/

/-- A reading gives something of which `done` holds, or completes specs of which `good` holds. -/
def Reads {α : Type} (good : Spec → Prop) (reading : Reading α) (done : α → Prop) : Prop :=
  match reading with
  | .ok found => done found
  | .error rejection => ∀ spec ∈ rejection.completed, good spec

section

variable {α β : Type} {good : Spec → Prop} {done : α → Prop}

theorem Reads.bind {reading : Reading α} {next : α → Reading β} {done' : β → Prop}
    (reads : Reads good reading done)
    (follows : ∀ found, done found → Reads good (next found) done') :
    Reads good (reading >>= next) done' := by
  cases reading with
  | ok found => exact follows found reads
  | error => exact reads

theorem Reads.after {reading : Reading α} {completed : List Spec}
    (before : ∀ spec ∈ completed, good spec) (reads : Reads good reading done) :
    Reads good (reading.after completed) done := by
  cases reading with
  | ok found => exact reads
  | error rejection =>
    intro spec member
    rcases List.mem_append.mp member with member | member
    · exact before spec member
    · exact reads spec member

theorem reads_reject {completed : List Spec} {error : Error}
    (before : ∀ spec ∈ completed, good spec) :
    Reads good (reject completed error : Reading α) done := before

theorem reads_ofScan {scan : Scan α} {cursor : Cursor}
    (ends : Ends scan cursor (fun found _ => done found) fun _ => True) :
    Reads good (Reader.ofScan scan cursor) fun found => done found.1 := by
  unfold Ends at ends
  unfold Reader.ofScan
  cases result : scan cursor with
  | ok found next =>
    rw [result] at ends
    exact ends
  | error => exact reads_reject (by simp)

end

/-! ## The grammar -/

section

variable {words : Literal.Words} {inner item : Reader Spec}

/-- Wherever a reader starts, the specs that it reads are canonical. -/
def ReadsCanonical (words : Literal.Words) (reader : Reader Spec) : Prop :=
  ∀ cursor, Reads (Canonical words.aliases) (reader cursor) fun found =>
    found.1.Canonical words.aliases

theorem reads_operands (canonical : ReadsCanonical words item) (fuel : Nat) (cursor : Cursor) :
    Reads (Canonical words.aliases) (operands item fuel cursor) fun found =>
      ∀ operand ∈ found.1, operand.2.Canonical words.aliases := by
  induction fuel generalizing cursor with
  | zero => simp [operands, Reads]
  | succ fuel ih =>
    simp only [operands]
    split
    · simp [Reads]
    · refine (canonical _).bind fun first firstCanonical => ?_
      refine ((ih first.2).after (by simpa using firstCanonical)).bind
        fun others othersCanonical => ?_
      simpa [Reads, firstCanonical] using othersCanonical

theorem readsCanonical_chain (canonical : ReadsCanonical words item) :
    ReadsCanonical words (chain item) := by
  intro cursor
  refine (canonical cursor).bind fun first firstCanonical => ?_
  refine ((reads_operands canonical _ first.2).after (by simpa using firstCanonical)).bind
    fun found othersCanonical => ?_
  obtain ⟨others, next⟩ := found
  cases others with
  | nil => exact firstCanonical
  | cons operand rest =>
    simp only [Reads, Canonical, canonical_each_iff, List.forall_mem_cons, List.forall_mem_map]
    exact ⟨by simp, firstCanonical, List.forall_mem_cons.mp othersCanonical⟩

theorem readsCanonical_closed (canonical : ReadsCanonical words inner) :
    ReadsCanonical words (closed inner) := by
  intro cursor
  refine (canonical cursor).bind fun found foundCanonical => ?_
  dsimp only
  split
  · exact foundCanonical
  · exact reads_reject (by simpa using foundCanonical)

theorem reads_argument (canonical : ReadsCanonical words inner) (cursor : Cursor) :
    Reads (Canonical words.aliases) (argument inner cursor) fun found =>
      ∀ spec ∈ found.1, spec.Canonical words.aliases := by
  unfold argument
  split
  · simp [Reads]
  · split
    · simp [Reads]
    · exact (readsCanonical_closed canonical _).bind fun found foundCanonical => by
        simpa [Reads] using foundCanonical

theorem keyword?_eq_scalar {name scalar : String}
    (found : Name.keyword? name = some (.scalar scalar)) : scalar ∈ Name.scalars := by
  unfold Name.keyword? at found
  split at found
  · rename_i member
    cases found
    exact member
  · split at found <;> cases found

theorem reads_ofKeyword (canonical : ReadsCanonical words inner) (cursor : Cursor)
    {name : String} {keyword : Name.Keyword} (found : Name.keyword? name = some keyword) :
    Reads (Canonical words.aliases) (ofKeyword inner cursor keyword) fun found =>
      found.1.Canonical words.aliases := by
  cases keyword with
  | scalar => exact keyword?_eq_scalar found
  | list =>
    refine (reads_argument canonical cursor).bind fun found foundCanonical => ?_
    obtain ⟨item?, next⟩ := found
    cases item? with
    | none => trivial
    | some item => exact foundCanonical item rfl
  | reference =>
    refine (reads_argument canonical cursor).bind fun found foundCanonical => ?_
    obtain ⟨target?, next⟩ := found
    cases target? with
    | none => trivial
    | some target => exact foundCanonical target rfl
  | record =>
    refine (reads_argument canonical cursor).bind fun found foundCanonical => ?_
    obtain ⟨field?, next⟩ := found
    cases field? with
    | none => trivial
    | some field => exact reads_reject (by simpa using foundCanonical)
  | null => exact ⟨rfl, .inl rfl⟩
  | true => exact ⟨rfl, .inl rfl⟩
  | false => exact ⟨rfl, .inl rfl⟩
  | oneof => exact ⟨by simp, trivial⟩
  | union => exact ⟨by simp, trivial⟩

theorem readsCanonical_atom (canonical : ReadsCanonical words inner) :
    ReadsCanonical words (atom words inner) := by
  intro cursor
  simp only [atom]
  split
  · exact readsCanonical_closed canonical _
  · split
    · refine (reads_ofScan (Literal.ends_constant?_legible words _)).bind fun found legible => ?_
      obtain ⟨value?, next⟩ := found
      cases value? with
      | none => exact reads_reject (by simp)
      | some value => exact legible value rfl
    · rename_i nonempty
      split
      · rename_i found
        exact reads_ofKeyword canonical _ found
      · rename_i other
        exact ⟨other, _, Name.isSymbol_of_symbol (by simpa using nonempty), rfl⟩

theorem readsCanonical_nested (depth : Nat) : ReadsCanonical words (nested words depth) := by
  induction depth with
  | zero => exact fun cursor => reads_reject (by simp)
  | succ depth ih => exact readsCanonical_chain (readsCanonical_atom ih)

theorem reads_qualifierValue (words : Literal.Words) (cursor : Cursor) :
    Reads (Canonical words.aliases) (qualifierValue words cursor) fun found => found.1.Legible := by
  unfold qualifierValue
  split
  · exact reads_ofScan (Literal.ends_value_legible words _)
  · exact ⟨rfl, .inl rfl⟩

theorem reads_qualifiers (fuel : Nat) {before : Qualifiers} (legible : before.Legible)
    (cursor : Cursor) :
    Reads (Canonical words.aliases) (qualifiers words fuel before cursor) fun found =>
      found.1.Legible := by
  induction fuel generalizing before cursor with
  | zero => exact legible
  | succ fuel ih =>
    simp only [qualifiers]
    split
    · exact legible
    · split
      · exact reads_reject (by simp)
      · split
        · exact reads_reject (by simp)
        · rename_i nonempty
          have named := Name.isKey_of_qualifierKey (by simpa using nonempty)
          refine (reads_qualifierValue words _).bind fun found own => ?_
          split
          · exact reads_reject (by simp)
          · exact ih (legible.set named own) _

end

/-! ## Whole texts -/

theorem reads_readFront (words : Literal.Words) (text : String) :
    Reads (Canonical words.aliases) (readFront words text) fun found =>
      found.1.Canonical words.aliases :=
  readsCanonical_nested _ _

theorem reads_read (words : Literal.Words) (text : String) :
    Reads (Canonical words.aliases) (read words text) fun found =>
      found.Canonical words.aliases := by
  refine (reads_readFront words text).bind fun found foundCanonical => ?_
  have ended : Reads (Canonical words.aliases) (expectEnd words found.2) fun _ => True := by
    unfold expectEnd
    dsimp only
    split
    · trivial
    · exact reads_reject (by simp)
  exact (ended.after (by simpa using foundCanonical)).bind fun _ _ => foundCanonical

theorem reads_readDeclaration (words : Literal.Words) (text : String) :
    Reads (Canonical words.aliases) (readDeclaration words text) fun found =>
      found.1.Canonical words.aliases ∧ found.2.Legible := by
  refine (reads_readFront words text).bind fun found foundCanonical => ?_
  exact ((reads_qualifiers _ Qualifiers.legible_empty _).after
    (by simpa using foundCanonical)).bind fun _ legible => ⟨foundCanonical, legible⟩

end Spec

end DocShapes
