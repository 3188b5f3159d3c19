import DocShapes.Proofs.Gains
import DocShapes.Proofs.Probing
import DocShapes.Proofs.Tokens

/-! # Texts are read within their bounds

Specs, qualifiers and declarations have probes on byte offsets, too, that mirror their readers. So
whatever text is read, wherever the reading starts, all places of it are boundaries of the text, all
slices exist, and an error is placed in the text (`readers_in_bounds`).
-/

namespace DocShapes

open Text (Boundary width)
open Literal (Words)
open Spec (Reader)

/-! ## Probes for specs -/

namespace Probe

variable (text : List Char)

def operands (atom : Probe Spec) : Nat → Probe (List (Connective × Spec))
  | 0 => return []
  | fuel + 1 => do
      let start ← position
      skipBlank text
      let next ← peek text
      match next.bind Connective.ofChar? with
      | none =>
          seek text start
          return []
      | some connective =>
          pass next.toList
          let item ← atom
          let others ← operands atom fuel
          return (connective, item) :: others

def chain (atom : Probe Spec) : Probe Spec := do
  let first ← atom
  let others ← operands text atom (← rest text).length
  match others with
  | [] => return first
  | (connective, _) :: _ => return .sequence connective (first :: others.map Prod.snd)

def closed (inner : Probe Spec) : Probe Spec := do
  let found ← inner
  if ← eat text ')' then return found
  else fail text .closingParenthesis

def argument (inner : Probe Spec) : Probe (Option Spec) := do
  if ← eat text '(' then
    if ← eat text ')' then return none
    else some <$> closed text inner
  else return none

def ofKeyword (inner : Probe Spec) : Name.Keyword → Probe Spec
  | .scalar name => return .scalar name
  | .null => return .constant .null
  | .true => return .constant (.boolean true)
  | .false => return .constant (.boolean false)
  | .oneof => return .sequence .oneof []
  | .union => return .sequence .union []
  | .list => do return (← argument text inner).elim .list .listOf
  | .reference => do return (← argument text inner).elim .reference .referenceTo
  | .record => do
      let start ← position
      match ← argument text inner with
      | none => return .record
      | some _ => throw (some (.structure (.recordArgument (start + 1))))

def atom (words : Words) (inner : Probe Spec) : Probe Spec := do
  skipBlank text
  let start ← position
  if (← peek text) = some '(' then
    pass ['(']
    closed text inner
  else
    let symbol := Name.symbol (← rest text)
    if symbol.isEmpty then
      match ← constant? text words with
      | some value => return .constant value
      | none => failAt text start .missingType
    else
      advance text (width symbol)
      let name := words.aliases.resolve (String.ofList symbol)
      match Name.keyword? name with
      | some keyword => ofKeyword text inner keyword
      | none => return .named name

def nested (words : Words) : Nat → Probe Spec
  | 0 => fail text .missingType
  | depth + 1 => chain text (atom text words (nested words depth))

def sequence (words : Words) : Probe Spec := do
  nested text words ((← rest text).length + 1)

def qualifierValue (words : Words) : Probe Literal := do
  if ← eat text ':' then
    skipBlank text
    value text words
  else return .boolean true

def qualifiers (words : Words) : Nat → Qualifiers → Probe Qualifiers
  | 0, before => return before
  | fuel + 1, before => do
      skipBlank text
      let here ← rest text
      if here.isEmpty || words.marker.isPrefixOf here then return before
      else if ← eat text ',' then
        skipBlank text
        let start ← position
        let key := Name.qualifierKey (← rest text)
        if key.isEmpty then failAt text start .missingQualifier
        else
          advance text (width key)
          let name := String.ofList key
          let value ← qualifierValue text words
          if before.contains name then failAt text start (.repeatedQualifier name)
          else qualifiers words fuel (before.set name value)
      else fail text .qualifierDelimiter

/-- The spec of a whole text with its qualifiers. -/
def declaration (words : Words) : Probe (Spec × Qualifiers) := do
  let spec ← sequence text words
  let found ← qualifiers text words ((← rest text).length + 1) .empty
  return (spec, found)

end Probe

/-! ## Specs -/

section Specs

variable {text : List Char} {place : Place} {cursor : Cursor}

variable {words : Words} {probe inner : Probe Spec} {reader within : Reader Spec}

/-- A probe that goes on behind a mark, or without it. -/
theorem mirrors_eat_cases {α : Type} {c : Char} {taken absent : Probe α}
    {reading : Spec.Reading (α × Cursor)} (here : Matches text place cursor)
    (ifTaken : ∀ next place, cursor.eat c = some next → Matches text place next →
      Mirrors text place next taken reading)
    (ifAbsent : ∀ place, cursor.eat c = none → Matches text place cursor →
      Mirrors text place cursor absent reading) :
    Mirrors text place cursor
      (Probe.eat text c >>= fun eaten => if eaten = true then taken else absent) reading := by
  have eaten := mirrors_eat here c
  cases next : cursor.eat c with
  | some next' =>
    rw [next] at eaten
    exact eaten.step fun place here => ifTaken _ place next here
  | none =>
    rw [next] at eaten
    exact eaten.step fun place here => ifAbsent place next here

theorem MirrorsReader.closed (mirrors : MirrorsReader text inner within) :
    MirrorsReader text (Probe.closed text inner) (Spec.closed within) := by
  intro place cursor here
  refine (mirrors here).bind fun found middle _ after here => ?_
  refine mirrors_eat_cases here (fun next place eaten here => ?_) fun place absent here => ?_
  · dsimp only
    rw [eaten]
    exact mirrors_pure here found
  · dsimp only
    rw [absent]
    exact mirrors_fail here _ _

theorem MirrorsReader.argument (mirrors : MirrorsReader text inner within) :
    MirrorsReader text (Probe.argument text inner) (Spec.argument within) := by
  intro place cursor here
  rw [Spec.argument]
  refine mirrors_eat_cases here (fun opened place eaten here => ?_) fun place absent here => ?_
  · rw [eaten]
    dsimp only
    refine mirrors_eat_cases here (fun next place eaten here => ?_) fun place absent here => ?_
    · rw [eaten]
      exact mirrors_pure here none
    · rw [absent]
      dsimp only
      rw [map_eq_pure_bind]
      exact (mirrors.closed here).bind fun found _ _ _ here => mirrors_pure here (some found)
  · rw [absent]
    exact mirrors_pure here none

theorem MirrorsReader.ofKeyword (mirrors : MirrorsReader text inner within)
    (here : Matches text place cursor) (keyword : Name.Keyword) :
    Mirrors text place cursor (Probe.ofKeyword text inner keyword)
      (Spec.ofKeyword within cursor keyword) := by
  cases keyword with
  | scalar name => exact mirrors_pure here _
  | null => exact mirrors_pure here _
  | true => exact mirrors_pure here _
  | false => exact mirrors_pure here _
  | oneof => exact mirrors_pure here _
  | union => exact mirrors_pure here _
  | list => exact (mirrors.argument here).bind fun item _ _ _ here => mirrors_pure here _
  | reference => exact (mirrors.argument here).bind fun target _ _ _ here => mirrors_pure here _
  | record =>
    refine (mirrors_position here).step fun place here => ?_
    refine (mirrors.argument here).bind fun field _ _ place here => ?_
    cases field with
    | none => exact mirrors_pure here _
    | some found => exact ⟨trivial, place, rfl, here.visited⟩

theorem MirrorsReader.atom (mirrors : MirrorsReader text inner within) (words : Words) :
    MirrorsReader text (Probe.atom text words inner) (Spec.atom words within) := by
  intro place cursor here
  rw [Spec.atom]
  refine (mirrors_skipBlank here).step fun place here => ?_
  refine (mirrors_position here).step fun place here => ?_
  refine (mirrors_peek here).step fun place here => ?_
  dsimp only
  refine mirrors_ite (fun parenthesis => ?_) fun _ => ?_
  · obtain ⟨behind, front⟩ := List.head?_eq_some_iff.mp parenthesis
    have taken : Mirrors text place cursor.skipBlank (Probe.pass ['('])
      (.ok ((), cursor.skipBlank.step)) := mirrors_pass here front
    exact taken.step fun place here => mirrors.closed here
  refine (mirrors_rest here).step fun place here => ?_
  refine mirrors_ite (fun empty => ?_) fun _ => ?_
  · refine (mirrors_constant? words here).bind fun value? middle _ place after => ?_
    cases value? with
    | some value => exact mirrors_pure after _
    | none => exact mirrors_failAt after here.whole _ []
  obtain ⟨behind, front⟩ := Name.leading_prefix Name.continuesSymbol cursor.skipBlank.rest
  refine (mirrors_advance here front.symm).step fun place here => ?_
  cases Name.keyword? (words.aliases.resolve
    (String.ofList (Name.symbol cursor.skipBlank.rest))) with
  | none => exact mirrors_pure here _
  | some keyword => exact mirrors.ofKeyword here keyword

theorem MirrorsReader.operands (mirrors : MirrorsReader text probe reader) (fuel : Nat) :
    MirrorsReader text (Probe.operands text probe fuel) (Spec.operands reader fuel) := by
  induction fuel with
  | zero => exact fun _ _ here => mirrors_pure here []
  | succ fuel ih =>
    intro place cursor here
    rw [Spec.operands]
    refine (mirrors_position here).step_back fun place here => ?_
    refine (mirrors_skipBlank here).step_back fun place blank => ?_
    have seen := (mirrors_peek blank).from_before cursor.position_le_skipBlank
    refine seen.step_back fun place blank => ?_
    dsimp only
    cases found : cursor.skipBlank.peek.bind Connective.ofChar? with
    | none =>
      have back := Text.boundary_iff.mp (here.whole ▸ cursor.boundary_position)
      exact (mirrors_seek blank here.whole back (Nat.le_refl _)).step
        fun _ here => mirrors_pure here []
    | some connective =>
      obtain ⟨c, peek, mark⟩ := Option.bind_eq_some_iff.mp found
      obtain ⟨behind, front⟩ := List.head?_eq_some_iff.mp peek
      have taken : Mirrors text place cursor.skipBlank (Probe.pass cursor.skipBlank.peek.toList)
          (.ok ((), cursor.skipBlank.step)) := by
        rw [peek]
        exact mirrors_pass blank front
      refine (taken.from_before cursor.position_le_skipBlank).step fun _ here => ?_
      refine (mirrors here).bind fun item _ _ _ here => ?_
      exact ((ih here).after [item]).bind fun others _ _ _ here => mirrors_pure here _

theorem MirrorsReader.chain (mirrors : MirrorsReader text probe reader) :
    MirrorsReader text (Probe.chain text probe) (Spec.chain reader) := by
  intro place cursor here
  refine (mirrors here).bind fun first _ _ _ here => ?_
  refine (mirrors_rest here).step fun _ here => ?_
  refine ((mirrors.operands _ here).after [first]).bind fun others _ _ _ here => ?_
  cases others with
  | nil => exact mirrors_pure here first
  | cons => exact mirrors_pure here _

theorem mirrors_nested (words : Words) (depth : Nat) :
    MirrorsReader text (Probe.nested text words depth) (Spec.nested words depth) := by
  induction depth with
  | zero => exact fun _ _ here => mirrors_fail here _ []
  | succ depth ih => exact (ih.atom words).chain

theorem mirrors_sequence (words : Words) :
    MirrorsReader text (Probe.sequence text words) (Spec.sequenceAt words) :=
  fun _ _ here => (mirrors_rest here).step fun _ here => mirrors_nested words _ here

/-! ## Qualifiers -/

theorem mirrors_qualifierValue (words : Words) :
    MirrorsReader text (Probe.qualifierValue text words) (Spec.qualifierValue words) := by
  intro place cursor here
  rw [Spec.qualifierValue]
  refine mirrors_eat_cases here (fun next place eaten here => ?_) fun place absent here => ?_
  · rw [eaten]
    exact (mirrors_skipBlank here).step fun _ here => mirrors_value words here
  · rw [absent]
    exact mirrors_pure here _

theorem mirrors_qualifiers (words : Words) (fuel : Nat) (before : Qualifiers) :
    MirrorsReader text (Probe.qualifiers text words fuel before)
      (Spec.qualifiers words fuel before) := by
  induction fuel generalizing before with
  | zero => exact fun _ _ here => mirrors_pure here before
  | succ fuel ih =>
    intro place cursor here
    rw [Spec.qualifiers]
    refine (mirrors_skipBlank here).step fun place here => ?_
    refine (mirrors_rest here).step fun place here => ?_
    refine mirrors_ite (fun _ => mirrors_pure here before) fun _ => ?_
    refine mirrors_eat_cases here (fun behind place eaten here => ?_) fun place absent here => ?_
    · rw [eaten]
      refine (mirrors_skipBlank here).step fun place start => ?_
      refine (mirrors_position start).step fun place start => ?_
      refine (mirrors_rest start).step fun place start => ?_
      refine mirrors_ite (fun _ => mirrors_failAt start start.whole _ []) fun _ => ?_
      obtain ⟨more, front⟩ := Name.leading_prefix
        (fun c => Name.continuesSymbol c || c = '-') behind.skipBlank.rest
      refine (mirrors_advance start front.symm).step fun place here => ?_
      refine (mirrors_qualifierValue words here).bind fun value _ _ place here => ?_
      refine mirrors_ite (fun _ => mirrors_failAt here ?_ _ []) fun _ => ih _ here
      exact start.whole
    · rw [absent]
      exact mirrors_fail here _ []

/-! ## Declarations -/

/-- A declaration with the cursor behind it. -/
def Spec.declarationAt (words : Words) : Reader (Spec × Qualifiers) := fun cursor => do
  let (spec, cursor) ← Spec.sequenceAt words cursor
  let (found, cursor) ←
    (Spec.qualifiers words (cursor.rest.length + 1) .empty cursor).after [spec]
  .ok ((spec, found), cursor)

theorem mirrors_declaration (words : Words) :
    MirrorsReader text (Probe.declaration text words) (Spec.declarationAt words) := by
  intro place cursor here
  refine (mirrors_sequence words here).bind fun spec _ _ _ here => ?_
  refine (mirrors_rest here).step fun _ here => ?_
  refine ((mirrors_qualifiers words _ _ here).after [spec]).bind fun found _ _ _ here => ?_
  exact mirrors_pure here (spec, found)

theorem readDeclaration_eq (words : Words) (text : String) :
    Spec.readDeclaration words text =
      (Spec.declarationAt words (.ofString text)).map Prod.fst := by
  rw [Spec.readDeclaration, Spec.declarationAt, Spec.readFront]
  cases Spec.sequenceAt words (.ofString text) with
  | error => rfl
  | ok first =>
    obtain ⟨spec, cursor⟩ := first
    show (Spec.Reading.after [spec] _ >>= _) =
      Except.map Prod.fst (Spec.Reading.after [spec] _ >>= _)
    cases Spec.qualifiers words (cursor.rest.length + 1) .empty cursor <;> rfl

/-- The probe of a whole declaration ends as the reading does, at boundaries only. -/
theorem declaration_in_bounds (words : Words) (text : String) :
    match Spec.readDeclaration words text with
    | .ok found => ∃ after, Probe.declaration text.toList words .start = .ok found after ∧
        ∀ position ∈ after.visited, Boundary text.toList position
    | .error rejection => rejection.error.PlacedIn text.toList ∧ ∃ after,
        Probe.declaration text.toList words .start = .error (some rejection.error) after ∧
          ∀ position ∈ after.visited, Boundary text.toList position := by
  have mirrors := mirrors_declaration words (Matches.start text.toList)
  rw [readDeclaration_eq, Cursor.ofString]
  cases read : Spec.declarationAt words (.ofList text.toList) with
  | ok result =>
    rw [read] at mirrors
    obtain ⟨_, after, ended, here⟩ := mirrors
    exact ⟨after, ended, here.visited⟩
  | error rejection =>
    rw [read] at mirrors
    exact mirrors

end Specs

/-- No constant is found only where none begins, and then the cursor stays. -/
theorem eq_of_constant?_none {words : Words} {cursor next : Cursor}
    (read : Literal.constant? words cursor = .ok none next) : next = cursor := by
  rcases Literal.front_cases cursor.rest with other | ⟨c, rest, front, mark⟩ |
    ⟨c, rest, front, digit, decimal⟩ | ⟨c, rest, front, opening⟩
  · rw [Literal.constant?_other other] at read
    cases read
    rfl
  · rw [Literal.constant?_hex front mark, Literal.map_eq_ok_iff] at read
    obtain ⟨_, _, same⟩ := read
    cases same
  · rw [Literal.constant?_number front digit decimal] at read
    obtain ⟨found?, _, _, after⟩ := of_bind_eq_ok read
    cases found? <;> cases after
  · rw [Literal.constant?_opening front opening] at read
    obtain ⟨found?, _, _, after⟩ := of_bind_eq_ok read
    cases found? with
    | none =>
      obtain ⟨_, _, same⟩ := Literal.map_eq_ok_iff.mp after
      cases same
    | some => cases after

namespace Catalog

/-- The catalog takes a declaration exactly as it is read. -/
theorem parseDeclaration_cases (catalog : Catalog) (text : String) :
    match parseDeclaration text catalog with
    | .ok (_, found) _ => ∃ spec, Spec.readDeclaration catalog.words text = .ok (spec, found)
    | .error error _ =>
        ∃ completed, Spec.readDeclaration catalog.words text = .error ⟨error, completed⟩ := by
  cases read : Spec.readDeclaration catalog.words text with
  | ok result =>
    obtain ⟨spec, found⟩ := result
    obtain ⟨id, after, made, _⟩ := (@ends_elaborate_gains spec catalog).exists_ok
    have accepted : parseDeclaration text catalog = .ok (id, found) after := by
      rw [parseDeclaration, get_bind, read]
      exact bind_of_ok made
    rw [accepted]
    exact ⟨spec, rfl⟩
  | error rejection =>
    obtain ⟨_, after, made, _⟩ :=
      (@ends_elaborateEach_gains rejection.completed catalog).exists_ok
    have rejected : parseDeclaration text catalog = .error rejection.error after := by
      rw [parseDeclaration, get_bind, read, accept]
      simp only [bind, EStateM.bind, made]
      rfl
    rw [rejected]
    exact ⟨rejection.completed, rfl⟩

/-- Wherever the reading of constants and values starts, and whatever declaration is parsed, the
text is read within its bounds. A reading that succeeds does not end in front of its start, where no
constant begins the cursor stays, and each error is placed in the text. -/
theorem readers_in_bounds (text : String) (words : Words) (target : Nat) (catalog : Catalog) :
    (∃ place, Probe.seek text.toList target .start = .ok () place ∧
      Matches text.toList place ((Cursor.ofString text).seek target) ∧
      Mirrors text.toList place ((Cursor.ofString text).seek target)
        (Probe.constant? text.toList words)
        (Reader.ofScan (Literal.constant? words) ((Cursor.ofString text).seek target)) ∧
      Mirrors text.toList place ((Cursor.ofString text).seek target)
        (Probe.value text.toList words)
        (Reader.ofScan (Literal.value words) ((Cursor.ofString text).seek target))) ∧
    (∀ next, Literal.constant? words ((Cursor.ofString text).seek target) = .ok none next →
      next = (Cursor.ofString text).seek target) ∧
    match parseDeclaration text catalog with
    | .ok (_, found) _ => ∃ spec after,
        Spec.readDeclaration catalog.words text = .ok (spec, found) ∧
          Probe.declaration text.toList catalog.words .start = .ok (spec, found) after ∧
            ∀ position ∈ after.visited, Boundary text.toList position
    | .error error _ => error.PlacedIn text.toList ∧ ∃ after,
        Probe.declaration text.toList catalog.words .start = .error (some error) after ∧
          ∀ position ∈ after.visited, Boundary text.toList position := by
  have start := Matches.start text.toList
  obtain ⟨_, place, sought, here⟩ : Mirrors text.toList .start (.ofString text)
      (Probe.seek text.toList target) (.ok ((), (Cursor.ofString text).seek target)) := by
    refine mirrors_seek start (Cursor.text_seek _ _) ?_ (Nat.zero_le _)
    rw [Cursor.position_seek]
    rfl
  refine ⟨⟨place, sought, here, mirrors_constant? words here, mirrors_value words here⟩,
    fun next => eq_of_constant?_none, ?_⟩
  have bounds := declaration_in_bounds catalog.words text
  have read := parseDeclaration_cases catalog text
  cases parsed : parseDeclaration text catalog with
  | ok result =>
    rw [parsed] at read
    obtain ⟨spec, same⟩ := read
    rw [same] at bounds
    obtain ⟨after, ended, visited⟩ := bounds
    exact ⟨spec, after, same, ended, visited⟩
  | error error =>
    rw [parsed] at read
    obtain ⟨completed, same⟩ := read
    rw [same] at bounds
    exact bounds

end Catalog

end DocShapes
