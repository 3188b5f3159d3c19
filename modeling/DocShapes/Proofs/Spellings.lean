import DocShapes.Proofs.Arena

/-! # Tables of spellings

The two maps of a table are inverse to each other, and no name is on both sides (`Flat`). An entry
is made as a whole or not at all, so every table that calls can make is flat: the canonical name of
a spelling is final.
-/

namespace DocShapes.AliasTable

/-! ## Flat tables -/

/-- The two maps of the table agree, and one look-up resolves a name for good. -/
structure Flat (table : AliasTable) : Prop where
  /-- A name is listed under the name that it stands for, and under no other. -/
  inverse : ∀ spelling target,
    spelling ∈ table.spellings target ↔ table.target? spelling = some target
  /-- A spelling has no spellings. -/
  apart : ∀ name, table.isSpelling name = true → table.hasSpellings name = false
  /-- The empty name is on neither side. -/
  written : ∀ spelling target, table.target? spelling = some target →
    spelling ≠ "" ∧ target ≠ ""

variable {table grown : AliasTable} {spelling target name : String}

theorem target?_eq_none_iff : table.target? name = none ↔ table.isSpelling name = false := by
  simp [target?, isSpelling, OrderedMap.contains]

theorem spellings_of_not_hasSpellings (unlisted : table.hasSpellings name = false) :
    table.spellings name = [] := by
  have absent : table.words.get? name = none := by
    simpa [hasSpellings, OrderedMap.contains] using unlisted
  rw [spellings, absent, Option.getD_none]

theorem resolve_of_not_isSpelling (free : table.isSpelling name = false) :
    table.resolve name = name := by
  rw [resolve, target?_eq_none_iff.mpr free, Option.getD_none]

namespace Flat

theorem target?_target (flat : table.Flat) (found : table.target? spelling = some target) :
    table.target? target = none := by
  rw [target?_eq_none_iff, Bool.eq_false_iff]
  intro spelled
  have listed := (flat.inverse spelling target).mpr found
  rw [spellings_of_not_hasSpellings (flat.apart target spelled)] at listed
  exact List.not_mem_nil listed

theorem ne_target (flat : table.Flat) (found : table.target? spelling = some target) :
    spelling ≠ target := by
  intro same
  subst same
  exact absurd (flat.target?_target found) (by simp [found])

theorem not_isSpelling_resolve (flat : table.Flat) (word : String) :
    table.isSpelling (table.resolve word) = false := by
  rw [← target?_eq_none_iff]
  cases found : table.target? word with
  | none => rwa [resolve, found, Option.getD_none]
  | some target =>
    rw [resolve, found, Option.getD_some]
    exact flat.target?_target found

theorem resolve_resolve (flat : table.Flat) (word : String) :
    table.resolve (table.resolve word) = table.resolve word :=
  resolve_of_not_isSpelling (flat.not_isSpelling_resolve word)

end Flat

theorem flat_empty : empty.Flat where
  inverse spelling target := by simp [spellings, target?, empty]
  apart name spelled := by simp [isSpelling, OrderedMap.contains, empty] at spelled
  written spelling target found := by simp [target?, empty] at found

/-! ## One entry -/

/-- The table with an entry on both sides. -/
def entered (table : AliasTable) (spelling target : String) : AliasTable where
  targets := table.targets.set spelling target
  words := table.words.set target (insertWord spelling (table.spellings target))

/-- The entry is new, and neither of its names is on the wrong side. -/
structure Enterable (table : AliasTable) (spelling target : String) : Prop where
  written : spelling ≠ "" ∧ target ≠ ""
  different : spelling ≠ target
  unspelled : table.target? spelling = none
  unlisted : table.hasSpellings spelling = false
  final : table.target? target = none

theorem ends_enter (spelling target : String) (table : AliasTable) :
    Ends (enter spelling target) table
      (fun _ after => table.target? spelling = some target ∧ after = table ∨
        table.Enterable spelling target ∧ after = table.entered spelling target)
      (· = table) := by
  simp only [enter, ends_bind, ends_get]
  apply ends_ite
  · intro _
    exact rfl
  intro written
  apply ends_ite
  · intro _
    exact rfl
  intro different
  have written : spelling ≠ "" ∧ target ≠ "" := by simpa using written
  cases unspelled : table.target? spelling with
  | some existing =>
    by_cases same : existing = target
    · subst same
      simp
    · simp [same]
  | none =>
    apply ends_ite
    · intro _
      exact rfl
    intro unlisted
    cases final : table.target? target with
    | some existing => exact rfl
    | none =>
      apply Or.inr
      exact ⟨⟨written, different, unspelled, by simpa using unlisted, final⟩, rfl⟩

@[simp] theorem mem_insertWord {word other : String} {others : List String} :
    other ∈ insertWord word others ↔ other = word ∨ other ∈ others := by
  unfold insertWord
  split
  · rename_i present
    have present : word ∈ others := by simpa using present
    constructor
    · exact .inr
    · rintro (rfl | member)
      · exact present
      · exact member
  · rw [(perm_insertBy _ word others).mem_iff, List.mem_cons]

theorem target?_entered (table : AliasTable) (spelling target name : String) :
    (table.entered spelling target).target? name =
      if spelling = name then some target else table.target? name :=
  OrderedMap.get?_set table.targets spelling name target

theorem spellings_entered (table : AliasTable) (spelling target name : String) :
    (table.entered spelling target).spellings name =
      if target = name then insertWord spelling (table.spellings name)
      else table.spellings name := by
  rw [spellings, entered, OrderedMap.get?_set]
  split
  · rename_i same
    rw [same, Option.getD_some]
  · rfl

theorem hasSpellings_entered (table : AliasTable) (spelling target name : String) :
    (table.entered spelling target).hasSpellings name =
      if target = name then true else table.hasSpellings name := by
  rw [hasSpellings, OrderedMap.contains, entered, OrderedMap.get?_set]
  split <;> rfl

theorem isSpelling_entered_of_ne (different : spelling ≠ name) :
    (table.entered spelling target).isSpelling name = table.isSpelling name := by
  rw [isSpelling, OrderedMap.contains, ← target?, target?_entered, if_neg different]
  rfl

theorem Flat.entered (flat : table.Flat) (fits : table.Enterable spelling target) :
    (table.entered spelling target).Flat where
  inverse other name := by
    rw [target?_entered, spellings_entered]
    by_cases own : spelling = other
    · subst own
      rw [if_pos rfl]
      by_cases same : target = name
      · simp [same]
      · -- The new spelling stood for nothing before, so no other name lists it.
        have absent : spelling ∉ table.spellings name := by
          rw [flat.inverse, fits.unspelled]
          simp
        simp [same, absent]
    · rw [if_neg own, ← flat.inverse]
      split
      · simp [Ne.symm own]
      · rfl
  apart name spelled := by
    rw [hasSpellings_entered]
    by_cases own : spelling = name
    · subst own
      rw [if_neg fits.different.symm]
      exact fits.unlisted
    · rw [isSpelling_entered_of_ne own] at spelled
      have other : target ≠ name := by
        intro same
        subst same
        rw [target?_eq_none_iff.mp fits.final] at spelled
        cases spelled
      rw [if_neg other]
      exact flat.apart name spelled
  written other name found := by
    rw [target?_entered] at found
    split at found
    · rename_i own
      cases found
      exact own ▸ fits.written
    · exact flat.written other name found

/-! ## Calls -/

theorem Flat.enter (flat : table.Flat) (spelling target : String) :
    (leaves (enter spelling target) table).Flat := by
  apply ends_leaves_iff.mp
  apply (ends_enter spelling target table).mono
  · intro _ after change
    rcases change with ⟨_, same⟩ | ⟨fits, same⟩
    · exact same ▸ flat
    · exact same ▸ flat.entered fits
  · intro after same
    exact same ▸ flat

theorem add_eq_ok_iff :
    table.add spelling target = .ok grown ↔ AliasTable.enter spelling target table = .ok () grown := by
  unfold add
  cases AliasTable.enter spelling target table <;> simp

theorem flat_add (flat : table.Flat) (added : table.add spelling target = .ok grown) :
    grown.Flat := by
  have kept := flat.enter spelling target
  rwa [leaves, add_eq_ok_iff.mp added] at kept

theorem isSpelling_add (added : table.add spelling target = .ok grown)
    (different : spelling ≠ name) : grown.isSpelling name = table.isSpelling name := by
  rcases (ends_enter spelling target table).of_ok (add_eq_ok_iff.mp added) with
    ⟨_, same⟩ | ⟨_, same⟩
  · rw [same]
  · rw [same, isSpelling_entered_of_ne different]

/-- Repeating an entry succeeds and changes nothing. -/
theorem Flat.enter_again (flat : table.Flat) (found : table.target? spelling = some target) :
    AliasTable.enter spelling target table = .ok () table := by
  have named : (spelling.isEmpty || target.isEmpty) = false := by
    simpa using flat.written spelling target found
  have different := flat.ne_target found
  unfold AliasTable.enter
  rw [get_bind]
  simp only [named, different, found, ↓reduceIte, Bool.false_eq_true]
  rfl

/-- The table after some calls, whether they succeed or fail. -/
def enterAll (table : AliasTable) (calls : List (String × String)) : AliasTable :=
  calls.foldl (fun table call => leaves (AliasTable.enter call.1 call.2) table) table

theorem Flat.enterAll (flat : table.Flat) (calls : List (String × String)) :
    (table.enterAll calls).Flat := by
  induction calls generalizing table with
  | nil => exact flat
  | cons call rest ih => exact ih (flat.enter call.1 call.2)

/-- The built-in spellings are what adding them one after the other gives. -/
theorem enterAll_builtinEntries :
    empty.enterAll (builtinEntries.flatMap fun (name, spellings) =>
      spellings.map fun word => (word, name)) = builtin := by
  decide +kernel

theorem flat_builtin : builtin.Flat :=
  enterAll_builtinEntries ▸ flat_empty.enterAll _

/-- Whatever calls are made on the empty or the built-in table: the two maps are inverse to each
other, no spelling has spellings, and one look-up is final; and the next call writes an entry for
its own spelling only, or nothing when it is refused or repeats an entry. -/
theorem enterAll_laws {start : AliasTable} (origin : start = empty ∨ start = builtin)
    (calls : List (String × String)) :
    let table := start.enterAll calls
    (∀ spelling target, spelling ∈ table.spellings target ↔
        table.target? spelling = some target) ∧
      (∀ name, table.isSpelling name = true →
        table.hasSpellings name = false ∧ table.spellings name = []) ∧
      (∀ name, table.resolve (table.resolve name) = table.resolve name) ∧
      ∀ spelling target,
        (table.target? spelling = some target →
          AliasTable.enter spelling target table = .ok () table) ∧
        Ends (AliasTable.enter spelling target) table
          (fun _ after => after.resolve spelling = target ∧
            ∀ name, name ≠ spelling → after.resolve name = table.resolve name ∧
              after.resolveWord name = table.resolveWord name)
          (· = table) := by
  intro table
  have flat : table.Flat := by
    rcases origin with rfl | rfl
    · exact flat_empty.enterAll calls
    · exact flat_builtin.enterAll calls
  refine ⟨flat.inverse, ?_, flat.resolve_resolve, ?_⟩
  · intro name spelled
    have unlisted := flat.apart name spelled
    exact ⟨unlisted, spellings_of_not_hasSpellings unlisted⟩
  intro spelling target
  refine ⟨flat.enter_again, ?_⟩
  apply (ends_enter spelling target table).imp
  intro _ after change
  rcases change with ⟨found, same⟩ | ⟨_, same⟩
  · subst same
    exact ⟨by simp [resolve, found], by simp⟩
  · subst same
    refine ⟨by simp [resolve, target?_entered], fun name other => ?_⟩
    simp [resolve, resolveWord, target?_entered, Ne.symm other]

/-- An entry, another target for it, a chain and a repetition, on top of the built-in spellings. -/
theorem enterAll_laws_mixed :
    let table := builtin.enterAll
      [("i32", "integer"), ("i32", "number"), ("integer", "whole"), ("i32", "integer")]
    table.spellings "integer" = ["i32", "int", "long"] ∧ table.target? "i32" = some "integer" ∧
      table.hasSpellings "i32" = false ∧
      table.resolve (table.resolve "i32") = table.resolve "i32" ∧
      AliasTable.enter "i32" "integer" table = .ok () table := by
  intro table
  have laws := enterAll_laws (.inr rfl)
    [("i32", "integer"), ("i32", "number"), ("integer", "whole"), ("i32", "integer")]
  obtain ⟨inverse, apart, final, call⟩ := laws
  have listed : table.spellings "integer" = ["i32", "int", "long"] := by decide +kernel
  have target : table.target? "i32" = some "integer" := by
    apply (inverse "i32" "integer").mp
    exact listed ▸ List.mem_cons_self
  exact ⟨listed, target, (apart "i32" (by decide +kernel)).1, final "i32",
    (call "i32" "integer").1 target⟩

end DocShapes.AliasTable
