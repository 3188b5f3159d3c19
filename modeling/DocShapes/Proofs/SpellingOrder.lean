import DocShapes.Catalog.Registration
import DocShapes.Proofs.Spellings

/-! # Spellings in any order

Whether a table takes a list of entries depends on the entries alone: no name may stand for two
names, and none may be on both sides (`Compatible`). So the order of the entries does not matter,
neither for being taken nor for what names resolve to (`addAll_perm`).
-/

namespace DocShapes

namespace AliasTable

variable {table grown : AliasTable} {spelling target name : String}
  {entry : String × String} {entries others : List (String × String)}

/-- The table with all entries, each a spelling and its name, unless one of them is refused. -/
def addAll (table : AliasTable) (entries : List (String × String)) : Except Error AliasTable :=
  entries.foldlM (fun table entry => table.add entry.1 entry.2) table

theorem addAll_cons :
    table.addAll (entry :: entries) = .ok grown ↔
      ∃ middle, table.add entry.1 entry.2 = .ok middle ∧ middle.addAll entries = .ok grown := by
  rw [addAll, List.foldlM_cons]
  cases table.add entry.1 entry.2 with
  | error error => simp [bind, Except.bind]
  | ok middle => simp [bind, Except.bind, addAll]

/-! ## One entry -/

theorem Enterable.enter_eq (fits : table.Enterable spelling target) :
    AliasTable.enter spelling target table = .ok () (table.entered spelling target) := by
  have named : (spelling.isEmpty || target.isEmpty) = false := by simpa using fits.written
  unfold AliasTable.enter
  rw [get_bind]
  simp only [named, fits.different, fits.unspelled, fits.unlisted, fits.final, Bool.false_eq_true,
    if_false]
  rfl

/-- An entry is taken if it is there already or fits, and only then. -/
theorem Flat.add_eq_ok_iff (flat : table.Flat) :
    table.add spelling target = .ok grown ↔
      table.target? spelling = some target ∧ grown = table ∨
        table.Enterable spelling target ∧ grown = table.entered spelling target := by
  rw [AliasTable.add_eq_ok_iff]
  constructor
  · exact fun entered => (ends_enter spelling target table).of_ok entered
  · rintro (⟨found, rfl⟩ | ⟨fits, rfl⟩)
    · exact flat.enter_again found
    · exact fits.enter_eq

/-! ## Compatible entries -/

/-- The entries and those of the table agree: no name stands for two names, and none is on both
sides. -/
structure Compatible (table : AliasTable) (entries : List (String × String)) : Prop where
  written : ∀ entry ∈ entries, entry.1 ≠ "" ∧ entry.2 ≠ ""
  single : ∀ entry ∈ entries, ∀ other ∈ entries, entry.1 = other.1 → entry.2 = other.2
  apart : ∀ entry ∈ entries, ∀ other ∈ entries, entry.1 ≠ other.2
  known : ∀ entry ∈ entries, ∀ target, table.target? entry.1 = some target → entry.2 = target
  unlisted : ∀ entry ∈ entries, table.hasSpellings entry.1 = false
  final : ∀ entry ∈ entries, table.target? entry.2 = none

theorem Compatible.perm (compatible : table.Compatible entries) (perm : entries.Perm others) :
    table.Compatible others where
  written entry inside := compatible.written entry (perm.mem_iff.mpr inside)
  single entry inside other within :=
    compatible.single entry (perm.mem_iff.mpr inside) other (perm.mem_iff.mpr within)
  apart entry inside other within :=
    compatible.apart entry (perm.mem_iff.mpr inside) other (perm.mem_iff.mpr within)
  known entry inside := compatible.known entry (perm.mem_iff.mpr inside)
  unlisted entry inside := compatible.unlisted entry (perm.mem_iff.mpr inside)
  final entry inside := compatible.final entry (perm.mem_iff.mpr inside)

theorem compatible_nil (table : AliasTable) : table.Compatible [] := by
  constructor <;> simp

/-- An entry that is there already agrees with all that the table agrees with. -/
theorem Flat.compatible_cons_known (flat : table.Flat)
    (found : table.target? entry.1 = some entry.2) :
    table.Compatible (entry :: entries) ↔ table.Compatible entries := by
  have listed : table.hasSpellings entry.2 = true := by
    cases some : table.hasSpellings entry.2 with
    | true => rfl
    | false =>
      have member := (flat.inverse entry.1 entry.2).mpr found
      rw [spellings_of_not_hasSpellings some] at member
      cases member
  constructor
  · rintro ⟨written, single, apart, known, unlisted, final⟩
    simp only [List.forall_mem_cons] at *
    exact ⟨written.2, fun other inside => (single.2 other inside).2,
      fun other inside => (apart.2 other inside).2, known.2, unlisted.2, final.2⟩
  · intro compatible
    have different := flat.ne_target found
    have spelled : table.isSpelling entry.1 = true := by
      rw [isSpelling, OrderedMap.contains, ← target?, found]
      rfl
    refine ⟨?_, ?_, ?_, ?_, ?_, ?_⟩ <;> simp only [List.forall_mem_cons]
    · exact ⟨flat.written _ _ found, compatible.written⟩
    · refine ⟨⟨fun _ => trivial, fun other inside same => ?_⟩, fun other inside => ⟨fun same => ?_, ?_⟩⟩
      · exact (compatible.known other inside _ (same ▸ found)).symm
      · exact compatible.known other inside _ (same ▸ found)
      · exact compatible.single other inside
    · refine ⟨⟨different, fun other inside same => ?_⟩, fun other inside => ⟨fun same => ?_, ?_⟩⟩
      · have free := compatible.final other inside
        rw [← same, found] at free
        cases free
      · have bare := compatible.unlisted other inside
        rw [same, listed] at bare
        cases bare
      · exact compatible.apart other inside
    · refine ⟨fun target same => ?_, compatible.known⟩
      rw [found] at same
      exact Option.some.inj same
    · exact ⟨flat.apart entry.1 spelled, compatible.unlisted⟩
    · exact ⟨flat.target?_target found, compatible.final⟩

/-- Once an entry is made, the others agree with it if they agree with the grown table. -/
theorem Enterable.compatible_entered (fits : table.Enterable entry.1 entry.2) :
    (table.entered entry.1 entry.2).Compatible entries ↔ table.Compatible (entry :: entries) := by
  have target (name : String) : (table.entered entry.1 entry.2).target? name =
      if entry.1 = name then some entry.2 else table.target? name := target?_entered ..
  have listed (name : String) : (table.entered entry.1 entry.2).hasSpellings name =
      if entry.2 = name then true else table.hasSpellings name := hasSpellings_entered ..
  obtain ⟨written, different, unspelled, unlisted, final⟩ := fits
  constructor
  · rintro ⟨allWritten, single, apart, known, allUnlisted, allFinal⟩
    constructor <;> grind
  · rintro ⟨allWritten, single, apart, known, allUnlisted, allFinal⟩
    constructor <;> grind

theorem Compatible.enterable (compatible : table.Compatible (entry :: entries))
    (unspelled : table.target? entry.1 = none) : table.Enterable entry.1 entry.2 where
  written := compatible.written entry List.mem_cons_self
  different := compatible.apart entry List.mem_cons_self entry List.mem_cons_self
  unspelled := unspelled
  unlisted := compatible.unlisted entry List.mem_cons_self
  final := compatible.final entry List.mem_cons_self

/-- Compatible entries are taken, and no others. -/
theorem Flat.addAll_iff (flat : table.Flat) :
    (∃ grown, table.addAll entries = .ok grown) ↔ table.Compatible entries := by
  induction entries generalizing table with
  | nil => exact iff_of_true ⟨table, rfl⟩ (compatible_nil table)
  | cons entry rest ih =>
    simp only [addAll_cons]
    constructor
    · rintro ⟨grown, middle, first, others⟩
      have later := (ih (flat_add flat first)).mp ⟨grown, others⟩
      rcases flat.add_eq_ok_iff.mp first with ⟨found, rfl⟩ | ⟨fits, rfl⟩
      · exact (flat.compatible_cons_known found).mpr later
      · exact fits.compatible_entered.mp later
    · intro compatible
      cases found : table.target? entry.1 with
      | some target =>
        obtain rfl := compatible.known entry List.mem_cons_self target found
        obtain ⟨grown, others⟩ := (ih flat).mpr ((flat.compatible_cons_known found).mp compatible)
        exact ⟨grown, table, flat.add_eq_ok_iff.mpr (.inl ⟨found, rfl⟩), others⟩
      | none =>
        have fits := compatible.enterable found
        have further := fits.compatible_entered.mpr compatible
        obtain ⟨grown, others⟩ := (ih (flat.entered fits)).mpr further
        exact ⟨grown, _, flat.add_eq_ok_iff.mpr (.inr ⟨fits, rfl⟩), others⟩

/-! ## What names stand for -/

/-- A name stands for what an entry or the table says, and for nothing else. -/
theorem Flat.target?_addAll (flat : table.Flat) (added : table.addAll entries = .ok grown) :
    grown.target? name = some target ↔
      (name, target) ∈ entries ∨ table.target? name = some target := by
  induction entries generalizing table with
  | nil =>
    cases added
    simp
  | cons entry rest ih =>
    obtain ⟨middle, first, others⟩ := addAll_cons.mp added
    rw [ih (flat_add flat first) others, List.mem_cons]
    rcases flat.add_eq_ok_iff.mp first with ⟨found, rfl⟩ | ⟨fits, rfl⟩
    · constructor
      · rintro (inside | before)
        · exact .inl (.inr inside)
        · exact .inr before
      · rintro ((rfl | inside) | before)
        · exact .inr found
        · exact .inl inside
        · exact .inr before
    · rw [target?_entered]
      have unspelled := fits.unspelled
      obtain ⟨spelling, meant⟩ := entry
      by_cases own : spelling = name
      · subst own
        simp only [if_true, Option.some.injEq, Prod.mk.injEq, true_and, unspelled, reduceCtorEq,
          or_false]
        rw [or_comm, eq_comm]
      · simp [own, Ne.symm own]

theorem Flat.resolve_addAll (flat : table.Flat) (added : table.addAll entries = .ok grown)
    (member : entry ∈ entries) : grown.resolve entry.1 = entry.2 := by
  have found := (flat.target?_addAll added).mpr (.inl member)
  rw [resolve, found, Option.getD_some]

theorem Flat.target?_addAll_perm (flat : table.Flat) (perm : entries.Perm others)
    {left right : AliasTable} (added : table.addAll entries = .ok left)
    (again : table.addAll others = .ok right) (name : String) :
    left.target? name = right.target? name := by
  apply Option.ext
  intro target
  rw [flat.target?_addAll added, flat.target?_addAll again, perm.mem_iff]

end AliasTable

/-! ## Settings -/

/-- The spellings of the settings with their names, in the order in which they are added. -/
def Config.spellings (config : Config) : List (String × String) :=
  config.aliases.entries.flatMap fun (target, words) => words.map fun word => (word, target)

namespace Catalog

variable {catalog after : Catalog} {config other : Config}

/-- As long as no name is known, spellings are added as to the table alone. -/
theorem addAlias_eq_ok_iff {spelling target : String} (unknown : catalog.isKnown spelling = false) :
    addAlias spelling target catalog = .ok () after ↔
      ∃ table, catalog.aliases.add spelling target = .ok table ∧
        after = { catalog with aliases := table } := by
  unfold addAlias
  rw [get_bind]
  simp only [unknown, AliasTable.add, Bool.false_eq_true, if_false]
  cases AliasTable.enter spelling target catalog.aliases with
  | error error table =>
    constructor
    · intro added
      cases added
    · rintro ⟨_, added, _⟩
      cases added
  | ok found table =>
    constructor
    · intro added
      cases added
      exact ⟨table, rfl, rfl⟩
    · rintro ⟨_, added, rfl⟩
      cases added
      rfl

theorem forM_addAlias_eq_ok_iff {entries : List (String × String)}
    (unknown : ∀ name, catalog.isKnown name = false) :
    (entries.forM fun entry => addAlias entry.1 entry.2 : CatalogM Unit) catalog = .ok () after ↔
      ∃ table, catalog.aliases.addAll entries = .ok table ∧
        after = { catalog with aliases := table } := by
  induction entries generalizing catalog with
  | nil =>
    constructor
    · intro done
      cases done
      exact ⟨_, rfl, rfl⟩
    · rintro ⟨_, done, rfl⟩
      cases done
      rfl
  | cons entry rest ih =>
    constructor
    · intro done
      obtain ⟨_, middle, first, others⟩ := of_bind_eq_ok done
      obtain ⟨table, added, rfl⟩ := (addAlias_eq_ok_iff (unknown _)).mp first
      obtain ⟨grown, further, rfl⟩ := (@ih { catalog with aliases := table } unknown).mp others
      exact ⟨grown, AliasTable.addAll_cons.mpr ⟨table, added, further⟩, rfl⟩
    · rintro ⟨grown, done, rfl⟩
      obtain ⟨table, added, further⟩ := AliasTable.addAll_cons.mp done
      have first := (addAlias_eq_ok_iff (unknown _)).mpr ⟨table, added, rfl⟩
      have others := (@ih { catalog with aliases := table } unknown).mpr ⟨grown, further, rfl⟩
      exact (bind_of_ok first).trans others

/-- Settings make a catalog if the built-in table takes their spellings, and the catalog has the
table that they come to. -/
theorem ofConfig_eq_ok_iff :
    ofConfig config = .ok catalog ↔
      ∃ table, AliasTable.builtin.addAll config.spellings = .ok table ∧
        catalog = { empty with
          aliases := table, marker := config.marker, customTypes := config.customTypes } := by
  have start : ∀ name, Catalog.isKnown { empty with
      marker := config.marker, customTypes := config.customTypes } name = false := fun _ => rfl
  have added := @forM_addAlias_eq_ok_iff _ catalog config.spellings start
  rw [show empty.aliases = AliasTable.builtin from rfl] at added
  rw [← added, ofConfig]
  dsimp only
  rw [← Config.spellings]
  split
  · rename_i found done
    constructor
    · intro same
      cases same
      exact done
    · intro same
      cases done.symm.trans same
      rfl
  · rename_i error _ failed
    constructor
    · intro same
      cases same
    · intro same
      cases failed.symm.trans same

end Catalog

/-! ## Order -/

namespace AliasTable

open Catalog (ofConfig ofConfig_eq_ok_iff)

/-- In whatever order the built-in table is given entries, it takes all of them or refuses one, and
comes to the same meaning of every name. The same holds of the spellings of settings. -/
theorem addAll_perm {entries others : List (String × String)} (perm : entries.Perm others) :
    ((∃ table, builtin.addAll entries = .ok table) ↔
        ∃ table, builtin.addAll others = .ok table) ∧
      (∀ left right, builtin.addAll entries = .ok left →
        builtin.addAll others = .ok right →
          (∀ name, left.resolve name = right.resolve name ∧
            left.resolveWord name = right.resolveWord name) ∧
          ∀ entry ∈ entries, left.resolve entry.1 = entry.2 ∧ right.resolve entry.1 = entry.2) ∧
      ∀ config other, config.spellings = entries → other.spellings = others →
        ((∃ catalog, ofConfig config = .ok catalog) ↔ ∃ catalog, ofConfig other = .ok catalog) ∧
          ∀ first second, ofConfig config = .ok first → ofConfig other = .ok second →
            ∀ name, first.resolveAlias name = second.resolveAlias name := by
  have flat := flat_builtin
  have taken : (∃ table, builtin.addAll entries = .ok table) ↔
      ∃ table, builtin.addAll others = .ok table := by
    rw [flat.addAll_iff, flat.addAll_iff]
    exact ⟨fun compatible => compatible.perm perm, fun compatible => compatible.perm perm.symm⟩
  have resolved {left right : AliasTable} (first : builtin.addAll entries = .ok left)
      (second : builtin.addAll others = .ok right) (name : String) :
      left.resolve name = right.resolve name ∧ left.resolveWord name = right.resolveWord name := by
    have same := flat.target?_addAll_perm perm first second name
    exact ⟨by rw [resolve, resolve, same],
      by rw [resolveWord, resolveWord, same]⟩
  refine ⟨taken, fun left right first second => ⟨resolved first second, ?_⟩, ?_⟩
  · intro entry member
    exact ⟨flat.resolve_addAll first member, flat.resolve_addAll second (perm.mem_iff.mp member)⟩
  rintro config other rfl rfl
  simp only [ofConfig_eq_ok_iff]
  constructor
  · constructor
    · rintro ⟨_, table, added, _⟩
      obtain ⟨again, added⟩ := taken.mp ⟨table, added⟩
      exact ⟨_, again, added, rfl⟩
    · rintro ⟨_, table, added, _⟩
      obtain ⟨again, added⟩ := taken.mpr ⟨table, added⟩
      exact ⟨_, again, added, rfl⟩
  · rintro _ _ ⟨left, first, rfl⟩ ⟨right, second, rfl⟩ name
    exact (resolved first second name).1

/-- Two spellings of a built-in name and of a new one, and one of them twice. -/
theorem addAll_perm_repeated :
    ∃ left right,
      builtin.addAll [("i32", "integer"), ("pt", "Point"), ("i32", "integer")] =
          .ok left ∧
        builtin.addAll [("pt", "Point"), ("i32", "integer"), ("i32", "integer")] =
          .ok right ∧
        left.resolve "i32" = "integer" ∧ right.resolve "pt" = "Point" ∧
        left.resolve "pt" = right.resolve "pt" := by
  have perm : [("i32", "integer"), ("pt", "Point"), ("i32", "integer")].Perm
      [("pt", "Point"), ("i32", "integer"), ("i32", "integer")] := .swap _ _ _
  obtain ⟨taken, same, _⟩ := addAll_perm perm
  obtain ⟨left, first⟩ : ∃ table, builtin.addAll
      [("i32", "integer"), ("pt", "Point"), ("i32", "integer")] = .ok table :=
    ⟨_, by with_unfolding_all rfl⟩
  obtain ⟨right, second⟩ := taken.mp ⟨left, first⟩
  obtain ⟨names, listed⟩ := same left right first second
  exact ⟨left, right, first, second, (listed ("i32", "integer") (by simp)).1,
    (listed ("pt", "Point") (by simp)).2, (names "pt").1⟩

end AliasTable

end DocShapes
