import DocShapes.Proofs.Outcome
import DocShapes.Catalog.Registration
import Mathlib.Tactic.Simps.Basic

/-! # Single changes of a catalog

Every step changes a catalog by a few kinds of single changes: a definition is added or replaced,
a name is set or moved, a definition is staged or retired. Here they stand as functions on
catalogs, with what they do to look-ups.
-/

namespace DocShapes

/-! ## Maps -/

namespace OrderedMap

variable {κ α : Type} [DecidableEq κ]

theorem mem_entries_of_get? {map : OrderedMap κ α} {key : κ} {value : α}
    (found : map.get? key = some value) : (key, value) ∈ map.entries := by
  obtain ⟨entries⟩ := map
  induction entries with
  | nil => simp [get?, find] at found
  | cons entry rest ih => grind [get?, find]

theorem get?_of_mem_entries {map : OrderedMap κ α} {key : κ} {value : α}
    (distinct : map.keys.Nodup) (member : (key, value) ∈ map.entries) :
    map.get? key = some value := by
  obtain ⟨entries⟩ := map
  induction entries with
  | nil => cases member
  | cons entry rest ih =>
    obtain ⟨first, kept⟩ := entry
    obtain ⟨fresh, others⟩ := List.nodup_cons.mp distinct
    rcases List.mem_cons.mp member with same | member
    · cases same
      simp [get?, find]
    · have different : first ≠ key := by
        rintro rfl
        exact fresh (List.mem_map.mpr ⟨_, member, rfl⟩)
      simpa [get?, find, different] using ih others member

theorem nodup_keys_set {map : OrderedMap κ α} (distinct : map.keys.Nodup) (key : κ) (value : α) :
    (map.set key value).keys.Nodup := by
  rw [keys_set]
  split
  · exact distinct
  · rename_i fresh
    refine List.nodup_append.mpr ⟨distinct, by simp, fun other member last within same => ?_⟩
    rw [same, List.mem_singleton.mp within] at member
    exact fresh member

theorem mem_keys_iff {map : OrderedMap κ α} {key : κ} :
    key ∈ map.keys ↔ ∃ value, map.get? key = some value := by
  obtain ⟨entries⟩ := map
  induction entries with
  | nil => simp [keys, get?, find]
  | cons entry rest ih =>
    obtain ⟨first, kept⟩ := entry
    simp only [keys, get?, find, List.map_cons, List.mem_cons] at ih ⊢
    by_cases same : first = key
    · simp [same]
    · simp [same, Ne.symm same, ih]

theorem get?_eq_none_of_not_contains {map : OrderedMap κ α} {key : κ}
    (absent : ¬map.contains key = true) : map.get? key = none := by
  simpa [contains] using absent

theorem mem_entries_set {map : OrderedMap κ α} {key : κ} {value : α} {entry : κ × α}
    (member : entry ∈ (map.set key value).entries) :
    entry = (key, value) ∨ entry ∈ map.entries := by
  obtain ⟨entries⟩ := map
  induction entries with
  | nil => simpa [set, put] using member
  | cons first rest ih => grind [set, put]

theorem put_of_not_mem {key : κ} (value : α) {entries : List (κ × α)}
    (absent : key ∉ entries.map Prod.fst) : put key value entries = entries ++ [(key, value)] := by
  induction entries with
  | nil => rfl
  | cons first rest ih => grind [put]

/-- A value that is there already is set again without a trace. -/
theorem set_of_get? {map : OrderedMap κ α} {key : κ} {value : α}
    (found : map.get? key = some value) : map.set key value = map := by
  obtain ⟨entries⟩ := map
  induction entries with
  | nil => cases found
  | cons first rest ih => grind [get?, find, set, put]

theorem erase_of_get?_eq_none {map : OrderedMap κ α} {key : κ}
    (absent : map.get? key = none) : map.erase key = map := by
  obtain ⟨entries⟩ := map
  induction entries with
  | nil => rfl
  | cons first rest ih => grind [get?, find, erase, drop]

theorem erase_comm (map : OrderedMap κ α) (key other : κ) :
    (map.erase key).erase other = (map.erase other).erase key := by
  simp only [erase, drop, List.filter_filter, Bool.and_comm]

end OrderedMap

namespace Catalog

/-! ## The arena -/

/-- The id stands for a definition of the catalog. -/
def Holds (catalog : Catalog) (id : TypeId) : Prop := id.index < catalog.arena.size

instance (catalog : Catalog) (id : TypeId) : Decidable (catalog.Holds id) :=
  inferInstanceAs (Decidable (id.index < catalog.arena.size))

/-- The id of the definition that comes next. -/
def next (catalog : Catalog) : TypeId := ⟨catalog.arena.size⟩

/-- The catalog with one more definition. -/
@[simps] def push (catalog : Catalog) (definition : Definition) : Catalog :=
  { catalog with arena := catalog.arena.push definition }

/-- The catalog with another definition in the place of an id. -/
@[simps] def put (catalog : Catalog) (id : TypeId) (definition : Definition) : Catalog :=
  { catalog with arena := catalog.arena.setIfInBounds id.index definition }

theorem definition_push (catalog : Catalog) (definition : Definition) (id : TypeId) :
    (catalog.push definition).definition id =
      if id = catalog.next then definition else catalog.definition id := by
  obtain ⟨index⟩ := id
  simp only [Catalog.definition, push, next, TypeId.mk.injEq, Array.getD_eq_getD_getElem?,
    Array.getElem?_push]
  split <;> simp_all

theorem definition_put (catalog : Catalog) (id : TypeId) (definition : Definition)
    (other : TypeId) :
    (catalog.put id definition).definition other =
      if other = id ∧ catalog.Holds id then definition else catalog.definition other := by
  obtain ⟨index⟩ := id
  obtain ⟨otherIndex⟩ := other
  simp only [Catalog.definition, put, Holds, TypeId.mk.injEq, Array.getD_eq_getD_getElem?,
    Array.getElem?_setIfInBounds]
  grind

theorem definition_put_self {catalog : Catalog} {id : TypeId} (held : catalog.Holds id)
    (definition : Definition) : (catalog.put id definition).definition id = definition := by
  rw [definition_put, if_pos ⟨rfl, held⟩]

theorem definition_put_of_ne {catalog : Catalog} {id other : TypeId} (different : other ≠ id)
    (definition : Definition) :
    (catalog.put id definition).definition other = catalog.definition other := by
  rw [definition_put, if_neg fun same => different same.1]

theorem definition_of_not_holds {catalog : Catalog} {id : TypeId} (absent : ¬catalog.Holds id) :
    catalog.definition id = .ofShape (.unknown "") := by
  simp only [Holds, Nat.not_lt] at absent
  simp [Catalog.definition, Array.getD_eq_getD_getElem?, absent]

@[simp] theorem holds_push (catalog : Catalog) (definition : Definition) (id : TypeId) :
    (catalog.push definition).Holds id ↔ catalog.Holds id ∨ id = catalog.next := by
  obtain ⟨index⟩ := id
  simp only [Holds, push, Array.size_push, next, TypeId.mk.injEq]
  omega

@[simp] theorem holds_put (catalog : Catalog) (id other : TypeId) (definition : Definition) :
    (catalog.put id definition).Holds other ↔ catalog.Holds other := by
  simp [Holds]

@[simp] theorem not_holds_next (catalog : Catalog) : ¬catalog.Holds catalog.next := by
  simp [Holds, next]

theorem ne_next_of_holds {catalog : Catalog} {id : TypeId} (held : catalog.Holds id) :
    id ≠ catalog.next := fun same => not_holds_next catalog (same ▸ held)

@[simp] theorem ends_allocate (definition : Definition) {catalog : Catalog}
    {done : TypeId → Catalog → Prop} {failed : Catalog → Prop} :
    Ends (allocate definition) catalog done failed ↔
      done catalog.next (catalog.push definition) := by
  simp [allocate, next, push]

@[simp] theorem ends_setDefinition (id : TypeId) (definition : Definition) {catalog : Catalog}
    {done : Unit → Catalog → Prop} {failed : Catalog → Prop} :
    Ends (setDefinition id definition) catalog done failed ↔
      done ⟨⟩ (catalog.put id definition) := Iff.rfl

theorem ends_edit (id : TypeId) (change : Edit Unit) {catalog : Catalog}
    {done : Unit → Catalog → Prop} {failed : Catalog → Prop} :
    Ends (edit id change) catalog done failed ↔
      match change (catalog.definition id) with
      | .ok _ definition => done ⟨⟩ (catalog.put id definition)
      | .error _ definition => failed (catalog.put id definition) := by
  simp only [edit, ends_bind, ends_get]
  split <;> simp_all

/-! ## Names -/

/-- The catalog with a provisional definition of a name. -/
@[simps] def provide (catalog : Catalog) (name : String) (id : TypeId) : Catalog :=
  { catalog with provisional := catalog.provisional.set name id }

/-- The catalog with a canonical definition of a name, which is provisional no more. -/
@[simps] def establish (catalog : Catalog) (name : String) (id : TypeId) : Catalog :=
  { catalog with
    provisional := catalog.provisional.erase name
    canonical := catalog.canonical.set name id }

/-- The catalog with other spellings. -/
@[simps] def respell (catalog : Catalog) (aliases : AliasTable) : Catalog :=
  { catalog with aliases }

/-! ## Staged and retired definitions -/

/-- The catalog with one more declaration in the bucket of its name. -/
@[simps] def enlist (catalog : Catalog) (declaration : Declaration) : Catalog :=
  let name := (catalog.definition declaration.id).name
  { catalog with
    pending := catalog.pending.set name ((catalog.pending.get? name).getD [] ++ [declaration]) }

/-- The catalog with nothing staged. -/
@[simps] def discharge (catalog : Catalog) : Catalog := { catalog with pending := .empty }

/-- The catalog in which a definition leads to another one. -/
@[simps] def withdraw (catalog : Catalog) (source : TypeId) (landing : Landing) : Catalog :=
  { catalog with forward := catalog.forward.set source landing }

section

variable (catalog : Catalog) (name : String) (id other : TypeId) (declaration : Declaration)
  (landing : Landing) (aliases : AliasTable)

/-! ## Changes beside the arena -/

@[simp] theorem definition_provide :
    (catalog.provide name other).definition id = catalog.definition id := rfl

@[simp] theorem definition_establish :
    (catalog.establish name other).definition id = catalog.definition id := rfl

@[simp] theorem definition_enlist :
    (catalog.enlist declaration).definition id = catalog.definition id := rfl

@[simp] theorem holds_provide : (catalog.provide name other).Holds id ↔ catalog.Holds id := Iff.rfl

@[simp] theorem holds_establish :
    (catalog.establish name other).Holds id ↔ catalog.Holds id := Iff.rfl

@[simp] theorem holds_respell : (catalog.respell aliases).Holds id ↔ catalog.Holds id := Iff.rfl

@[simp] theorem holds_enlist : (catalog.enlist declaration).Holds id ↔ catalog.Holds id := Iff.rfl

@[simp] theorem holds_withdraw :
    (catalog.withdraw other landing).Holds id ↔ catalog.Holds id := Iff.rfl

/-! ## Known names -/

@[simp] theorem known?_push (definition : Definition) :
    (catalog.push definition).known? name = catalog.known? name := rfl

@[simp] theorem known?_respell : (catalog.respell aliases).known? name = catalog.known? name := rfl

theorem isKnown_iff : catalog.isKnown name = true ↔ ∃ id, catalog.known? name = some id := by
  simp [isKnown, Option.isSome_iff_exists]

end

end Catalog

end DocShapes
