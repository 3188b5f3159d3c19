/-! # Maps that remember their order

A map is the list of its entries, the key that was set first in front. Setting a key that is
there keeps its place; erasing a key closes the gap. `get?_set` and `get?_erase` say what the
two operations do to a look-up, and `keys_set` what the first does to the order.
-/

namespace DocShapes

/-- A finite map kept as its entries, in the order in which their keys were first set. -/
structure OrderedMap (κ α : Type) where
  entries : List (κ × α)
  deriving Repr, DecidableEq, Inhabited

namespace OrderedMap

variable {κ α : Type} [DecidableEq κ]

/-! ## Entries -/

/-- The value that the first entry of `key` holds. -/
def find (key : κ) : List (κ × α) → Option α
  | [] => none
  | (other, value) :: rest => if other = key then some value else find key rest

/-- Entries with `key` set to `value`: in place when the key is there, at the end otherwise. -/
def put (key : κ) (value : α) : List (κ × α) → List (κ × α)
  | [] => [(key, value)]
  | (other, old) :: rest =>
      if other = key then (other, value) :: rest else (other, old) :: put key value rest

/-- Entries of every key but `key`. -/
def drop (key : κ) (entries : List (κ × α)) : List (κ × α) :=
  entries.filter fun entry => entry.1 ≠ key

/-! ## Maps -/

def empty : OrderedMap κ α := ⟨[]⟩

def get? (map : OrderedMap κ α) (key : κ) : Option α := find key map.entries

def contains (map : OrderedMap κ α) (key : κ) : Bool := (map.get? key).isSome

def set (map : OrderedMap κ α) (key : κ) (value : α) : OrderedMap κ α :=
  ⟨put key value map.entries⟩

def erase (map : OrderedMap κ α) (key : κ) : OrderedMap κ α := ⟨drop key map.entries⟩

def keys (map : OrderedMap κ α) : List κ := map.entries.map Prod.fst

def values (map : OrderedMap κ α) : List α := map.entries.map Prod.snd

def size (map : OrderedMap κ α) : Nat := map.entries.length

def isEmpty (map : OrderedMap κ α) : Bool := map.entries.isEmpty

/-- The map of a list of pairs; the last value of a repeated key wins. -/
def ofList (pairs : List (κ × α)) : OrderedMap κ α :=
  pairs.foldl (fun map pair => map.set pair.1 pair.2) empty

/-! ## Look-ups after a change -/

@[simp] theorem get?_empty (key : κ) : (empty : OrderedMap κ α).get? key = none := rfl

theorem find_put (key other : κ) (value : α) (entries : List (κ × α)) :
    find other (put key value entries) =
      if key = other then some value else find other entries := by
  induction entries with
  | nil => simp [put, find]
  | cons entry rest ih => grind [put, find]

theorem get?_set (map : OrderedMap κ α) (key other : κ) (value : α) :
    (map.set key value).get? other = if key = other then some value else map.get? other :=
  find_put key other value map.entries

theorem find_drop (key other : κ) (entries : List (κ × α)) :
    find other (drop key entries) = if key = other then none else find other entries := by
  induction entries with
  | nil => simp [drop, find]
  | cons entry rest ih => grind [drop, find]

theorem get?_erase (map : OrderedMap κ α) (key other : κ) :
    (map.erase key).get? other = if key = other then none else map.get? other :=
  find_drop key other map.entries

/-- Setting a key appends it to the keys unless it is there already. -/
theorem keys_set (map : OrderedMap κ α) (key : κ) (value : α) :
    (map.set key value).keys = if key ∈ map.keys then map.keys else map.keys ++ [key] := by
  obtain ⟨entries⟩ := map
  induction entries with
  | nil => simp [set, keys, put]
  | cons entry rest ih => grind [set, keys, put]

end OrderedMap

end DocShapes
