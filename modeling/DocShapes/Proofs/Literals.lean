import DocShapes.Literal.Basic
import DocShapes.Proofs.Arena
import Mathlib.Data.List.Forall2

/-! # Literals and their parts

A test that a literal passes everywhere is one that the literal and all its parts pass. Three such
tests say what readers of literals give and what a text can be read back from.
-/

namespace DocShapes

theorem forall₂_chain {α β γ : Type} {first : α → β → Prop} {second : β → γ → Prop}
    {both : α → γ → Prop} (chain : ∀ left middle right, first left middle → second middle right →
      both left right) {lefts : List α} {middles : List β} {rights : List γ}
    (related : List.Forall₂ first lefts middles) (further : List.Forall₂ second middles rights) :
    List.Forall₂ both lefts rights := by
  induction related generalizing rights with
  | nil =>
    cases further
    exact .nil
  | cons here _ ih =>
    cases further with
    | cons there later => exact .cons (chain _ _ _ here there) (ih later)

namespace Literal

/-- What holds of a literal if it holds of its parts holds of every literal. -/
theorem induction {motive : Literal → Prop}
    (null : motive .null) (boolean : ∀ value, motive (.boolean value))
    (integer : ∀ value, motive (.integer value)) (number : ∀ value, motive (.number value))
    (string : ∀ value, motive (.string value)) (byte : ∀ value, motive (.byte value))
    (bytes : ∀ values, motive (.bytes values))
    (list : ∀ items, (∀ item ∈ items, motive item) → motive (.list items))
    (record : ∀ fields, (∀ field ∈ fields, motive field.2) → motive (.record fields))
    (value : Literal) : motive value := by
  refine @Literal.rec motive (fun items => ∀ item ∈ items, motive item)
    (fun fields => ∀ field ∈ fields, motive field.2) (fun field => motive field.2)
    null boolean integer number string byte bytes list record ?_ ?_ ?_ ?_ ?_ value
  · simp
  · intro first rest here others
    exact List.forall_mem_cons.mpr ⟨here, others⟩
  · simp
  · intro first rest here others
    exact List.forall_mem_cons.mpr ⟨here, others⟩
  · intro key value here
    exact here

/-! ## Tests -/

/-- The literal and each of its parts pass a test. -/
def everywhere (test : Literal → Bool) : Literal → Bool
  | .list items => test (.list items) && eachItem items
  | .record fields => test (.record fields) && eachField fields
  | other => test other
where
  eachItem : List Literal → Bool
    | [] => true
    | item :: rest => everywhere test item && eachItem rest
  eachField : List (String × Literal) → Bool
    | [] => true
    | (_, value) :: rest => everywhere test value && eachField rest

theorem everywhere_list (test : Literal → Bool) (items : List Literal) :
    everywhere test (.list items) = true ↔
      test (.list items) = true ∧ ∀ item ∈ items, everywhere test item = true := by
  have parts : everywhere.eachItem test items = true ↔
      ∀ item ∈ items, everywhere test item = true := by
    induction items with
    | nil => simp [everywhere.eachItem]
    | cons item rest ih => simp [everywhere.eachItem, ih]
  rw [everywhere, Bool.and_eq_true, parts]

theorem everywhere_record (test : Literal → Bool) (fields : List (String × Literal)) :
    everywhere test (.record fields) = true ↔
      test (.record fields) = true ∧ ∀ field ∈ fields, everywhere test field.2 = true := by
  have parts : everywhere.eachField test fields = true ↔
      ∀ field ∈ fields, everywhere test field.2 = true := by
    induction fields with
    | nil => simp [everywhere.eachField]
    | cons field rest ih => simp [everywhere.eachField, ih]
  rw [everywhere, Bool.and_eq_true, parts]

/-- Several bytes are more than one, and a record has each key once. -/
def wellFormedHere : Literal → Bool
  | .bytes values => 2 ≤ values.length
  | .record fields => (fields.map Prod.fst).Nodup
  | _ => true

/-- The literals that there is a text of. -/
def WellFormed (value : Literal) : Prop := value.everywhere wellFormedHere = true

/-- No key is empty. -/
def keyedHere : Literal → Bool
  | .record fields => fields.all fun field => field.1 ≠ ""
  | _ => true

/-- The literals that a lenient text can have. -/
def Keyed (value : Literal) : Prop := value.everywhere keyedHere = true

/-- A character that a lenient text writes the same way as a strict one. -/
def isPlain (c : Char) : Bool := 32 ≤ c.toNat || c = '\n' || c = '\t' || c = '\r'

/-- No number, and no text with another control character than a line feed, a tab or a carriage
return. -/
def plainHere : Literal → Bool
  | .number _ => false
  | .string text => text.toList.all isPlain
  | .record fields => fields.all fun field => field.1.toList.all isPlain
  | _ => true

/-- The literals without numbers and without rare control characters. -/
def Plain (value : Literal) : Prop := value.everywhere plainHere = true

def numberlessHere : Literal → Bool
  | .number _ => false
  | _ => true

/-- The literals without numbers. -/
def Numberless (value : Literal) : Prop := value.everywhere numberlessHere = true

def clearHere : Literal → Bool
  | .string text => text.toList.all isPlain
  | .record fields => fields.all fun field => field.1.toList.all isPlain
  | _ => true

/-- The literals without rare control characters. -/
def Clear (value : Literal) : Prop := value.everywhere clearHere = true

theorem everywhere_and (first second : Literal → Bool) (value : Literal) :
    value.everywhere (fun part => first part && second part) = true ↔
      value.everywhere first = true ∧ value.everywhere second = true := by
  induction value using Literal.induction with
  | list items ih =>
    rw [everywhere_list, everywhere_list, everywhere_list, Bool.and_eq_true, and_and_and_comm,
      ← forall₂_and]
    exact and_congr_right' (forall₂_congr ih)
  | record fields ih =>
    rw [everywhere_record, everywhere_record, everywhere_record, Bool.and_eq_true,
      and_and_and_comm, ← forall₂_and]
    exact and_congr_right' (forall₂_congr ih)
  | _ => exact Bool.and_eq_true_iff

theorem plain_iff {value : Literal} : value.Plain ↔ value.Numberless ∧ value.Clear := by
  have split : plainHere = fun part => numberlessHere part && clearHere part := by
    funext part
    cases part <;> simp [plainHere, numberlessHere, clearHere]
  rw [Plain, split, everywhere_and]
  rfl

theorem Plain.numberless {value : Literal} (plain : value.Plain) : value.Numberless :=
  (plain_iff.mp plain).1

/-- A literal that has a JSON text with at most `depth` open containers. -/
def strict : Literal → Nat → Bool
  | .byte _, _ => false
  | .bytes _, _ => false
  | .list items, depth => 0 < depth && eachItem items (depth - 1)
  | .record fields, depth => 0 < depth && eachField fields (depth - 1)
  | _, _ => true
where
  eachItem : List Literal → Nat → Bool
    | [], _ => true
    | item :: rest, depth => strict item depth && eachItem rest depth
  eachField : List (String × Literal) → Nat → Bool
    | [], _ => true
    | (_, value) :: rest, depth => strict value depth && eachField rest depth

theorem strict_list (items : List Literal) (depth : Nat) :
    strict (.list items) (depth + 1) = items.all fun item => item.strict depth := by
  simp only [strict, Nat.zero_lt_succ, decide_true, Bool.true_and, Nat.add_sub_cancel]
  induction items with
  | nil => rfl
  | cons item rest ih => simp [strict.eachItem, ih]

theorem strict_record (fields : List (String × Literal)) (depth : Nat) :
    strict (.record fields) (depth + 1) = fields.all fun field => field.2.strict depth := by
  simp only [strict, Nat.zero_lt_succ, decide_true, Bool.true_and, Nat.add_sub_cancel]
  induction fields with
  | nil => rfl
  | cons field rest ih => simp [strict.eachField, ih]

/-! ## Sameness -/

theorem sameItems_iff {left right : List Literal} :
    same.sameItems left right = true ↔
      List.Forall₂ (fun first second => first.same second = true) left right := by
  induction left generalizing right with
  | nil => cases right <;> simp [same.sameItems]
  | cons first rest ih => cases right <;> simp [same.sameItems, ih]

/-- The fields with keys that were not seen before are found, the first of each key. -/
theorem eachField_iff {seen : List String} {fields others : List (String × Literal)} :
    same.eachField seen fields others = true ↔
      ∀ key ∉ seen, ∀ value, OrderedMap.find key fields = some value →
        ∃ other, OrderedMap.find key others = some other ∧ value.same other = true := by
  induction fields generalizing seen with
  | nil => simp [same.eachField, OrderedMap.find]
  | cons field rest ih =>
    obtain ⟨own, first⟩ := field
    rw [same.eachField, Bool.and_eq_true, Bool.or_eq_true, decide_eq_true_iff, Option.any_eq_true,
      ih]
    constructor
    · rintro ⟨found, later⟩ key fresh value holds
      rw [OrderedMap.find] at holds
      split at holds
      · rename_i same
        subst same
        cases holds
        exact found.resolve_left fresh
      · rename_i other
        exact later key (by simp [fresh, Ne.symm other]) value holds
    · intro found
      constructor
      · by_cases known : own ∈ seen
        · exact .inl known
        · exact .inr (found own known first (by simp [OrderedMap.find]))
      · intro key fresh value holds
        obtain ⟨other, fresh⟩ := not_or.mp (List.mem_cons.not.mp fresh)
        exact found key fresh value (by rw [OrderedMap.find, if_neg (Ne.symm other), holds])

theorem mem_of_find {key : String} {value : Literal} {fields : List (String × Literal)}
    (found : OrderedMap.find key fields = some value) : (key, value) ∈ fields :=
  @OrderedMap.mem_entries_of_get? _ _ _ ⟨fields⟩ key value found

/-- Records are the same when they have the same keys with the same values. -/
theorem same_record_iff {left right : List (String × Literal)} :
    (record left).same (.record right) = true ↔
      (∀ key value, OrderedMap.find key left = some value →
        ∃ other, OrderedMap.find key right = some other ∧ value.same other = true) ∧
      ∀ key other, OrderedMap.find key right = some other →
        ∃ value, OrderedMap.find key left = some value := by
  have keys : (right.all fun field => (OrderedMap.find field.1 left).isSome) = true ↔
      ∀ key other, OrderedMap.find key right = some other →
        ∃ value, OrderedMap.find key left = some value := by
    simp only [List.all_eq_true, Option.isSome_iff_exists]
    constructor
    · intro listed key other found
      exact listed (key, other) (mem_of_find found)
    · intro found field member
      have key : field.1 ∈ (OrderedMap.mk right).keys := List.mem_map_of_mem member
      obtain ⟨other, there⟩ := OrderedMap.mem_keys_iff.mp key
      exact found field.1 other there
  change (same.eachField [] left right && right.all _) = true ↔ _
  rw [Bool.and_eq_true, eachField_iff, keys]
  simp

theorem same_list_iff {left right : List Literal} :
    (list left).same (.list right) = true ↔
      List.Forall₂ (fun item other => item.same other = true) left right :=
  sameItems_iff

theorem same_number_iff {left right : Binary64} :
    (number left).same (.number right) = true ↔
      left = right ∨ left.isZero = true ∧ right.isZero = true := by
  change left.same right = true ↔ _
  simp [Binary64.same]

/-- A literal that is the same as equal ones alone. -/
def isExact : Literal → Bool
  | .number _ | .list _ | .record _ => false
  | _ => true

theorem same_iff_of_isExact {left right : Literal} (plain : left.isExact = true) :
    left.same right = true ↔ left = right := by
  cases left <;> cases right <;> simp_all [isExact, same]

/-- A literal is the same as itself. -/
@[simp] theorem same_self (value : Literal) : value.same value = true := by
  induction value using Literal.induction with
  | number value => exact same_number_iff.mpr (.inl rfl)
  | list items ih =>
    rw [same_list_iff, List.forall₂_same]
    exact ih
  | record fields ih =>
    rw [same_record_iff]
    constructor
    · intro key value found
      exact ⟨value, found, ih _ (mem_of_find found)⟩
    · intro key value found
      exact ⟨value, found⟩
  | _ => exact (same_iff_of_isExact rfl).mpr rfl

theorem same_symm {left right : Literal} (agree : left.same right = true) :
    right.same left = true := by
  induction left using Literal.induction generalizing right with
  | number value =>
    cases right with
    | number other =>
      rw [same_number_iff] at agree ⊢
      exact agree.imp Eq.symm And.symm
    | _ => cases agree
  | list items ih =>
    cases right with
    | list others =>
      rw [same_list_iff] at agree ⊢
      have both := (List.forall₂_and_left items others).mpr ⟨fun item member => @ih item member, agree⟩
      exact (both.imp fun _ _ related => related.1 related.2).flip
    | _ => cases agree
  | record fields ih =>
    cases right with
    | record others =>
      rw [same_record_iff] at agree ⊢
      obtain ⟨found, listed⟩ := agree
      constructor
      · intro key other there
        obtain ⟨value, here⟩ := listed key other there
        obtain ⟨_, again, agree⟩ := found key value here
        cases there.symm.trans again
        exact ⟨value, here, ih _ (mem_of_find here) agree⟩
      · intro key value here
        obtain ⟨other, there, _⟩ := found key value here
        exact ⟨other, there⟩
    | _ => cases agree
  | _ =>
    obtain rfl := (same_iff_of_isExact rfl).mp agree
    exact same_self _

theorem same_trans {left middle right : Literal} (first : left.same middle = true)
    (second : middle.same right = true) : left.same right = true := by
  induction left using Literal.induction generalizing middle right with
  | number value =>
    cases middle with
    | number other =>
      cases right with
      | number last =>
        rw [same_number_iff] at first second ⊢
        grind
      | _ => cases second
    | _ => cases first
  | list items ih =>
    cases middle with
    | list others =>
      cases right with
      | list lasts =>
        rw [same_list_iff] at first second ⊢
        have steps :=
          (List.forall₂_and_left items others).mpr ⟨fun item member => @ih item member, first⟩
        exact forall₂_chain (fun _ _ _ step agree => step.1 step.2 agree) steps second
      | _ => cases second
    | _ => cases first
  | record fields ih =>
    cases middle with
    | record others =>
      cases right with
      | record lasts =>
        rw [same_record_iff] at first second ⊢
        obtain ⟨found, listed⟩ := first
        obtain ⟨again, relisted⟩ := second
        constructor
        · intro key value here
          obtain ⟨other, there, agree⟩ := found key value here
          obtain ⟨last, final, agree'⟩ := again key other there
          exact ⟨last, final, ih _ (mem_of_find here) agree agree'⟩
        · intro key last final
          obtain ⟨other, there⟩ := relisted key last final
          exact listed key other there
      | _ => cases second
    | _ => cases first
  | _ =>
    obtain rfl := (same_iff_of_isExact rfl).mp first
    exact second

/-! ## JSON and back -/

theorem map_ofJson (items : List Json) : ofJson.eachItem items = items.map ofJson := by
  induction items with
  | nil => rfl
  | cons item rest ih => rw [ofJson.eachItem, ih, List.map_cons]

theorem map_toJson (items : List Literal) : toJson.eachItem items = items.map toJson := by
  induction items with
  | nil => rfl
  | cons item rest ih => rw [toJson.eachItem, ih, List.map_cons]

theorem map_ofJson_members (members : List (String × Json)) :
    ofJson.eachMember members = members.map fun member => (member.1, ofJson member.2) := by
  induction members with
  | nil => rfl
  | cons member rest ih => rw [ofJson.eachMember, ih, List.map_cons]

theorem map_toJson_fields (fields : List (String × Literal)) :
    toJson.eachField fields = fields.map fun field => (field.1, toJson field.2) := by
  induction fields with
  | nil => rfl
  | cons field rest ih => rw [toJson.eachField, ih, List.map_cons]

/-- A literal with a JSON text is what its JSON view stands for. -/
theorem ofJson_toJson {value : Literal} {depth : Nat} (strict : value.strict depth = true) :
    ofJson value.toJson = value := by
  induction value using Literal.induction generalizing depth with
  | integer value =>
    have low := Int64.minValue_le_toInt value
    have high := Int64.toInt_le value
    simp only [toJson, ofJson, low, high, decide_true, Bool.and_self, if_true, Int64.ofInt_toInt]
  | list items ih =>
    cases depth with
    | zero => cases strict
    | succ depth =>
      rw [strict_list, List.all_eq_true] at strict
      have parts : items.map (ofJson ∘ toJson) = items.map id :=
        List.map_congr_left fun item member => ih item member (strict item member)
      rw [toJson, ofJson, map_toJson, map_ofJson, List.map_map, parts, List.map_id]
  | record fields ih =>
    cases depth with
    | zero => cases strict
    | succ depth =>
      rw [strict_record, List.all_eq_true] at strict
      have parts : fields.map (fun field => (field.1, ofJson field.2.toJson)) = fields.map id :=
        List.map_congr_left fun field member =>
          Prod.ext rfl (ih field member (strict field member))
      rw [toJson, ofJson, map_toJson_fields, map_ofJson_members, List.map_map]
      exact congrArg Literal.record (parts.trans (List.map_id fields))
  | byte => cases strict
  | bytes => cases strict
  | _ => rfl

end Literal

end DocShapes
