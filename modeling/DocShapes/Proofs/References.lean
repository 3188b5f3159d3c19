import DocShapes.Catalog.Dump
import DocShapes.Proofs.Nesting

/-! # References in a dump

The references of a dump are the names of the named types that displayed definitions are made of,
and those that stand in the data of displayed definitions (`mem_refs_toJson`). A definition is
displayed if it is canonical, or has no name and is part of a displayed one.
-/

namespace DocShapes

/-! ## JSON -/

namespace Json

/-- The name that a member refers to. -/
def memberRefs (key : String) : Json → List String
  | .string name => if key = "$ref" then [name] else []
  | _ => []

/-- The names `name` of all `{"$ref": name}` at any depth; other members may stand beside the
reference. -/
def refs : Json → List String
  | .array items => eachItem items
  | .object members => eachMember members
  | _ => []
where
  eachItem : List Json → List String
    | [] => []
    | item :: rest => refs item ++ eachItem rest
  eachMember : List (String × Json) → List String
    | [] => []
    | (key, value) :: rest => memberRefs key value ++ refs value ++ eachMember rest

/-- Every reference names a member of the whole. -/
def Closed (dump : Json) : Prop := ∀ name ∈ dump.refs, (dump.member? name).isSome = true

theorem mem_refs_array {name : String} {items : List Json} :
    name ∈ (Json.array items).refs ↔ ∃ item ∈ items, name ∈ item.refs := by
  rw [refs]
  induction items with
  | nil => simp [refs.eachItem]
  | cons item rest ih => simp [refs.eachItem, ih]

theorem mem_refs_object {name : String} {members : List (String × Json)} :
    name ∈ (Json.object members).refs ↔
      ∃ member ∈ members, name ∈ memberRefs member.1 member.2 ∨ name ∈ member.2.refs := by
  rw [refs]
  induction members with
  | nil => simp [refs.eachMember]
  | cons member rest ih => simp [refs.eachMember, ih, or_assoc]

@[simp] theorem refs_string (text : String) : (Json.string text).refs = [] := rfl

theorem memberRefs_of_ne {key : String} (other : key ≠ "$ref") (value : Json) :
    memberRefs key value = [] := by
  cases value <;> simp [memberRefs, other]

end Json

/-! ## Data -/

/-- The references in the parameters of a use. -/
def Slot.dataRefs : Slot → List String
  | .bare _ => []
  | .sited site => site.qualifiers.toJson.refs

/-- The references in the literals of a shape. -/
def Shape.dataRefs (shape : Shape) : List String :=
  (match shape with
    | .constant value => value.toJson.refs
    | _ => []) ++ shape.slots.flatMap Slot.dataRefs

namespace Catalog

section

variable {part : TypeId → Json} {name : String}

theorem refs_toJson_of_isEmpty {qualifiers : Qualifiers} (none : qualifiers.isEmpty = true) :
    qualifiers.toJson.refs = [] := by
  have empty : qualifiers.values.entries = [] := List.isEmpty_iff.mp none
  rw [Qualifiers.toJson, empty]
  rfl

theorem mem_refs_useJson (type : Json) (site : Site) :
    name ∈ (useJson type site).refs ↔
      name ∈ type.refs ∨ name ∈ site.qualifiers.toJson.refs := by
  unfold useJson
  have silent := @refs_toJson_of_isEmpty site.qualifiers
  cases site.doc <;> cases empty : site.qualifiers.isEmpty <;>
    simp [Json.withMember?, Json.withMember, OrderedMap.put, Json.mem_refs_object,
      Json.memberRefs_of_ne, silent, empty]

theorem mem_refs_fieldJson (site : Site) :
    name ∈ (fieldJson part site).refs ↔
      name ∈ (part site.target).refs ∨ name ∈ site.qualifiers.toJson.refs := by
  rw [← mem_refs_useJson]
  unfold fieldJson
  split
  · rename_i members same
    rw [same, Json.mem_refs_object, Json.mem_refs_object]
    cases site.name <;> simp [Json.memberRefs_of_ne]
  · rfl

theorem mem_refs_slotJsonWith (slot : Slot) :
    name ∈ (slotJsonWith part slot).refs ↔
      name ∈ (part slot.target).refs ∨ name ∈ slot.dataRefs := by
  cases slot with
  | bare id => simp [slotJsonWith, Slot.dataRefs, Slot.target]
  | sited site => exact mem_refs_useJson _ site

/-- The references of slots stand in their data and in their targets. -/
theorem mem_refs_slots (slots : List Slot) :
    (∃ slot ∈ slots, name ∈ (slotJsonWith part slot).refs) ↔
      name ∈ slots.flatMap Slot.dataRefs ∨
        ∃ child ∈ slots.map Slot.target, name ∈ (part child).refs := by
  simp only [mem_refs_slotJsonWith, List.mem_flatMap, List.mem_map, exists_exists_and_eq_and,
    and_or_left, exists_or]
  exact or_comm

theorem mem_refs_fields (fields : List Site) :
    (∃ field ∈ fields, name ∈ (fieldJson part field).refs) ↔
      name ∈ (fields.map Slot.sited).flatMap Slot.dataRefs ∨
        ∃ child ∈ (fields.map Slot.sited).map Slot.target, name ∈ (part child).refs := by
  rw [← mem_refs_slots]
  simp only [mem_refs_fieldJson, mem_refs_slotJsonWith, List.mem_map, exists_exists_and_eq_and]
  rfl

theorem mem_refs_documented {members : List (String × Json)} (doc : Option String)
    (silent : "doc" ∉ members.map Prod.fst) :
    name ∈ ((Json.object members).withMember? "doc" (doc.map .string)).refs ↔
      name ∈ (Json.object members).refs := by
  cases doc with
  | none => rfl
  | some text =>
    have appended := OrderedMap.put_of_not_mem (Json.string text) silent
    simp [Json.withMember?, Json.withMember, appended, Json.mem_refs_object, or_and_right,
      exists_or, Json.memberRefs_of_ne]

/-- The references of the inline view of a definition without a name. -/
theorem mem_refs_inlineJson {definition : Definition} (unnamed : definition.isNamed = false) :
    name ∈ (inlineJson part definition).refs ↔
      name ∈ definition.shape.dataRefs ∨
        ∃ child ∈ definition.shape.children, name ∈ (part child).refs := by
  obtain ⟨shape, doc, annotations⟩ := definition
  have documented {members : List (String × Json)} (silent : "doc" ∉ members.map Prod.fst) :=
    @mem_refs_documented name members doc silent
  cases shape with
  | scalar word =>
    simp [inlineJson, documented, Json.mem_refs_object, Json.memberRefs_of_ne, Shape.dataRefs,
      Shape.children, Shape.slots]
  | constant value =>
    simp [inlineJson, documented, Json.mem_refs_object, Json.memberRefs_of_ne, Shape.dataRefs,
      Shape.children, Shape.slots]
  | choice connective alternatives =>
    refine Iff.trans ?_ (mem_refs_slots alternatives)
    cases connective <;>
      simp [inlineJson, documented, Json.mem_refs_object, Json.mem_refs_array,
        Json.memberRefs_of_ne]
  | list item =>
    refine Iff.trans ?_ (mem_refs_slots item.toList)
    cases item <;> cases doc <;>
      simp [inlineJson, Json.mem_refs_object, Json.withMember?, Json.withMember, OrderedMap.put,
        Json.memberRefs_of_ne]
  | reference target =>
    refine Iff.trans ?_ (mem_refs_slots target.toList)
    cases target <;> cases doc <;>
      simp [inlineJson, Json.mem_refs_object, Json.withMember?, Json.withMember, OrderedMap.put,
        Json.memberRefs_of_ne]
  | anonymous fields =>
    refine Iff.trans ?_ (mem_refs_fields fields)
    simp [inlineJson, documented, Json.mem_refs_object, Json.mem_refs_array, Json.memberRefs_of_ne]
  | record => cases unnamed
  | extension => cases unnamed
  | unknown word =>
    simp [inlineJson, Json.mem_refs_object, Json.memberRefs_of_ne, Shape.dataRefs,
      Shape.children, Shape.slots]

end

variable {catalog : Catalog} {name : String}

/-! ## Inline views -/

/-- The inline view of a type refers to a name, in its own place or in a part. -/
inductive Mentions (catalog : Catalog) : TypeId → String → Prop
  | named {id : TypeId} (named : (catalog.definition (catalog.follow id)).isNamed = true) :
      Mentions catalog id (catalog.definition (catalog.follow id)).name
  | data {id : TypeId} {name : String}
      (unnamed : (catalog.definition (catalog.follow id)).isNamed = false)
      (member : name ∈ (catalog.shape (catalog.follow id)).dataRefs) : Mentions catalog id name
  | part {id child : TypeId} {name : String}
      (unnamed : (catalog.definition (catalog.follow id)).isNamed = false)
      (member : child ∈ (catalog.shape (catalog.follow id)).children)
      (mentions : Mentions catalog child name) : Mentions catalog id name

theorem refs_inlineJson_of_isNamed {part : TypeId → Json} {definition : Definition}
    (named : definition.isNamed = true) :
    (inlineJson part definition).refs = [definition.name] := by
  obtain ⟨shape, doc, annotations⟩ := definition
  cases shape <;> first | rfl | cases named

theorem mentions_of_mem_refs (depth : Nat) (id : TypeId)
    (member : name ∈ (catalog.typeJsonWithin depth id).refs) : catalog.Mentions id name := by
  induction depth generalizing id with
  | zero => cases member
  | succ depth ih =>
    rw [typeJsonWithin] at member
    cases named : (catalog.definition (catalog.follow id)).isNamed with
    | true =>
      rw [refs_inlineJson_of_isNamed named, List.mem_singleton] at member
      exact member ▸ .named named
    | false =>
      rcases (mem_refs_inlineJson named).mp member with data | ⟨child, inside, within⟩
      · exact .data named data
      · exact .part named inside (ih child within)

/-- An id leads to itself if it leads to a type without a name. -/
theorem Consistent.follow_of_unnamed (consistent : catalog.Consistent) {id : TypeId}
    (unnamed : (catalog.definition (catalog.follow id)).isNamed = false) :
    catalog.follow id = id := by
  rw [consistent.follow_eq] at unnamed ⊢
  cases found : catalog.forward.get? id with
  | none => rfl
  | some landing =>
    obtain ⟨_, _, name, canonical⟩ := consistent.retired id landing found
    rw [found] at unnamed
    exact absurd (consistent.isNamed_of_canonical canonical) (by simpa using unnamed)

/-- A view that is as deep as the nesting of its type shows everything. -/
theorem mem_refs_of_mentions (consistent : catalog.Consistent) (nested : catalog.Nested)
    {id : TypeId} (mentions : catalog.Mentions id name) (depth : Nat)
    (deep : 1 ≤ depth)
    (enough : (catalog.definition (catalog.follow id)).isNamed = false →
      catalog.rank (catalog.follow id) + 2 ≤ depth) :
    name ∈ (catalog.typeJsonWithin depth id).refs := by
  induction mentions generalizing depth with
  | named named =>
    obtain ⟨depth, rfl⟩ := Nat.exists_eq_add_of_le' deep
    rw [typeJsonWithin, refs_inlineJson_of_isNamed named]
    exact List.mem_singleton_self _
  | data unnamed member =>
    obtain ⟨depth, rfl⟩ := Nat.exists_eq_add_of_le' deep
    rw [typeJsonWithin]
    exact (mem_refs_inlineJson unnamed).mpr (.inl member)
  | @part id child name unnamed member mentions ih =>
    obtain ⟨depth, rfl⟩ := Nat.exists_eq_add_of_le' deep
    rw [typeJsonWithin]
    refine (mem_refs_inlineJson unnamed).mpr (.inr ⟨child, member, ih depth ?_ fun inner => ?_⟩)
    · have := enough unnamed
      omega
    · have same := consistent.follow_of_unnamed inner
      rw [same] at inner ⊢
      have fewer := nested.rank_lt_of_inside consistent ⟨unnamed, member, inner⟩
      have := enough unnamed
      omega

theorem mem_refs_typeJson (consistent : catalog.Consistent) (nested : catalog.Nested) {id : TypeId}
    (held : catalog.Holds id) :
    name ∈ (catalog.typeJson id).refs ↔ catalog.Mentions id name := by
  refine ⟨mentions_of_mem_refs _ id, fun mentions => ?_⟩
  refine mem_refs_of_mentions consistent nested mentions _ (by omega) fun _ => ?_
  have := nested.rank_lt_size (consistent.holds_follow held)
  omega

/-! ## Displayed definitions -/

/-- The parts of the definition are written out in the dump. -/
inductive Displayed (catalog : Catalog) : TypeId → Prop
  | canonical {name : String} {id : TypeId} (found : catalog.canonical.get? name = some id) :
      Displayed catalog id
  | part {owner child : TypeId} (displayed : Displayed catalog owner)
      (member : child ∈ (catalog.shape owner).children)
      (unnamed : (catalog.definition (catalog.follow child)).isNamed = false) :
      Displayed catalog (catalog.follow child)

/-- The definition shows the name, in its own data or as the name of a part. -/
def Shows (catalog : Catalog) (owner : TypeId) (name : String) : Prop :=
  name ∈ (catalog.shape owner).dataRefs ∨ ∃ child ∈ (catalog.shape owner).children,
    (catalog.definition (catalog.follow child)).isNamed = true ∧
      (catalog.definition (catalog.follow child)).name = name

/-- The definition refers to the name in its own data or in a part, at any depth. -/
def RefersTo (catalog : Catalog) (owner : TypeId) (name : String) : Prop :=
  name ∈ (catalog.shape owner).dataRefs ∨
    ∃ child ∈ (catalog.shape owner).children, catalog.Mentions child name

theorem Displayed.shows_of_mentions {owner child : TypeId} (displayed : catalog.Displayed owner)
    (member : child ∈ (catalog.shape owner).children) (mentions : catalog.Mentions child name) :
    ∃ owner, catalog.Displayed owner ∧ catalog.Shows owner name := by
  induction mentions generalizing owner with
  | named named => exact ⟨owner, displayed, .inr ⟨_, member, named, rfl⟩⟩
  | data unnamed data => exact ⟨_, displayed.part member unnamed, .inl data⟩
  | part unnamed inside _ ih => exact ih (displayed.part member unnamed) inside

theorem Displayed.root_refersTo {owner : TypeId} (displayed : catalog.Displayed owner)
    (refers : catalog.RefersTo owner name) :
    ∃ root id, catalog.canonical.get? root = some id ∧ catalog.RefersTo id name := by
  induction displayed with
  | canonical found => exact ⟨_, _, found, refers⟩
  | part _ member unnamed ih =>
    refine ih (.inr ⟨_, member, ?_⟩)
    rcases refers with data | ⟨child, inside, mentions⟩
    · exact .data unnamed data
    · exact .part unnamed inside mentions

theorem Shows.refersTo {owner : TypeId} (shows : catalog.Shows owner name) :
    catalog.RefersTo owner name := by
  rcases shows with data | ⟨child, member, named, same⟩
  · exact .inl data
  · exact .inr ⟨child, member, same ▸ .named named⟩

/-- What canonical definitions refer to is what displayed ones show. -/
theorem exists_refersTo_iff :
    (∃ root id, catalog.canonical.get? root = some id ∧ catalog.RefersTo id name) ↔
      ∃ owner, catalog.Displayed owner ∧ catalog.Shows owner name := by
  constructor
  · rintro ⟨root, id, found, data | ⟨child, member, mentions⟩⟩
    · exact ⟨id, .canonical found, .inl data⟩
    · exact (Displayed.canonical found).shows_of_mentions member mentions
  · rintro ⟨owner, displayed, shows⟩
    exact displayed.root_refersTo shows.refersTo

/-! ## Dumps -/

/-- The references of the full view of a canonical type. -/
theorem mem_refs_definitionJson (consistent : catalog.Consistent) (nested : catalog.Nested)
    {root : String} {id : TypeId} (found : catalog.canonical.get? root = some id) :
    name ∈ (catalog.definitionJson id).refs ↔ catalog.RefersTo id name := by
  have held := (consistent.owned root id (known?_of_canonical found)).held
  have named := consistent.isNamed_of_canonical found
  have same := follow_of_forward_eq_none (consistent.forward_of_canonical found)
  have parts : catalog.RefersTo id name ↔ name ∈ (catalog.shape id).dataRefs ∨
      ∃ child ∈ (catalog.shape id).children, name ∈ (catalog.typeJson child).refs := by
    refine or_congr_right (exists_congr fun child => and_congr_right fun member => ?_)
    exact (mem_refs_typeJson consistent nested (consistent.linked id held child member)).symm
  rw [parts, definitionJson, same, Catalog.shape]
  generalize catalog.definition id = definition at named
  rcases definition with ⟨shape, doc, annotations⟩
  dsimp only
  generalize annotations.get? "source" = source
  cases shape with
  | record _ fields =>
    refine Iff.trans ?_ (mem_refs_fields fields)
    cases doc <;> cases source <;>
      simp [Json.withMember?, Json.withMember, OrderedMap.put, Json.mem_refs_object,
        Json.mem_refs_array, Json.memberRefs_of_ne]
  | extension _ value =>
    refine Iff.trans ?_ (mem_refs_slots value.toList)
    cases doc <;> cases source <;> cases value <;>
      simp [slotJson, Json.withMember?, Json.withMember, OrderedMap.put, Json.mem_refs_object,
        Json.memberRefs_of_ne]
  | _ => cases named

/-- The full view of a canonical type is an object. -/
theorem exists_definitionJson_eq_object (consistent : catalog.Consistent) {root : String}
    {id : TypeId} (found : catalog.canonical.get? root = some id) :
    ∃ members, catalog.definitionJson id = .object members := by
  have named := consistent.isNamed_of_canonical found
  rw [definitionJson, follow_of_forward_eq_none (consistent.forward_of_canonical found)]
  generalize catalog.definition id = definition at named
  rcases definition with ⟨shape, doc, annotations⟩
  dsimp only
  generalize annotations.get? "source" = source
  cases shape with
  | record => cases doc <;> cases source <;> exact ⟨_, rfl⟩
  | extension _ value => cases doc <;> cases source <;> cases value <;> exact ⟨_, rfl⟩
  | _ => cases named

/-- The members of a dump are the canonical names with their full views. -/
theorem mem_members (consistent : catalog.Consistent) {key : String} {value : Json} :
    (key, value) ∈ (catalog.names.filterMap fun name =>
        (catalog.canonical? name).map fun id => (name, catalog.definitionJson id)) ↔
      ∃ id, catalog.canonical.get? key = some id ∧ catalog.definitionJson id = value := by
  have listed (root : String) :
      root ∈ catalog.names ↔ ∃ id, catalog.canonical.get? root = some id :=
    (perm_sortBy _ _).mem_iff.trans OrderedMap.mem_keys_iff
  simp only [List.mem_filterMap, Option.map_eq_some_iff, Prod.mk.injEq]
  constructor
  · rintro ⟨root, member, id, found, rfl, same⟩
    obtain ⟨other, canonical⟩ := (listed root).mp member
    cases (consistent.canonical?_eq canonical).symm.trans found
    exact ⟨_, canonical, same⟩
  · rintro ⟨id, found, same⟩
    exact ⟨key, (listed key).mpr ⟨id, found⟩, id, consistent.canonical?_eq found, rfl, same⟩

/-- The references of a dump are what its displayed definitions show. -/
theorem mem_refs_toJson (consistent : catalog.Consistent) (nested : catalog.Nested) :
    name ∈ catalog.toJson.refs ↔ ∃ owner, catalog.Displayed owner ∧ catalog.Shows owner name := by
  rw [← exists_refersTo_iff, toJson, Json.mem_refs_object]
  constructor
  · rintro ⟨⟨key, value⟩, member, refers⟩
    obtain ⟨id, found, rfl⟩ := (mem_members consistent).mp member
    obtain ⟨members, object⟩ := exists_definitionJson_eq_object consistent found
    rcases refers with own | inside
    · rw [object] at own
      exact absurd own List.not_mem_nil
    · exact ⟨key, id, found, (mem_refs_definitionJson consistent nested found).mp inside⟩
  · rintro ⟨root, id, found, refers⟩
    exact ⟨(root, _), (mem_members consistent).mpr ⟨id, found, rfl⟩,
      .inr ((mem_refs_definitionJson consistent nested found).mpr refers)⟩

/-- The keys of a dump are the canonical names. -/
theorem isSome_member?_toJson (consistent : catalog.Consistent) :
    (catalog.toJson.member? name).isSome = true ↔ ∃ id, catalog.canonical.get? name = some id := by
  rw [toJson, Json.member?, Option.isSome_iff_exists]
  refine (@OrderedMap.mem_keys_iff _ _ _ ⟨_⟩ name).symm.trans ?_
  rw [OrderedMap.keys, List.mem_map]
  constructor
  · rintro ⟨⟨key, value⟩, member, rfl⟩
    obtain ⟨id, found, _⟩ := (mem_members consistent).mp member
    exact ⟨id, found⟩
  · rintro ⟨id, found⟩
    exact ⟨(name, _), (mem_members consistent).mpr ⟨id, found, rfl⟩, rfl⟩

end Catalog

end DocShapes
