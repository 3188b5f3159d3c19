import DocShapes.Proofs.Blocks
import DocShapes.Proofs.Layout

/-! # What headers declare

A header declares a slot, and the headers of its body declare the fields or the item of the type
that takes the body. `Declares` says so of a layout and the slots of a block, at any depth. It goes
on to hold as long as the types that the slots lead to stay as they are (`Declares.kept`).
-/

namespace DocShapes

/-- A type without slots that takes a body in this way. -/
def Intake.Empty : Intake → Shape → Prop
  | .fields, shape => shape.isRecordLike = true ∧ shape.slots = []
  | .item, shape => shape = .list none

theorem Intake.Empty.ne_list {intake : Intake} {shape : Shape} (empty : intake.Empty shape)
    (item : Slot) : shape ≠ .list (some item) := by
  rintro rfl
  cases intake with
  | fields => cases empty.1
  | item => cases empty

theorem Intake.Empty.supportsChildren {intake : Intake} {shape : Shape}
    (empty : intake.Empty shape) : shape.supportsChildren = true := by
  cases intake with
  | fields => cases shape <;> first | rfl | cases empty.1
  | item =>
    cases empty
    rfl

theorem Intake.Empty.isRecordLike {intake : Intake} {shape : Shape} (empty : intake.Empty shape) :
    shape.isRecordLike = decide (intake = .fields) := by
  cases intake with
  | fields => simpa using empty.1
  | item =>
    cases empty
    rfl

theorem Intake.Empty.slots {intake : Intake} {shape : Shape} (empty : intake.Empty shape) :
    shape.slots = [] := by
  cases intake with
  | fields => exact empty.2
  | item =>
    cases empty
    rfl

namespace Catalog

variable {catalog before after : Catalog}

/-! ## Types that take bodies -/

/-- The second type stands at the end of a chain of lists that begins with the first one. -/
inductive Innermost (catalog : Catalog) : TypeId → TypeId → Prop
  | here (id : TypeId) : Innermost catalog id id
  | item {id target : TypeId} {item : Slot} (list : catalog.shape id = .list (some item))
      (inner : Innermost catalog item.target target) : Innermost catalog id target

/-- The slots that a type has taken from a body: its fields, its item, or the fields of a record
that is its item. -/
inductive Takes (catalog : Catalog) (id : TypeId) : List Slot → Prop
  | fields {shape : Shape} (same : catalog.shape id = shape) (record : shape.isRecordLike = true) :
      Takes catalog id shape.slots
  | nothing (list : catalog.shape id = .list none) : Takes catalog id []
  | item {slot : Slot} (list : catalog.shape id = .list (some slot)) : Takes catalog id [slot]
  | record {item : TypeId} {fields : List Site}
      (list : catalog.shape id = .list (some (.bare item)))
      (anonymous : catalog.shape item = .anonymous fields) :
      Takes catalog id (fields.map .sited)

/-- The headers of a layout have declared the slots, one each and in their order. -/
inductive Declares (catalog : Catalog) : Layout → List Slot → Prop
  | done : Declares catalog .done []
  | prose {line : String} {rest : Layout} {slots : List Slot} (behind : Declares catalog rest slots) :
      Declares catalog (.prose line rest) slots
  /-- The body is prose. -/
  | header {line : String} {name : Option String} {body rest : Layout} {slot : Slot}
      {slots : List Slot} (named : slot.toSite.name = name) (plain : body.names = [])
      (behind : Declares catalog rest slots) :
      Declares catalog (.header line name body rest) (slot :: slots)
  /-- A type has taken what the body declares. -/
  | taken {line : String} {name : Option String} {body rest : Layout} {slot : Slot}
      {slots children : List Slot} {target : TypeId} (named : slot.toSite.name = name)
      (innermost : catalog.Innermost slot.target target) (takes : catalog.Takes target children)
      (inner : Declares catalog body children) (behind : Declares catalog rest slots) :
      Declares catalog (.header line name body rest) (slot :: slots)

/-- The prose that a body has for its type is the given lines with the doc of the type that takes
the body. -/
def OwnProse (catalog : Catalog) (body : Layout) (id : TypeId) (given : List String) : Prop :=
  ∃ target, catalog.Innermost id target ∧
    given ++ Doc.visible (catalog.definition target).doc = body.own

theorem Declares.names {layout : Layout} {slots : List Slot}
    (declares : catalog.Declares layout slots) :
    slots.map (fun slot => slot.toSite.name) = layout.names := by
  induction declares with
  | done => rfl
  | prose _ ih => exact ih
  | header named _ _ ih => rw [List.map_cons, named, ih, Layout.names]
  | taken named _ _ _ _ _ ih => rw [List.map_cons, named, ih, Layout.names]

theorem declares_behind_iff (front : List String) {rest : Layout} {slots : List Slot} :
    catalog.Declares (.behind front rest) slots ↔ catalog.Declares rest slots := by
  induction front with
  | nil => rfl
  | cons line _ ih =>
    rw [Layout.behind, List.foldr_cons, ← Layout.behind, ← ih]
    refine ⟨fun declares => ?_, .prose⟩
    cases declares
    assumption

/-- A header and what stands behind it. -/
theorem Declares.cons {line : String} {name : Option String} {body rest : Layout} {slot : Slot}
    {slots : List Slot} (first : catalog.Declares (.header line name body .done) [slot])
    (behind : catalog.Declares rest slots) :
    catalog.Declares (.header line name body rest) (slot :: slots) := by
  cases first with
  | header named plain => exact .header named plain behind
  | taken named innermost takes inner => exact .taken named innermost takes inner behind

/-- Only the targets and the names of slots matter. -/
theorem Declares.congr {layout : Layout} {slots others : List Slot}
    (declares : catalog.Declares layout slots)
    (same : List.Forall₂ (fun slot other : Slot => other.target = slot.target ∧
      other.toSite.name = slot.toSite.name) slots others) :
    catalog.Declares layout others := by
  induction declares generalizing others with
  | done =>
    cases same
    exact .done
  | prose _ ih => exact .prose (ih same)
  | header named plain _ ih =>
    obtain _ | ⟨here, further⟩ := same
    exact .header (here.2.trans named) plain (ih further)
  | taken named innermost takes inner _ _ ih =>
    obtain _ | ⟨here, further⟩ := same
    exact .taken (here.2.trans named) (here.1.symm ▸ innermost) takes inner (ih further)

/-! ## Declarations stay -/

section

variable {region : TypeId → Prop}
  (closed : ∀ id, region id → ∀ child ∈ (before.shape id).children, region child)
  (same : ∀ id, region id → after.shape id = before.shape id)

include closed same

theorem Innermost.kept {id target : TypeId} (innermost : before.Innermost id target)
    (inside : region id) : after.Innermost id target ∧ region target := by
  induction innermost with
  | here => exact ⟨.here _, inside⟩
  | @item id target item list _ ih =>
    obtain ⟨inner, within⟩ := ih (closed id inside _ (by simp [list, Shape.children, Shape.slots]))
    exact ⟨.item ((same id inside).trans list) inner, within⟩

theorem Takes.kept {id : TypeId} {children : List Slot} (takes : before.Takes id children)
    (inside : region id) :
    after.Takes id children ∧ ∀ slot ∈ children, region slot.target := by
  have own := closed id inside
  cases takes with
  | fields shape record =>
    refine ⟨.fields ((same id inside).trans shape) record, fun slot member => own _ ?_⟩
    rw [shape]
    exact List.mem_map_of_mem member
  | nothing list => exact ⟨.nothing ((same id inside).trans list), by simp⟩
  | item list =>
    refine ⟨.item ((same id inside).trans list), ?_⟩
    simpa [list, Shape.children, Shape.slots] using own
  | @record item fields list anonymous =>
    have further : region item := by simpa [list, Shape.children, Shape.slots, Slot.target] using own
    refine ⟨.record ((same id inside).trans list) ((same item further).trans anonymous),
      fun slot member => closed item further _ ?_⟩
    rw [anonymous]
    exact List.mem_map_of_mem member

/-- What has been declared stays declared as long as its types stay as they are. -/
theorem Declares.kept {layout : Layout} {slots : List Slot}
    (declares : before.Declares layout slots) (targets : ∀ slot ∈ slots, region slot.target) :
    after.Declares layout slots := by
  induction declares with
  | done => exact .done
  | prose _ ih => exact .prose (ih targets)
  | header named plain _ ih =>
    exact .header named plain (ih (List.forall_mem_cons.mp targets).2)
  | taken named innermost takes _ _ inner behind =>
    obtain ⟨here, others⟩ := List.forall_mem_cons.mp targets
    obtain ⟨innermost, within⟩ := innermost.kept closed same here
    obtain ⟨takes, children⟩ := takes.kept closed same within
    exact .taken named innermost takes (inner children) (behind others)

end

theorem shape_of_arena (arena : after.arena = before.arena) (id : TypeId) :
    after.shape id = before.shape id := by
  rw [Catalog.shape, Catalog.definition, arena, ← Catalog.definition, ← Catalog.shape]

theorem Innermost.of_arena {id target : TypeId} (innermost : before.Innermost id target)
    (arena : after.arena = before.arena) : after.Innermost id target :=
  (@Innermost.kept _ _ (fun _ => True) (fun _ _ _ _ => trivial)
    (fun other _ => shape_of_arena arena other) _ _ innermost trivial).1

theorem Declares.of_arena {layout : Layout} {slots : List Slot}
    (declares : before.Declares layout slots) (arena : after.arena = before.arena) :
    after.Declares layout slots :=
  @Declares.kept _ _ (fun _ => True) (fun _ _ _ _ => trivial)
    (fun other _ => shape_of_arena arena other) _ _ declares fun _ _ => trivial

/-! ## Types of specs -/

/-- A chain of lists stays if only its end changes. -/
theorem Innermost.of_others {id target : TypeId} (innermost : before.Innermost id target)
    (ended : ∀ item, before.shape target ≠ .list (some item))
    (same : ∀ other, before.Holds other → other ≠ target →
      after.shape other = before.shape other) : after.Innermost id target := by
  induction innermost with
  | here => exact .here _
  | @item id target item list _ ih =>
    have different : id ≠ target := by
      rintro rfl
      exact ended item list
    have held : before.Holds id := by
      by_contra missing
      rw [Catalog.shape, definition_of_not_holds missing] at list
      cases list
    exact .item ((same id held different).trans list) (ih ended same)

theorem intake?_named (catalog : Catalog) (name : String) :
    catalog.intake? (.named name) = some .fields ∧ (catalog.mention name).isRecordLike = true ∨
      catalog.intake? (.named name) = none ∧ (catalog.mention name).supportsChildren = false ∧
        ∀ item, catalog.mention name ≠ .list (some item) := by
  have shapes : catalog.mention name = .record name [] ∨
      catalog.mention name = .extension name none ∨ catalog.mention name = .unknown name := by
    unfold mention
    split <;> simp
  rcases shapes with same | same | same <;>
    simp [intake?, same, Shape.isRecordLike, Shape.supportsChildren]

theorem supportsChildren_shapeOf {spec : Spec} {intake : Intake} (ids : List TypeId)
    (takes : catalog.intake? spec = some intake) :
    (catalog.shapeOf spec ids).supportsChildren = true := by
  cases spec with
  | named name =>
    rcases intake?_named catalog name with found | absent
    · have record := found.2
      rw [shapeOf]
      cases shape : catalog.mention name <;> simp_all [Shape.supportsChildren, Shape.isRecordLike]
    · rw [absent.1] at takes
      cases takes
  | list | listOf | record => rfl
  | _ => cases takes

theorem Represents.supportsChildren {spec : Spec} {id : TypeId}
    (represents : catalog.Represents spec id) {intake : Intake}
    (takes : catalog.intake? spec = some intake) : (catalog.shape id).supportsChildren = true := by
  obtain ⟨_, definition, _⟩ := represents
  rw [Catalog.shape, definition]
  exact supportsChildren_shapeOf _ takes

/-- The type of a spec has no doc. -/
theorem Represents.silent {spec : Spec} {id : TypeId} (represents : catalog.Represents spec id) :
    (catalog.definition id).doc = none := by
  obtain ⟨_, definition, _⟩ := represents
  rw [definition]
  rfl

theorem bodyTarget?_of_ne_list {id : TypeId} (ended : ∀ item, catalog.shape id ≠ .list (some item))
    (depth : Nat) : catalog.bodyTarget? (depth + 1) id =
      if (catalog.shape id).supportsChildren then some id else none := by
  rw [bodyTarget?]
  split
  · rename_i item same
    exact absurd same (ended item)
  · rfl

/-- The definition of a spec takes bodies as the spec says. -/
theorem Represents.bodyTarget? {spec : Spec} {id : TypeId} (represents : catalog.Represents spec id)
    {depth : Nat} (deep : id.index < depth) :
    match catalog.intake? spec with
    | none => catalog.bodyTarget? depth id = none
    | some intake => ∃ target, catalog.bodyTarget? depth id = some target ∧
        catalog.Innermost id target ∧ intake.Empty (catalog.shape target) ∧
        (catalog.definition target).doc = none := by
  induction represents generalizing depth with
  | @node spec id ids held definition standing earlier count parts ih =>
    obtain ⟨depth, rfl⟩ : ∃ less, depth = less + 1 := ⟨depth - 1, by omega⟩
    have shape : catalog.shape id = catalog.shapeOf spec ids := by rw [Catalog.shape, definition]; rfl
    have silent := (Represents.node held definition standing earlier count parts).silent
    -- A type that takes a body itself.
    have own {intake : Intake} (empty : intake.Empty (catalog.shape id)) :
        ∃ target, catalog.bodyTarget? (depth + 1) id = some target ∧
          catalog.Innermost id target ∧ intake.Empty (catalog.shape target) ∧
          (catalog.definition target).doc = none := by
      refine ⟨id, ?_, .here id, empty, silent⟩
      rw [bodyTarget?_of_ne_list empty.ne_list, if_pos empty.supportsChildren]
    -- A type that takes none.
    have other (unlisted : ∀ item, catalog.shape id ≠ .list (some item))
        (childless : (catalog.shape id).supportsChildren = false) :
        catalog.bodyTarget? (depth + 1) id = none := by
      rw [bodyTarget?_of_ne_list unlisted, childless]
      rfl
    cases spec with
    | named name =>
      rcases intake?_named catalog name with takes | ⟨none, childless, unlisted⟩
      · rw [takes.1]
        exact own (by rw [shape]; exact ⟨takes.2, slots_mention catalog name⟩)
      · rw [none]
        exact other (by rw [shape]; exact unlisted) (by rw [shape]; exact childless)
    | listOf item =>
      obtain ⟨child, rfl⟩ := List.length_eq_one_iff.mp count.symm
      have list : catalog.shape id = .list (some (.bare child)) := shape
      have inside : (item, child) ∈ (Spec.listOf item).parts.zip [child] := by simp [Spec.parts]
      have before : child.index < depth := by
        have := earlier child List.mem_cons_self
        omega
      have further := ih inside before
      have step : catalog.bodyTarget? (depth + 1) id =
          if (catalog.shape child).supportsChildren then catalog.bodyTarget? depth child
          else none := by
        rw [Catalog.bodyTarget?, list]
        rfl
      rw [step, intake?]
      cases takes : catalog.intake? item with
      | none =>
        rw [takes] at further
        dsimp only at further ⊢
        rw [further, ite_self]
      | some intake =>
        rw [takes] at further
        obtain ⟨target, found, inner, empty, undocumented⟩ := further
        rw [if_pos ((parts inside).supportsChildren takes)]
        exact ⟨target, found, .item list inner, empty, undocumented⟩
    | list => exact own shape
    | record => exact own (by rw [shape]; exact ⟨rfl, rfl⟩)
    | _ => exact other (by simp [shape, shapeOf]) (by rw [shape]; rfl)

end Catalog

end DocShapes
