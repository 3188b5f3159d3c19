import DocShapes.Proofs.Gains
import DocShapes.Proofs.Headers

/-! # Lines in docs

How often a line occurs in the docs of a catalog: in those of its definitions and in those of the
sites in them. New definitions add their lines, and a definition that is replaced exchanges them.
The types of specs have no docs, and leave what names mean as it was.
-/

namespace DocShapes

/-! ## Docs of slots and definitions -/

theorem Slot.target_toSite (slot : Slot) : slot.toSite.target = slot.target := by
  cases slot <;> rfl

/-- The lines of the doc of a slot. -/
def Slot.docLines (slot : Slot) : List String := Doc.visible slot.toSite.doc

/-- The lines of the docs in a shape. -/
def Shape.docLines (shape : Shape) : List String := shape.slots.flatMap Slot.docLines

/-- The lines of the docs of a definition. -/
def Definition.docLines (definition : Definition) : List String :=
  Doc.visible definition.doc ++ definition.shape.docLines

@[simp] theorem Definition.docLines_ofShape (shape : Shape) :
    (Definition.ofShape shape).docLines = shape.docLines := rfl

theorem Shape.docLines_of_bare {shape : Shape} (bare : ∀ slot ∈ shape.slots, ∃ id, slot = .bare id) :
    shape.docLines = [] := by
  rw [docLines, List.flatMap_eq_nil_iff]
  intro slot member
  obtain ⟨id, rfl⟩ := bare slot member
  rfl

namespace Catalog

variable {catalog before after : Catalog}

/-- The lines of all docs. -/
def docLines (catalog : Catalog) : List String := catalog.arena.toList.flatMap Definition.docLines

theorem docLines_of_arena (arena : after.arena = before.arena) : after.docLines = before.docLines := by
  rw [docLines, docLines, arena]

theorem docLines_push (catalog : Catalog) (definition : Definition) :
    (catalog.push definition).docLines = catalog.docLines ++ definition.docLines := by
  simp [docLines]

/-- A definition that is replaced exchanges its lines. -/
theorem count_docLines_put {id : TypeId} (held : catalog.Holds id) (definition : Definition)
    (line : String) :
    (catalog.put id definition).docLines.count line + (catalog.definition id).docLines.count line =
      catalog.docLines.count line + definition.docLines.count line := by
  have inside : id.index < catalog.arena.toList.length := held
  have own : catalog.definition id = catalog.arena.toList[id.index] := by
    simp [Catalog.definition, show id.index < catalog.arena.size from held]
  have parted : catalog.arena.toList = catalog.arena.toList.take id.index ++
      catalog.definition id :: catalog.arena.toList.drop (id.index + 1) := by
    rw [own, ← List.drop_eq_getElem_cons inside, List.take_append_drop]
  have replaced : (catalog.put id definition).arena.toList = catalog.arena.toList.take id.index ++
      definition :: catalog.arena.toList.drop (id.index + 1) := by
    rw [put_arena, Array.toList_setIfInBounds, List.set_eq_take_append_cons_drop, if_pos inside]
  rw [docLines, docLines, replaced]
  conv_rhs => rw [parted]
  simp only [List.flatMap_append, List.flatMap_cons, List.count_append]
  omega

/-! ## What names mean -/

theorem Keeps.steady (keeps : before.Keeps after) (marker : after.marker = before.marker) :
    before.Steady after := ⟨keeps.aliases, marker, keeps.mention_eq⟩

theorem Consistent.steady_push (consistent : catalog.Consistent) (definition : Definition) :
    catalog.Steady (catalog.push definition) := ⟨rfl, rfl, consistent.mention_push definition⟩

/-- A definition of the same base gives its name the same meaning. -/
theorem steady_put {id : TypeId} {definition : Definition}
    (same : definition.shape.base = (catalog.shape id).base) :
    catalog.Steady (catalog.put id definition) := by
  refine ⟨rfl, rfl, fun name => ?_⟩
  have base (other : TypeId) :
      ((catalog.put id definition).shape other).base = (catalog.shape other).base := by
    rw [Catalog.shape, definition_put]
    split
    · rename_i here
      rw [same, here.1]
    · rfl
  have meaning : (catalog.put id definition).meaning name = catalog.meaning name := by
    simp only [Catalog.meaning, known?, put_canonical, put_provisional, put_customTypes, base]
  rw [mention, meaning, ← mention]

theorem steady_enlist (declaration : Declaration) : catalog.Steady (catalog.enlist declaration) :=
  ⟨rfl, rfl, fun _ => rfl⟩

/-! ## Types of specs -/

theorem ends_allocate_silent {shape : Shape} (silent : shape.docLines = []) :
    Ends (allocate (.ofShape shape)) catalog (fun _ after => after.docLines = catalog.docLines)
      fun _ => False := by
  rw [ends_allocate, docLines_push, Definition.docLines_ofShape, silent, List.append_nil]

theorem ends_elaborateName_silent (name : String) :
    Ends (elaborateName name) catalog (fun _ after => after.docLines = catalog.docLines)
      fun _ => False := by
  simp only [elaborateName, ends_bind, ends_get]
  split
  · exact ends_allocate_silent rfl
  · exact ends_allocate_silent rfl
  · simp only [ends_bind, ensureProvisional, ends_get, ends_pure, setProvisional]
    refine (@ends_allocate_silent catalog (.record name []) rfl).imp fun _ middle same => ?_
    exact ends_ite (fun _ => same) fun _ => same
  · exact ends_allocate_silent rfl

mutual

theorem ends_elaborate_silent (spec : Spec) {catalog : Catalog} :
    Ends (elaborate spec) catalog (fun _ after => after.docLines = catalog.docLines)
      fun _ => False := by
  cases spec with
  | named name => exact ends_elaborateName_silent name
  | listOf item | referenceTo item =>
    rw [elaborate, ends_bind]
    refine (ends_elaborate_silent item).imp fun id middle same => ?_
    exact same ▸ ends_allocate_silent rfl
  | sequence connective items =>
    rw [elaborate, ends_bind]
    refine (ends_elaborateEach_silent items).imp fun ids middle same => ?_
    refine same ▸ ends_allocate_silent (Shape.docLines_of_bare fun slot member => ?_)
    obtain ⟨id, _, rfl⟩ := List.mem_map.mp member
    exact ⟨id, rfl⟩
  | _ => exact ends_allocate_silent rfl

theorem ends_elaborateEach_silent (specs : List Spec) {catalog : Catalog} :
    Ends (elaborate.elaborateEach specs) catalog (fun _ after => after.docLines = catalog.docLines)
      fun _ => False := by
  cases specs with
  | nil => exact rfl
  | cons spec rest =>
    rw [elaborate.elaborateEach, ends_bind]
    refine (ends_elaborate_silent spec).imp fun first middle same => ?_
    rw [ends_bind]
    exact (ends_elaborateEach_silent rest).imp fun _ _ further => further.trans same

end

end Catalog

end DocShapes
