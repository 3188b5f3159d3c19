import DocShapes.Catalog.Equivalence
import DocShapes.Catalog.Render
import DocShapes.Proofs.DeclarationText
import DocShapes.Proofs.Parts
import DocShapes.Proofs.Representation
import DocShapes.Proofs.Runs

/-! # Reading back what is rendered

The spec text of a type that a declaration has made is the text of its spec, so that reading it
again makes a type of the same spec. Types of one spec are equivalent.
-/

namespace DocShapes.Catalog

variable {catalog : Catalog} {spec : Spec} {id : TypeId}

/-! ## Texts -/

/-- All texts but the first have a separator in front of them. -/
theorem intercalate_cons (connective : Connective) (first : List Char) (rest : List (List Char)) :
    connective.separator.toList.intercalate (first :: rest) = first ++ connective.behind rest := by
  induction rest generalizing first with
  | nil => simp [Connective.behind]
  | cons second others ih =>
    rw [List.intercalate_cons_cons, ih, Connective.behind, Connective.behind, List.flatMap_cons,
      List.append_assoc, List.append_assoc]

theorem shapeText_mention (part : TypeId → String) (name : String) :
    shapeText part (catalog.mention name) = name := by
  unfold mention
  split <;> rfl

theorem toList_texts {part : TypeId → String} {specs : List Spec} {ids : List TypeId}
    (texts : List.Forall₂ (fun spec child => part child = String.ofList spec.chars) specs ids) :
    ids.map (fun child => (part child).toList) = specs.map Spec.chars := by
  induction texts with
  | nil => rfl
  | cons text _ ih => rw [List.map_cons, List.map_cons, text, String.toList_ofList, ih]

/-- The text of a shape whose parts have the texts of the parts of a spec. -/
theorem shapeText_shapeOf {part : TypeId → String} {ids : List TypeId}
    (texts : List.Forall₂ (fun spec child => part child = String.ofList spec.chars)
      spec.parts ids) :
    shapeText part (catalog.shapeOf spec ids) = String.ofList spec.chars := by
  have call {word : String} {item : Spec} {child : TypeId}
      (text : part child = String.ofList item.chars) :
      word ++ "(" ++ part child ++ ")" = String.ofList (Spec.applied word item.chars) := by
    apply String.toList_injective
    simp [Spec.applied, text]
  cases spec with
  | constant value => rfl
  | named name => exact (shapeText_mention part name).trans String.ofList_toList.symm
  | listOf item =>
    cases texts with
    | cons text none =>
      cases none
      exact call text
  | referenceTo target =>
    cases texts with
    | cons text none =>
      cases none
      exact call text
  | sequence connective items =>
    cases texts with
    | nil => exact String.ofList_toList.symm
    | @cons first child rest children text others =>
      have inside : connective.separator.intercalate ((child :: children).map part) =
          String.ofList (first.chars ++ connective.behind (rest.map Spec.chars)) := by
        apply String.toList_injective
        rw [String.toList_intercalate, List.map_map, String.toList_ofList,
          ← intercalate_cons, ← List.map_cons, ← toList_texts (.cons text others)]
        rfl
      have slots : ((child :: children).map Slot.bare).map (fun slot => part slot.target) =
          (child :: children).map part := by
        rw [List.map_map]
        rfl
      rw [shapeOf, List.map_cons, shapeText, ← List.map_cons, slots, inside]
      apply String.toList_injective
      simp [Spec.chars_sequence_cons]
  | _ => exact String.ofList_toList.symm

/-- The text of a type is the text of the spec that it stands for. -/
theorem Represents.typeTextWithin_eq (represents : catalog.Represents spec id) {depth : Nat}
    (room : id.index < depth) :
    catalog.typeTextWithin depth id = String.ofList spec.chars := by
  induction represents generalizing depth with
  | @node spec id ids held definition standing earlier count parts ih =>
    obtain ⟨depth, rfl⟩ := Nat.exists_eq_add_one.mpr (Nat.zero_lt_of_lt room)
    rw [typeTextWithin, follow_of_forward_eq_none standing, Catalog.shape, definition]
    refine shapeText_shapeOf (List.forall₂_iff_zip.mpr ⟨count, fun member => ih member ?_⟩)
    have before := earlier _ (List.of_mem_zip member).2
    omega

/-- A site without a name has the text of its type, with its qualifiers behind. -/
theorem Represents.toList_slotText (represents : catalog.Represents spec id)
    (qualifiers : Qualifiers) :
    (catalog.slotText (.sited { Site.plain id with qualifiers })).toList =
      spec.chars ++ Qualifiers.chars qualifiers.values.entries := by
  have type : catalog.typeText id = String.ofList spec.chars :=
    represents.typeTextWithin_eq (Nat.lt_succ_of_lt represents.held)
  rw [slotText, String.toList_append, Qualifiers.toList_text, Site.plain, type,
    String.toList_ofList]

/-! ## Equivalence -/

theorem sameUse_plain (left right : TypeId) :
    (Site.plain left).sameUse (.plain right) = true := rfl

/-- The id is related to whatever stands for the spec. -/
def RelatedTo (catalog : Catalog) (related : TypeId → TypeId → Bool) (spec : Spec)
    (id : TypeId) : Prop :=
  ∀ other, catalog.Represents spec other → related id other = true

theorem slotsAgree_of_represents {related : TypeId → TypeId → Bool} {specs : List Spec}
    {lefts rights : List TypeId}
    (agree : List.Forall₂ (catalog.RelatedTo related) specs lefts)
    (represented : List.Forall₂ catalog.Represents specs rights) :
    slotsAgree related (lefts.map .bare) (rights.map .bare) = true := by
  induction agree generalizing rights with
  | nil =>
    cases represented
    rfl
  | cons here _ ih =>
    cases represented with
    | cons first others =>
      simp [slotsAgree, Slot.toSite, Slot.target, sameUse_plain, here _ first, ih others]

theorem shapesAgree_of_represents {related : TypeId → TypeId → Bool} {lefts rights : List TypeId}
    (unnamed : ∀ name, spec ≠ .named name) (written : spec.Written)
    (agree : List.Forall₂ (catalog.RelatedTo related) spec.parts lefts)
    (represented : List.Forall₂ catalog.Represents spec.parts rights) :
    shapesAgree related (catalog.shapeOf spec lefts) (catalog.shapeOf spec rights) = true := by
  have slots : slotsAgree related (catalog.shapeOf spec lefts).slots
      (catalog.shapeOf spec rights).slots = true := by
    rw [slots_shapeOf agree.length_eq, slots_shapeOf represented.length_eq]
    exact slotsAgree_of_represents agree represented
  cases written with
  | constant => exact Literal.same_self _
  | named => exact absurd rfl (unnamed _)
  | _ => exact slots

theorem isNamed_or_unknown_mention (catalog : Catalog) (name : String) :
    (catalog.mention name).isNamed = true ∨ (catalog.mention name).base = .unknown := by
  unfold mention
  split <;> simp [Shape.isNamed, Shape.base]

theorem definitionsAgree_of_represents {related : TypeId → TypeId → Bool}
    {lefts rights : List TypeId} (written : spec.Written)
    (agree : List.Forall₂ (catalog.RelatedTo related) spec.parts lefts)
    (represented : List.Forall₂ catalog.Represents spec.parts rights) :
    definitionsAgree related (.ofShape (catalog.shapeOf spec lefts))
      (.ofShape (catalog.shapeOf spec rights)) = true := by
  have kinds : (catalog.shapeOf spec lefts).base = (catalog.shapeOf spec rights).base := by
    cases spec <;> rfl
  have names : (catalog.shapeOf spec lefts).name = (catalog.shapeOf spec rights).name :=
    (name_shapeOf spec lefts).trans (name_shapeOf spec rights).symm
  by_cases named : ∃ name, spec = .named name
  · obtain ⟨name, rfl⟩ := named
    rcases isNamed_or_unknown_mention catalog name with own | unknown
    · simp [definitionsAgree, Definition.ofShape, Definition.isNamed, shapeOf, own]
    · simp [definitionsAgree, Definition.ofShape, Definition.base, shapeOf, unknown]
  · have shapes := shapesAgree_of_represents (fun name same => named ⟨name, same⟩) written agree
      represented
    simp [definitionsAgree, Definition.ofShape, Definition.base, Definition.name, kinds, names,
      shapes]

/-- Types that stand for one spec are equivalent. -/
theorem Represents.equivalentWithin (represents : catalog.Represents spec id)
    (written : spec.Written) {other : TypeId} (represented : catalog.Represents spec other)
    {depth : Nat} (room : id.index < depth) : catalog.equivalentWithin depth id other = true := by
  induction represents generalizing other depth with
  | @node spec id ids held definition standing earlier count parts ih =>
    obtain ⟨depth, rfl⟩ := Nat.exists_eq_add_one.mpr (Nat.zero_lt_of_lt room)
    -- Parts have smaller ids than the whole, so that the depth that is left suffices for them.
    have agree : List.Forall₂ (catalog.RelatedTo (catalog.equivalentWithin depth))
        spec.parts ids := by
      refine List.forall₂_iff_zip.mpr ⟨count, fun member right stands => ?_⟩
      have inside := List.of_mem_zip member
      have before := earlier _ inside.2
      exact ih member (written.part inside.1) stands (by omega)
    cases represented with
    | node _ definition' standing' _ count' parts' =>
      have represented := List.forall₂_iff_zip.mpr ⟨count', parts'⟩
      have related := definitionsAgree_of_represents written agree represented
      rw [Catalog.equivalentWithin, follow_of_forward_eq_none standing,
        follow_of_forward_eq_none standing', definition, definition', related, Bool.or_true]

/-! ## Reading back -/

/-- If the constants that a type is made of are plain, its spec has a text that is read back. -/
theorem Represents.written (represents : catalog.Represents spec id)
    (canonical : spec.Canonical .builtin)
    (plain : ∀ part value, catalog.Reaches id part → catalog.shape part = .constant value →
      value.Plain) : spec.Written := by
  induction represents with
  | @node spec id ids held definition standing earlier count parts ih =>
    have own : catalog.shape id = catalog.shapeOf spec ids := by rw [Catalog.shape, definition]; rfl
    have inner {part : Spec} {child : TypeId} (member : (part, child) ∈ spec.parts.zip ids)
        (canonical : part.Canonical .builtin) : part.Written := by
      refine ih member canonical fun other value reaches => plain other value ?_
      refine .head ?_ reaches
      rw [HasChild, own, Shape.children, slots_shapeOf count, List.map_map]
      exact List.mem_map.mpr ⟨child, (List.of_mem_zip member).2, rfl⟩
    have each : ∀ part ∈ spec.parts, part.Canonical .builtin → part.Written :=
      ((List.forall₂_and_left spec.parts ids).mp
        (List.forall₂_iff_zip.mpr ⟨count, fun member => ⟨inner member, parts member⟩⟩)).1
    cases spec with
    | scalar => exact .scalar canonical
    | constant value => exact .constant canonical (plain id value .refl own)
    | named name =>
      obtain ⟨other, word, symbol, rfl⟩ := canonical
      exact .named other (Spec.proper_resolve symbol)
    | list => exact .list
    | listOf item => exact .listOf (each item List.mem_cons_self canonical)
    | reference => exact .reference
    | referenceTo target => exact .referenceTo (each target List.mem_cons_self canonical)
    | record => exact .record
    | sequence connective items =>
      have whole := Spec.canonical_each_iff.mp canonical.2
      exact .sequence canonical.1 fun item member => each item member (whole item member)

/-- What a reader gives comes into being, as definitions that stand for the spec. -/
theorem ends_parseDeclaration_read (consistent : catalog.Consistent) {text : String}
    {qualifiers : Qualifiers}
    (read : Spec.readDeclaration catalog.words text = .ok (spec, qualifiers)) :
    Ends (parseDeclaration text) catalog
      (fun found after => found.2 = qualifiers ∧ after.Consistent ∧ catalog.Keeps after ∧
        after.Represents spec found.1)
      fun _ => False := by
  have reads := Spec.reads_readDeclaration catalog.words text
  rw [read] at reads
  simp only [parseDeclaration, ends_bind, ends_get, read, accept, ends_pure]
  refine ((elaborates spec).ends consistent reads.1).imp ?_
  intro id after made
  exact ⟨trivial, made⟩

/-- A declaration that a catalog accepts is one that a reader gives. -/
theorem exists_read_of_parseDeclaration {after : Catalog} {text : String}
    {found : TypeId × Qualifiers} (parsed : parseDeclaration text catalog = .ok found after) :
    ∃ spec qualifiers, Spec.readDeclaration catalog.words text = .ok (spec, qualifiers) := by
  cases read : Spec.readDeclaration catalog.words text with
  | ok found => exact ⟨found.1, found.2, rfl⟩
  | error rejection =>
    have rejected : Ends (parseDeclaration text) catalog (fun _ _ => False) fun _ => True := by
      simp only [parseDeclaration, ends_bind, ends_get, read, accept, ends_throw]
      unfold Ends
      split <;> trivial
    exact (rejected.of_ok parsed).elim

/-- The spec text of a declared type with its qualifiers is accepted again, as an equivalent type
with the same qualifiers, if no literal in it is a number or has a rare control character. -/
theorem Reachable.rendering_read_back {after : Catalog} {text : String} {qualifiers : Qualifiers}
    (reachable : catalog.Reachable) (aliases : catalog.aliases = .builtin)
    (marker : catalog.marker = Config.standard.marker)
    (parsed : parseDeclaration text catalog = .ok (id, qualifiers) after)
    (constants : ∀ part value, after.Reaches id part → after.shape part = .constant value →
      value.Plain)
    (values : ∀ entry ∈ qualifiers.values.entries, entry.2.Plain) :
    ∃ again final,
      parseDeclaration (after.slotText (.sited { Site.plain id with qualifiers })) after =
        .ok (again, qualifiers) final ∧ final.equivalent id again = true := by
  obtain ⟨spec, found, read⟩ := exists_read_of_parseDeclaration parsed
  have made := ends_parseDeclaration_read reachable.consistent read
  obtain ⟨rfl, consistent, keeps, represents⟩ := made.of_ok parsed
  have reads := Spec.reads_readDeclaration catalog.words text
  rw [read] at reads
  obtain ⟨canonical, legible⟩ := reads
  have written := represents.written (aliases ▸ canonical) constants
  have growth := ((ends_parseDeclaration (Nat.le_refl _) text).of_ok parsed).1
  have words : after.words = .standard := by
    rw [Catalog.words, keeps.aliases, growth.untouched.marker, aliases, marker]
    rfl
  have readAgain :=
    Spec.readDeclaration_eq written legible values (represents.toList_slotText qualifiers)
  rw [← words] at readAgain
  obtain ⟨⟨again, _⟩, final, reparsed, rfl, _, further, represented⟩ :=
    (ends_parseDeclaration_read consistent readAgain).exists_ok
  have earlier := represents.kept further
  exact ⟨again, final, reparsed,
    earlier.equivalentWithin written represented (Nat.lt_succ_of_lt earlier.held)⟩

/-- The shape holds no literal that its text would change. -/
def hasPlainValue : Shape → Bool
  | .constant value => value.everywhere Literal.plainHere
  | _ => true

/-- A spelling, a known name, two kinds of literals and qualifiers. -/
def unitText : String := "array(Unit|nil) | ['a', 0x0a0b], optional, default: {key: none}"

/-- One name is registered before. -/
def unitOperations : List Operation := [.loadExtension "Unit : string" none]

theorem rendering_read_back_unitText :
    ∃ id qualifiers after again final,
      parseDeclaration unitText (empty.run unitOperations) = .ok (id, qualifiers) after ∧
        parseDeclaration (after.slotText (.sited { Site.plain id with qualifiers })) after =
          .ok (again, qualifiers) final ∧ final.equivalent id again = true := by
  have reachable : (empty.run unitOperations).Reachable :=
    @reachable_run .standard _ _ rfl ⟨trivial, trivial⟩
  have aliases : (empty.run unitOperations).aliases = .builtin := by decide +kernel
  have marker : (empty.run unitOperations).marker = Config.standard.marker := by decide +kernel
  have passes : succeedsWith (fun found => found.2.values.entries.all fun entry =>
      entry.2.everywhere Literal.plainHere) (parseDeclaration unitText)
      (empty.run unitOperations) = true := by decide +kernel
  have arena : (leaves (parseDeclaration unitText) (empty.run unitOperations)).arena.all
      (fun definition => hasPlainValue definition.shape) = true := by decide +kernel
  generalize empty.run unitOperations = start at *
  obtain ⟨⟨id, qualifiers⟩, parsed, values⟩ := eq_ok_of_succeedsWith passes
  generalize leaves (parseDeclaration unitText) start = after at *
  have plain : ∀ part value, after.shape part = .constant value → value.Plain := by
    intro part value shape
    by_cases held : after.Holds part
    · have member : after.definition part ∈ after.arena := by
        rw [Catalog.definition, Array.getD_eq_getD_getElem?, Array.getElem?_eq_getElem held]
        exact Array.getElem_mem held
      have test := Array.all_eq_true_iff_forall_mem.mp arena _ member
      rwa [show (after.definition part).shape = .constant value from shape] at test
    · rw [Catalog.shape, definition_of_not_holds held] at shape
      cases shape
  obtain ⟨again, final, reparsed, equivalent⟩ := reachable.rendering_read_back aliases marker parsed
    (fun part value _ shape => plain part value shape) (List.all_eq_true.mp values)
  exact ⟨id, qualifiers, after, again, final, parsed, reparsed, equivalent⟩

end DocShapes.Catalog
