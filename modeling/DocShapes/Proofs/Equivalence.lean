import DocShapes.Catalog.Equivalence
import DocShapes.Proofs.Growth
import DocShapes.Proofs.Literals

/-! # Equivalence of types as a relation

Whatever the depth, agreement of uses, of shapes and of definitions passes symmetry and
transitivity on from the parts to the whole, so that equivalence is an equivalence relation in
every catalog.
-/

namespace DocShapes

/-! ## Uses -/

namespace Qualifiers

@[simp] theorem same_self (qualifiers : Qualifiers) : qualifiers.same qualifiers = true :=
  Literal.same_self _

theorem same_symm {left right : Qualifiers} (agree : left.same right = true) :
    right.same left = true := Literal.same_symm agree

theorem same_trans {left middle right : Qualifiers} (first : left.same middle = true)
    (second : middle.same right = true) : left.same right = true := Literal.same_trans first second

end Qualifiers

namespace Site

theorem sameUse_iff {left right : Site} :
    left.sameUse right = true ↔ left.name = right.name ∧ left.doc = right.doc ∧
      left.qualifiers.same right.qualifiers = true := by
  simp [sameUse, and_assoc]

theorem sameUse_symm {left right : Site} (agree : left.sameUse right = true) :
    right.sameUse left = true := by
  rw [sameUse_iff] at agree ⊢
  exact ⟨agree.1.symm, agree.2.1.symm, Qualifiers.same_symm agree.2.2⟩

theorem sameUse_trans {left middle right : Site} (first : left.sameUse middle = true)
    (second : middle.sameUse right = true) : left.sameUse right = true := by
  rw [sameUse_iff] at first second ⊢
  exact ⟨first.1.trans second.1, first.2.1.trans second.2.1,
    Qualifiers.same_trans first.2.2 second.2.2⟩

end Site

namespace Catalog

variable {related further : TypeId → TypeId → Bool}

theorem isNamed_eq_of_base {left right : Definition} (base : left.base = right.base) :
    left.isNamed = right.isNamed := by
  rw [Bool.eq_iff_iff, Definition.isNamed, Definition.isNamed, Shape.isNamed_iff_base,
    Shape.isNamed_iff_base]
  rw [Definition.base, Definition.base] at base
  rw [base]

/-! ## Shapes -/

theorem slotsAgree_iff {lefts rights : List Slot} :
    slotsAgree related lefts rights = true ↔
      List.Forall₂ (fun left right => left.toSite.sameUse right.toSite = true ∧
        related left.target right.target = true) lefts rights := by
  induction lefts generalizing rights with
  | nil => cases rights <;> simp [slotsAgree]
  | cons left rest ih => cases rights <;> simp [slotsAgree, ih]

/-- Shapes agree in their slots, and constants in their values. -/
theorem shapesAgree_iff {left right : Shape} :
    shapesAgree related left right = true ↔
      (∀ value other, left = .constant value → right = .constant other →
        value.same other = true) ∧ slotsAgree related left.slots right.slots = true := by
  unfold shapesAgree
  split
  · simp [Shape.slots, slotsAgree]
  · rename_i other
    constructor
    · intro agree
      exact ⟨fun value constant same equal => absurd equal (other value constant same), agree⟩
    · exact And.right

theorem shapesAgree_symm
    (symm : ∀ left right, related left right = true → related right left = true)
    {left right : Shape} (agree : shapesAgree related left right = true) :
    shapesAgree related right left = true := by
  rw [shapesAgree_iff, slotsAgree_iff] at agree
  rw [shapesAgree_iff, slotsAgree_iff]
  obtain ⟨values, slots⟩ := agree
  constructor
  · intro value other here there
    exact Literal.same_symm (values other value there here)
  · exact (slots.imp fun _ _ both => ⟨Site.sameUse_symm both.1, symm _ _ both.2⟩).flip

theorem shapesAgree_trans
    (trans : ∀ left middle right, related left middle = true → related middle right = true →
      related left right = true) {left middle right : Shape} (base : left.base = middle.base)
    (first : shapesAgree related left middle = true)
    (second : shapesAgree related middle right = true) :
    shapesAgree related left right = true := by
  rw [shapesAgree_iff, slotsAgree_iff] at first
  rw [shapesAgree_iff, slotsAgree_iff] at second
  rw [shapesAgree_iff, slotsAgree_iff]
  obtain ⟨values, slots⟩ := first
  obtain ⟨others, more⟩ := second
  constructor
  · intro value other here there
    -- Nothing but a constant has the base of a constant.
    have constant : ∃ between, middle = .constant between := by
      subst here
      cases middle <;> cases base
      exact ⟨_, rfl⟩
    obtain ⟨between, same⟩ := constant
    exact Literal.same_trans (values value between here same) (others between other same there)
  · exact forall₂_chain (fun _ _ _ here there =>
      ⟨Site.sameUse_trans here.1 there.1, trans _ _ _ here.2 there.2⟩) slots more

/-! ## Definitions -/

theorem definitionsAgree_iff {left right : Definition} :
    definitionsAgree related left right = true ↔ left.base = right.base ∧
      left.name = right.name ∧ (left.isNamed = true ∨ left.base = .unknown ∨
        left.doc = right.doc ∧ shapesAgree related left.shape right.shape = true) := by
  simp [definitionsAgree, and_assoc, or_assoc]

theorem definitionsAgree_symm
    (symm : ∀ left right, related left right = true → related right left = true)
    {left right : Definition} (agree : definitionsAgree related left right = true) :
    definitionsAgree related right left = true := by
  rw [definitionsAgree_iff] at agree ⊢
  obtain ⟨base, name, named | unknown | ⟨doc, shapes⟩⟩ := agree
  · exact ⟨base.symm, name.symm, .inl (isNamed_eq_of_base base ▸ named)⟩
  · exact ⟨base.symm, name.symm, .inr (.inl (base ▸ unknown))⟩
  · exact ⟨base.symm, name.symm, .inr (.inr ⟨doc.symm, shapesAgree_symm symm shapes⟩)⟩

theorem definitionsAgree_trans
    (trans : ∀ left middle right, related left middle = true → related middle right = true →
      related left right = true) {left middle right : Definition}
    (first : definitionsAgree related left middle = true)
    (second : definitionsAgree related middle right = true) :
    definitionsAgree related left right = true := by
  rw [definitionsAgree_iff] at first second ⊢
  obtain ⟨base, name, agree⟩ := first
  obtain ⟨base', name', agree'⟩ := second
  refine ⟨base.trans base', name.trans name', ?_⟩
  rcases agree with named | unknown | ⟨doc, shapes⟩
  · exact .inl named
  · exact .inr (.inl unknown)
  rcases agree' with named | unknown | ⟨doc', shapes'⟩
  · exact .inl ((isNamed_eq_of_base base).trans named)
  · exact .inr (.inl (base.trans unknown))
  · exact .inr (.inr ⟨doc.trans doc', shapesAgree_trans trans base shapes shapes'⟩)

/-! ## Types -/

variable {catalog : Catalog}

theorem equivalentWithin_succ_iff {depth : Nat} {left right : TypeId} :
    catalog.equivalentWithin (depth + 1) left right = true ↔
      catalog.follow left = catalog.follow right ∨
        definitionsAgree (catalog.equivalentWithin depth)
          (catalog.definition (catalog.follow left))
          (catalog.definition (catalog.follow right)) = true := by
  simp [equivalentWithin]

@[simp] theorem equivalent_self (catalog : Catalog) (id : TypeId) :
    catalog.equivalent id id = true :=
  equivalentWithin_succ_iff.mpr (.inl rfl)

theorem equivalentWithin_symm {depth : Nat} {left right : TypeId}
    (agree : catalog.equivalentWithin depth left right = true) :
    catalog.equivalentWithin depth right left = true := by
  induction depth generalizing left right with
  | zero => cases agree
  | succ depth ih =>
    rw [equivalentWithin_succ_iff] at agree ⊢
    exact agree.imp Eq.symm (definitionsAgree_symm fun _ _ => ih)

theorem equivalentWithin_trans {depth : Nat} {left middle right : TypeId}
    (first : catalog.equivalentWithin depth left middle = true)
    (second : catalog.equivalentWithin depth middle right = true) :
    catalog.equivalentWithin depth left right = true := by
  induction depth generalizing left middle right with
  | zero => cases first
  | succ depth ih =>
    rw [equivalentWithin_succ_iff] at first second ⊢
    rcases first with same | agree
    · rw [same]
      exact second
    rcases second with same | agree'
    · rw [← same]
      exact .inr agree
    · have chain (left middle right : TypeId)
          (here : catalog.equivalentWithin depth left middle = true)
          (there : catalog.equivalentWithin depth middle right = true) :
          catalog.equivalentWithin depth left right = true := ih here there
      exact .inr (definitionsAgree_trans chain agree agree')

theorem equivalent_symm {left right : TypeId} (agree : catalog.equivalent left right = true) :
    catalog.equivalent right left = true := equivalentWithin_symm agree

theorem equivalent_trans {left middle right : TypeId}
    (first : catalog.equivalent left middle = true)
    (second : catalog.equivalent middle right = true) : catalog.equivalent left right = true :=
  equivalentWithin_trans first second

end Catalog

end DocShapes
