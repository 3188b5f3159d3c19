import DocShapes.Proofs.Descents
import DocShapes.Proofs.Equivalence
import DocShapes.Proofs.Registry

/-! # Types that stand for one another

Equivalence of types looks at where ids lead and not at the ids themselves. So a retired definition
is equivalent to every one that it leads to, and either can stand for the other in a comparison
(`Reachable.equivalence_of_types`).
-/

namespace DocShapes.Catalog

variable {catalog : Catalog}

/-! ## Where ids lead -/

/-- The second id is reached from the first one by some rounds of the loops that follow retired
definitions. -/
def LeadsOn (catalog : Catalog) (id later : TypeId) : Prop :=
  Relation.ReflTransGen (fun id next => catalog.Hop next id) id later

theorem Consistent.follow_of_leadsOn (consistent : catalog.Consistent) {id later : TypeId}
    (leads : catalog.LeadsOn id later) : catalog.follow later = catalog.follow id := by
  induction leads with
  | refl => rfl
  | tail _ hop ih => exact (consistent.follow_of_hop hop).trans ih

/-! ## Comparisons -/

/-- A comparison depends on its two ids only through where they lead. -/
theorem equivalent_congr {left right left' right' : TypeId}
    (first : catalog.follow left' = catalog.follow left)
    (second : catalog.follow right' = catalog.follow right) :
    catalog.equivalent left' right' = catalog.equivalent left right := by
  simp only [equivalent, equivalentWithin, first, second]

/-- One round of a comparison of types, in which the parts are compared by `related`. -/
def compared (catalog : Catalog) (related : TypeId → TypeId → Bool) (left right : TypeId) : Bool :=
  catalog.follow left = catalog.follow right ||
    definitionsAgree related (catalog.definition (catalog.follow left))
      (catalog.definition (catalog.follow right))

/-- The comparison goes down to the ends of both types, however deep these are. -/
theorem Nested.onlySolution_equivalent (nested : catalog.Nested) (consistent : catalog.Consistent) :
    OnlySolution catalog.compared catalog.equivalent := by
  have descending : catalog.Descending catalog.compared := by
    intro left right id same
    funext other
    simp only [compared]
    rw [definitionsAgree_congr fun unnamed child member => same child ⟨unnamed, member⟩]
  have round (depth : Nat) :
      catalog.equivalentWithin (depth + 1) = catalog.compared (catalog.equivalentWithin depth) := rfl
  exact descending.onlySolution nested consistent round

/-- Equivalence is the one comparison that takes ids to where they lead and goes on with the parts.
It is an equivalence relation, an id is equivalent to each one that it leads to, and in a
comparison every id can be replaced by such a one. -/
theorem Reachable.equivalence_of_types (reachable : catalog.Reachable) :
    OnlySolution catalog.compared catalog.equivalent ∧
      Equivalence (fun left right => catalog.equivalent left right = true) ∧
      (∀ id later, catalog.LeadsOn id later → catalog.equivalent id later = true) ∧
      ∀ left left' right right', catalog.LeadsOn left left' → catalog.LeadsOn right right' →
        catalog.equivalent left' right' = catalog.equivalent left right := by
  have consistent := reachable.consistent
  have replaced {left left' right right' : TypeId} (first : catalog.LeadsOn left left')
      (second : catalog.LeadsOn right right') :
      catalog.equivalent left' right' = catalog.equivalent left right :=
    equivalent_congr (consistent.follow_of_leadsOn first) (consistent.follow_of_leadsOn second)
  constructor
  · exact reachable.nested.onlySolution_equivalent consistent
  constructor
  · exact ⟨equivalent_self catalog, equivalent_symm, equivalent_trans⟩
  constructor
  · intro id later leads
    rw [replaced .refl leads]
    exact equivalent_self catalog id
  · intro left left' right right' first second
    exact replaced first second

/-- Two channels declare lists of one record; the merge retires both records. -/
def twoLists : List Operation :=
  [.parseEntries ⟨some .read, false⟩ "xs : list(Foo)\n    a : int",
    .parseEntries ⟨some .write, false⟩ "ys : list(Foo)\n    b : int",
    .mergePending]

/-- The first record leads to the merged one, and so the two lists are equivalent either way. -/
theorem equivalence_of_types_twoLists :
    (empty.run twoLists).forward.keys = [⟨0⟩, ⟨3⟩] ∧
      (empty.run twoLists).equivalent ⟨0⟩ ⟨6⟩ = true ∧
      (empty.run twoLists).equivalent ⟨1⟩ ⟨4⟩ = true ∧
      (empty.run twoLists).equivalent ⟨4⟩ ⟨1⟩ = true := by
  have reachable : (empty.run twoLists).Reachable :=
    @reachable_run .standard _ _ rfl ⟨trivial, trivial, trivial, trivial⟩
  have hop : (empty.run twoLists).Hop ⟨6⟩ ⟨0⟩ := ⟨⟨⟨6⟩, none⟩, by decide +kernel, rfl⟩
  have lists : (empty.run twoLists).equivalent ⟨1⟩ ⟨4⟩ = true := by decide +kernel
  obtain ⟨_, equivalence, leads, _⟩ := reachable.equivalence_of_types
  exact ⟨by decide +kernel, leads ⟨0⟩ ⟨6⟩ (.single hop), lists, equivalence.symm lists⟩

end DocShapes.Catalog
