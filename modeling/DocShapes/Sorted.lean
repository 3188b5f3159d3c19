/-! # Sorting by insertion

Items that compare equal keep their order. `perm_sortBy` says that a sort loses and adds nothing,
`pairwise_sortBy` that the result is in order.
-/

namespace DocShapes

variable {α : Type}

/-- A list with one item put in front of the first one that it does not come after. -/
def insertBy (before : α → α → Bool) (item : α) : List α → List α
  | [] => [item]
  | first :: rest =>
      if before first item then first :: insertBy before item rest else item :: first :: rest

/-- Items in the order of `before`, equal ones as they came. -/
def sortBy (before : α → α → Bool) (items : List α) : List α :=
  items.foldr (insertBy before) []

theorem perm_insertBy (before : α → α → Bool) (item : α) (items : List α) :
    (insertBy before item items).Perm (item :: items) := by
  induction items with
  | nil => exact .refl _
  | cons first rest ih =>
    simp only [insertBy]
    split
    · exact (List.Perm.cons first ih).trans (List.Perm.swap ..)
    · exact .refl _

theorem perm_sortBy (before : α → α → Bool) (items : List α) :
    (sortBy before items).Perm items := by
  induction items with
  | nil => exact .refl _
  | cons item rest ih => exact (perm_insertBy before item _).trans (ih.cons item)

theorem pairwise_insertBy (before : α → α → Bool)
    (asymm : ∀ x y, before x y = true → before y x = false)
    (trans : ∀ x y z, before y x = false → before z y = false → before z x = false)
    (item : α) (items : List α) (sorted : items.Pairwise fun x y => before y x = false) :
    (insertBy before item items).Pairwise fun x y => before y x = false := by
  induction items with
  | nil => simp [insertBy]
  | cons first rest ih =>
    rw [List.pairwise_cons] at sorted
    simp only [insertBy]
    split
    · rename_i earlier
      rw [List.pairwise_cons]
      refine ⟨fun y member => ?_, ih sorted.2⟩
      rcases List.mem_cons.mp ((perm_insertBy before item rest).mem_iff.mp member) with same | later
      · exact same ▸ asymm _ _ earlier
      · exact sorted.1 y later
    · rename_i notEarlier
      have first_after := Bool.not_eq_true _ ▸ notEarlier
      refine List.pairwise_cons.mpr ⟨fun y member => ?_, List.pairwise_cons.mpr sorted⟩
      rcases List.mem_cons.mp member with same | later
      · exact same ▸ first_after
      · exact trans _ _ _ first_after (sorted.1 y later)

theorem pairwise_sortBy (before : α → α → Bool)
    (asymm : ∀ x y, before x y = true → before y x = false)
    (trans : ∀ x y z, before y x = false → before z y = false → before z x = false)
    (items : List α) : (sortBy before items).Pairwise fun x y => before y x = false := by
  induction items with
  | nil => simp [sortBy]
  | cons item rest ih => exact pairwise_insertBy before asymm trans item _ ih

end DocShapes
