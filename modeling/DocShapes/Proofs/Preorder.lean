import DocShapes.Proofs.Parts

/-! # The order of a walk

The walk over all that a definition is made of keeps a stack. The order in which it meets the
definitions is the one that a recursion over them has: each definition stands in front of
everything below it, everything below one child in front of what is new below the next child, and a
definition that has been met before is passed over (`preorder_reachable`).
-/

namespace DocShapes.Catalog

variable {catalog : Catalog}

/-- The definitions below some roots, one root after the other, in depth-first pre-order and
without those that have been seen before. -/
inductive Preorder (catalog : Catalog) : List TypeId → List TypeId → List TypeId → Prop
  | done {seen : List TypeId} : Preorder catalog seen [] []
  | skip {seen rest order : List TypeId} {id : TypeId} (known : id ∈ seen)
      (later : Preorder catalog seen rest order) : Preorder catalog seen (id :: rest) order
  | visit {seen rest below order : List TypeId} {id : TypeId} (unseen : id ∉ seen)
      (inner : Preorder catalog (seen ++ [id]) (catalog.shape id).children below)
      (later : Preorder catalog (seen ++ id :: below) rest order) :
      Preorder catalog seen (id :: rest) (id :: below ++ order)

/-- The order below two lists of roots is the one below the first list, and then what is new below
the second one. -/
theorem Preorder.split {seen roots order : List TypeId}
    (preorder : catalog.Preorder seen roots order) (first second : List TypeId)
    (same : roots = first ++ second) :
    ∃ below later, order = below ++ later ∧ catalog.Preorder seen first below ∧
      catalog.Preorder (seen ++ below) second later := by
  induction preorder generalizing first with
  | @done seen =>
    obtain ⟨rfl, rfl⟩ := List.append_eq_nil_iff.mp same.symm
    exact ⟨[], [], rfl, .done, .done⟩
  | @skip seen rest order id known later ih =>
    cases first with
    | nil =>
      rw [List.nil_append] at same
      subst same
      refine ⟨[], order, rfl, .done, ?_⟩
      rw [List.append_nil]
      exact .skip known later
    | cons root others =>
      obtain ⟨rfl, rfl⟩ := List.cons_eq_cons.mp same
      obtain ⟨below, behind, rfl, left, right⟩ := ih others rfl
      exact ⟨below, behind, rfl, .skip known left, right⟩
  | @visit seen rest inside order id unseen inner later _ ih =>
    cases first with
    | nil =>
      rw [List.nil_append] at same
      subst same
      refine ⟨[], id :: inside ++ order, rfl, .done, ?_⟩
      rw [List.append_nil]
      exact .visit unseen inner later
    | cons root others =>
      obtain ⟨rfl, rfl⟩ := List.cons_eq_cons.mp same
      obtain ⟨below, behind, rfl, left, right⟩ := ih others rfl
      refine ⟨id :: inside ++ below, behind, (List.append_assoc _ _ _).symm,
        .visit unseen inner left, ?_⟩
      rwa [List.append_assoc] at right

/-- A walk with enough steps puts what is below its stack behind what it has seen. -/
theorem preorder_reachableFrom (consistent : catalog.Consistent) (fuel : Nat)
    (stack seen : List TypeId) (held : ∀ id ∈ stack, catalog.Holds id)
    (enough : stack.length + catalog.unseenSlots seen ≤ fuel) :
    ∃ order, catalog.reachableFrom fuel stack seen = seen ++ order ∧
      catalog.Preorder seen stack order := by
  induction fuel generalizing stack seen with
  | zero =>
    have empty : stack = [] := List.length_eq_zero_iff.mp (by omega)
    subst empty
    exact ⟨[], by simp [reachableFrom], .done⟩
  | succ fuel ih =>
    cases stack with
    | nil => exact ⟨[], by simp [reachableFrom], .done⟩
    | cons id rest =>
      obtain ⟨idHeld, restHeld⟩ := List.forall_mem_cons.mp held
      rw [List.length_cons] at enough
      rw [reachableFrom]
      by_cases known : id ∈ seen
      · rw [if_pos known]
        obtain ⟨order, same, preorder⟩ := ih rest seen restHeld (by omega)
        exact ⟨order, same, .skip known preorder⟩
      · rw [if_neg known]
        -- The slots of the visited definition pay for the ids that it puts on the stack.
        have left : ((catalog.shape id).children ++ rest).length +
            catalog.unseenSlots (seen ++ [id]) ≤ fuel := by
          have slots := unseenSlots_cons idHeld known
          rw [unseenSlots_append_singleton, List.length_append, Shape.children, List.length_map]
          omega
        obtain ⟨order, same, preorder⟩ := ih _ (seen ++ [id])
          (List.forall_mem_append.mpr ⟨consistent.linked id idHeld, restHeld⟩) left
        obtain ⟨below, later, rfl, inner, outer⟩ := preorder.split _ rest rfl
        refine ⟨id :: below ++ later, by simpa using same, .visit known inner ?_⟩
        rwa [List.append_assoc] at outer

/-- The parts of a definition are listed in pre-order. -/
theorem preorder_reachable (consistent : catalog.Consistent) {id : TypeId}
    (held : catalog.Holds id) : catalog.Preorder [] [id] (catalog.reachable id) := by
  obtain ⟨order, same, preorder⟩ := preorder_reachableFrom consistent (catalog.slotCount + 1) [id]
    [] (by simpa using held) (by rw [unseenSlots_nil, List.length_singleton]; omega)
  rw [reachable, same]
  exact preorder

/-- The order depends on the arena alone. -/
theorem Preorder.of_arena {after : Catalog} {seen roots order : List TypeId}
    (preorder : catalog.Preorder seen roots order) (arena : after.arena = catalog.arena) :
    after.Preorder seen roots order := by
  induction preorder with
  | done => exact .done
  | skip known _ ih => exact .skip known ih
  | visit unseen _ _ inner later =>
    refine .visit unseen ?_ later
    rwa [Catalog.shape, Catalog.definition, arena]

end DocShapes.Catalog
