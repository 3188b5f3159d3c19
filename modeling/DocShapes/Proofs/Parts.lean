import DocShapes.Proofs.Blocks
import DocShapes.Proofs.Walking

/-! # Parts of a definition

A definition reaches what it is made of. The walk that lists the reachable definitions has the
steps to see all of them (`mem_reachable_iff`).
-/

namespace DocShapes.Catalog

variable {catalog : Catalog}

/-- One definition is a child of another one; retired definitions are not followed. -/
def HasChild (catalog : Catalog) (outer inner : TypeId) : Prop :=
  inner ∈ (catalog.shape outer).children

/-- The second definition is the first one, or a part of it at some depth. -/
def Reaches (catalog : Catalog) : TypeId → TypeId → Prop :=
  Relation.ReflTransGen catalog.HasChild

/-- What holds of a definition, and of all children of what it holds of, holds of all parts. -/
theorem Reaches.induction {holds : TypeId → Prop} {whole part : TypeId}
    (reaches : catalog.Reaches whole part) (start : holds whole)
    (closed : ∀ id, holds id → ∀ child ∈ (catalog.shape id).children, holds child) :
    holds part := by
  induction reaches with
  | refl => exact start
  | tail _ child ih => exact closed _ ih _ child

/-- What a definition is made of depends on the arena alone. -/
theorem Reaches.of_arena {after : Catalog} {whole part : TypeId}
    (reaches : catalog.Reaches whole part) (arena : after.arena = catalog.arena) :
    after.Reaches whole part := by
  refine reaches.induction .refl fun id within child inside => within.tail ?_
  rwa [HasChild, Catalog.shape, Catalog.definition, arena]

/-! ## The list of parts -/

theorem unseenSlots_append_singleton (seen : List TypeId) (id : TypeId) :
    catalog.unseenSlots (seen ++ [id]) = catalog.unseenSlots (id :: seen) := by
  unfold unseenSlots
  congr 1
  ext index
  simp [and_comm]

/-- What a walk lists: its stack, what it has seen before, and with each definition its children. -/
theorem closed_reachableFrom (consistent : catalog.Consistent) (fuel : Nat)
    (stack seen : List TypeId) (held : ∀ id ∈ stack, catalog.Holds id)
    (closed : ∀ id ∈ seen, ∀ child ∈ (catalog.shape id).children, child ∈ stack ∨ child ∈ seen)
    (enough : stack.length + catalog.unseenSlots seen ≤ fuel) :
    (∀ id, id ∈ stack ∨ id ∈ seen → id ∈ catalog.reachableFrom fuel stack seen) ∧
      ∀ id ∈ catalog.reachableFrom fuel stack seen, ∀ child ∈ (catalog.shape id).children,
        child ∈ catalog.reachableFrom fuel stack seen := by
  have finished {seen : List TypeId} (closed : ∀ id ∈ seen, ∀ child ∈ (catalog.shape id).children,
      child ∈ ([] : List TypeId) ∨ child ∈ seen) :
      (∀ id, id ∈ ([] : List TypeId) ∨ id ∈ seen → id ∈ seen) ∧
        ∀ id ∈ seen, ∀ child ∈ (catalog.shape id).children, child ∈ seen := by
    simpa using closed
  induction fuel generalizing stack seen with
  | zero =>
    have empty : stack = [] := List.length_eq_zero_iff.mp (by omega)
    subst empty
    exact finished closed
  | succ fuel ih =>
    cases stack with
    | nil => exact finished closed
    | cons id stack =>
      obtain ⟨idHeld, stackHeld⟩ := List.forall_mem_cons.mp held
      rw [List.length_cons] at enough
      rw [reachableFrom]
      split
      · rename_i member
        have shift (other : TypeId) (old : other ∈ id :: stack ∨ other ∈ seen) :
            other ∈ stack ∨ other ∈ seen := by
          rcases old with onStack | seen
          · rcases List.mem_cons.mp onStack with rfl | onStack
            · exact .inr member
            · exact .inl onStack
          · exact .inr seen
        have still := ih stack seen stackHeld
          (fun other within child inside => shift child (closed other within child inside))
          (by omega)
        exact ⟨fun other old => still.1 other (shift other old), still.2⟩
      · rename_i unseen
        have shift (other : TypeId) (old : other ∈ id :: stack ∨ other ∈ seen) :
            other ∈ (catalog.shape id).children ++ stack ∨ other ∈ seen ++ [id] := by
          rcases old with onStack | seen
          · rcases List.mem_cons.mp onStack with rfl | onStack
            · exact .inr (by simp)
            · exact .inl (List.mem_append_right _ onStack)
          · exact .inr (List.mem_append_left _ seen)
        -- The slots of the visited definition pay for the ids that it puts on the stack.
        have left : ((catalog.shape id).children ++ stack).length +
            catalog.unseenSlots (seen ++ [id]) ≤ fuel := by
          have split := unseenSlots_cons idHeld unseen
          rw [unseenSlots_append_singleton, List.length_append, Shape.children, List.length_map]
          omega
        have visited := ih _ (seen ++ [id])
          (List.forall_mem_append.mpr ⟨consistent.linked id idHeld, stackHeld⟩)
          (fun other within child inside => by
            rcases List.mem_append.mp within with within | own
            · exact shift child (closed other within child inside)
            · rw [List.mem_singleton.mp own] at inside
              exact .inl (List.mem_append_left _ inside)) left
        exact ⟨fun other old => visited.1 other (shift other old), visited.2⟩

theorem mem_reachable_iff (consistent : catalog.Consistent) {id part : TypeId}
    (held : catalog.Holds id) : part ∈ catalog.reachable id ↔ catalog.Reaches id part := by
  constructor
  · refine forall_reachableFrom (fun other reaches child inside => ?_) _ [id] [] ?_ (by simp) part
    · exact reaches.tail inside
    · simp only [List.mem_singleton, forall_eq]
      exact .refl
  · intro reaches
    have listed := closed_reachableFrom consistent (catalog.slotCount + 1) [id] []
      (by simpa using held) (by simp) (by rw [unseenSlots_nil, List.length_singleton]; omega)
    exact reaches.induction (listed.1 id (.inl List.mem_cons_self)) listed.2

end DocShapes.Catalog
