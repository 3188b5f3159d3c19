import DocShapes.Proofs.Runs
import Mathlib.Data.Finset.Card

/-! # Types without a name do not contain themselves

A cycle of definitions leads through a named one. So the types without a name that are nested in one
another have a rank, which is smaller than the number of definitions: descents that stop at names
end within the depth of the arena.
-/

namespace DocShapes.Catalog

variable {catalog before after : Catalog}

/-- One type without a name occurs directly in another one. -/
structure Inside (catalog : Catalog) (inner outer : TypeId) : Prop where
  unnamed : (catalog.definition outer).isNamed = false
  child : inner ∈ (catalog.shape outer).children
  innerUnnamed : (catalog.definition inner).isNamed = false

/-- No type without a name contains itself, directly or through others. -/
def Nested (catalog : Catalog) : Prop := WellFounded catalog.Inside

theorem Consistent.holds_child (consistent : catalog.Consistent) {id child : TypeId}
    (member : child ∈ (catalog.shape id).children) : catalog.Holds id ∧ catalog.Holds child := by
  by_cases held : catalog.Holds id
  · exact ⟨held, consistent.linked id held child member⟩
  · rw [Catalog.shape, definition_of_not_holds held] at member
    exact absurd member List.not_mem_nil

/-! ## Single changes -/

theorem Nested.of_inside (nested : before.Nested)
    (inside : ∀ inner outer, after.Inside inner outer → before.Inside inner outer) :
    after.Nested := Subrelation.wf (inside _ _) nested

theorem Nested.of_arena (nested : before.Nested) (arena : after.arena = before.arena) :
    after.Nested := by
  refine nested.of_inside fun inner outer inside => ?_
  have definitions : ∀ id, after.definition id = before.definition id := fun id => by
    rw [Catalog.definition, Catalog.definition, arena]
  have shape : after.shape outer = before.shape outer :=
    congrArg Definition.shape (definitions outer)
  exact ⟨definitions outer ▸ inside.unnamed, shape ▸ inside.child,
    definitions inner ▸ inside.innerUnnamed⟩

theorem Nested.push (nested : catalog.Nested) (consistent : catalog.Consistent)
    {definition : Definition}
    (children : ∀ child ∈ definition.shape.children, catalog.Holds child) :
    (catalog.push definition).Nested := by
  have held {inner outer : TypeId} (inside : (catalog.push definition).Inside inner outer) :
      catalog.Holds inner := by
    have member := inside.child
    rw [Catalog.shape, definition_push] at member
    split at member
    · exact children inner member
    · exact (consistent.holds_child member).2
  have old {inner outer : TypeId} (inside : (catalog.push definition).Inside inner outer)
      (notNext : outer ≠ catalog.next) : catalog.Inside inner outer := by
    obtain ⟨unnamed, child, innerUnnamed⟩ := inside
    have innerNotNext := ne_next_of_holds (held ⟨unnamed, child, innerUnnamed⟩)
    rw [definition_push, if_neg notNext] at unnamed
    rw [Catalog.shape, definition_push, if_neg notNext] at child
    rw [definition_push, if_neg innerNotNext] at innerUnnamed
    exact ⟨unnamed, child, innerUnnamed⟩
  have acc (id : TypeId) (notNext : id ≠ catalog.next) :
      Acc (catalog.push definition).Inside id := by
    induction id using nested.induction with
    | _ id ih =>
      exact .intro id fun inner inside =>
        ih inner (old inside notNext) (ne_next_of_holds (held inside))
  refine ⟨fun id => ?_⟩
  by_cases next : id = catalog.next
  · exact .intro id fun inner inside => acc inner (ne_next_of_holds (held inside))
  · exact acc id next

theorem isNamed_put {id : TypeId} {definition : Definition}
    (sameKind : definition.isNamed = (catalog.definition id).isNamed) (other : TypeId) :
    ((catalog.put id definition).definition other).isNamed =
      (catalog.definition other).isNamed := by
  rw [definition_put]
  split
  · rename_i same
    rw [sameKind, same.1]
  · rfl

/-- A definition whose parts without a name were there before takes the place of another one. -/
theorem Nested.put (nested : catalog.Nested) {id : TypeId} {definition : Definition}
    (sameKind : definition.isNamed = (catalog.definition id).isNamed)
    (children : definition.isNamed = false → ∀ child ∈ definition.shape.children,
      (catalog.definition child).isNamed = false → child ∈ (catalog.shape id).children) :
    (catalog.put id definition).Nested := by
  refine nested.of_inside fun inner outer inside => ?_
  obtain ⟨unnamed, child, innerUnnamed⟩ := inside
  rw [isNamed_put sameKind] at unnamed innerUnnamed
  refine ⟨unnamed, ?_, innerUnnamed⟩
  rw [Catalog.shape, definition_put] at child
  split at child
  · rename_i same
    rw [same.1] at unnamed ⊢
    exact children (sameKind.trans unnamed) inner child innerUnnamed
  · exact child

theorem Nested.putNamed (nested : catalog.Nested) {id : TypeId} {definition : Definition}
    {name : String} (named : definition.isNamed = true) (names : catalog.Names id name) :
    (catalog.put id definition).Nested :=
  nested.put (named.trans names.named.symm) fun unnamed => absurd named (by simp [unnamed])

/-- New parts that lead to where nothing leads back from are no way into a cycle. -/
theorem Nested.append (nested : catalog.Nested) {id : TypeId}
    {cut : Nat} {given : List Slot} {definition : Definition} (earlier : id.index < cut)
    (closed : catalog.ClosedFrom cut) (later : ∀ slot ∈ given, catalog.HoldsFrom cut slot.target)
    (appended : (catalog.definition id).Appended given definition) :
    (catalog.put id definition).Nested := by
  obtain ⟨shape, extra, rfl, grown, subset⟩ := appended
  have kinds := @isNamed_put catalog id { catalog.definition id with shape } grown.isNamed
  have split {inner outer : TypeId}
      (inside : (catalog.put id { catalog.definition id with shape }).Inside inner outer) :
      catalog.Inside inner outer ∨ outer = id ∧ catalog.HoldsFrom cut inner := by
    obtain ⟨unnamed, child, innerUnnamed⟩ := inside
    rw [kinds] at unnamed innerUnnamed
    rw [Catalog.shape, definition_put] at child
    split at child
    · rename_i same
      rw [show Shape.children _ = _ from grown.children, List.mem_append] at child
      rcases child with old | new
      · exact .inl ⟨unnamed, same.1 ▸ old, innerUnnamed⟩
      · obtain ⟨slot, within, rfl⟩ := List.mem_map.mp new
        exact .inr ⟨same.1, later slot (subset within)⟩
    · exact .inl ⟨unnamed, child, innerUnnamed⟩
  -- Behind the cut nothing has changed, and the definition with the new parts is in front of it.
  have acc (other : TypeId) (behind : catalog.HoldsFrom cut other) :
      Acc (catalog.put id { catalog.definition id with shape }).Inside other := by
    induction other using nested.induction with
    | _ other ih =>
      refine .intro other fun inner inside => ?_
      rcases split inside with old | ⟨rfl, _⟩
      · exact ih inner old (closed other behind inner old.child)
      · exact absurd behind.1 (Nat.not_le_of_lt earlier)
  refine ⟨fun other => ?_⟩
  induction other using nested.induction with
  | _ other ih =>
    exact .intro other fun inner inside => (split inside).elim (ih inner) fun new => acc inner new.2

theorem GrowthStep.nested {base : Nat} (step : GrowthStep base before after)
    (consistent : before.Consistent) (nested : before.Nested) : after.Nested := by
  cases step with
  | node _ _ children =>
    exact nested.push consistent fun child member => (children child member).2
  | mention _ empty =>
    refine nested.push consistent ?_
    rcases empty with rfl | rfl <;> simp [Definition.ofShape, Shape.children, Shape.slots]
  | @introduce word name =>
    have pushed : (before.push (.ofShape (.record name []))).Nested :=
      nested.push consistent (by simp [Definition.ofShape, Shape.children, Shape.slots])
    exact pushed.of_arena rfl
  | append _ earlier _ closed later appended =>
    exact nested.append earlier closed later appended
  | document => exact nested.put rfl fun _ child member _ => member
  | enlist => exact nested.of_arena rfl

theorem NamingStep.nested (step : NamingStep before after) (consistent : before.Consistent)
    (nested : before.Nested) : after.Nested := by
  cases step with
  | provide _ children => exact (nested.push consistent children).of_arena rfl
  | redefine registrable _ present =>
    exact nested.putNamed registrable.named
      (consistent.owned _ _ (known?_of_provisional registrable.free present))
  | establish _ children => exact (nested.push consistent children).of_arena rfl
  | respell => exact nested.of_arena rfl

theorem Replaced.nested {definition : Definition} {id : TypeId}
    (replaced : Replaced definition id before after) (consistent : before.Consistent)
    (nested : before.Nested) : after.Nested := by
  obtain ⟨registrable, _, present, rfl⟩ := replaced
  exact (nested.putNamed registrable.named
    (consistent.owned _ _ (known?_of_provisional registrable.free present))).of_arena rfl

theorem Consistent.isNamed_of_canonical (consistent : catalog.Consistent) {name : String}
    {id : TypeId} (found : catalog.canonical.get? name = some id) :
    (catalog.definition id).isNamed = true :=
  (consistent.owned name id (known?_of_canonical found)).named

/-- Where ids lead that have no name there, they lead to themselves. -/
theorem Consistent.mem_of_leads (consistent : catalog.Consistent) {ids : List TypeId}
    {landings : List Landing} (leads : List.Forall₂ catalog.LeadsTo ids landings) {id : TypeId}
    (member : id ∈ landings.map Landing.target)
    (unnamed : (catalog.definition id).isNamed = false) : id ∈ ids := by
  induction leads with
  | nil => cases member
  | cons first _ ih =>
    rcases List.mem_cons.mp member with rfl | member
    · rcases first with same | ⟨name, found⟩
      · exact same ▸ List.mem_cons_self
      · exact absurd (consistent.isNamed_of_canonical found) (by simp [unnamed])
    · exact List.mem_cons_of_mem _ (ih member)

theorem SettlingStep.nested (step : SettlingStep before after) (consistent : before.Consistent)
    (nested : before.Nested) : after.Nested := by
  cases step with
  | promote => exact nested.of_arena rfl
  | withdraw => exact nested.of_arena rfl
  | relink _ leads =>
    refine nested.put (isNamed_relink _ _) fun _ child member unnamed => ?_
    rw [show Shape.children _ = _ from children_relink (length_of_leads leads)] at member
    exact consistent.mem_of_leads leads member unnamed

theorem MergingStep.nested (step : MergingStep before after) (consistent : before.Consistent)
    (nested : before.Nested) : after.Nested := by
  cases step with
  | fill named known => exact nested.putNamed named (consistent.owned _ _ known)
  | introduce _ _ _ children => exact (nested.push consistent children).of_arena rfl
  | _ => exact nested.of_arena rfl

theorem Change.nested (change : Change before after) (consistent : before.Consistent)
    (nested : before.Nested) : after.Nested := by
  cases change with
  | growth step => exact step.nested consistent nested
  | naming step => exact step.nested consistent nested
  | replacing step => exact step.nested consistent nested
  | settling step => exact step.nested consistent nested
  | merging step => exact step.nested consistent nested

theorem Reachable.nested (reachable : catalog.Reachable) : catalog.Nested := by
  refine (reachable.induction (fun config start made => ?_)
    fun _ _ consistent nested change => change.nested consistent nested).2
  refine ((naming_ofConfig made).induction (consistent_fresh config) ?_
    fun _ _ consistent nested step => step.nested consistent nested).2
  refine ⟨fun id => .intro id fun inner inside => ?_⟩
  exact absurd inside.child List.not_mem_nil

/-! ## Ranks -/

open Classical in
/-- The types without a name that are nested in a definition without one. -/
noncomputable def within (catalog : Catalog) (id : TypeId) : Finset Nat :=
  (Finset.range catalog.arena.size).filter fun index =>
    Relation.TransGen catalog.Inside ⟨index⟩ id

/-- How many types without a name are nested in a definition without one. -/
noncomputable def rank (catalog : Catalog) (id : TypeId) : Nat := (catalog.within id).card

theorem mem_within {index : Nat} {id : TypeId} :
    index ∈ catalog.within id ↔
      index < catalog.arena.size ∧ Relation.TransGen catalog.Inside ⟨index⟩ id := by
  simp [within]

theorem Nested.not_within_self (nested : catalog.Nested) (id : TypeId) :
    id.index ∉ catalog.within id := fun member =>
  (WellFounded.transGen nested).irrefl.irrefl id (mem_within.mp member).2

theorem Nested.rank_lt_of_inside (nested : catalog.Nested) (consistent : catalog.Consistent)
    {inner outer : TypeId} (inside : catalog.Inside inner outer) :
    catalog.rank inner < catalog.rank outer := by
  have subset : catalog.within inner ⊆ catalog.within outer := by
    intro index member
    obtain ⟨bound, path⟩ := mem_within.mp member
    exact mem_within.mpr ⟨bound, path.tail inside⟩
  have held := (consistent.holds_child inside.child).2
  have member : inner.index ∈ catalog.within outer := mem_within.mpr ⟨held, .single inside⟩
  exact Finset.card_lt_card ((Finset.ssubset_iff_of_subset subset).mpr
    ⟨inner.index, member, nested.not_within_self inner⟩)

theorem Nested.rank_lt_size (nested : catalog.Nested) {id : TypeId} (held : catalog.Holds id) :
    catalog.rank id < catalog.arena.size := by
  have subset : catalog.within id ⊆ Finset.range catalog.arena.size := fun index member =>
    Finset.mem_range.mpr (mem_within.mp member).1
  have fewer := Finset.card_lt_card ((Finset.ssubset_iff_of_subset subset).mpr
    ⟨id.index, Finset.mem_range.mpr held, nested.not_within_self id⟩)
  rwa [Finset.card_range] at fewer

end DocShapes.Catalog
