import DocShapes.Catalog.Equivalence
import DocShapes.Catalog.Render
import DocShapes.Proofs.Gathering
import DocShapes.Proofs.References

/-! # Descents into types end

A view of a type goes down into the parts of types without a name and stops at names. No operation
gives a definition a name or takes one away, and no cycle of parts avoids all names. So every
descent ends: a view is the one solution of its recursion, whatever bounds its depth
(`Reachable.descents_end`).
-/

namespace DocShapes.Catalog

variable {catalog before after : Catalog}

/-! ## Definitions keep their kind -/

/-- The definition has a name if it had one, and otherwise has the base that it had. -/
structure KeepsKind (before after : Catalog) (id : TypeId) : Prop where
  held : after.Holds id
  named : (after.definition id).isNamed = (before.definition id).isNamed
  base : (before.definition id).isNamed = false →
    (after.definition id).base = (before.definition id).base

theorem KeepsKind.refl {id : TypeId} (held : catalog.Holds id) : KeepsKind catalog catalog id :=
  ⟨held, rfl, fun _ => rfl⟩

theorem KeepsKind.trans {middle : Catalog} {id : TypeId} (first : KeepsKind before middle id)
    (second : KeepsKind middle after id) : KeepsKind before after id where
  held := second.held
  named := second.named.trans first.named
  base unnamed := (second.base (first.named.trans unnamed)).trans (first.base unnamed)

theorem KeepsKind.of_arena {id : TypeId} (kept : KeepsKind catalog before id)
    (arena : after.arena = before.arena) : KeepsKind catalog after id := by
  have definition : after.definition id = before.definition id := by
    rw [Catalog.definition, Catalog.definition, arena]
  refine ⟨?_, by rw [definition]; exact kept.named, by rw [definition]; exact kept.base⟩
  rw [Holds, arena]
  exact kept.held

theorem keepsKind_push {id : TypeId} (held : catalog.Holds id) (definition : Definition) :
    KeepsKind catalog (catalog.push definition) id := by
  have same : (catalog.push definition).definition id = catalog.definition id := by
    rw [definition_push, if_neg (ne_next_of_holds held)]
  exact ⟨(holds_push _ _ _).mpr (.inl held), by rw [same], fun _ => by rw [same]⟩

theorem keepsKind_put {id other : TypeId} {definition : Definition} (held : catalog.Holds id)
    (named : definition.isNamed = (catalog.definition other).isNamed)
    (base : definition.isNamed = false → definition.base = (catalog.definition other).base) :
    KeepsKind catalog (catalog.put other definition) id := by
  refine ⟨(holds_put _ _ _ _).mpr held, isNamed_put named id, fun unnamed => ?_⟩
  rw [definition_put]
  split
  · rename_i same
    rw [same.1] at unnamed ⊢
    exact base (named.trans unnamed)
  · rfl

theorem Names.keepsKind_put {id other : TypeId} {name : String} {definition : Definition}
    (names : catalog.Names other name) (named : definition.isNamed = true)
    (held : catalog.Holds id) : KeepsKind catalog (catalog.put other definition) id :=
  Catalog.keepsKind_put held (named.trans names.named.symm)
    fun unnamed => absurd named (by simp [unnamed])

theorem Change.keepsKind (change : Change before after) (consistent : before.Consistent)
    {id : TypeId} (held : before.Holds id) : KeepsKind before after id := by
  cases change with
  | growth step =>
    cases step with
    | node | mention => exact keepsKind_push held _
    | introduce => exact (keepsKind_push held _).of_arena rfl
    | append _ _ _ _ _ appended =>
      obtain ⟨shape, _, rfl, grown, _⟩ := appended
      exact keepsKind_put held grown.isNamed fun _ => grown.base
    | document => exact keepsKind_put held rfl fun _ => rfl
    | enlist => exact (KeepsKind.refl held).of_arena rfl
  | naming step =>
    cases step with
    | provide | establish => exact (keepsKind_push held _).of_arena rfl
    | redefine registrable _ present =>
      have known := known?_of_provisional registrable.free present
      exact (consistent.owned _ _ known).keepsKind_put registrable.named held
    | respell => exact (KeepsKind.refl held).of_arena rfl
  | replacing step =>
    obtain ⟨registrable, _, present, rfl⟩ := step
    have known := known?_of_provisional registrable.free present
    exact ((consistent.owned _ _ known).keepsKind_put registrable.named held).of_arena rfl
  | settling step =>
    cases step with
    | promote | withdraw => exact (KeepsKind.refl held).of_arena rfl
    | relink =>
      exact keepsKind_put held (isNamed_relink _ _) fun _ => base_relink _ _
  | merging step =>
    cases step with
    | fill named known => exact (consistent.owned _ _ known).keepsKind_put named held
    | introduce => exact (keepsKind_push held _).of_arena rfl
    | discharge | promote | retire => exact (KeepsKind.refl held).of_arena rfl

theorem keepsKind_of_changes (changes : Relation.ReflTransGen Change before after)
    (consistent : before.Consistent) {id : TypeId} (held : before.Holds id) :
    after.Consistent ∧ KeepsKind before after id := by
  induction changes with
  | refl => exact ⟨consistent, .refl held⟩
  | tail _ change ih =>
    obtain ⟨reached, kept⟩ := ih
    exact ⟨change.consistent reached, kept.trans (change.keepsKind reached kept.held)⟩

/-- However a run goes on, a definition keeps its kind. -/
theorem Reachable.keepsKind (reachable : before.Reachable)
    (run : Relation.ReflTransGen Move before after) {id : TypeId} (held : before.Holds id) :
    after.Reachable ∧ KeepsKind before after id := by
  induction run with
  | refl => exact ⟨reachable, .refl held⟩
  | tail _ move ih =>
    obtain ⟨reached, kept⟩ := ih
    have changes := move.changes reached.consistent
    have further := (keepsKind_of_changes changes reached.consistent kept.held).2
    exact ⟨reached.move move, kept.trans further⟩

/-! ## Retired definitions -/

/-- Only definitions with a name and unknown names are retired. -/
def RetiresMentions (catalog : Catalog) : Prop :=
  ∀ id landing, catalog.forward.get? id = some landing →
    (catalog.definition id).isNamed = true ∨ (catalog.definition id).base = .unknown

theorem RetiresMentions.of_forward (retires : before.RetiresMentions)
    (consistent : before.Consistent) (change : Change before after)
    (forward : after.forward = before.forward) : after.RetiresMentions := by
  intro id landing found
  rw [forward] at found
  have kept := change.keepsKind consistent (consistent.retired id landing found).1
  rw [kept.named]
  cases named : (before.definition id).isNamed with
  | true => exact .inl rfl
  | false =>
    rw [kept.base named]
    exact (retires id landing found).imp (fun own => by simp [named] at own) fun own => own

theorem RetiresMentions.withdraw (retires : catalog.RetiresMentions) {source : TypeId}
    {landing : Landing}
    (mention : (catalog.definition source).isNamed = true ∨
      (catalog.definition source).base = .unknown) :
    (catalog.withdraw source landing).RetiresMentions := by
  intro id other found
  rw [withdraw_forward, OrderedMap.get?_set] at found
  split at found
  · rename_i same
    exact same ▸ mention
  · exact retires id other found

theorem Change.retiresMentions (change : Change before after) (consistent : before.Consistent)
    (retires : before.RetiresMentions) : after.RetiresMentions := by
  have beside := retires.of_forward consistent change
  cases change with
  | growth step => exact beside step.untouched.forward
  | naming step => cases step <;> exact beside rfl
  | replacing step => exact beside (by rw [step.change]; rfl)
  | settling step =>
    cases step with
    | withdraw held mention =>
      refine retires.withdraw ?_
      exact ((mentionsName_iff _ _).mp mention).symm.imp And.left fun unknown => unknown
    | promote | relink => exact beside rfl
  | merging step =>
    cases step with
    | retire names => exact retires.withdraw (.inl names.named)
    | discharge | fill | introduce | promote => exact beside rfl

theorem Reachable.retiresMentions (reachable : catalog.Reachable) : catalog.RetiresMentions := by
  refine (reachable.induction (fun config start made => ?_)
    fun _ _ consistent retires change => change.retiresMentions consistent retires).2
  intro id landing found
  rw [(gathered_of_ofConfig made).forward] at found
  cases found

/-- Where an id leads there is a name exactly if there is one at the id, apart from unknown names
that have been found. -/
theorem Consistent.isNamed_follow (consistent : catalog.Consistent)
    (retires : catalog.RetiresMentions) (id : TypeId) :
    (catalog.definition (catalog.follow id)).isNamed = (catalog.definition id).isNamed ∨
      (catalog.definition id).base = .unknown ∧
        (catalog.definition (catalog.follow id)).isNamed = true := by
  cases found : catalog.forward.get? id with
  | none => exact .inl (by rw [follow_of_forward_eq_none found])
  | some landing =>
    obtain ⟨_, _, name, canonical⟩ := consistent.retired id landing found
    have named := consistent.isNamed_of_canonical canonical
    have target : catalog.follow id = landing.target := by simp [consistent.follow_eq, found]
    rw [target, named]
    exact (retires id landing found).imp Eq.symm fun unknown => ⟨unknown, rfl⟩

/-! ## Cycles -/

/-- The first type is what a child of the second one leads to. -/
def Part (catalog : Catalog) (inner outer : TypeId) : Prop :=
  ∃ child ∈ (catalog.shape outer).children, catalog.follow child = inner

/-- Each type is a part of the one before it, and the first one is a part of the last one. -/
def Cycle (catalog : Catalog) (first : TypeId) (rest : List TypeId) : Prop :=
  (first :: (rest ++ [first])).IsChain fun outer inner => catalog.Part inner outer

theorem Consistent.inside_of_part (consistent : catalog.Consistent) {inner outer : TypeId}
    (part : catalog.Part inner outer) (outerUnnamed : (catalog.definition outer).isNamed = false)
    (innerUnnamed : (catalog.definition inner).isNamed = false) : catalog.Inside inner outer := by
  obtain ⟨child, member, rfl⟩ := part
  have same := consistent.follow_of_unnamed innerUnnamed
  rw [same] at innerUnnamed ⊢
  exact ⟨outerUnnamed, member, innerUnnamed⟩

theorem Nested.isNamed_of_cycle (nested : catalog.Nested) (consistent : catalog.Consistent)
    {first : TypeId} {rest : List TypeId} (cycle : catalog.Cycle first rest) :
    ∃ id ∈ first :: rest, (catalog.definition id).isNamed = true := by
  by_contra none
  have unnamed : ∀ id ∈ first :: rest, (catalog.definition id).isNamed = false := by
    simpa using none
  have closing : ∀ id ∈ first :: (rest ++ [first]), (catalog.definition id).isNamed = false := by
    intro id member
    refine unnamed id ?_
    simp only [List.mem_cons, List.mem_append, List.not_mem_nil, or_false] at member ⊢
    tauto
  -- Without names the cycle is a way from a type into itself.
  have descent : (first :: (rest ++ [first])).IsChain
      (fun outer inner => Relation.TransGen catalog.Inside inner outer) :=
    cycle.imp_of_mem_imp fun outer inner outerMember innerMember part =>
      .single (consistent.inside_of_part part (closing outer outerMember)
        (closing inner innerMember))
  have transitive : IsTrans TypeId
      (fun outer inner => Relation.TransGen catalog.Inside inner outer) :=
    ⟨fun _ _ _ left right => right.trans left⟩
  have paired := List.isChain_iff_pairwise.mp descent
  have itself := (List.pairwise_cons.mp paired).1 first (by simp)
  exact (WellFounded.transGen nested).irrefl.irrefl first itself

/-! ## Descents -/

/-- A view of the second type asks for a view of the first one: the second one leads to a type
without a name that the first one is a child of. -/
structure Descends (catalog : Catalog) (part whole : TypeId) : Prop where
  unnamed : (catalog.definition (catalog.follow whole)).isNamed = false
  child : part ∈ (catalog.shape (catalog.follow whole)).children

open Classical in
/-- How deep a view of the type can go. -/
noncomputable def height (catalog : Catalog) (id : TypeId) : Nat :=
  if ∃ part, catalog.Descends part id then catalog.rank (catalog.follow id) + 1 else 0

theorem height_of_descends {part whole : TypeId} (descends : catalog.Descends part whole) :
    catalog.height whole = catalog.rank (catalog.follow whole) + 1 :=
  if_pos ⟨part, descends⟩

theorem Nested.height_lt (nested : catalog.Nested) (consistent : catalog.Consistent)
    {part whole : TypeId} (descends : catalog.Descends part whole) :
    catalog.height part < catalog.height whole := by
  rw [height_of_descends descends]
  by_cases further : ∃ inner, catalog.Descends inner part
  · obtain ⟨inner, within⟩ := further
    have same := consistent.follow_of_unnamed within.unnamed
    have innerUnnamed := within.unnamed
    rw [height_of_descends within, same]
    rw [same] at innerUnnamed
    have lower := nested.rank_lt_of_inside consistent
      ⟨descends.unnamed, descends.child, innerUnnamed⟩
    omega
  · rw [height, if_neg further]
    omega

theorem Nested.height_le (nested : catalog.Nested) (consistent : catalog.Consistent)
    (id : TypeId) : catalog.height id ≤ catalog.arena.size := by
  by_cases further : ∃ part, catalog.Descends part id
  · obtain ⟨part, descends⟩ := further
    rw [height_of_descends descends]
    exact nested.rank_lt_size (consistent.holds_child descends.child).1
  · rw [height, if_neg further]
    exact Nat.zero_le _

theorem Nested.wellFounded_descends (nested : catalog.Nested) (consistent : catalog.Consistent) :
    WellFounded catalog.Descends :=
  Subrelation.wf (nested.height_lt consistent) (InvImage.wf catalog.height Nat.lt_wfRel.wf)

/-! ## Views -/

/-- A view satisfies its recursion, and nothing else does. -/
structure OnlySolution {α : Type} (step : (TypeId → α) → TypeId → α) (view : TypeId → α) :
    Prop where
  solves : ∀ id, view id = step view id
  unique : ∀ other : TypeId → α, (∀ id, other id = step other id) → other = view

/-- A round of a recursion uses the views of the types that it descends to. -/
def Descending (catalog : Catalog) {α : Type} (step : (TypeId → α) → TypeId → α) : Prop :=
  ∀ (left right : TypeId → α) (id : TypeId),
    (∀ part, catalog.Descends part id → left part = right part) → step left id = step right id

section

variable {α : Type} {step : (TypeId → α) → TypeId → α} {rounds : Nat → TypeId → α}

/-- More rounds than the type is high change nothing. -/
theorem Descending.rounds_eq (descending : catalog.Descending step) (nested : catalog.Nested)
    (consistent : catalog.Consistent) (round : ∀ depth, rounds (depth + 1) = step (rounds depth))
    (id : TypeId) {fewer more : Nat} (enough : catalog.height id < fewer)
    (within : catalog.height id < more) : rounds fewer id = rounds more id := by
  induction fewer generalizing id more with
  | zero => omega
  | succ fewer ih =>
    obtain ⟨more, rfl⟩ : ∃ less, more = less + 1 := ⟨more - 1, by omega⟩
    rw [round, round]
    refine descending _ _ id fun part descends => ?_
    have lower := nested.height_lt consistent descends
    exact ih part (by omega) (by omega)

/-- With a round for each definition and one more, the recursion is solved. -/
theorem Descending.onlySolution (descending : catalog.Descending step) (nested : catalog.Nested)
    (consistent : catalog.Consistent) (round : ∀ depth, rounds (depth + 1) = step (rounds depth)) :
    OnlySolution step (rounds (catalog.arena.size + 1)) := by
  have solves (id : TypeId) :
      rounds (catalog.arena.size + 1) id = step (rounds (catalog.arena.size + 1)) id := by
    have bound := nested.height_le consistent id
    rw [← round]
    exact descending.rounds_eq nested consistent round id (by omega) (by omega)
  refine ⟨solves, fun other solved => funext fun id => ?_⟩
  induction id using (nested.wellFounded_descends consistent).induction with
  | _ id ih =>
    rw [solved, solves]
    exact descending _ _ id ih

end

theorem shapeText_congr {left right : TypeId → String} {shape : Shape}
    (same : shape.isNamed = false → ∀ child ∈ shape.children, left child = right child) :
    shapeText left shape = shapeText right shape := by
  cases shape with
  | list item | reference item =>
    cases item with
    | none => rfl
    | some slot =>
      have own : left slot.target = right slot.target :=
        same rfl _ (List.mem_map_of_mem List.mem_cons_self)
      simp only [shapeText, own]
  | choice connective alternatives =>
    have own : alternatives.map (fun slot => left slot.target) =
        alternatives.map fun slot => right slot.target :=
      List.map_congr_left fun slot member => same rfl _ (List.mem_map_of_mem member)
    cases alternatives with
    | nil => rfl
    | cons first others => simp only [shapeText, own]
  | _ => rfl

theorem fieldJson_congr {left right : TypeId → Json} {site : Site}
    (same : left site.target = right site.target) : fieldJson left site = fieldJson right site := by
  simp only [fieldJson, same]

theorem slotJsonWith_congr {left right : TypeId → Json} {slot : Slot}
    (same : left slot.target = right slot.target) :
    slotJsonWith left slot = slotJsonWith right slot := by
  cases slot with
  | bare => exact same
  | sited site => simp only [slotJsonWith, show left site.target = right site.target from same]

theorem inlineJson_congr {left right : TypeId → Json} {definition : Definition}
    (same : definition.isNamed = false →
      ∀ child ∈ definition.shape.children, left child = right child) :
    inlineJson left definition = inlineJson right definition := by
  obtain ⟨shape, doc, annotations⟩ := definition
  cases shape with
  | list item | reference item =>
    cases item with
    | none => rfl
    | some slot =>
      have own := slotJsonWith_congr (same rfl slot.target (List.mem_map_of_mem List.mem_cons_self))
      simp only [inlineJson, Option.map_some, own]
  | choice connective alternatives =>
    have own : alternatives.map (slotJsonWith left) = alternatives.map (slotJsonWith right) :=
      List.map_congr_left fun slot member =>
        slotJsonWith_congr (same rfl _ (List.mem_map_of_mem member))
    cases connective <;> simp only [inlineJson, own]
  | anonymous fields =>
    have own : fields.map (fieldJson left) = fields.map (fieldJson right) :=
      List.map_congr_left fun site member => fieldJson_congr
        (same rfl _ (List.mem_map_of_mem (List.mem_map_of_mem member)))
    simp only [inlineJson, own]
  | _ => rfl

theorem slotsAgree_congr {left right : TypeId → TypeId → Bool} {slots others : List Slot}
    (same : ∀ child ∈ slots.map Slot.target, left child = right child) :
    slotsAgree left slots others = slotsAgree right slots others := by
  induction slots generalizing others with
  | nil => cases others <;> rfl
  | cons slot rest ih =>
    cases others with
    | nil => rfl
    | cons other more =>
      obtain ⟨first, further⟩ := List.forall_mem_cons.mp same
      simp only [slotsAgree, first, ih further]

theorem definitionsAgree_congr {left right : TypeId → TypeId → Bool}
    {definition other : Definition}
    (same : definition.isNamed = false →
      ∀ child ∈ definition.shape.children, left child = right child) :
    definitionsAgree left definition other = definitionsAgree right definition other := by
  cases named : definition.isNamed with
  | true => simp [definitionsAgree, named]
  | false =>
    have shapes : shapesAgree left definition.shape other.shape =
        shapesAgree right definition.shape other.shape := by
      unfold shapesAgree
      split
      · rfl
      · exact slotsAgree_congr (same named)
    simp only [definitionsAgree, shapes]

/-- The full view of a definition, with the views of its parts made by `part`. -/
def fullJson (part : TypeId → Json) (definition : Definition) : Json :=
  let heading :=
    (Json.object [("base", .string definition.base.word), ("name", .string definition.name)])
      |>.withMember? "doc" (definition.doc.map .string)
  let source := (definition.annotations.get? "source").map Json.string
  match definition.shape with
  | .record _ fields =>
      (heading.withMember "fields" (.array (fields.map (fieldJson part))))
        |>.withMember? "source" source
  | .extension _ value =>
      (heading.withMember? "value" (value.map (slotJsonWith part))).withMember? "source" source
  | _ => inlineJson part definition

theorem OnlySolution.definitionJson_eq
    (typeJson : OnlySolution
      (fun part id => inlineJson part (catalog.definition (catalog.follow id)))
      catalog.typeJson) (id : TypeId) :
    catalog.definitionJson id =
      fullJson catalog.typeJson (catalog.definition (catalog.follow id)) := by
  have slots : catalog.slotJson = slotJsonWith catalog.typeJson := rfl
  unfold definitionJson fullJson
  dsimp only
  cases (catalog.definition (catalog.follow id)).shape with
  | record => rfl
  | extension => rw [slots]
  | _ => exact typeJson.solves id

/-- Every cycle of parts leads through a record or an extension. A definition that has a name keeps
it, one without a name never gets one, and an id comes to lead to a name where it had none only if
it stands for an unknown name. So descents end, and the views and the equivalence of types are the
one solution of their recursions. -/
theorem Reachable.descents_end (reachable : catalog.Reachable) :
    (∀ first rest, catalog.Cycle first rest → ∃ id ∈ first :: rest,
      (catalog.definition id).base = .record ∨ (catalog.definition id).base = .extension) ∧
    (∀ later, Relation.ReflTransGen Move catalog later → ∀ id, catalog.Holds id →
      later.Holds id ∧
        (later.definition id).isNamed = (catalog.definition id).isNamed ∧
        ((later.definition (later.follow id)).isNamed = (catalog.definition id).isNamed ∨
          (catalog.definition id).base = .unknown ∧
            (later.definition (later.follow id)).isNamed = true)) ∧
    WellFounded catalog.Descends ∧
    OnlySolution
      (fun related left right =>
        catalog.follow left = catalog.follow right ||
          definitionsAgree related (catalog.definition (catalog.follow left))
            (catalog.definition (catalog.follow right)))
      catalog.equivalent ∧
    OnlySolution (fun part id => shapeText part (catalog.shape (catalog.follow id)))
      catalog.typeText ∧
    OnlySolution (fun part id => inlineJson part (catalog.definition (catalog.follow id)))
      catalog.typeJson ∧
    ∀ id, catalog.definitionJson id =
      fullJson catalog.typeJson (catalog.definition (catalog.follow id)) := by
  have consistent := reachable.consistent
  have nested := reachable.nested
  have views : OnlySolution
      (fun part id => inlineJson part (catalog.definition (catalog.follow id)))
      catalog.typeJson := by
    refine @Descending.onlySolution _ _ _ catalog.typeJsonWithin (fun left right id same => ?_)
      nested consistent fun _ => rfl
    exact inlineJson_congr fun unnamed child member => same child ⟨unnamed, member⟩
  refine ⟨fun first rest cycle => ?_, fun later run id held => ?_,
    nested.wellFounded_descends consistent, ?_, ?_, views, views.definitionJson_eq⟩
  · obtain ⟨id, member, named⟩ := nested.isNamed_of_cycle consistent cycle
    exact ⟨id, member, (Shape.isNamed_iff_base _).mp named⟩
  · obtain ⟨reached, kept⟩ := reachable.keepsKind run held
    refine ⟨kept.held, kept.named, ?_⟩
    rcases reached.consistent.isNamed_follow reached.retiresMentions id with same | found
    · exact .inl (same.trans kept.named)
    · cases named : (catalog.definition id).isNamed with
      | true => exact .inl found.2
      | false => exact .inr ⟨(kept.base named).symm.trans found.1, found.2⟩
  · refine @Descending.onlySolution _ _ _ catalog.equivalentWithin
      (fun left right id same => funext fun other => ?_) nested consistent fun _ => rfl
    rw [definitionsAgree_congr fun unnamed child member => same child ⟨unnamed, member⟩]
  · refine @Descending.onlySolution _ _ _ catalog.typeTextWithin (fun left right id same => ?_)
      nested consistent fun _ => rfl
    exact shapeText_congr fun unnamed child member => same child ⟨unnamed, member⟩

/-- A record that is made of a list of itself. -/
def listOfItself : List Operation :=
  [.parseEntries ⟨some .read, false⟩ "root : Tree\n    branches : list(Tree)", .mergePending]

theorem descents_end_listOfItself :
    (empty.run listOfItself).Cycle ⟨3⟩ [⟨2⟩] ∧
      (∃ id ∈ [(⟨3⟩ : TypeId), ⟨2⟩], ((empty.run listOfItself).definition id).base = .record ∨
        ((empty.run listOfItself).definition id).base = .extension) ∧
      (empty.run listOfItself).typeText ⟨2⟩ =
        shapeText (empty.run listOfItself).typeText
          ((empty.run listOfItself).shape ((empty.run listOfItself).follow ⟨2⟩)) := by
  have reachable : (empty.run listOfItself).Reachable :=
    @reachable_run .standard _ _ rfl ⟨trivial, trivial, trivial⟩
  have shapes : ((empty.run listOfItself).shape ⟨3⟩).children = [⟨2⟩] ∧
      ((empty.run listOfItself).shape ⟨2⟩).children = [⟨3⟩] ∧
      (empty.run listOfItself).follow ⟨2⟩ = ⟨2⟩ ∧
      (empty.run listOfItself).follow ⟨3⟩ = ⟨3⟩ := by
    decide +kernel
  obtain ⟨tree, list, listStays, treeStays⟩ := shapes
  have cycle : (empty.run listOfItself).Cycle ⟨3⟩ [⟨2⟩] := by
    simp [Cycle, Part, tree, list, listStays, treeStays]
  exact ⟨cycle, reachable.descents_end.1 _ _ cycle,
    reachable.descents_end.2.2.2.2.1.solves ⟨2⟩⟩

end DocShapes.Catalog
