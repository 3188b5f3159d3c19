import DocShapes.Proofs.Confirming
import DocShapes.Proofs.Equivalence

/-! # Merging what is merged already

The merge of a restated name changes no equivalence of types, so that it leaves the other names
restated, and everything settled stays settled. So a text that restates what is merged already can
be read and merged again.
-/

namespace DocShapes.Catalog

variable {catalog before after : Catalog} {name field : String} {id : TypeId}
  {staged : List Declaration}

/-! ## Equivalence stays -/

theorem definitionsAgree_mono {related further : TypeId → TypeId → Bool}
    (le : ∀ left right, related left right = true → further left right = true)
    {left right : Definition} (agree : definitionsAgree related left right = true) :
    definitionsAgree further left right = true := by
  have shapes (agree : shapesAgree related left.shape right.shape = true) :
      shapesAgree further left.shape right.shape = true := by
    unfold shapesAgree at agree ⊢
    split at agree
    · exact agree
    · rw [slotsAgree_iff] at agree ⊢
      exact agree.imp fun _ _ both => ⟨both.1, le _ _ both.2⟩
  simp only [definitionsAgree, Bool.and_eq_true, Bool.or_eq_true] at agree ⊢
  exact ⟨agree.1, agree.2.imp_right fun rest => ⟨rest.1, shapes rest.2⟩⟩

/-- Definitions of one name and base agree whatever they are made of. -/
theorem definitionsAgree_of_named {related : TypeId → TypeId → Bool} {left right : Definition}
    (base : left.base = right.base) (name : left.name = right.name)
    (named : left.isNamed = true) : definitionsAgree related left right = true := by
  simp [definitionsAgree, base, name, named]

theorem Confirmed.follow_or (confirmed : before.Confirmed name id staged after)
    (consistent : before.Consistent)
    (unforwarded : ∀ declaration ∈ staged, before.forward.get? declaration.id = none)
    (other : TypeId) :
    after.follow other = before.follow other ∨
      ∃ declaration ∈ staged, before.follow other = declaration.id ∧ after.follow other = id := by
  have further := confirmed.merging.consistent consistent
  by_cases inside : other ∈ staged.map Declaration.id
  · obtain ⟨declaration, member, rfl⟩ := List.mem_map.mp inside
    exact .inr ⟨declaration, member, follow_of_forward_eq_none (unforwarded declaration member),
      confirmed.retired declaration member⟩
  · left
    rw [further.follow_eq, consistent.follow_eq, confirmed.beside other inside]

/-- Where an id leads, merging a restated name changes nothing, or the definition has that name and
base before and after. -/
theorem Confirmed.face (confirmed : before.Confirmed name id staged after)
    (consistent : before.Consistent) (restated : before.RestatedName name id staged)
    (other : TypeId) :
    (after.follow other = before.follow other ∧
        after.definition (before.follow other) = before.definition (before.follow other)) ∨
      before.Names (before.follow other) name ∧
        (before.definition (before.follow other)).base = (before.definition id).base ∧
        after.follow other = id := by
  rcases confirmed.follow_or consistent restated.unforwarded other with
    same | ⟨declaration, member, old, new⟩
  · by_cases here : before.follow other = id
    · right
      rw [same, here]
      exact ⟨consistent.owned name id (known?_of_canonical restated.canonical), rfl, rfl⟩
    · exact .inl ⟨same, confirmed.others _ here⟩
  · right
    rw [old]
    exact ⟨restated.names declaration member, (restated.restated declaration member).base, new⟩

theorem Confirmed.equivalentWithin (confirmed : before.Confirmed name id staged after)
    (consistent : before.Consistent) (restated : before.RestatedName name id staged) {depth : Nat}
    {left right : TypeId} (equivalent : before.equivalentWithin depth left right = true) :
    after.equivalentWithin depth left right = true := by
  induction depth generalizing left right with
  | zero => cases equivalent
  | succ depth ih =>
    have owner := consistent.owned name id (known?_of_canonical restated.canonical)
    have now := confirmed.merging.names consistent owner
    have base := confirmed.base
    have faces := confirmed.face consistent restated
    have alike := face_of_equivalentWithin equivalent
    rw [Catalog.equivalentWithin, Bool.or_eq_true, decide_eq_true_iff] at equivalent ⊢
    rcases faces left with ⟨leftSame, leftDefinition⟩ | ⟨leftNames, leftBase, leftNew⟩
    · rcases faces right with ⟨rightSame, rightDefinition⟩ | ⟨rightNames, rightBase, rightNew⟩
      · rw [leftSame, rightSame, leftDefinition, rightDefinition]
        exact equivalent.imp_right (definitionsAgree_mono fun _ _ => ih)
      · right
        rw [leftSame, leftDefinition, rightNew]
        have kind := alike.1.trans (rightBase.trans base.symm)
        refine definitionsAgree_of_named kind (alike.2.trans (rightNames.same.trans now.same.symm)) ?_
        exact (isNamed_eq_of_base kind).trans now.named
    · rcases faces right with ⟨rightSame, rightDefinition⟩ | ⟨_, _, rightNew⟩
      · right
        rw [leftNew, rightSame, rightDefinition]
        exact definitionsAgree_of_named (base.trans (leftBase.symm.trans alike.1))
          (now.same.trans (leftNames.same.symm.trans alike.2)) now.named
      · exact .inl (leftNew.trans rightNew.symm)

/-! ## Restated names stay restated -/

theorem Confirmed.equivalent (confirmed : before.Confirmed name id staged after)
    (consistent : before.Consistent) (restated : before.RestatedName name id staged)
    {left right : TypeId} (equivalent : before.equivalent left right = true) :
    after.equivalent left right = true := by
  rw [Catalog.equivalent, confirmed.size]
  exact confirmed.equivalentWithin consistent restated equivalent

theorem Confirmed.restates (confirmed : before.Confirmed name id staged after)
    (consistent : before.Consistent) (restated : before.RestatedName name id staged)
    {own other : Site} (restates : before.Restates own other) : after.Restates own other where
  name := restates.name
  type := confirmed.equivalent consistent restated restates.type
  doc := restates.doc
  qualifiers := restates.qualifiers

/-- What is settled stays settled when restated names are merged. -/
theorem Confirmed.walk (confirmed : before.Confirmed name id staged after)
    (restated : before.RestatedName name id staged) {all : List TypeId}
    (walk : before.Walk [] all) (fresh : ∀ declaration ∈ staged, declaration.id ∉ all) :
    after.Walk [] all where
  consistent := confirmed.merging.consistent walk.consistent
  held := by simp
  settled other seen := by
    have inside := seen.resolve_left List.not_mem_nil
    obtain ⟨unforwarded, final⟩ := walk.settled other seen
    refine ⟨?_, ?_⟩
    · rw [confirmed.beside, unforwarded]
      intro listed
      obtain ⟨declaration, member, rfl⟩ := List.mem_map.mp listed
      exact fresh declaration member inside
    · by_cases here : other = id
      · exact .inl ⟨name, by rw [confirmed.canonical, here]; exact restated.canonical⟩
      · refine final.imp (fun found => ?_) fun silent => ?_
        · obtain ⟨label, found⟩ := found
          exact ⟨label, (confirmed.canonical label).trans found⟩
        · rw [← Bool.not_eq_true, mentionsName_iff] at silent ⊢
          rw [confirmed.others other here]
          exact fun mention => silent (mention.imp_right fun named =>
            ⟨named.1, named.2.imp_right (confirmed.provisional _ _)⟩)
  closed other seen child inside := by
    refine walk.closed other seen child ?_
    by_cases here : other = id
    · rw [here] at inside ⊢
      exact confirmed.children inside
    · rwa [Catalog.shape, confirmed.others other here] at inside

/-! ## Merging restated names -/

theorem equivalentWithin_discharge (catalog : Catalog) (depth : Nat) (left right : TypeId) :
    catalog.discharge.equivalentWithin depth left right =
      catalog.equivalentWithin depth left right := by
  induction depth generalizing left right with
  | zero => rfl
  | succ depth ih =>
    have leads (id : TypeId) : catalog.discharge.follow id = catalog.follow id :=
      @follow_congr catalog catalog.discharge rfl id
    rw [equivalentWithin, equivalentWithin, leads, leads,
      show catalog.discharge.equivalentWithin depth = catalog.equivalentWithin depth from
        funext fun left => funext fun right => ih left right]
    rfl

theorem RestatedName.discharge (restated : catalog.RestatedName name id staged) :
    catalog.discharge.RestatedName name id staged where
  canonical := restated.canonical
  distinct := restated.distinct
  names declaration member := (restated.names declaration member).of_arena rfl
  apart := restated.apart
  unforwarded := restated.unforwarded
  restated declaration member := by
    have same (left right : TypeId) :
        catalog.discharge.equivalent left right = catalog.equivalent left right :=
      equivalentWithin_discharge catalog _ left right
    obtain ⟨base, sites, value⟩ := restated.restated declaration member
    refine ⟨base, fun site inside => ?_, fun slot found => ?_⟩
    · obtain ⟨own, ownInside, restates⟩ := sites site inside
      exact ⟨own, ownInside, restates.name, (same _ _).trans restates.type, restates.doc,
        restates.qualifiers⟩
    · obtain ⟨own, ownFound, equivalent⟩ := value slot found
      exact ⟨own, ownFound, (same _ _).trans equivalent⟩

theorem Walk.discharge {all : List TypeId} (walk : catalog.Walk [] all) :
    catalog.discharge.Walk [] all where
  consistent := walk.consistent.discharge
  held := walk.held
  settled id seen := ⟨(walk.settled id seen).unforwarded, (walk.settled id seen).final⟩
  closed := walk.closed

/-- Nothing waits after a merge. -/
theorem MergedAll.pending {middle : Catalog} (merged : MergedAll before middle after) :
    after.pending = .empty :=
  merged.settling.pending.trans (merged.merged.merging.pending rfl)

/-- A merge leaves a walk that has seen every canonical definition. -/
theorem MergedAll.walk {middle : Catalog} (merged : MergedAll before middle after) :
    ∃ all, after.Walk [] all ∧ ∀ name id, after.canonical.get? name = some id → id ∈ all := by
  obtain ⟨ids, walked, covers⟩ := merged.settled
  obtain ⟨all, walk, within, promoted⟩ := walked.walk
  refine ⟨all, walk, fun name id found => ?_⟩
  rcases promoted name id found with earlier | seen
  · exact within id (.inl (covers name id earlier))
  · exact seen

theorem Settled.holds {id : TypeId} (settled : catalog.Settled id)
    (consistent : catalog.Consistent) : catalog.Holds id := by
  rcases settled.final with ⟨name, found⟩ | silent
  · exact (consistent.owned name id (known?_of_canonical found)).held
  · by_contra absent
    rw [← Bool.not_eq_true, mentionsName_iff, definition_of_not_holds absent] at silent
    exact silent (.inl rfl)

theorem Growth.provisional {base : Nat} (growth : Growth base before after)
    (start : base ≤ before.arena.size) {place : TypeId} (old : place.index < base)
    (found : after.provisional.get? name = some place) :
    before.provisional.get? name = some place := by
  induction growth with
  | refl => exact found
  | @tail middle last earlier step ih =>
    refine ih ?_
    cases step with
    | introduce =>
      rw [provide_provisional, OrderedMap.get?_set] at found
      split at found
      · have size := Growth.size_le earlier
        cases found
        exact absurd old (Nat.not_lt_of_le (Nat.le_trans start size))
      · exact found
    | _ => exact found

/-- What is settled stays settled when more is read. -/
theorem Walk.growth {all : List TypeId} (walk : before.Walk [] all)
    (growth : Growth before.arena.size before after) : after.Walk [] all := by
  have kept {id : TypeId} (seen : id ∈ all) : after.definition id = before.definition id :=
    growth.definition_eq (Nat.le_refl _) ((walk.settled id (.inr seen)).holds walk.consistent)
  refine ⟨growth.consistent walk.consistent, by simp, fun id seen => ?_,
    fun id seen child inside => ?_⟩
  · have inside := seen.resolve_left List.not_mem_nil
    obtain ⟨unforwarded, final⟩ := walk.settled id seen
    refine ⟨by rw [growth.untouched.forward, unforwarded], final.imp (fun found => ?_) fun silent => ?_⟩
    · rwa [growth.untouched.canonical]
    · have held := (walk.settled id seen).holds walk.consistent
      rw [← Bool.not_eq_true, mentionsName_iff] at silent ⊢
      rw [kept inside]
      exact fun mention => silent (mention.imp_right fun named => ⟨named.1,
        named.2.imp_right (growth.provisional (Nat.le_refl _) held)⟩)
  · rw [Catalog.shape, kept seen] at inside
    exact walk.closed id seen child inside

theorem RestatedBy.hasField {declaration : Declaration}
    (restated : catalog.RestatedBy id declaration)
    (has : (catalog.shape declaration.id).HasField field) : (catalog.shape id).HasField field := by
  obtain ⟨site, inside, same⟩ := has
  obtain ⟨own, ownInside, restates⟩ := restated.sites site inside
  exact ⟨own, ownInside, restates.name ▸ same⟩

end DocShapes.Catalog
