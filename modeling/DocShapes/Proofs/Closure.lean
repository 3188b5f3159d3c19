import DocShapes.Proofs.References

/-! # When a dump is closed

After a merge everything displayed is settled. So a reference of the dump dangles in two cases only:
a displayed definition has a part that is a definition of its own under a name that another,
provisional definition has, or its literals hold data that looks like a reference.
-/

namespace DocShapes.Catalog

variable {before middle after : Catalog}

/-- A definition with something to say, under a name that stands for another one and is still
provisional. -/
structure Stray (catalog : Catalog) (id : TypeId) : Prop where
  named : (catalog.definition id).isNamed = true
  content : (catalog.definition id).isShell = false
  displaced : ∃ other, other ≠ id ∧
    catalog.provisional.get? (catalog.definition id).name = some other

/-! ## Settled catalogs -/

/-- The walk that ends a merge has seen everything that is displayed. -/
theorem MergedAll.settled_child (merged : MergedAll before middle after) {owner : TypeId}
    (displayed : after.Displayed owner) :
    ∀ child ∈ (after.shape owner).children, after.Settled child := by
  obtain ⟨ids, walked, covers⟩ := merged.settled
  obtain ⟨all, walk, within, promoted⟩ := walked.walk
  have closed {id child : TypeId} (seen : id ∈ all)
      (member : child ∈ (after.shape id).children) : child ∈ all :=
    (walk.closed id seen child member).resolve_left List.not_mem_nil
  have seen : owner ∈ all := by
    induction displayed with
    | canonical found =>
      rcases promoted _ _ found with earlier | seen
      · exact within _ (.inl (covers _ _ earlier))
      · exact seen
    | part _ member _ ih =>
      have childSeen := closed ih member
      rwa [follow_of_forward_eq_none (walk.settled _ (.inr childSeen)).unforwarded]
  exact fun child member => walk.settled child (.inr (closed seen member))

/-- A settled definition has a canonical name, or it is a stray one. -/
theorem Settled.canonical_or_stray {catalog : Catalog} {id : TypeId} (settled : catalog.Settled id)
    (consistent : catalog.Consistent) (held : catalog.Holds id)
    (named : (catalog.definition id).isNamed = true) :
    (∃ other, catalog.canonical.get? (catalog.definition id).name = some other) ∨
      catalog.Stray id := by
  rcases settled.final with ⟨name, found⟩ | final
  · have own := (consistent.owned name id (known?_of_canonical found)).same
    exact .inl ⟨id, own.symm ▸ found⟩
  · obtain ⟨other, known⟩ := (catalog.isKnown_iff _).mp (consistent.named id held named)
    refine (canonical_or_provisional_of_known? known).imp (fun found => ⟨other, found⟩)
      fun found => ?_
    have silent : ¬catalog.mentionsName id = true := by simp [final]
    rw [mentionsName_iff] at silent
    refine ⟨named, Bool.eq_false_iff.mpr fun shell => silent (.inr ⟨named, .inl shell⟩), other, ?_,
      found⟩
    rintro rfl
    exact silent (.inr ⟨named, .inr found⟩)

theorem Stray.not_canonical {catalog : Catalog} {id : TypeId} (stray : catalog.Stray id)
    (consistent : catalog.Consistent) :
    ¬∃ other, catalog.canonical.get? (catalog.definition id).name = some other := by
  rintro ⟨other, found⟩
  obtain ⟨_, _, provisional⟩ := stray.displaced
  simp [consistent.disjoint _ other found] at provisional

/-! ## Closed dumps -/

/-- After a merge the dump is closed exactly if no displayed definition has a stray part and the
references in displayed data name canonical types. -/
theorem Reachable.closed_toJson_iff (reachable : before.Reachable)
    (merges : mergePending before = .ok () after) :
    after.toJson.Closed ↔
      (∀ owner, after.Displayed owner → ∀ child ∈ (after.shape owner).children,
        ¬after.Stray child) ∧
      ∀ owner, after.Displayed owner → ∀ name ∈ (after.shape owner).dataRefs,
        ∃ id, after.canonical.get? name = some id := by
  obtain ⟨middle, merged⟩ := (ends_mergePending reachable.consistent).of_ok merges
  have final : after.Reachable :=
    reachable.move ⟨.mergePending, trivial, by simp [leaves, Operation.perform, merges]⟩
  have consistent := final.consistent
  have closed : after.toJson.Closed ↔ ∀ owner, after.Displayed owner → ∀ name,
      after.Shows owner name → ∃ id, after.canonical.get? name = some id := by
    simp only [Json.Closed, mem_refs_toJson consistent final.nested,
      isSome_member?_toJson consistent]
    exact ⟨fun all owner displayed name shows => all name ⟨owner, displayed, shows⟩,
      fun all name shown => shown.elim fun owner both => all owner both.1 name both.2⟩
  have settled {owner child : TypeId} (displayed : after.Displayed owner)
      (member : child ∈ (after.shape owner).children) :
      after.Settled child ∧ after.follow child = child :=
    have settled := merged.settled_child displayed child member
    ⟨settled, follow_of_forward_eq_none settled.unforwarded⟩
  rw [closed]
  -- A displayed child is settled, so its own name is the one that is printed for it.
  constructor
  · refine fun all => ⟨fun owner displayed child member stray => ?_,
      fun owner displayed name data => all owner displayed name (.inl data)⟩
    refine stray.not_canonical consistent (all owner displayed _ (.inr ⟨child, member, ?_⟩))
    rw [(settled displayed member).2]
    exact ⟨stray.named, rfl⟩
  · rintro ⟨noStray, data⟩ owner displayed name (shown | ⟨child, member, named, rfl⟩)
    · exact data owner displayed name shown
    · obtain ⟨childSettled, same⟩ := settled displayed member
      rw [same] at named ⊢
      have held := (consistent.holds_child member).2
      exact (childSettled.canonical_or_stray consistent held named).resolve_right
        (noStray owner displayed child member)

/-- A declared type that one of its own fields uses. -/
def selfReference : List Operation :=
  [.parseEntries ⟨some .read, false⟩ "x : Foo\n    a : int\n    b : Foo"]

theorem no_stray_selfReference :
    (leaves mergePending (empty.run selfReference)).toJson.refs = ["Foo"] ∧
      ∀ owner, (leaves mergePending (empty.run selfReference)).Displayed owner →
        ∀ child ∈ ((leaves mergePending (empty.run selfReference)).shape owner).children,
          ¬(leaves mergePending (empty.run selfReference)).Stray child := by
  have reachable : (empty.run selfReference).Reachable :=
    @reachable_run .standard _ _ rfl ⟨trivial, trivial⟩
  have merges : succeeds mergePending (empty.run selfReference) = true := by decide +kernel
  obtain ⟨_, merged⟩ := eq_ok_of_succeeds merges
  have refs : (leaves mergePending (empty.run selfReference)).toJson.refs = ["Foo"] := by
    decide +kernel
  have key : ((leaves mergePending (empty.run selfReference)).toJson.member? "Foo").isSome =
      true := by
    decide +kernel
  have closed : (leaves mergePending (empty.run selfReference)).toJson.Closed := by
    intro name member
    rw [refs, List.mem_singleton] at member
    exact member ▸ key
  exact ⟨refs, ((reachable.closed_toJson_iff merged).mp closed).1⟩

/-- The text of a definition holds another definition of a name that has one, and a block declares
the outer name. -/
def nestedDefinition : List Operation :=
  [.loadExtension "Foo : record\n    a : int" none,
    .loadExtension "Bar : record\n    y : Foo\n        b : int" none,
    .parseEntries ⟨some .read, false⟩ "z : Bar"]

/-- The inner definition is neither merged nor forgotten: the dump refers to a name that it does not
have. -/
theorem not_closed_nestedDefinition :
    (empty.run nestedDefinition).Reachable ∧
      succeeds mergePending (empty.run nestedDefinition) = true ∧
      (leaves mergePending (empty.run nestedDefinition)).canonical.keys = ["Bar"] ∧
      (leaves mergePending (empty.run nestedDefinition)).toJson.refs = ["Foo"] ∧
      ¬(leaves mergePending (empty.run nestedDefinition)).toJson.Closed := by
  have refs : (leaves mergePending (empty.run nestedDefinition)).toJson.refs = ["Foo"] := by
    decide +kernel
  have noKey : ((leaves mergePending (empty.run nestedDefinition)).toJson.member? "Foo").isSome =
      false := by
    decide +kernel
  refine ⟨@reachable_run .standard _ _ rfl ⟨trivial, trivial, trivial, trivial⟩, by decide +kernel,
    by decide +kernel, refs, fun closed => ?_⟩
  have key := closed "Foo" (by rw [refs]; exact List.mem_singleton_self _)
  rw [noKey] at key
  cases key

end DocShapes.Catalog
