import DocShapes.Proofs.Resolving
import DocShapes.Proofs.Walking

/-! # Names that definitions lead to

After a merge a definition with a name is retired, or it is the one that its name is known by, or it
says nothing. In each case resolving it gives the definition that the name is known by, with the doc
that is kept for the site (`Leads.resolve_eq`).
-/

namespace DocShapes.Catalog

variable {catalog after : Catalog} {id source target : TypeId} {name other : String}
  {doc : Option String}

/-- Where the definition is used, the definition of the name takes its place; `doc` is what the site
gets with it. -/
inductive Leads (catalog : Catalog) (id : TypeId) (name : String) : Option String → Prop
  | retired {target : TypeId} {doc : Option String}
      (forward : catalog.forward.get? id = some ⟨target, doc⟩)
      (canonical : catalog.canonical.get? name = some target) : Leads catalog id name doc
  | standing (unforwarded : catalog.forward.get? id = none)
      (mention : catalog.known? name = some id ∨ (catalog.definition id).isShell = true) :
      Leads catalog id name none

theorem Consistent.name_eq_of_known (consistent : catalog.Consistent)
    (known : catalog.known? name = some id) (known' : catalog.known? other = some id) :
    name = other :=
  (consistent.owned name id known).same.symm.trans (consistent.owned other id known').same

theorem Consistent.leads_of_known (consistent : catalog.Consistent)
    (known : catalog.known? name = some id) : catalog.Leads id name none :=
  .standing (consistent.forward_of_known known) (.inl known)

theorem Leads.follow_names (leads : catalog.Leads id name doc) (consistent : catalog.Consistent)
    (names : catalog.Names id name) : catalog.Names (catalog.follow id) name := by
  cases leads with
  | retired forward canonical =>
    rw [consistent.follow_eq, forward]
    exact consistent.owned name _ (known?_of_canonical canonical)
  | standing unforwarded =>
    rw [follow_of_forward_eq_none unforwarded]
    exact names

/-! ## Giving way to the definition of a name -/

/-- A definition that gives way to the one that its name is known by, or is that one. -/
structure Defers (catalog : Catalog) (name : String) (source target : TypeId) : Prop where
  known : catalog.known? name = some target
  mention : source = target ∨ catalog.Names source name ∧
    (catalog.definition source).isShell = true ∧ catalog.forward.get? source = none

theorem lead_arena (catalog : Catalog) (name : String) (source target : TypeId) :
    (catalog.lead name source target).arena = catalog.arena := by
  rw [lead]
  split <;> rfl

theorem lead_aliases (catalog : Catalog) (name : String) (source target : TypeId) :
    (catalog.lead name source target).aliases = catalog.aliases := by
  rw [lead]
  split <;> rfl

theorem lead_canonical (catalog : Catalog) (name : String) (source target : TypeId) :
    (catalog.lead name source target).canonical = catalog.canonical.set name target := by
  rw [lead]
  split <;> rfl

theorem definition_lead (catalog : Catalog) (name : String) (source target id : TypeId) :
    (catalog.lead name source target).definition id = catalog.definition id := by
  rw [Catalog.definition, lead_arena]
  rfl

theorem Names.lead (names : catalog.Names id other) :
    (catalog.lead name source target).Names id other :=
  names.of_arena (lead_arena catalog name source target)

namespace Defers

theorem known?_lead (defers : catalog.Defers name source target) (other : String) :
    (catalog.lead name source target).known? other = catalog.known? other := by
  have same : (catalog.lead name source target).known? other =
      (catalog.establish name target).known? other := by
    rw [Catalog.lead]
    split <;> rfl
  rw [same, known?_establish]
  split
  · rename_i equal
    rw [← equal, defers.known]
  · rfl

/-- A lead takes no other definition off its way. -/
theorem leads_lead (defers : catalog.Defers name source target)
    (leads : catalog.Leads id other doc) (names : catalog.Names id other) :
    (catalog.lead name source target).Leads id other doc := by
  cases leads with
  | @retired found _ forward canonical =>
    have still : (catalog.lead name source target).forward.get? id = some ⟨found, doc⟩ := by
      rw [forward_lead]
      split
      · exact forward
      · rename_i different
        rw [OrderedMap.get?_set, if_neg, forward]
        rintro rfl
        rw [((defers.mention).resolve_left (Ne.symm different)).2.2] at forward
        cases forward
    refine .retired still ?_
    rw [lead_canonical, OrderedMap.get?_set]
    split
    · rename_i same
      subst same
      exact defers.known.symm.trans (known?_of_canonical canonical)
    · exact canonical
  | standing unforwarded mention =>
    by_cases own : source = id ∧ target ≠ source
    · obtain ⟨rfl, different⟩ := own
      have title := (defers.mention.resolve_left (Ne.symm different)).1
      have same : name = other := title.same.symm.trans names.same
      have canonical : (catalog.lead name source target).canonical.get? other = some target := by
        rw [lead_canonical, OrderedMap.get?_set, if_pos same]
      refine .retired ?_ canonical
      rw [forward_lead, if_neg different, OrderedMap.get?_set, if_pos rfl]
    · refine .standing ?_ ?_
      · rw [forward_lead]
        split
        · exact unforwarded
        · rename_i different
          rw [OrderedMap.get?_set, if_neg fun same => own ⟨same, different⟩]
          exact unforwarded
      · rw [defers.known?_lead, definition_lead]
        exact mention

end Defers

/-! ## Resolving -/

theorem Consistent.wanted_of_names (consistent : catalog.Consistent)
    (names : catalog.Names id name) : catalog.wanted id = name := by
  have known := consistent.named id names.held names.named
  rw [names.same] at known
  rw [wanted, names.same, resolveAlias,
    AliasTable.resolve_of_not_isSpelling (consistent.unspelled _ known)]

/-- Resolving a definition that leads to a name makes the definition of the name canonical. -/
theorem Leads.resolve_eq (leads : catalog.Leads id name doc) (consistent : catalog.Consistent)
    (names : catalog.Names id name) :
    ∃ source target, catalog.Defers name source target ∧
      resolve id catalog = .ok ⟨target, doc⟩ (catalog.lead name source target) := by
  have known := consistent.named id names.held names.named
  rw [names.same] at known
  have resolved := Catalog.resolve_eq consistent names.held
  rw [consistent.landing_eq] at resolved
  cases leads with
  | @retired target _ forward canonical =>
    have own := known?_of_canonical canonical
    have title := consistent.owned name target own
    have unchanged : catalog.lead name target target = catalog := by
      rw [lead, if_pos rfl, consistent.establish_of_canonical canonical]
    refine ⟨target, target, ⟨own, .inl rfl⟩, ?_⟩
    rw [resolved, forward]
    simp only [Option.getD_some, consistent.wanted_of_names title, own, unchanged]
    split <;> rfl
  | standing unforwarded mention =>
    obtain ⟨target, own⟩ := (catalog.isKnown_iff name).mp known
    rw [unforwarded] at resolved
    simp only [Option.getD_none, consistent.wanted_of_names names, own] at resolved
    rcases mention with same | shell
    · rw [same] at own
      cases own
      refine ⟨id, id, ⟨same, .inl rfl⟩, ?_⟩
      rw [resolved]
      split
      · rfl
      · -- What is no mention of a name that it has is canonical.
        rename_i quiet
        have canonical : catalog.canonical.get? name = some id := by
          refine (canonical_or_provisional_of_known? same).resolve_right fun provisional => ?_
          exact quiet ((mentionsName_iff _ _).mpr
            (.inr ⟨names.named, .inr (names.same.symm ▸ provisional)⟩))
        rw [lead, if_pos rfl, consistent.establish_of_canonical canonical]
    · refine ⟨id, target, ⟨own, .inr ⟨names, shell, unforwarded⟩⟩, ?_⟩
      rw [resolved, if_pos ((mentionsName_iff _ _).mpr (.inr ⟨names.named, .inl shell⟩))]

/-! ## Relinking -/

theorem isShell_relinked {landings : List Landing}
    (length : landings.length = (catalog.shape id).slots.length) (other : TypeId) :
    ((catalog.relinked id landings).definition other).isShell =
      (catalog.definition other).isShell := by
  rw [relinked, definition_put]
  split
  · rename_i same
    rw [same.1]
    exact congrArg (fun content => (catalog.definition id).doc.isNone && !content)
      (hasContent_relink length)
  · rfl

theorem Names.relinked (names : catalog.Names source name) (landings : List Landing) :
    (catalog.relinked id landings).Names source name :=
  names.put (isNamed_relink _ _) (name_relink _ _)

theorem Leads.relinked (leads : catalog.Leads source name doc) {landings : List Landing}
    (length : landings.length = (catalog.shape id).slots.length) :
    (catalog.relinked id landings).Leads source name doc := by
  cases leads with
  | retired forward canonical => exact .retired forward canonical
  | standing unforwarded mention =>
    refine .standing unforwarded ?_
    rw [isShell_relinked length]
    exact mention

end DocShapes.Catalog
