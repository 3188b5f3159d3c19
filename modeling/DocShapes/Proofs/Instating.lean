import DocShapes.Proofs.Placing

/-! # Merging a name for the first time

The merge of a name that is not canonical yet puts the merged definition in the place of a known one
that no channel has staged, or behind all others. The staged declarations are retired in favour of
it, and no other definition changes (`ends_instate`).
-/

namespace DocShapes.Catalog

variable {before after : Catalog} {name : String} {staged : List Declaration}
  {id existing : TypeId} {definition : Definition} {siteDocs : OrderedMap TypeId String}

/-- A definition is the canonical one of a name, and the declarations of the name are retired in
favour of it. -/
structure Instated (before : Catalog) (name : String) (staged : List Declaration) (id : TypeId)
    (definition : Definition) (siteDocs : OrderedMap TypeId String) (after : Catalog) : Prop where
  canonical : after.canonical = before.canonical.set name id
  provisional : after.provisional = before.provisional.erase name
  aliases : after.aliases = before.aliases
  held : ∀ other, after.Holds other ↔ before.Holds other ∨ other = id
  definition : ∀ other, after.definition other =
    if other = id then definition else before.definition other
  apart : ∀ declaration ∈ staged, declaration.id ≠ id
  retired : ∀ declaration ∈ staged,
    after.forward.get? declaration.id = some ⟨id, siteDocs.get? declaration.id⟩
  beside : ∀ other, other ∉ staged.map Declaration.id →
    after.forward.get? other = before.forward.get? other

namespace Instated

theorem known?_eq (instated : before.Instated name staged id definition siteDocs after)
    (other : String) :
    after.known? other = if name = other then some id else before.known? other := by
  rw [← known?_establish, known?, known?, instated.canonical, instated.provisional]
  rfl

theorem names_of_ne (instated : before.Instated name staged id definition siteDocs after)
    {other : TypeId} (different : other ≠ id) (title : String) :
    after.Names other title ↔ before.Names other title := by
  have held := instated.held other
  have same := instated.definition other
  rw [if_neg different] at same
  constructor
  · rintro ⟨inside, named, titled⟩
    rw [same] at named titled
    exact ⟨(held.mp inside).resolve_right different, named, titled⟩
  · rintro ⟨inside, named, titled⟩
    rw [← same] at named titled
    exact ⟨held.mpr (.inl inside), named, titled⟩

end Instated

/-! ## Installing -/

/-- The definition that a merge gives a name. -/
def instatement (catalog : Catalog) (name : String) (base : Base) (target : Option TypeId)
    (merged : Option Merged) : Definition :=
  match target, merged with
  | some id, some merged => keepRemainder id merged
  | some id, none => catalog.definition id
  | none, some merged => merged.definition
  | none, none => shellOf base name

/-- A definition is in its place, and nothing else has changed. -/
structure Seated (before : Catalog) (id : TypeId) (definition : Definition) (after : Catalog) :
    Prop where
  canonical : after.canonical = before.canonical
  provisional : after.provisional = before.provisional
  aliases : after.aliases = before.aliases
  forward : after.forward = before.forward
  held : ∀ other, after.Holds other ↔ before.Holds other ∨ other = id
  definition : ∀ other, after.definition other =
    if other = id then definition else before.definition other

theorem seated_push (before : Catalog) (definition : Definition) :
    before.Seated before.next definition (before.push definition) :=
  ⟨rfl, rfl, rfl, rfl, holds_push before definition, definition_push before definition⟩

theorem seated_put (held : before.Holds id) (definition : Definition) :
    before.Seated id definition (before.put id definition) := by
  refine ⟨rfl, rfl, rfl, rfl, fun other => ?_, fun other => ?_⟩
  · rw [holds_put]
    exact ⟨.inl, fun known => known.elim (fun old => old) fun same => same ▸ held⟩
  · rw [definition_put]
    simp only [held, and_true]

theorem ends_installMerged_seated (base : Base) {target : Option TypeId} (merged : Option Merged)
    (held : ∀ id ∈ target, before.Holds id) :
    Ends (installMerged name base target merged) before
      (fun id after => id = target.getD before.next ∧
        before.Seated id (before.instatement name base target merged) after)
      fun _ => False := by
  cases target with
  | none =>
    cases merged with
    | none => exact ⟨rfl, seated_push before _⟩
    | some => exact ⟨rfl, seated_push before _⟩
  | some id =>
    cases merged with
    | none =>
      have seated := seated_put (held id rfl) (before.definition id)
      rw [put_definition] at seated
      exact ⟨rfl, seated⟩
    | some => exact ⟨rfl, seated_put (held id rfl) _⟩

/-! ## Retiring -/

theorem ends_retire_forward (target : TypeId) (sites : List Declaration)
    (siteDocs : OrderedMap TypeId String) :
    Ends (retire target sites siteDocs) before
      (fun _ after => after = { before with forward := after.forward }) fun _ => False := by
  induction sites generalizing before siteDocs with
  | nil => rfl
  | cons site rest ih =>
    rw [retire, forwardTo]
    by_cases same : site.id = target
    · rw [if_pos same]
      exact ih _
    · rw [if_neg same]
      exact ih _

theorem retire_self (id : TypeId) (channel : Channel) (sites : List Declaration)
    (siteDocs : OrderedMap TypeId String) :
    retire id (⟨id, channel⟩ :: sites) siteDocs = retire id sites (siteDocs.erase id) := by
  rw [retire, forwardTo, if_pos rfl]
  rfl

theorem Seated.ends_instated {middle : Catalog} (seated : before.Seated id definition middle)
    (once : (staged.map Declaration.id).Nodup)
    (others : ∀ declaration ∈ staged, declaration.id ≠ id) (siteDocs : OrderedMap TypeId String) :
    Ends (do
        eraseProvisional name
        setCanonical name id
        retire id staged siteDocs) middle
      (fun _ after => before.Instated name staged id definition siteDocs after) fun _ => False := by
  simp only [ends_bind, eraseProvisional, setCanonical, ends_modify]
  refine ((ends_retire_withdrawn staged siteDocs once others).and
    (ends_retire_forward id staged siteDocs)).mono (fun _ after retired => ?_)
      fun _ ended => ended.1
  obtain ⟨withdrawn, same⟩ := retired
  refine ⟨?_, ?_, ?_, fun other => ?_, fun other => ?_, others, withdrawn.places,
    fun other absent => ?_⟩
  · rw [withdrawn.canonical, ← seated.canonical]
  · rw [withdrawn.provisional, ← seated.provisional]
  · rw [same]
    exact seated.aliases
  · rw [← seated.held, Holds, withdrawn.arena]
    rfl
  · rw [← seated.definition, Catalog.definition, withdrawn.arena]
    rfl
  · rw [withdrawn.beside other absent]
    exact congrArg (OrderedMap.get? · other) seated.forward

/-- What is kept for the definition itself plays no part. -/
theorem Instated.of_erase
    (instated : before.Instated name staged id definition (siteDocs.erase id) after) :
    before.Instated name staged id definition siteDocs after :=
  { instated with
    retired := fun declaration member => by
      rw [instated.retired declaration member, OrderedMap.get?_erase,
        if_neg (Ne.symm (instated.apart declaration member))] }

theorem any_id_eq_false (fresh : existing ∉ staged.map Declaration.id) :
    (staged.any fun declaration => declaration.id = existing) = false := by
  rw [List.any_eq_false]
  intro declaration member same
  exact fresh (List.mem_map.mpr ⟨declaration, member, of_decide_eq_true same⟩)

theorem any_id_eq_true (member : existing ∈ staged.map Declaration.id) :
    (staged.any fun declaration => declaration.id = existing) = true := by
  obtain ⟨declaration, inside, same⟩ := List.mem_map.mp member
  exact List.any_eq_true.mpr ⟨declaration, inside, decide_eq_true same⟩

/-- The end of a merge, once it is known what the declarations come to. -/
theorem ends_instate (known : before.known? name = some existing)
    (free : before.canonical.get? name = none) (held : before.Holds existing)
    (names : ∀ declaration ∈ staged, before.Holds declaration.id)
    (once : (staged.map Declaration.id).Nodup) (base : Base) (merged : Option Merged)
    {target : Option TypeId}
    (place : target = mergeTarget (before.canonical.get? name) (before.known? name) staged) :
    Ends (do
        let id ← installMerged name base target merged
        eraseProvisional name
        setCanonical name id
        retire id (before.mergeSites (before.known? name) staged)
          (if target.isSome then siteDocs.erase id else siteDocs)) before
      (fun _ after => before.Instated name staged (target.getD before.next)
        (before.instatement name base target merged) siteDocs after)
      fun _ => False := by
  by_cases member : existing ∈ staged.map Declaration.id
  · have empty : target = none := by
      simp [place, mergeTarget, known, free, any_id_eq_true member]
    have sites : before.mergeSites (before.known? name) staged = staged := by
      simp [mergeSites, known, any_id_eq_true member]
    rw [empty, sites, ends_bind]
    refine (ends_installMerged_seated base merged (by simp)).mono (fun id middle seated => ?_)
      fun _ ended => ended
    obtain ⟨rfl, seated⟩ := seated
    exact seated.ends_instated once
      (fun declaration inside => ne_next_of_holds (names declaration inside)) siteDocs
  · have own : target = some existing := by
      simp [place, mergeTarget, known, free, any_id_eq_false member]
    have others (declaration : Declaration) (inside : declaration ∈ staged) :
        declaration.id ≠ existing := fun same =>
      member (List.mem_map.mpr ⟨declaration, inside, same⟩)
    rw [own, ends_bind]
    have seats := @ends_installMerged_seated before name base (some existing) merged
      (by simpa using held)
    by_cases shell : (before.definition existing).isShell = true
    · have sites : before.mergeSites (before.known? name) staged = staged := by
        simp [mergeSites, known, shell]
      rw [sites]
      refine seats.mono (fun id middle seated => ?_) fun _ ended => ended
      obtain ⟨rfl, seated⟩ := seated
      exact (seated.ends_instated once others _).mono (fun _ _ instated => instated.of_erase)
        fun _ ended => ended
    · -- The known definition is one of the sites; it is not retired in favour of itself.
      have sites : before.mergeSites (before.known? name) staged =
          ⟨existing, .unscoped⟩ :: staged := by
        simp [mergeSites, known, shell, any_id_eq_false member]
      rw [sites]
      refine seats.mono (fun id middle seated => ?_) fun _ ended => ended
      obtain ⟨rfl, seated⟩ := seated
      simp only [Option.getD_some, retire_self]
      exact (seated.ends_instated once others _).mono
        (fun _ _ instated => instated.of_erase.of_erase) fun _ ended => ended

end DocShapes.Catalog
