import DocShapes.Proofs.Delivering

/-! # What resolving does

Resolving an id is one of three things: nothing, a lead from a mention to the definition that its
name is known by, or a failure without a change (`resolve_eq`). An id leads where it has been
resolved to, and is found resolved there from then on (`resolve_again`).
-/

namespace DocShapes.Catalog

variable {catalog before middle after : Catalog}

/-! ## Single steps -/

/-- Nothing changes for a name that is canonical already. -/
theorem Consistent.establish_of_canonical (consistent : catalog.Consistent) {name : String}
    {id : TypeId} (found : catalog.canonical.get? name = some id) :
    catalog.establish name id = catalog := by
  rw [Catalog.establish, OrderedMap.erase_of_get?_eq_none (consistent.disjoint name id found),
    OrderedMap.set_of_get? found]

/-- The catalog in which a mention of a name leads to the definition that the name is known by. -/
def lead (catalog : Catalog) (name : String) (source target : TypeId) : Catalog :=
  if target = source then catalog.establish name target
  else (catalog.establish name target).withdraw source ⟨target, none⟩

/-- The name that is looked up for a definition. -/
def wanted (catalog : Catalog) (id : TypeId) : String :=
  catalog.resolveAlias (catalog.definition id).name

theorem promote_eq (consistent : catalog.Consistent) (word : String) :
    promote word catalog =
      match catalog.known? (catalog.resolveAlias word) with
      | some id => .ok (some id) (catalog.establish (catalog.resolveAlias word) id)
      | none => .ok none catalog := by
  rw [promote, get_bind, known?]
  cases canonical : catalog.canonical.get? (catalog.resolveAlias word) with
  | some id =>
    simp only [Option.some_or, consistent.establish_of_canonical canonical]
    rfl
  | none =>
    cases provisional : catalog.provisional.get? (catalog.resolveAlias word) with
    | some id => rfl
    | none => rfl

/-- A mention of a known name leads to its definition, which is canonical from then on, and nothing
else changes. A mention of an unknown name is an error. -/
theorem resolve_eq (consistent : catalog.Consistent) {id : TypeId} (held : catalog.Holds id) :
    resolve id catalog =
      if catalog.mentionsName (catalog.landing id).target then
        match catalog.known? (catalog.wanted (catalog.landing id).target) with
        | some target =>
            .ok { catalog.landing id with target }
              (catalog.lead (catalog.wanted (catalog.landing id).target)
                (catalog.landing id).target target)
        | none =>
            .error (.unresolved (catalog.definition (catalog.landing id).target).name) catalog
      else .ok (catalog.landing id) catalog := by
  have hereHeld : catalog.Holds (catalog.landing id).target := by
    rw [target_landing]
    exact consistent.holds_follow held
  rw [resolve, get_bind]
  dsimp only
  generalize catalog.landing id = here at hereHeld
  by_cases mention : catalog.mentionsName here.target = true
  · have promoted := promote_eq consistent (catalog.definition here.target).name
    rw [if_pos mention, if_pos mention]
    cases known : catalog.known? (catalog.wanted here.target) with
    | none =>
      -- The name of a named definition is known, so this one is an unknown name.
      have unknown : (catalog.definition here.target).base = .unknown := by
        refine ((mentionsName_iff _ _).mp mention).resolve_right fun named => ?_
        have own := consistent.named _ hereHeld named.1
        rw [wanted, resolveAlias, AliasTable.resolve_of_not_isSpelling
          (consistent.unspelled _ own)] at known
        simp [Catalog.isKnown, known] at own
      rw [show catalog.known? (catalog.resolveAlias _) = none from known] at promoted
      rw [bind_of_ok promoted]
      dsimp only
      rw [if_pos unknown]
      rfl
    | some target =>
      rw [show catalog.known? (catalog.resolveAlias _) = some target from known] at promoted
      rw [bind_of_ok promoted]
      dsimp only
      by_cases same : target = here.target
      · rw [lead, if_pos same, if_pos same, same]
        rfl
      · have ended : (catalog.lead (catalog.wanted here.target) here.target target).follow target =
            target := by
          refine follow_of_forward_eq_none ?_
          rw [lead, if_neg same, withdraw_forward, OrderedMap.get?_set, if_neg (Ne.symm same)]
          exact consistent.forward_of_known known
        rw [lead, if_neg same] at ended ⊢
        rw [if_neg same, forwardTo, if_neg (Ne.symm same)]
        exact congrArg (fun last => EStateM.Result.ok { here with target := last } _) ended
  · rw [if_neg mention, if_neg mention]
    rfl

/-! ## Resolving once more -/

theorem forward_lead (catalog : Catalog) (name : String) (source target : TypeId) :
    (catalog.lead name source target).forward =
      if target = source then catalog.forward else catalog.forward.set source ⟨target, none⟩ := by
  rw [lead]
  split
  · rfl
  · rfl

/-- An id leads where it has been resolved to. -/
theorem landing_of_resolved (consistent : before.Consistent) {id : TypeId}
    (held : before.Holds id) {landing : Landing} (done : resolve id before = .ok landing after) :
    after.landing id = landing := by
  have further := ((ends_resolve consistent held).of_ok done).settling.consistent consistent
  cases found : before.forward.get? id with
  | some retired =>
    -- A retired definition leads to a canonical one, and nothing is left to resolve there.
    obtain ⟨_, _, name, canonical⟩ := consistent.retired id retired found
    have here : before.landing id = retired := by rw [consistent.landing_eq, found]; rfl
    rw [consistent.resolve_eq_landing (here ▸ consistent.settled_of_canonical canonical)] at done
    cases done
    rfl
  | none =>
    have here : before.landing id = ⟨id, none⟩ := by rw [consistent.landing_eq, found]; rfl
    rw [resolve_eq consistent held, here] at done
    split at done
    · split at done
      · rename_i target known
        cases done
        rw [further.landing_eq, forward_lead]
        by_cases same : target = id
        · simp [same, found]
        · simp [same, OrderedMap.get?_set]
      · cases done
    · cases done
      exact here

/-- An id goes on leading where it has been resolved to. -/
theorem landing_later (consistent : before.Consistent) {id : TypeId} (held : before.Holds id)
    {landing : Landing} (done : resolve id before = .ok landing middle)
    (settling : Settling middle after) (keeps : KeepsDocs middle after) :
    after.landing id = landing := by
  have landed := (ends_resolve consistent held).of_ok done
  have now := landed.settling.consistent consistent
  have later := settling.consistent now
  have settled : after.Settled landing.target := settling.settled now landed.settled
  have there := landing_of_resolved consistent held done
  rw [now.landing_eq] at there
  rw [later.landing_eq]
  cases found : middle.forward.get? id with
  | none =>
    have stays : landing = ⟨id, none⟩ := by simpa [found] using there.symm
    subst stays
    rw [settled.unforwarded]
    rfl
  | some kept =>
    rw [keeps.forward id kept found]
    simpa [found] using there

/-- What has been resolved is found resolved. -/
theorem resolve_again (consistent : before.Consistent) {id : TypeId} (held : before.Holds id)
    {landing : Landing} (done : resolve id before = .ok landing middle)
    (settling : Settling middle after) (keeps : KeepsDocs middle after) :
    resolve id after = .ok landing after := by
  have landed := (ends_resolve consistent held).of_ok done
  have now := landed.settling.consistent consistent
  have settled : after.Settled landing.target := settling.settled now landed.settled
  have here := landing_later consistent held done settling keeps
  rw [(settling.consistent now).resolve_eq_landing (by rwa [here]), here]

end DocShapes.Catalog
