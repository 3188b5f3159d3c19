import DocShapes.Proofs.Delivering

/-! # Catalogs that are alike

Two catalogs are alike when they differ at most in the order in which their canonical names were
set. Resolving and settling cannot tell them apart: from catalogs that are alike they succeed with
the same result or fail with the same error, and leave catalogs that are alike
(`respects_resolve`, `respects_settle`).
-/

namespace DocShapes.Catalog

variable {α β : Type} {left right catalog : Catalog}

/-- The same catalog, but for the order in which its canonical names were set. Nothing shows this
order: names are sorted before they are listed or settled. -/
structure Alike (left right : Catalog) : Prop where
  arena : left.arena = right.arena
  canonical : ∀ name, left.canonical.get? name = right.canonical.get? name
  provisional : left.provisional = right.provisional
  aliases : left.aliases = right.aliases
  pending : left.pending = right.pending
  forward : left.forward = right.forward
  marker : left.marker = right.marker
  customTypes : left.customTypes = right.customTypes

theorem Alike.refl (catalog : Catalog) : catalog.Alike catalog :=
  ⟨rfl, fun _ => rfl, rfl, rfl, rfl, rfl, rfl, rfl⟩

theorem Alike.symm (alike : left.Alike right) : right.Alike left :=
  ⟨alike.arena.symm, fun name => (alike.canonical name).symm, alike.provisional.symm,
    alike.aliases.symm, alike.pending.symm, alike.forward.symm, alike.marker.symm,
    alike.customTypes.symm⟩

theorem Alike.trans {middle : Catalog} (first : left.Alike middle) (second : middle.Alike right) :
    left.Alike right :=
  ⟨first.arena.trans second.arena,
    fun name => (first.canonical name).trans (second.canonical name),
    first.provisional.trans second.provisional, first.aliases.trans second.aliases,
    first.pending.trans second.pending, first.forward.trans second.forward,
    first.marker.trans second.marker, first.customTypes.trans second.customTypes⟩

/-! ## What is read -/

theorem Alike.definition (alike : left.Alike right) (id : TypeId) :
    left.definition id = right.definition id := by
  rw [Catalog.definition, Catalog.definition, alike.arena]

theorem Alike.shape (alike : left.Alike right) (id : TypeId) : left.shape id = right.shape id :=
  congrArg Definition.shape (alike.definition id)

theorem Alike.slotCount (alike : left.Alike right) : left.slotCount = right.slotCount := by
  rw [Catalog.slotCount, Catalog.slotCount, alike.arena]

theorem Alike.resolveAlias (alike : left.Alike right) (name : String) :
    left.resolveAlias name = right.resolveAlias name := by
  rw [Catalog.resolveAlias, Catalog.resolveAlias, alike.aliases]

theorem Alike.mentionsName (alike : left.Alike right) (id : TypeId) :
    left.mentionsName id = right.mentionsName id := by
  rw [Catalog.mentionsName, Catalog.mentionsName, alike.definition, alike.provisional]

/-! ## What is changed -/

theorem Alike.establish (alike : left.Alike right) (name : String) (id : TypeId) :
    (left.establish name id).Alike (right.establish name id) :=
  { alike with
    canonical := fun other => by
      simp only [establish_canonical, OrderedMap.get?_set, alike.canonical]
    provisional := by simp only [establish_provisional, alike.provisional] }

theorem Alike.withdraw (alike : left.Alike right) (source : TypeId) (landing : Landing) :
    (left.withdraw source landing).Alike (right.withdraw source landing) :=
  { alike with forward := by simp only [withdraw_forward, alike.forward] }

theorem Alike.put (alike : left.Alike right) (id : TypeId) (definition : Definition) :
    (left.put id definition).Alike (right.put id definition) :=
  { alike with arena := by simp only [put_arena, alike.arena] }

/-! ## Outcomes -/

/-- The same result or the same error, in catalogs that are alike. -/
inductive Matched : EStateM.Result Error Catalog α → EStateM.Result Error Catalog α → Prop
  | ok (found : α) {left right : Catalog} (alike : left.Alike right) :
      Matched (.ok found left) (.ok found right)
  | error (error : Error) {left right : Catalog} (alike : left.Alike right) :
      Matched (.error error left) (.error error right)

theorem Matched.refl (outcome : EStateM.Result Error Catalog α) : Matched outcome outcome := by
  cases outcome with
  | ok found catalog => exact .ok found (.refl catalog)
  | error error catalog => exact .error error (.refl catalog)

theorem Matched.symm {first second : EStateM.Result Error Catalog α}
    (matched : Matched first second) : Matched second first := by
  cases matched with
  | ok found alike => exact .ok found alike.symm
  | error error alike => exact .error error alike.symm

theorem Matched.trans {first second third : EStateM.Result Error Catalog α}
    (matched : Matched first second) (further : Matched second third) : Matched first third := by
  cases matched with
  | ok found alike => cases further with | ok _ more => exact .ok found (alike.trans more)
  | error error alike => cases further with | error _ more => exact .error error (alike.trans more)

theorem Matched.exists_ok {first : EStateM.Result Error Catalog α} {found : α}
    (matched : Matched first (.ok found right)) :
    ∃ left, first = .ok found left ∧ left.Alike right := by
  cases matched with
  | ok _ alike => exact ⟨_, rfl, alike⟩

/-- A step cannot tell catalogs apart that are alike. -/
def Respects (step : CatalogM α) : Prop :=
  ∀ left right : Catalog, left.Alike right → Matched (step left) (step right)

/-- Steps that end alike, with a next step that cannot tell the difference. -/
theorem Matched.bind {first second : CatalogM α} {next further : α → CatalogM β}
    (matched : Matched (first left) (second right))
    (more : ∀ found after other, after.Alike other →
      Matched (next found after) (further found other)) :
    Matched ((first >>= next) left) ((second >>= further) right) := by
  simp only [Bind.bind, EStateM.bind]
  generalize first left = before at matched
  generalize second right = after at matched
  cases matched with
  | ok found alike => exact more _ _ _ alike
  | error error alike => exact .error error alike

theorem Matched.get {next further : Catalog → CatalogM α}
    (matched : Matched (next left left) (further right right)) :
    Matched ((MonadState.get >>= next) left) ((MonadState.get >>= further) right) := matched

/-- A step that is known to succeed gives way to the next one. -/
theorem Matched.next {step : CatalogM α} {next : α → CatalogM β} {found : α}
    (matched : Matched (step left) (.ok found right)) (respects : Respects (next found)) :
    Matched ((step >>= next) left) (next found right) := by
  obtain ⟨after, done, alike⟩ := matched.exists_ok
  rw [bind_of_ok done]
  exact respects after right alike

theorem Matched.attempt {first second : CatalogM α} (matched : Matched (first left) (second right)) :
    Matched (Catalog.attempt first left) (Catalog.attempt second right) := by
  simp only [Catalog.attempt]
  generalize first left = before at matched
  generalize second right = after at matched
  cases matched with
  | ok found alike => exact .ok _ alike
  | error error alike => exact .ok _ alike

theorem Respects.pure (found : α) : Respects (Pure.pure found : CatalogM α) :=
  fun _ _ alike => .ok found alike

theorem Respects.bind {step : CatalogM α} {next : α → CatalogM β} (first : Respects step)
    (more : ∀ found, Respects (next found)) : Respects (step >>= next) :=
  fun left right alike => (first left right alike).bind fun found after other same =>
    more found after other same

theorem Respects.mapM {step : α → CatalogM β} (each : ∀ item, Respects (step item))
    (items : List α) : Respects (items.mapM step) := by
  induction items with
  | nil => exact .pure []
  | cons item rest ih =>
    rw [List.mapM_cons]
    exact (each item).bind fun found => ih.bind fun others => .pure (found :: others)

/-! ## Resolving and settling -/

theorem respects_promote (word : String) : Respects (promote word) := by
  intro left right alike
  refine .get ?_
  rw [alike.resolveAlias, alike.canonical, alike.provisional]
  cases right.canonical.get? (right.resolveAlias word) with
  | some id => exact .ok (some id) alike
  | none =>
    cases right.provisional.get? (right.resolveAlias word) with
    | some id => exact .ok (some id) (alike.establish _ id)
    | none => exact .ok none alike

theorem respects_forwardTo (source target : TypeId) (siteDoc : Option String) :
    Respects (forwardTo source target siteDoc) := by
  intro left right alike
  rw [forwardTo]
  split
  · exact .ok _ alike
  · exact .ok _ (alike.withdraw source ⟨target, siteDoc⟩)

theorem respects_resolve (id : TypeId) : Respects (resolve id) := by
  intro left right alike
  refine .get ?_
  dsimp only
  rw [landing_congr alike.forward, alike.mentionsName, alike.definition]
  split
  · refine (respects_promote _ left right alike).bind fun target? after other same => ?_
    cases target? with
    | none =>
      dsimp only
      split
      · exact .error _ same
      · exact .ok _ same
    | some target =>
      dsimp only
      split
      · exact .ok _ same
      · refine (respects_forwardTo _ _ _ after other same).bind fun _ last final more => ?_
        refine .get ?_
        rw [follow_congr more.forward]
        exact .ok _ more
  · exact .ok _ alike

theorem respects_settleFrom (fuel : Nat) (stack seen : List TypeId) :
    Respects (settleFrom fuel stack seen) := by
  induction fuel generalizing stack seen with
  | zero => exact .pure ()
  | succ fuel ih =>
    cases stack with
    | nil => exact .pure ()
    | cons id stack =>
      intro left right alike
      rw [settleFrom]
      split
      · exact ih stack seen left right alike
      · refine .get ?_
        rw [alike.shape]
        refine (Respects.mapM respects_resolve _ left right alike).bind
          fun landings after other same => .get ?_
        rw [same.definition]
        exact ih _ _ _ _ (same.put id _)

theorem respects_settle (ids : List TypeId) : Respects (settle ids) := by
  intro left right alike
  refine .get ?_
  rw [alike.slotCount]
  exact respects_settleFrom _ ids [] left right alike

end DocShapes.Catalog
