import DocShapes.Proofs.Parts
import DocShapes.Proofs.Runs

/-! # What dereferencing leaves

Dereferencing and merging end with a walk that has seen all that some definitions are made of, and
nothing that it has seen is left to resolve. So everything there is finished
(`Reachable.finished_throughout`), and a second walk finds nothing to change
(`Reachable.dereference_idempotent`).
-/

namespace DocShapes.Catalog

variable {catalog after : Catalog}

/-- A walk that is over has seen all parts of what it has seen. -/
theorem Walk.mem_of_reaches {all : List TypeId} (walk : catalog.Walk [] all)
    {whole part : TypeId} (seen : whole ∈ all) (reaches : catalog.Reaches whole part) :
    part ∈ all :=
  reaches.induction seen fun id member child inside =>
    (walk.closed id member child inside).resolve_left List.not_mem_nil

/-! ## Finished definitions -/

/-- The definition is a final one: no unknown name, neither retired nor provisional, and the
canonical one of its name if it says nothing itself. -/
structure Finished (catalog : Catalog) (id : TypeId) : Prop where
  identified : (catalog.definition id).base ≠ .unknown
  unforwarded : id ∉ catalog.forward.keys
  unprovisional : ∀ name, catalog.provisional.get? name ≠ some id
  shell : (catalog.definition id).isNamed = true → (catalog.definition id).isShell = true →
    catalog.canonical? (catalog.definition id).name = some id

theorem Settled.finished {id : TypeId} (settled : catalog.Settled id)
    (consistent : catalog.Consistent) : catalog.Finished id := by
  have own {name : String} (present : catalog.provisional.get? name = some id) :
      catalog.Names id name := consistent.owned name id (consistent.known?_of_provisional present)
  have canonical {name : String} (found : catalog.canonical.get? name = some id) :
      catalog.Names id name := consistent.owned name id (known?_of_canonical found)
  refine ⟨fun unknown => ?_, fun retired => ?_, fun name present => ?_, fun named shell => ?_⟩
  · rcases settled.final with ⟨name, found⟩ | final
    · have named := (Shape.isNamed_iff_base _).mp (canonical found).named
      change _ = _ ∨ _ = _ at named
      rw [show (catalog.definition id).shape.base = .unknown from unknown] at named
      rcases named with kind | kind <;> cases kind
    · exact absurd ((mentionsName_iff _ _).mpr (.inl unknown)) (by simp [final])
  · obtain ⟨landing, found⟩ := OrderedMap.mem_keys_iff.mp retired
    simp [settled.unforwarded] at found
  · rcases settled.final with ⟨other, found⟩ | final
    · have same : other = name := (canonical found).same.symm.trans (own present).same
      simp [← same, consistent.disjoint other id found] at present
    · have names := own present
      have mention : catalog.mentionsName id = true :=
        (mentionsName_iff _ _).mpr (.inr ⟨names.named, .inr (names.same.symm ▸ present)⟩)
      simp [final] at mention
  · rcases settled.final with ⟨name, found⟩ | final
    · rw [(canonical found).same]
      exact consistent.canonical?_eq found
    · exact absurd ((mentionsName_iff _ _).mpr (.inr ⟨named, .inl shell⟩)) (by simp [final])

/-! ## Settled catalogs stay as they are -/

theorem eq_ok_of_ends {α : Type} {step : CatalogM α} {found : α}
    (ends : Ends step catalog (fun result state => result = found ∧ state = after)
      fun _ => False) : step catalog = .ok found after := by
  unfold Ends at ends
  split at ends
  · rename_i same
    rw [same, ends.1, ends.2]
  · exact ends.elim

theorem ends_of_eq_ok {α : Type} {step : CatalogM α} {found : α}
    {done : α → Catalog → Prop} {failed : Catalog → Prop}
    (same : step catalog = .ok found after) (holds : done found after) :
    Ends step catalog done failed := by
  unfold Ends
  rw [same]
  exact holds

/-- An id that leads to where nothing is left to resolve stays as it is. -/
theorem Consistent.resolve_eq_landing (consistent : catalog.Consistent) {id : TypeId}
    (settled : catalog.Settled (catalog.landing id).target) :
    resolve id catalog = .ok (catalog.landing id) catalog := by
  refine eq_ok_of_ends ?_
  simp only [resolve, ends_bind, ends_get]
  generalize catalog.landing id = here at settled
  refine ends_ite (fun mention => ?_) fun _ => ⟨rfl, rfl⟩
  obtain ⟨name, found⟩ := settled.final.resolve_right (by simp [mention])
  -- A canonical mention is the definition that its own name is looked up to.
  have looked : catalog.canonical.get?
      (catalog.resolveAlias (catalog.definition here.target).name) = some here.target := by
    rw [(consistent.owned name _ (known?_of_canonical found)).same]
    exact consistent.canonical?_eq found
  rw [ends_bind]
  refine ends_promote _ (fun target same => ?_) (fun _ free => ?_) fun unknown => ?_
  · cases looked.symm.trans same
    exact ends_ite (fun _ => ⟨rfl, rfl⟩) fun different => absurd rfl different
  · simp [looked] at free
  · simp [Catalog.isKnown, known?_of_canonical looked] at unknown

/-- An id at which nothing is left to resolve leads to itself. -/
theorem Settled.resolve_eq {id : TypeId} (settled : catalog.Settled id)
    (consistent : catalog.Consistent) : resolve id catalog = .ok ⟨id, none⟩ catalog := by
  have here : catalog.landing id = ⟨id, none⟩ := by
    rw [consistent.landing_eq, settled.unforwarded]
    rfl
  rw [consistent.resolve_eq_landing (by rwa [here]), here]

theorem mapM_resolve_eq (consistent : catalog.Consistent) {ids : List TypeId}
    (settled : ∀ id ∈ ids, catalog.Settled id) :
    ids.mapM resolve catalog = .ok (ids.map fun id => ⟨id, none⟩) catalog := by
  refine eq_ok_of_ends ?_
  induction ids with
  | nil => exact ⟨rfl, rfl⟩
  | cons id rest ih =>
    obtain ⟨first, others⟩ := List.forall_mem_cons.mp settled
    simp only [List.mapM_cons, ends_bind]
    refine ends_of_eq_ok (first.resolve_eq consistent) ?_
    refine (ih others).imp ?_
    rintro _ _ ⟨rfl, rfl⟩
    exact ⟨rfl, rfl⟩

theorem land_self (slot : Slot) : slot.land ⟨slot.target, none⟩ = slot := by
  cases slot <;> rfl

theorem zipWith_land_self (slots : List Slot) :
    slots.zipWith Slot.land (slots.map fun slot => ⟨slot.target, none⟩) = slots := by
  rw [List.zipWith_map_right]
  simp [List.zipWith_self, land_self]

theorem zipWith_site_land_self (fields : List Site) :
    fields.zipWith Site.land (fields.map fun field => ⟨field.target, none⟩) = fields := by
  rw [List.zipWith_map_right]
  simp [List.zipWith_self, Site.land]

/-- Slots that lead to their own targets make the same shape. -/
theorem relink_self (shape : Shape) :
    shape.relink (shape.children.map fun id => ⟨id, none⟩) = shape := by
  rw [Shape.children, List.map_map]
  cases shape with
  | choice connective alternatives =>
    exact congrArg (Shape.choice connective) (zipWith_land_self alternatives)
  | anonymous fields =>
    simp only [Shape.relink, Shape.slots, List.map_map]
    exact congrArg Shape.anonymous (zipWith_site_land_self fields)
  | record name fields =>
    simp only [Shape.relink, Shape.slots, List.map_map]
    exact congrArg (Shape.record name) (zipWith_site_land_self fields)
  | list item => cases item <;> simp [Shape.relink, Shape.relink.landSingle, Shape.slots, land_self]
  | reference item =>
    cases item <;> simp [Shape.relink, Shape.relink.landSingle, Shape.slots, land_self]
  | extension _ item =>
    cases item <;> simp [Shape.relink, Shape.relink.landSingle, Shape.slots, land_self]
  | _ => rfl

theorem put_definition (catalog : Catalog) (id : TypeId) :
    catalog.put id (catalog.definition id) = catalog := by
  have same : catalog.arena.setIfInBounds id.index (catalog.definition id) = catalog.arena := by
    refine Array.ext_getElem? fun index => ?_
    rw [Array.getElem?_setIfInBounds]
    split
    · rename_i equal
      subst equal
      split
      · rename_i bound
        simp [Catalog.definition, Array.getD_eq_getD_getElem?, bound]
      · rename_i outside
        simp at outside
        simp [outside]
    · rfl
  rw [put, same]

/-- A walk through definitions that are settled throughout changes nothing. -/
theorem Walk.settleFrom_eq {all : List TypeId} (walk : catalog.Walk [] all) (fuel : Nat)
    (stack seen : List TypeId) (inside : stack ⊆ all) :
    settleFrom fuel stack seen catalog = .ok () catalog := by
  refine eq_ok_of_ends ?_
  induction fuel generalizing stack seen with
  | zero => exact ⟨rfl, rfl⟩
  | succ fuel ih =>
    cases stack with
    | nil => exact ⟨rfl, rfl⟩
    | cons id stack =>
      obtain ⟨idSeen, stackSeen⟩ := List.cons_subset.mp inside
      have closed : (catalog.shape id).children ⊆ all := fun child member =>
        (walk.closed id idSeen child member).resolve_left List.not_mem_nil
      rw [settleFrom]
      refine ends_ite (fun _ => ih stack seen stackSeen) fun _ => ?_
      simp only [ends_bind, ends_get]
      refine ends_of_eq_ok (mapM_resolve_eq walk.consistent fun child member =>
        walk.settled child (.inr (closed member))) ?_
      have same : ({ catalog.definition id with
          shape := (catalog.definition id).shape.relink
            ((catalog.shape id).children.map fun id => ⟨id, none⟩) } : Definition) =
          catalog.definition id := by
        rw [show (catalog.definition id).shape.relink _ = _ from relink_self (catalog.shape id)]
        rfl
      rw [ends_setDefinition, same, put_definition]
      refine (ih _ _ (List.append_subset.mpr ⟨?_, stackSeen⟩)).imp
        fun _ _ same => ⟨trivial, same.2⟩
      rw [List.map_map]
      simpa [Function.comp_def] using closed

/-! ## Slots outside the catalog -/

theorem target_landOutside (slot : Slot) (landing : Landing) :
    (landOutside slot landing).target = landing.target := by
  unfold landOutside
  split
  · rfl
  · exact target_land _ landing

theorem landOutside_self (slot : Slot) : landOutside slot ⟨slot.target, none⟩ = slot := by
  cases slot <;> rfl

/-- A slot that has been dereferenced has been walked through. -/
theorem walked_of_dereference (consistent : catalog.Consistent) {slot landed : Slot}
    (held : catalog.Holds slot.target)
    (done : dereference slot catalog = .ok (landed, none) after) :
    ∃ all, after.Walk [] all ∧ landed.target ∈ all := by
  suffices ends : Ends (dereference slot) catalog
      (fun found after => found.2 = none → ∃ all, after.Walk [] all ∧ found.1.target ∈ all)
      fun _ => False from ends.of_ok done rfl
  apply ends_dereference_of consistent slot held
  · intro error none
    cases none
  · intro landing middle _ landed further targetHeld
    apply (ends_settle further [landing.target] (by simpa using targetHeld)
      (by simpa using landed.settled)).mono
    · intro _ after walked _
      obtain ⟨all, walk, within, _⟩ := walked.walk
      refine ⟨all, walk, ?_⟩
      rw [target_landOutside]
      exact within _ (.inl List.mem_cons_self)
    · intro after _ error none
      cases none

/-! ## Dereferencing in turn -/

/-- Dereferences slots one after the other, until one fails. -/
def dereferenceAll : List Slot → CatalogM (List Slot)
  | [] => return []
  | slot :: slots => do
    match ← dereference slot with
    | (_, some error) => throw error
    | (landed, none) => return landed :: (← dereferenceAll slots)

theorem eq_ok_of_dereferenceAll_cons {before : Catalog} {slot : Slot} {slots landed : List Slot}
    (done : dereferenceAll (slot :: slots) before = .ok landed after) :
    ∃ found middle others, dereference slot before = .ok (found, none) middle ∧
      dereferenceAll slots middle = .ok others after ∧ landed = found :: others := by
  simp only [dereferenceAll, bind, EStateM.bind] at done
  cases first : dereference slot before with
  | error => simp [first] at done
  | ok result middle =>
    obtain ⟨found, error?⟩ := result
    simp only [first] at done
    cases error? with
    | some => cases done
    | none =>
      cases rest : dereferenceAll slots middle with
      | error => simp [EStateM.bind, rest] at done
      | ok others last =>
        simp only [EStateM.bind, rest] at done
        cases done
        exact ⟨found, middle, others, rfl, rest, rfl⟩

/-! ## Reachable catalogs -/

/-- A slot that has been dereferenced stays as it is when it is dereferenced again, and so does the
whole catalog. -/
theorem Reachable.dereference_idempotent (reachable : catalog.Reachable) {slot landed : Slot}
    (held : catalog.Holds slot.target)
    (done : dereference slot catalog = .ok (landed, none) after) :
    dereference landed after = .ok (landed, none) after := by
  obtain ⟨all, walk, seen⟩ := walked_of_dereference reachable.consistent held done
  have resolves := (walk.settled _ (.inr seen)).resolve_eq walk.consistent
  have settles : settle [landed.target] after = .ok () after := by
    refine eq_ok_of_ends ?_
    simp only [settle, ends_bind, ends_get]
    exact ends_of_eq_ok (walk.settleFrom_eq _ _ _ (by simpa using seen)) ⟨trivial, rfl⟩
  have resolved : attempt (resolve landed.target) after =
      .ok (.ok ⟨landed.target, none⟩) after := by
    rw [attempt, resolves]
  have settled : attempt (settle [landed.target]) after = .ok (.ok ()) after := by
    rw [attempt, settles]
  refine eq_ok_of_ends ?_
  rw [dereference, ends_bind]
  refine ends_of_eq_ok resolved ?_
  dsimp only
  rw [landOutside_self, ends_bind]
  exact ends_of_eq_ok settled ⟨rfl, rfl⟩

/-- Two channels declare one name, with docs that end in the same line. -/
def sharedTail : List Operation :=
  [.parseEntries ⟨some .read, false⟩ "x : Foo\n    A.\n    C.\n\n    a : list(Bar)",
    .parseEntries ⟨some .write, false⟩ "y : Foo\n    B.\n    C.\n\n    b : int",
    .mergePending]

/-- The site of the first declaration. -/
def sharedSite : Slot := .sited (.named "x" ⟨0⟩)

theorem reachable_sharedTail : (empty.run sharedTail).Reachable :=
  @reachable_run .standard _ _ rfl ⟨trivial, trivial, trivial, trivial⟩

/-- The line that the merge leaves to the first declaration comes to its site once. -/
theorem dereference_idempotent_sharedTail :
    ∃ landed after, dereference sharedSite (empty.run sharedTail) = .ok (landed, none) after ∧
      landed.toSite.doc = some "A." ∧ dereference landed after = .ok (landed, none) after := by
  have passes : succeedsWith
      (fun found => found.2.isNone && found.1.toSite.doc == some "A.")
      (dereference sharedSite) (empty.run sharedTail) = true := by decide +kernel
  have held : (empty.run sharedTail).Holds sharedSite.target := by decide +kernel
  obtain ⟨⟨landed, error?⟩, done, test⟩ := eq_ok_of_succeedsWith passes
  obtain ⟨rfl, doc⟩ : error? = none ∧ landed.toSite.doc = some "A." := by simpa using test
  exact ⟨landed, _, done, doc, reachable_sharedTail.dereference_idempotent held done⟩

/-- Whatever a dereferenced slot is made of is finished, and so is whatever the canonical
definitions are made of after a merge. -/
theorem Reachable.finished_throughout (reachable : catalog.Reachable) :
    (∀ slot landed after, catalog.Holds slot.target →
      dereference slot catalog = .ok (landed, none) after →
        ∀ part, after.Reaches landed.target part → after.Finished part) ∧
      ∀ after, mergePending catalog = .ok () after →
        ∀ name id, after.canonical.get? name = some id →
          ∀ part, after.Reaches id part → after.Finished part := by
  have finished {after : Catalog} {all : List TypeId} (walk : after.Walk [] all) {id part : TypeId}
      (seen : id ∈ all) (reaches : after.Reaches id part) : after.Finished part :=
    (walk.settled part (.inr (walk.mem_of_reaches seen reaches))).finished walk.consistent
  refine ⟨fun slot landed after held done part reaches => ?_,
    fun after merges name id found part reaches => ?_⟩
  · obtain ⟨all, walk, seen⟩ := walked_of_dereference reachable.consistent held done
    exact finished walk seen reaches
  · obtain ⟨middle, merged⟩ := (ends_mergePending reachable.consistent).of_ok merges
    obtain ⟨ids, walked, covers⟩ := merged.settled
    obtain ⟨all, walk, within, promoted⟩ := walked.walk
    -- A definition that the walk itself has made canonical is one that it has seen.
    have seen : id ∈ all := by
      rcases promoted name id found with earlier | seen
      · exact within id (.inl (covers name id earlier))
      · exact seen
    exact finished walk seen reaches

/-- The first declaration leads to a definition with a list in it, whose item leads on to one that
the merge has made. -/
theorem finished_throughout_sharedTail :
    ∃ landed after, dereference sharedSite (empty.run sharedTail) = .ok (landed, none) after ∧
      landed.target = ⟨5⟩ ∧ ∀ part, after.Reaches landed.target part → after.Finished part := by
  have passes : succeedsWith (fun found => found.2.isNone && found.1.target == ⟨5⟩)
      (dereference sharedSite) (empty.run sharedTail) = true := by decide +kernel
  have held : (empty.run sharedTail).Holds sharedSite.target := by decide +kernel
  obtain ⟨⟨landed, error?⟩, done, test⟩ := eq_ok_of_succeedsWith passes
  obtain ⟨rfl, target⟩ : error? = none ∧ landed.target = ⟨5⟩ := by simpa using test
  exact ⟨landed, _, done, target, reachable_sharedTail.finished_throughout.1 _ _ _ held done⟩

end DocShapes.Catalog
