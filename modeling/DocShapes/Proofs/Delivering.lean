import DocShapes.Proofs.Dereferencing

/-! # Settling delivers docs

A retired definition keeps a doc for its site. Settling puts it there: when a definition is settled
first, each of its slots takes the doc that is kept for it, and settling it again changes nothing.
What is kept for a definition stays kept.
-/

namespace DocShapes.Catalog

variable {catalog before middle after : Catalog}

/-! ## Kept docs -/

/-- The doc that a retired definition keeps for its site. -/
def keptDoc (catalog : Catalog) (id : TypeId) : Option String :=
  (catalog.forward.get? id).bind Landing.siteDoc

/-- Retired definitions lead where they did, and only definitions without a doc to keep are retired
further. -/
structure KeepsDocs (before after : Catalog) : Prop where
  forward : ∀ id landing, before.forward.get? id = some landing →
    after.forward.get? id = some landing
  silent : ∀ id, before.forward.get? id = none → after.keptDoc id = none

theorem KeepsDocs.of_forward (same : after.forward = before.forward) : KeepsDocs before after :=
  ⟨fun _ _ found => same ▸ found, fun id none => by rw [keptDoc, same, none]; rfl⟩

theorem KeepsDocs.keptDoc (keeps : KeepsDocs before after) (id : TypeId) :
    after.keptDoc id = before.keptDoc id := by
  cases found : before.forward.get? id with
  | none => rw [keeps.silent id found, Catalog.keptDoc, found]; rfl
  | some landing => rw [Catalog.keptDoc, Catalog.keptDoc, found, keeps.forward id landing found]

theorem KeepsDocs.trans (first : KeepsDocs before middle) (second : KeepsDocs middle after) :
    KeepsDocs before after where
  forward id landing found := second.forward id landing (first.forward id landing found)
  silent id none := (second.keptDoc id).trans (first.silent id none)

theorem keepsDocs_withdraw {source target : TypeId} (unforwarded : catalog.forward.get? source = none) :
    KeepsDocs catalog (catalog.withdraw source ⟨target, none⟩) where
  forward id landing found := by
    have different : source ≠ id := by
      rintro rfl
      simp [unforwarded] at found
    simpa [OrderedMap.get?_set, different] using found
  silent id none := by
    rw [keptDoc, withdraw_forward, OrderedMap.get?_set]
    split
    · rfl
    · rw [none]
      rfl

theorem Consistent.siteDoc_landing (consistent : catalog.Consistent) (id : TypeId) :
    (catalog.landing id).siteDoc = catalog.keptDoc id := by
  rw [consistent.landing_eq, keptDoc]
  cases catalog.forward.get? id <;> rfl

/-- Resolving an id gives the doc that is kept for it. -/
theorem ends_resolve_keepsDocs (consistent : catalog.Consistent) (id : TypeId) :
    Ends (resolve id) catalog
      (fun landing after => KeepsDocs catalog after ∧ landing.siteDoc = catalog.keptDoc id)
      (· = catalog) := by
  have siteDoc := consistent.siteDoc_landing id
  have unforwarded : catalog.forward.get? (catalog.landing id).target = none := by
    rw [target_landing]
    exact consistent.forward_follow id
  -- Where the id leads, a mention of a canonical name is retired in favour of its definition.
  have lead (target : TypeId) {state : Catalog} (same : state.forward = catalog.forward) :
      Ends (do
          if target = (catalog.landing id).target then return catalog.landing id
          forwardTo (catalog.landing id).target target none
          return { catalog.landing id with target := (← get).follow target }) state
        (fun landing after => KeepsDocs catalog after ∧ landing.siteDoc = catalog.keptDoc id)
        (· = catalog) := by
    refine ends_ite (fun _ => ⟨.of_forward same, siteDoc⟩) fun different => ?_
    simp only [forwardTo, ends_bind, ends_pure, if_neg (Ne.symm different), ends_modify, ends_get]
    exact ⟨(KeepsDocs.of_forward same).trans (keepsDocs_withdraw (same ▸ unforwarded)), siteDoc⟩
  have here : KeepsDocs catalog catalog := .of_forward rfl
  simp only [resolve, ends_bind, ends_get]
  refine ends_ite (fun _ => ?_) fun _ => ⟨here, siteDoc⟩
  rw [ends_bind]
  refine ends_promote _ (fun target _ => lead target rfl) (fun target _ _ => lead target rfl)
    fun _ => ?_
  exact ends_ite (fun _ => rfl) fun _ => ⟨here, siteDoc⟩

/-! ## Delivered docs -/

/-- Where a slot of a definition leads once the definition is settled: with the doc that is kept
for its target, and to the target itself if nothing was left to resolve there. -/
structure Delivered (catalog : Catalog) (child : TypeId) (landing : Landing) : Prop where
  siteDoc : landing.siteDoc = catalog.keptDoc child
  target : catalog.Settled child → landing.target = child

theorem Settled.keptDoc {id : TypeId} (settled : catalog.Settled id) :
    catalog.keptDoc id = none := by
  rw [Catalog.keptDoc, settled.unforwarded]
  rfl

theorem Delivered.eq_of_settled {child : TypeId} {landing : Landing}
    (delivered : catalog.Delivered child landing) (settled : catalog.Settled child) :
    landing = ⟨child, none⟩ := by
  obtain ⟨target, siteDoc⟩ := landing
  rw [show target = child from delivered.target settled,
    show siteDoc = none from delivered.siteDoc.trans settled.keptDoc]

/-- A definition whose slots are settled stays as it is. -/
theorem relink_of_settled {shape : Shape} {landings : List Landing}
    (delivered : List.Forall₂ catalog.Delivered shape.children landings)
    (settled : ∀ child ∈ shape.children, catalog.Settled child) :
    shape.relink landings = shape := by
  suffices selves : landings = shape.children.map fun child => ⟨child, none⟩ by
    rw [selves, relink_self]
  generalize shape.children = children at delivered settled
  induction delivered with
  | nil => rfl
  | cons first _ ih =>
    obtain ⟨own, others⟩ := List.forall_mem_cons.mp settled
    rw [first.eq_of_settled own, ih others, List.map_cons]

theorem ends_resolve_delivered (consistent : catalog.Consistent) (id : TypeId) :
    Ends (resolve id) catalog
      (fun landing after => KeepsDocs catalog after ∧ catalog.Delivered id landing)
      (· = catalog) := by
  by_cases settled : catalog.Settled id
  · exact ends_of_eq_ok (settled.resolve_eq consistent)
      ⟨.of_forward rfl, settled.keptDoc.symm, fun _ => rfl⟩
  · exact (ends_resolve_keepsDocs consistent id).imp fun _ _ found =>
      ⟨found.1, found.2, fun yes => absurd yes settled⟩

theorem ends_mapM_resolve_delivered (consistent : catalog.Consistent) (ids : List TypeId)
    (held : ∀ id ∈ ids, catalog.Holds id) :
    Ends (ids.mapM resolve) catalog
      (fun landings after => KeepsDocs catalog after ∧ List.Forall₂ catalog.Delivered ids landings)
      fun after => KeepsDocs catalog after ∧ after.arena = catalog.arena := by
  induction ids generalizing catalog with
  | nil => exact ⟨.of_forward rfl, .nil⟩
  | cons id rest ih =>
    obtain ⟨idHeld, restHeld⟩ := List.forall_mem_cons.mp held
    simp only [List.mapM_cons, ends_bind]
    refine ((ends_resolve consistent idHeld).and (ends_resolve_delivered consistent id)).mono
      (fun landing middle found => ?_) fun after same => same.1 ▸ ⟨.of_forward rfl, rfl⟩
    obtain ⟨landed, keeps, first⟩ := found
    refine (ih (landed.settling.consistent consistent) fun other member =>
      (landed.settling.holds_iff other).mpr (restHeld other member)).mono
        (fun landings after others => ⟨keeps.trans others.1, .cons first (others.2.imp ?_)⟩)
        fun after failed => ⟨keeps.trans failed.1, failed.2.trans landed.arena⟩
    exact fun child landing delivered => ⟨delivered.siteDoc.trans (keeps.keptDoc child),
      fun settled => delivered.target (landed.settling.settled consistent settled)⟩

/-! ## Walks that deliver -/

/-- Every definition is as it was, or settled with the docs that were kept for its slots. -/
structure Delivers (before after : Catalog) : Prop where
  settling : Settling before after
  keeps : KeepsDocs before after
  shapes : ∀ id, after.shape id = before.shape id ∨
    ∃ landings, List.Forall₂ before.Delivered (before.shape id).children landings ∧
      after.shape id = (before.shape id).relink landings ∧
      ∀ child ∈ (after.shape id).children, after.Settled child

theorem Delivers.refl : Delivers catalog catalog :=
  ⟨.refl, .of_forward rfl, fun _ => .inl rfl⟩

theorem Delivers.consistent (delivers : Delivers before after) (consistent : before.Consistent) :
    after.Consistent := delivers.settling.consistent consistent

theorem Delivers.delivered (delivers : Delivers before after) (consistent : before.Consistent)
    {child : TypeId} {landing : Landing} (delivered : after.Delivered child landing) :
    before.Delivered child landing where
  siteDoc := delivered.siteDoc.trans (delivers.keeps.keptDoc child)
  target settled := delivered.target (delivers.settling.settled consistent settled)

/-- Resolving changes no definition. -/
theorem Delivers.resolved (delivers : Delivers before middle) (consistent : before.Consistent)
    (settling : Settling middle after) (keeps : KeepsDocs middle after)
    (arena : after.arena = middle.arena) : Delivers before after where
  settling := delivers.settling.trans settling
  keeps := delivers.keeps.trans keeps
  shapes id := by
    have same : after.shape id = middle.shape id := by
      rw [Catalog.shape, Catalog.definition, arena]
      rfl
    rw [same]
    refine (delivers.shapes id).imp_right (Exists.imp fun landings delivered =>
      ⟨delivered.1, delivered.2.1, fun child inside => ?_⟩)
    exact settling.settled (delivers.consistent consistent) (delivered.2.2 child inside)

/-- A definition that is visited takes the docs that are kept for its slots, unless it has taken
them before. -/
theorem Delivers.visit {id : TypeId} {landings : List Landing} (delivers : Delivers before middle)
    (consistent : before.Consistent) (held : middle.Holds id)
    (landed : AllLanded middle (middle.shape id).children landings after)
    (keeps : KeepsDocs middle after)
    (delivered : List.Forall₂ middle.Delivered (middle.shape id).children landings) :
    Delivers before (after.relinked id landings) := by
  have further := delivers.resolved consistent landed.settling keeps landed.arena
  have step := landed.relink held
  have now := further.consistent consistent
  refine ⟨further.settling.tail step, further.keeps.trans (.of_forward rfl), fun other => ?_⟩
  have old : after.shape other = middle.shape other := by
    rw [Catalog.shape, Catalog.definition, landed.arena]
    rfl
  rw [landed.shape_relinked held]
  split
  · rename_i same
    subst same
    rcases delivers.shapes other with first | ⟨earlier, took, relinked, settled⟩
    · refine .inr ⟨landings, ?_, by rw [first], fun child inside => ?_⟩
      · rw [← first]
        exact delivered.imp fun _ _ => delivers.delivered consistent
      · rw [children_relink (length_of_leads landed.leads)] at inside
        obtain ⟨landing, member, rfl⟩ := List.mem_map.mp inside
        exact step.settled now (landed.settled landing member)
    · -- Nothing was left to resolve in its slots.
      rw [relink_of_settled delivered settled]
      exact .inr ⟨earlier, took, relinked, fun child inside =>
        step.settled now (landed.settling.settled (delivers.consistent consistent)
          (settled child inside))⟩
  · rw [← old]
    refine (further.shapes other).imp_right (Exists.imp fun landings delivered =>
      ⟨delivered.1, delivered.2.1, fun child inside => ?_⟩)
    exact step.settled now (delivered.2.2 child inside)

theorem ends_settleFrom_delivers (consistent : before.Consistent) (fuel : Nat)
    (stack seen : List TypeId) (delivers : Delivers before catalog)
    (held : ∀ id ∈ stack, catalog.Holds id) :
    Ends (settleFrom fuel stack seen) catalog (fun _ after => Delivers before after)
      (Delivers before) := by
  refine ends_settleFrom_of (fun middle id now idHeld sofar => ?_) fuel stack seen
    (delivers.consistent consistent) held delivers
  apply ((ends_mapM_resolve now _ (now.linked id idHeld)).and
    (ends_mapM_resolve_delivered now _ (now.linked id idHeld))).mono
  · intro landings after found
    exact sofar.visit consistent idHeld found.1 found.2.1 found.2.2
  · intro after failed
    exact sofar.resolved consistent failed.1 failed.2.1 failed.2.2

theorem ends_settle_delivers (consistent : before.Consistent) (delivers : Delivers before catalog)
    (ids : List TypeId) (held : ∀ id ∈ ids, catalog.Holds id) :
    Ends (settle ids) catalog (fun _ after => Delivers before after) (Delivers before) := by
  simp only [settle, ends_bind, ends_get]
  exact ends_settleFrom_delivers consistent _ ids [] delivers held

theorem ends_settleCanonical_delivers (consistent : before.Consistent) :
    Ends settleCanonical before (fun _ after => Delivers before after) (Delivers before) := by
  simp only [settleCanonical, ends_bind, ends_get]
  refine ends_settle_delivers consistent .refl _ fun id member => ?_
  obtain ⟨⟨name, _⟩, entry, rfl⟩ := List.mem_map.mp member
  rw [(perm_sortBy _ _).mem_iff] at entry
  have found := OrderedMap.get?_of_mem_entries consistent.distinct entry
  exact (consistent.owned name _ (known?_of_canonical found)).held

/-- Dereferencing delivers, and the slot takes the doc that is kept for its target. -/
theorem ends_dereference_delivers (consistent : before.Consistent)
    (delivers : Delivers before catalog) (slot : Slot) (held : catalog.Holds slot.target) :
    Ends (dereference slot) catalog
      (fun found after => Delivers before after ∧ (found.2 = none →
        ∃ landing, found.1 = landOutside slot landing ∧
          before.Delivered slot.target landing))
      fun _ => False := by
  have now := delivers.consistent consistent
  apply ends_dereference_of now slot held
  · intro error
    exact ⟨delivers, fun none => by cases none⟩
  · intro landing middle done landed _ targetHeld
    obtain ⟨keeps, delivered⟩ := (ends_resolve_delivered now slot.target).of_ok done
    have further := delivers.resolved consistent landed.settling keeps landed.arena
    apply (ends_settle_delivers consistent further [landing.target] (by simpa using targetHeld)).mono
    · intro _ after settled
      exact ⟨settled, fun _ => ⟨landing, rfl, delivers.delivered consistent delivered⟩⟩
    · intro after settled error
      exact ⟨settled, fun none => by cases none⟩

/-! ## What lasts -/

theorem SettlingStep.definition_eq (step : SettlingStep before after) (id : TypeId) :
    after.definition id = { before.definition id with shape := after.shape id } := by
  cases step with
  | relink =>
    simp only [Catalog.shape, definition_put]
    split
    · rename_i same
      rw [same.1]
    · rfl
  | _ => rfl

/-- Settling changes nothing of a definition but its shape. -/
theorem Settling.definition_eq (settling : Settling before after) (id : TypeId) :
    after.definition id = { before.definition id with shape := after.shape id } := by
  induction settling with
  | refl => rfl
  | tail _ step ih => rw [step.definition_eq id, ih]

/-- Settling changes no doc of a definition. -/
theorem Settling.doc (settling : Settling before after) (id : TypeId) :
    (after.definition id).doc = (before.definition id).doc := by
  rw [settling.definition_eq id]

/-- What is made of settled definitions stays as it is. -/
theorem Delivers.shape_of_settled (delivers : Delivers before after) {id : TypeId}
    (settled : ∀ child ∈ (before.shape id).children, before.Settled child) :
    after.shape id = before.shape id := by
  rcases delivers.shapes id with same | ⟨landings, delivered, relinked, _⟩
  · exact same
  · rw [relinked, relink_of_settled delivered settled]

/-- What is settled throughout stays as it is. -/
theorem Delivers.shape_of_walk (delivers : Delivers before after) {all : List TypeId}
    (walk : before.Walk [] all) {id : TypeId} (member : id ∈ all) :
    after.shape id = before.shape id :=
  delivers.shape_of_settled fun child inside =>
    walk.settled child (walk.closed id member child inside)

/-- A definition whose slots are settled in the end has taken the docs that were kept for them. -/
theorem Delivers.relinked_of_settled (delivers : Delivers before after) {id : TypeId}
    (settled : ∀ child ∈ (after.shape id).children, after.Settled child) :
    ∃ landings, List.Forall₂ before.Delivered (before.shape id).children landings ∧
      after.shape id = (before.shape id).relink landings := by
  rcases delivers.shapes id with same | ⟨landings, delivered, relinked, _⟩
  · refine ⟨_, ?_, same.trans (relink_self _).symm⟩
    rw [same] at settled
    rw [List.forall₂_map_right_iff, List.forall₂_same]
    intro child inside
    refine ⟨?_, fun _ => rfl⟩
    rw [← delivers.keeps.keptDoc, (settled child inside).keptDoc]
  · exact ⟨landings, delivered, relinked⟩

theorem Delivers.slotCount (delivers : Delivers before after) :
    after.slotCount = before.slotCount := by
  rw [← unseenSlots_nil, ← unseenSlots_nil]
  refine unseenSlots_congr delivers.settling.size fun id => ?_
  rcases delivers.shapes id with same | ⟨landings, delivered, relinked, _⟩
  · rw [same]
  · rw [relinked]
    exact length_slots_relink (by simpa [Shape.children] using delivered.length_eq.symm)

theorem Delivers.walk (delivers : Delivers before after) {all : List TypeId}
    (walk : before.Walk [] all) : after.Walk [] all where
  consistent := delivers.consistent walk.consistent
  held _ member := absurd member List.not_mem_nil
  settled id member := delivers.settling.settled walk.consistent (walk.settled id member)
  closed id member child inside := by
    rw [delivers.shape_of_walk walk member] at inside
    exact walk.closed id member child inside

theorem Delivers.run (delivers : Delivers before catalog) (consistent : before.Consistent)
    (slots : List Slot) (held : ∀ slot ∈ slots, catalog.Holds slot.target) :
    Delivers before (catalog.run (slots.map .dereference)) := by
  induction slots generalizing catalog with
  | nil => exact delivers
  | cons slot rest ih =>
    obtain ⟨slotHeld, restHeld⟩ := List.forall_mem_cons.mp held
    have ends : Ends (Operation.dereference slot).perform catalog
        (fun _ after => Delivers before after ∧ Settling catalog after)
        fun after => Delivers before after ∧ Settling catalog after := by
      rw [Operation.perform, ends_bind]
      exact ((ends_dereference_delivers consistent delivers slot slotHeld).and
        (ends_dereference (delivers.consistent consistent) slot slotHeld)).mono
          (fun found _ done => ends_failWith found.2 ⟨done.1.1, done.2⟩) fun _ ended => ended.1.elim
    have step := ends_leaves_iff.mp ends
    exact ih step.1 fun other member => (step.2.holds_iff _).mpr (restHeld other member)

end DocShapes.Catalog
