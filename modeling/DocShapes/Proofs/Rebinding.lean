import DocShapes.Proofs.Resolving

/-! # Dereferencing rebinds slots

Settling a definition changes nothing of it but where its slots lead and which docs their sites
have. A slot that changes holds from then on what its old target leads to, and it takes the doc
that the target has kept for it. This holds of every dereference, also of one that fails half way
(`Reachable.dereference_rebinds`).
-/

namespace DocShapes.Catalog

variable {catalog before middle after : Catalog}

/-! ## Where slots lead -/

theorem Consistent.follow_follow (consistent : catalog.Consistent) (id : TypeId) :
    catalog.follow (catalog.follow id) = catalog.follow id :=
  follow_of_forward_eq_none (consistent.forward_follow id)

/-- What an id led to before leads on to where the id leads now. -/
theorem KeepsDocs.follow_follow (keeps : KeepsDocs before after) (consistent : before.Consistent)
    (further : after.Consistent) (id : TypeId) :
    after.follow (before.follow id) = after.follow id := by
  cases found : before.forward.get? id with
  | none => rw [follow_of_forward_eq_none found]
  | some landing =>
    have hop : after.Hop landing.target id := ⟨landing, keeps.forward id landing found, rfl⟩
    rw [consistent.follow_eq, found]
    exact further.follow_of_hop hop

/-- The slots of a definition are resolved to where their targets lead in the end. -/
theorem ends_mapM_resolve_landings (consistent : catalog.Consistent) (ids : List TypeId)
    (held : ∀ id ∈ ids, catalog.Holds id) :
    Ends (ids.mapM resolve) catalog (fun landings after => landings = ids.map after.landing)
      fun _ => True := by
  induction ids generalizing catalog with
  | nil => rfl
  | cons id rest ih =>
    obtain ⟨idHeld, restHeld⟩ := List.forall_mem_cons.mp held
    simp only [List.mapM_cons, ends_bind]
    apply ((ends_self _ _).and (ends_resolve consistent idHeld)).mono
    · intro landing middle first
      obtain ⟨done, landed⟩ := first
      have now := landed.settling.consistent consistent
      have othersHeld : ∀ other ∈ rest, middle.Holds other := by
        intro other member
        exact (landed.settling.holds_iff other).mpr (restHeld other member)
      apply (((ends_mapM_resolve now rest othersHeld).and
        (ends_mapM_resolve_delivered now rest othersHeld)).and (ih now othersHeld)).mono
      · intro landings after others
        obtain ⟨⟨all, keeps, _⟩, same⟩ := others
        change landing :: landings = _
        rw [List.map_cons, landing_later consistent idHeld done all.settling keeps, same]
      · intro _ _
        trivial
    · intro _ _
      trivial

/-! ## Walks that rebind -/

/-- Settling has delivered the docs that were kept, and every slot leads where it led. -/
structure Rebinds (before after : Catalog) : Prop extends Delivers before after where
  leads : ∀ id, (after.shape id).children.map after.follow =
    (before.shape id).children.map after.follow

theorem Rebinds.refl : Rebinds catalog catalog :=
  ⟨.refl, fun _ => rfl⟩

/-- Resolving changes no definition. -/
theorem Rebinds.resolved (rebinds : Rebinds before middle) (consistent : before.Consistent)
    (settling : Settling middle after) (keeps : KeepsDocs middle after)
    (arena : after.arena = middle.arena) : Rebinds before after where
  toDelivers := rebinds.toDelivers.resolved consistent settling keeps arena
  leads id := by
    have now := rebinds.consistent consistent
    have further : after.follow ∘ middle.follow = after.follow := by
      funext child
      exact keeps.follow_follow now (settling.consistent now) child
    have same : after.shape id = middle.shape id := by
      rw [Catalog.shape, Catalog.definition, arena]
      rfl
    have later := congrArg (List.map after.follow) (rebinds.leads id)
    rwa [List.map_map, List.map_map, further, ← same] at later

/-- The slots of a definition that is visited lead where they led. -/
theorem Rebinds.visit {id : TypeId} {landings : List Landing} (rebinds : Rebinds before middle)
    (consistent : before.Consistent) (held : middle.Holds id)
    (landed : AllLanded middle (middle.shape id).children landings after)
    (keeps : KeepsDocs middle after)
    (delivered : List.Forall₂ middle.Delivered (middle.shape id).children landings)
    (final : landings = (middle.shape id).children.map after.landing) :
    Rebinds before (after.relinked id landings) where
  toDelivers := rebinds.toDelivers.visit consistent held landed keeps delivered
  leads other := by
    have further := rebinds.resolved consistent landed.settling keeps landed.arena
    have now := further.consistent consistent
    have follow : (after.relinked id landings).follow = after.follow := funext (follow_congr rfl)
    have old : after.shape other = middle.shape other := by
      rw [Catalog.shape, Catalog.definition, landed.arena]
      rfl
    rw [follow, ← further.leads other, old, landed.children_relinked held]
    split
    · rename_i same
      have idempotent : after.follow ∘ after.follow = after.follow := funext now.follow_follow
      have targets : landings.map Landing.target = (middle.shape id).children.map after.follow := by
        rw [final, List.map_map]
        exact List.map_congr_left fun child _ => target_landing child
      rw [targets, List.map_map, idempotent, same]
    · rfl

theorem ends_settle_rebinds (consistent : before.Consistent) (rebinds : Rebinds before catalog)
    (ids : List TypeId) (held : ∀ id ∈ ids, catalog.Holds id) :
    Ends (settle ids) catalog (fun _ after => Rebinds before after) (Rebinds before) := by
  simp only [settle, ends_bind, ends_get]
  refine ends_settleFrom_of (fun middle id now idHeld sofar => ?_) _ ids []
    (rebinds.consistent consistent) held rebinds
  have linked := now.linked id idHeld
  apply (((ends_mapM_resolve now _ linked).and (ends_mapM_resolve_delivered now _ linked)).and
    (ends_mapM_resolve_landings now _ linked)).mono
  · intro landings after found
    obtain ⟨⟨landed, keeps, delivered⟩, final⟩ := found
    exact sofar.visit consistent idHeld landed keeps delivered final
  · intro after failed
    obtain ⟨⟨settling, keeps, arena⟩, _⟩ := failed
    exact sofar.resolved consistent settling keeps arena

/-- A slot outside the catalog lands like the slots in it. -/
theorem ends_dereference_rebinds (consistent : catalog.Consistent) (slot : Slot)
    (held : catalog.Holds slot.target) :
    Ends (dereference slot) catalog
      (fun found after => Rebinds catalog after ∧
        (found.1 = slot ∨ found.1 = landOutside slot (after.landing slot.target)))
      fun _ => False := by
  apply ends_dereference_of consistent slot held
  · intro _
    exact ⟨.refl, .inl rfl⟩
  · intro landing middle done landed further targetHeld
    have keeps := ((ends_resolve_delivered consistent slot.target).of_ok done).1
    have start : Rebinds catalog middle :=
      Rebinds.refl.resolved consistent landed.settling keeps landed.arena
    have walks : Ends (settle [landing.target]) middle
        (fun _ after => Rebinds catalog after ∧ Rebinds middle after)
        fun after => Rebinds catalog after ∧ Rebinds middle after :=
      (ends_settle_rebinds consistent start _ (by simpa using targetHeld)).and
        (ends_settle_rebinds further .refl _ (by simpa using targetHeld))
    have lands {after : Catalog} (rest : Rebinds middle after) :
        landOutside slot landing = landOutside slot (after.landing slot.target) := by
      rw [landing_later consistent held done rest.settling rest.keeps]
    apply walks.mono
    · intro _ after rebinds
      exact ⟨rebinds.1, .inr (lands rebinds.2)⟩
    · intro after rebinds _
      exact ⟨rebinds.1, .inr (lands rebinds.2)⟩

/-! ## Rebound slots -/

/-- A slot keeps its name and its qualifiers. It holds what its old target leads to, if it does not
hold that target itself, and the doc that a retired target kept stands in front of its own. -/
structure Rebound (before after : Catalog) (old new : Slot) : Prop where
  name : new.toSite.name = old.toSite.name
  qualifiers : new.toSite.qualifiers = old.toSite.qualifiers
  target : new.target = old.target ∨ new.target = after.follow old.target
  doc : new.toSite.doc = old.toSite.doc ∨
    ∃ demoted, before.forward.get? old.target = some ⟨new.target, some demoted⟩ ∧
      new.toSite.doc = Doc.join [some demoted, old.toSite.doc]

theorem Rebound.refl (slot : Slot) : Rebound before after slot slot :=
  ⟨rfl, rfl, .inl rfl, .inl rfl⟩

/-- A kept doc belongs to a retired definition, which leads where it led. -/
theorem KeepsDocs.forward_of_siteDoc (keeps : KeepsDocs before after)
    (consistent : after.Consistent) {id : TypeId} {landing : Landing} {demoted : String}
    (target : landing.target = after.follow id) (siteDoc : landing.siteDoc = before.keptDoc id)
    (kept : landing.siteDoc = some demoted) :
    before.forward.get? id = some ⟨landing.target, some demoted⟩ := by
  rw [siteDoc, Catalog.keptDoc] at kept
  obtain ⟨retired, found, doc⟩ := Option.bind_eq_some_iff.mp kept
  have leads : landing.target = retired.target := by
    rw [target, consistent.follow_eq, keeps.forward id retired found]
    rfl
  rw [found, leads, ← doc]

section

variable {slot : Slot} {landing : Landing}

theorem rebound_land (keeps : KeepsDocs before after) (consistent : after.Consistent)
    (target : landing.target = after.follow slot.target)
    (siteDoc : landing.siteDoc = before.keptDoc slot.target) :
    Rebound before after slot (slot.land landing) := by
  have leads : (slot.land landing).target = after.follow slot.target :=
    (target_land slot landing).trans target
  cases slot with
  | bare old => exact ⟨rfl, rfl, .inr leads, .inl rfl⟩
  | sited site =>
    refine ⟨rfl, rfl, .inr leads, ?_⟩
    cases kept : landing.siteDoc with
    | none =>
      left
      simp [Slot.land, Site.land, Slot.toSite, kept]
    | some demoted =>
      right
      refine ⟨demoted, keeps.forward_of_siteDoc consistent target siteDoc kept, ?_⟩
      simp [Slot.land, Site.land, Slot.toSite, kept]

theorem join_single (doc : String) : Doc.join [some doc, none] = Text.nonBlank doc := by
  cases blank : Text.blank doc <;> simp [Doc.join, Text.nonBlank, blank]

/-- A bare slot outside the catalog becomes a site for the doc. -/
theorem rebound_landOutside (keeps : KeepsDocs before after) (consistent : after.Consistent)
    (target : landing.target = after.follow slot.target)
    (siteDoc : landing.siteDoc = before.keptDoc slot.target) :
    Rebound before after slot (landOutside slot landing) := by
  unfold landOutside
  split
  · rename_i old doc kept
    refine ⟨rfl, rfl, .inr target, .inr ⟨doc, ?_, ?_⟩⟩
    · exact keeps.forward_of_siteDoc consistent target siteDoc kept
    · exact (join_single doc).symm
  · exact rebound_land keeps consistent target siteDoc

end

/-! ## Rebound definitions -/

/-- A definition keeps all but where its slots lead and the docs of their sites. -/
structure ReboundDefinition (before after : Catalog) (id : TypeId) : Prop where
  base : (after.definition id).base = (before.definition id).base
  name : (after.definition id).name = (before.definition id).name
  doc : (after.definition id).doc = (before.definition id).doc
  annotations : (after.definition id).annotations = (before.definition id).annotations
  literal : ∀ value, after.shape id = .constant value ↔ before.shape id = .constant value
  slots : List.Forall₂ (fun old new => new.site?.isSome = old.site?.isSome ∧
    Rebound before after old new) (before.shape id).slots (after.shape id).slots

theorem relink_eq_constant_iff {shape : Shape} {landings : List Landing} {value : Literal} :
    shape.relink landings = .constant value ↔ shape = .constant value := by
  cases shape <;> simp [Shape.relink]

theorem isSome_site?_land (slot : Slot) (landing : Landing) :
    (slot.land landing).site?.isSome = slot.site?.isSome := by
  cases slot <;> rfl

theorem forall₂_land {slots : List Slot} {landings : List Landing}
    {leads : TypeId → Landing → Prop} {related : Slot → Slot → Prop}
    (landed : List.Forall₂ leads (slots.map Slot.target) landings)
    (land : ∀ slot landing, leads slot.target landing → related slot (slot.land landing)) :
    List.Forall₂ related slots (slots.zipWith Slot.land landings) := by
  rw [List.forall₂_map_left_iff] at landed
  induction landed with
  | nil => exact .nil
  | cons first _ ih => exact .cons (land _ _ first) ih

theorem forall₂_leads {ids : List TypeId} {landings : List Landing}
    (delivered : List.Forall₂ before.Delivered ids landings)
    (targets : landings.map Landing.target = ids.map after.follow) :
    List.Forall₂ (fun child landing => landing.target = after.follow child ∧
      landing.siteDoc = before.keptDoc child) ids landings := by
  induction delivered with
  | nil => exact .nil
  | cons first _ ih =>
    rw [List.map_cons, List.map_cons, List.cons.injEq] at targets
    exact .cons ⟨targets.1, first.siteDoc⟩ (ih targets.2)

theorem Rebinds.definition (rebinds : Rebinds before after) (consistent : before.Consistent)
    (id : TypeId) : ReboundDefinition before after id := by
  have doc := rebinds.settling.doc id
  have annotations : (after.definition id).annotations = (before.definition id).annotations := by
    rw [rebinds.settling.definition_eq id]
  rcases rebinds.shapes id with same | ⟨landings, delivered, relinked, settled⟩
  · refine ⟨congrArg Shape.base same, congrArg Shape.name same, doc, annotations, ?_, ?_⟩
    · intro value
      rw [same]
    · rw [same, List.forall₂_same]
      intro slot _
      exact ⟨rfl, .refl slot⟩
  · have children : (after.shape id).children = landings.map Landing.target := by
      rw [relinked, children_relink (by simpa [Shape.children] using delivered.length_eq.symm)]
    -- What is settled leads to itself, so the new targets are where the old ones lead.
    have targets : landings.map Landing.target = (before.shape id).children.map after.follow := by
      rw [← rebinds.leads id, ← children]
      nth_rewrite 1 [← List.map_id (after.shape id).children]
      apply List.map_congr_left
      intro child member
      exact (follow_of_forward_eq_none (settled child member).unforwarded).symm
    have base : (after.shape id).base = (before.shape id).base := by
      rw [relinked, base_relink]
    have name : (after.shape id).name = (before.shape id).name := by
      rw [relinked, name_relink]
    refine ⟨base, name, doc, annotations, ?_, ?_⟩
    · intro value
      rw [relinked, relink_eq_constant_iff]
    · rw [relinked, Shape.slots_relink]
      apply forall₂_land (forall₂_leads delivered targets)
      intro slot landing leads
      obtain ⟨target, siteDoc⟩ := leads
      exact ⟨isSome_site?_land slot landing,
        rebound_land rebinds.keeps (rebinds.consistent consistent) target siteDoc⟩

/-! ## Names -/

/-- A name keeps its entries, or its provisional definition becomes canonical. -/
inductive NameMoves (before after : Catalog) (name : String) : Prop
  | stays (canonical : after.canonical.get? name = before.canonical.get? name)
      (provisional : after.provisional.get? name = before.provisional.get? name)
  | moves (id : TypeId) (free : before.canonical.get? name = none)
      (present : before.provisional.get? name = some id)
      (canonical : after.canonical.get? name = some id)
      (provisional : after.provisional.get? name = none)

theorem SettlingStep.nameMoves (step : SettlingStep before after) (name : String) :
    NameMoves before after name := by
  cases step with
  | @promote promoted id free present =>
    by_cases same : promoted = name
    · subst same
      apply NameMoves.moves id free present
      · simp [OrderedMap.get?_set]
      · simp [OrderedMap.get?_erase]
    · apply NameMoves.stays
      · simp [OrderedMap.get?_set, same]
      · simp [OrderedMap.get?_erase, same]
  | withdraw => exact .stays rfl rfl
  | relink => exact .stays rfl rfl

theorem NameMoves.trans {name : String} (first : NameMoves before middle name)
    (second : NameMoves middle after name) : NameMoves before after name := by
  cases first with
  | stays canonical provisional =>
    cases second with
    | stays canonical' provisional' =>
      exact .stays (canonical'.trans canonical) (provisional'.trans provisional)
    | moves id free present canonical' provisional' =>
      exact .moves id (canonical ▸ free) (provisional ▸ present) canonical' provisional'
  | moves id free present canonical provisional =>
    cases second with
    | stays canonical' provisional' =>
      exact .moves id free present (canonical'.trans canonical) (provisional'.trans provisional)
    | moves _ taken => simp [canonical] at taken

/-- Settling moves provisional definitions to the canonical ones, and no name otherwise. -/
theorem Settling.nameMoves (settling : Settling before after) (name : String) :
    NameMoves before after name := by
  induction settling with
  | refl => exact .stays rfl rfl
  | tail _ step ih => exact ih.trans (step.nameMoves name)

/-! ## Reachable catalogs -/

theorem Settling.settings (settling : Settling before after) :
    after.marker = before.marker ∧ after.customTypes = before.customTypes := by
  induction settling with
  | refl => exact ⟨rfl, rfl⟩
  | tail _ step ih => cases step <;> exact ih

/-- What a dereference leaves of a catalog: nothing is added to the arena, the definitions are
rebound, retired definitions lead where they led, and names at most become canonical. -/
structure OnlyRebinds (before after : Catalog) : Prop where
  size : after.arena.size = before.arena.size
  definitions : ∀ id, ReboundDefinition before after id
  forward : ∀ id landing, before.forward.get? id = some landing →
    after.forward.get? id = some landing
  names : ∀ name, NameMoves before after name
  pending : after.pending = before.pending
  aliases : after.aliases = before.aliases
  settings : after.marker = before.marker ∧ after.customTypes = before.customTypes

theorem Rebinds.onlyRebinds (rebinds : Rebinds before after) (consistent : before.Consistent) :
    OnlyRebinds before after where
  size := rebinds.settling.size
  definitions := rebinds.definition consistent
  forward := rebinds.keeps.forward
  names := rebinds.settling.nameMoves
  pending := rebinds.settling.pending
  aliases := rebinds.settling.aliases
  settings := rebinds.settling.settings

/-- A dereference only rebinds slots, those of the definitions and the one that it is given, no
matter whether it succeeds. -/
theorem Reachable.dereference_rebinds (reachable : catalog.Reachable) {slot : Slot}
    (held : catalog.Holds slot.target) :
    ∃ landed error? after, dereference slot catalog = .ok (landed, error?) after ∧
      OnlyRebinds catalog after ∧ Rebound catalog after slot landed := by
  have consistent := reachable.consistent
  obtain ⟨⟨landed, error?⟩, after, done, rebinds, lands⟩ :=
    (ends_dereference_rebinds consistent slot held).exists_ok
  refine ⟨landed, error?, after, done, rebinds.onlyRebinds consistent, ?_⟩
  have further := rebinds.consistent consistent
  have siteDoc := (further.siteDoc_landing slot.target).trans (rebinds.keeps.keptDoc slot.target)
  rcases lands with rfl | rfl
  · exact .refl _
  · exact rebound_landOutside rebinds.keeps further (target_landing slot.target) siteDoc

/-- A part of the first declaration and the second declaration have docs that end in the same
line. -/
def nestedTail : List Operation :=
  [.parseEntries ⟨some .read, false⟩ "x : record\n    f : Foo\n        A.\n        C.\n\n        a : int",
    .parseEntries ⟨some .write, false⟩ "y : Foo\n    B.\n    C.\n\n    b : int",
    .mergePending]

def nestedSite : Slot := .sited (.named "x" ⟨0⟩)

/-- The line that the merge has kept comes to the field, which leads to the merged definition. -/
theorem dereference_rebinds_nestedTail :
    (empty.run nestedTail).forward.get? ⟨1⟩ = some ⟨⟨5⟩, some "A."⟩ ∧
      ∃ landed error? after,
        dereference nestedSite (empty.run nestedTail) = .ok (landed, error?) after ∧
          OnlyRebinds (empty.run nestedTail) after ∧
          Rebound (empty.run nestedTail) after nestedSite landed ∧
          (after.shape ⟨0⟩).sites.map (fun field => (field.target, field.doc)) =
            [(⟨5⟩, some "A.")] := by
  have reachable : (empty.run nestedTail).Reachable :=
    @reachable_run .standard _ _ rfl ⟨trivial, trivial, trivial, trivial⟩
  have held : (empty.run nestedTail).Holds nestedSite.target := by decide +kernel
  have fields : ((leaves (dereference nestedSite) (empty.run nestedTail)).shape ⟨0⟩).sites.map
      (fun field => (field.target, field.doc)) = [(⟨5⟩, some "A.")] := by decide +kernel
  obtain ⟨landed, error?, after, done, only, rebound⟩ := reachable.dereference_rebinds held
  rw [leaves, done] at fields
  exact ⟨by decide +kernel, landed, error?, after, done, only, rebound, fields⟩

end DocShapes.Catalog
