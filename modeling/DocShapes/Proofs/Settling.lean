import DocShapes.Proofs.Forwarding
import Mathlib.Data.List.Forall2

/-! # Resolving ids keeps a catalog consistent

`SettlingStep` lists what resolving an id and settling a definition can do to a catalog. Where an
id leads once it is resolved, nothing is left to resolve (`ends_resolve`).
-/

namespace DocShapes.Catalog

variable {catalog before after : Catalog}

/-! ## Single changes -/

/-- An id leads to itself or to a canonical definition. -/
def LeadsTo (catalog : Catalog) (id : TypeId) (landing : Landing) : Prop :=
  landing.target = id ∨ ∃ name, catalog.canonical.get? name = some landing.target

inductive SettlingStep : Catalog → Catalog → Prop
  /-- A provisional definition becomes canonical. -/
  | promote {catalog : Catalog} {name : String} {id : TypeId}
      (free : catalog.canonical.get? name = none)
      (present : catalog.provisional.get? name = some id) :
      SettlingStep catalog (catalog.establish name id)
  /-- A mention of a canonical name leads to its definition from now on. -/
  | withdraw {catalog : Catalog} {source target : TypeId}
      (held : catalog.Holds source)
      (mention : catalog.mentionsName source = true)
      (canonical : catalog.canonical.get?
        (catalog.resolveAlias (catalog.definition source).name) = some target)
      (different : source ≠ target) :
      SettlingStep catalog (catalog.withdraw source ⟨target, none⟩)
  /-- The slots of a definition lead to where their targets lead. -/
  | relink {catalog : Catalog} {id : TypeId} {landings : List Landing}
      (held : catalog.Holds id)
      (leads : List.Forall₂ catalog.LeadsTo (catalog.shape id).children landings) :
      SettlingStep catalog
        (catalog.put id
          { catalog.definition id with shape := (catalog.shape id).relink landings })

/-- What resolving and settling does to a catalog. -/
def Settling : Catalog → Catalog → Prop := Relation.ReflTransGen SettlingStep

/-! ## Relinked shapes -/

theorem target_land (slot : Slot) (landing : Landing) :
    (slot.land landing).target = landing.target := by
  cases slot <;> rfl

theorem base_relink (shape : Shape) (landings : List Landing) :
    (shape.relink landings).base = shape.base := by
  cases shape <;> rfl

theorem name_relink (shape : Shape) (landings : List Landing) :
    (shape.relink landings).name = shape.name := by
  cases shape <;> rfl

theorem isNamed_relink (shape : Shape) (landings : List Landing) :
    (shape.relink landings).isNamed = shape.isNamed := by
  cases shape <;> rfl

theorem children_relink {shape : Shape} {landings : List Landing}
    (length : landings.length = shape.slots.length) :
    (shape.relink landings).children = landings.map Landing.target := by
  rw [Shape.children, Shape.slots_relink, List.map_zipWith]
  simp only [target_land]
  generalize shape.slots = slots at length
  induction slots generalizing landings with
  | nil => simp [List.length_eq_zero_iff.mp length]
  | cons slot rest ih =>
    cases landings with
    | nil => cases length
    | cons landing others => simpa using ih (by simpa using length)

theorem length_slots_relink {shape : Shape} {landings : List Landing}
    (length : landings.length = shape.slots.length) :
    (shape.relink landings).slots.length = shape.slots.length := by
  simp [Shape.slots_relink, length]

theorem hasContent_relink {shape : Shape} {landings : List Landing}
    (length : landings.length = shape.slots.length) :
    (shape.relink landings).hasContent = shape.hasContent := by
  have empty : (shape.relink landings).slots.isEmpty = shape.slots.isEmpty := by
    rw [Bool.eq_iff_iff, List.isEmpty_iff_length_eq_zero, List.isEmpty_iff_length_eq_zero,
      length_slots_relink length]
  cases shape <;> first | rfl | simpa [Shape.hasContent, Shape.relink] using empty

theorem length_of_leads {shape : Shape} {landings : List Landing}
    (leads : List.Forall₂ catalog.LeadsTo shape.children landings) :
    landings.length = shape.slots.length := by
  simpa [Shape.children] using leads.length_eq.symm

/-! ## Consistency -/

/-- A known id is not a mention of another definition. -/
theorem Consistent.known?_ne_of_mention (consistent : catalog.Consistent) {source target : TypeId}
    (canonical : catalog.canonical.get?
      (catalog.resolveAlias (catalog.definition source).name) = some target)
    (different : source ≠ target) (name : String) : catalog.known? name ≠ some source := by
  intro known
  have names := consistent.owned name source known
  have unspelled := consistent.unspelled name ((catalog.isKnown_iff name).mpr ⟨source, known⟩)
  rw [names.same, resolveAlias, AliasTable.resolve_of_not_isSpelling unspelled] at canonical
  exact different (Option.some.inj (known.symm.trans (known?_of_canonical canonical)))

theorem Consistent.holds_of_leads (consistent : catalog.Consistent) {ids : List TypeId}
    {landings : List Landing} (held : ∀ id ∈ ids, catalog.Holds id)
    (leads : List.Forall₂ catalog.LeadsTo ids landings) :
    ∀ landing ∈ landings, catalog.Holds landing.target := by
  induction leads with
  | nil => simp
  | cons first _ ih =>
    obtain ⟨headHeld, restHeld⟩ := List.forall_mem_cons.mp held
    refine List.forall_mem_cons.mpr ⟨?_, ih restHeld⟩
    rcases first with same | ⟨name, canonical⟩
    · exact same ▸ headHeld
    · exact (consistent.owned name _ (known?_of_canonical canonical)).held

theorem SettlingStep.consistent (step : SettlingStep before after)
    (consistent : before.Consistent) : after.Consistent := by
  cases step with
  | promote free present =>
    exact consistent.establish (by simp [known?, free, present])
  | withdraw held _ canonical different =>
    exact consistent.withdraw held (consistent.known?_ne_of_mention canonical different) canonical
  | @relink id landings held leads =>
    refine consistent.put (isNamed_relink _ _) (name_relink _ _) fun child member => ?_
    rw [show Shape.children _ = _ from children_relink (length_of_leads leads)] at member
    obtain ⟨landing, within, rfl⟩ := List.mem_map.mp member
    exact consistent.holds_of_leads (consistent.linked id held) leads landing within

theorem Settling.consistent (settling : Settling before after) (consistent : before.Consistent) :
    after.Consistent := by
  induction settling with
  | refl => exact consistent
  | tail _ step ih => exact step.consistent ih

theorem SettlingStep.holds_iff (step : SettlingStep before after) (id : TypeId) :
    after.Holds id ↔ before.Holds id := by
  cases step <;> simp

theorem Settling.holds_iff (settling : Settling before after) (id : TypeId) :
    after.Holds id ↔ before.Holds id := by
  induction settling with
  | refl => exact Iff.rfl
  | tail _ step ih => exact (step.holds_iff id).trans ih

theorem Settling.size (settling : Settling before after) :
    after.arena.size = before.arena.size := by
  induction settling with
  | refl => rfl
  | tail _ step ih => cases step <;> simpa using ih

theorem SettlingStep.canonical (step : SettlingStep before after) {name : String} {id : TypeId}
    (found : before.canonical.get? name = some id) : after.canonical.get? name = some id := by
  cases step with
  | @promote promoted _ free =>
    have different : promoted ≠ name := by
      rintro rfl
      simp [free] at found
    simpa [OrderedMap.get?_set, different] using found
  | withdraw => exact found
  | relink => exact found

theorem Settling.pending (settling : Settling before after) :
    after.pending = before.pending := by
  induction settling with
  | refl => rfl
  | tail _ step ih => cases step <;> exact ih

theorem Settling.aliases (settling : Settling before after) :
    after.aliases = before.aliases := by
  induction settling with
  | refl => rfl
  | tail _ step ih => cases step <;> exact ih

theorem Settling.canonical (settling : Settling before after) {name : String} {id : TypeId}
    (found : before.canonical.get? name = some id) : after.canonical.get? name = some id := by
  induction settling with
  | refl => exact found
  | tail _ step ih => exact step.canonical ih

/-! ## Settled definitions -/

theorem mentionsName_iff (catalog : Catalog) (id : TypeId) :
    catalog.mentionsName id = true ↔
      (catalog.definition id).base = .unknown ∨
        (catalog.definition id).isNamed = true ∧
          ((catalog.definition id).isShell = true ∨
            catalog.provisional.get? (catalog.definition id).name = some id) := by
  simp [mentionsName]

/-- Nothing is left to resolve at the id. -/
structure Settled (catalog : Catalog) (id : TypeId) : Prop where
  unforwarded : catalog.forward.get? id = none
  final : (∃ name, catalog.canonical.get? name = some id) ∨ catalog.mentionsName id = false

theorem Consistent.settled_of_canonical (consistent : catalog.Consistent) {name : String}
    {id : TypeId} (canonical : catalog.canonical.get? name = some id) : catalog.Settled id :=
  ⟨consistent.forward_of_canonical canonical, .inl ⟨name, canonical⟩⟩

theorem mentionsName_relink {id : TypeId} {landings : List Landing}
    (length : landings.length = (catalog.shape id).slots.length) (other : TypeId) :
    (catalog.put id { catalog.definition id with
      shape := (catalog.shape id).relink landings }).mentionsName other =
      catalog.mentionsName other := by
  have shell : Definition.isShell { catalog.definition id with
      shape := (catalog.shape id).relink landings } = (catalog.definition id).isShell := by
    simp only [Definition.isShell, Definition.hasContent, hasContent_relink length]
    rfl
  rw [Bool.eq_iff_iff, mentionsName_iff, mentionsName_iff, definition_put]
  split
  · rename_i same
    rw [shell, same.1]
    simp only [Definition.base, Definition.isNamed, Definition.name, base_relink, isNamed_relink,
      name_relink, Catalog.shape, put_provisional]
  · rfl

theorem SettlingStep.settled (step : SettlingStep before after) (consistent : before.Consistent)
    {id : TypeId} (settled : before.Settled id) : after.Settled id := by
  have canonical {name : String} (found : before.canonical.get? name = some id) :
      after.canonical.get? name = some id := step.canonical found
  cases step with
  | @promote name other free present =>
    refine ⟨settled.unforwarded, settled.final.imp (Exists.imp fun _ found => canonical found)
      fun final => ?_⟩
    rw [← Bool.not_eq_true, mentionsName_iff] at final ⊢
    refine mt (Or.imp_right (And.imp_right (Or.imp_right fun own => ?_))) final
    rw [establish_provisional, OrderedMap.get?_erase] at own
    split at own
    · cases own
    · exact own
  | @withdraw source target _ mention found different =>
    refine ⟨?_, settled.final⟩
    have other : source ≠ id := by
      rintro rfl
      rcases settled.final with ⟨name, own⟩ | final
      · exact consistent.known?_ne_of_mention found different name (known?_of_canonical own)
      · exact absurd mention (by simp [final])
    simpa [OrderedMap.get?_set, other] using settled.unforwarded
  | relink held leads =>
    refine ⟨settled.unforwarded, settled.final.imp_right fun final => ?_⟩
    rwa [mentionsName_relink (length_of_leads leads)]

theorem Settling.settled (settling : Settling before after) (consistent : before.Consistent)
    {id : TypeId} (settled : before.Settled id) : after.Settled id := by
  induction settling with
  | refl => exact settled
  | tail others step ih => exact step.settled (Settling.consistent others consistent) ih

/-! ## Resolving -/

/-- What resolving an id leaves: the arena is the same, the id leads to a definition at which
nothing is left to resolve, and no other definition becomes canonical. -/
structure Landed (before : Catalog) (id : TypeId) (landing : Landing) (after : Catalog) :
    Prop where
  settling : Settling before after
  arena : after.arena = before.arena
  settled : after.Settled landing.target
  leads : after.LeadsTo id landing
  canonical : ∀ name other, after.canonical.get? name = some other →
    before.canonical.get? name = some other ∨ other = landing.target

theorem ends_promote (word : String) {done : Option TypeId → Catalog → Prop}
    {failed : Catalog → Prop}
    (canonical : ∀ id, catalog.canonical.get? (catalog.resolveAlias word) = some id →
      done (some id) catalog)
    (provisional : ∀ id, catalog.canonical.get? (catalog.resolveAlias word) = none →
      catalog.provisional.get? (catalog.resolveAlias word) = some id →
      done (some id) (catalog.establish (catalog.resolveAlias word) id))
    (unknown : catalog.isKnown (catalog.resolveAlias word) = false → done none catalog) :
    Ends (promote word) catalog done failed := by
  simp only [promote, ends_bind, ends_get]
  split
  · rename_i id found
    exact canonical id found
  · rename_i free
    split
    · rename_i id found
      exact provisional id free found
    · rename_i absent
      exact unknown (by simp [Catalog.isKnown, known?, free, absent])

theorem Consistent.leadsTo_landing (consistent : catalog.Consistent) (id : TypeId) :
    catalog.LeadsTo id (catalog.landing id) := by
  rw [consistent.landing_eq]
  cases found : catalog.forward.get? id with
  | none => exact .inl rfl
  | some landing =>
    obtain ⟨_, _, canonical⟩ := consistent.retired id landing found
    exact .inr canonical

/-- Where a mention leads once its name is canonical. -/
theorem landed_of_canonical (consistent : after.Consistent) {id target : TypeId}
    {landing : Landing} (settling : Settling before after) (arena : after.arena = before.arena)
    (promoted : ∀ name other, after.canonical.get? name = some other →
      before.canonical.get? name = some other ∨ other = target)
    (held : after.Holds landing.target)
    (leads : after.LeadsTo id landing)
    (mention : landing.target ≠ target → after.mentionsName landing.target = true)
    (found : after.canonical.get?
      (after.resolveAlias (after.definition landing.target).name) = some target) :
    Ends (do
        if target = landing.target then return landing
        forwardTo landing.target target none
        return { landing with target := (← get).follow target }) after
      (fun landing after => Landed before id landing after) fun _ => False := by
  refine ends_ite (fun same => ?_) fun different => ?_
  · exact ⟨settling, arena, consistent.settled_of_canonical (same ▸ found), leads, same ▸ promoted⟩
  · have step : SettlingStep after (after.withdraw landing.target ⟨target, none⟩) :=
      .withdraw held (mention (Ne.symm different)) found (Ne.symm different)
    have ended : (after.withdraw landing.target ⟨target, none⟩).follow target = target :=
      follow_of_forward_eq_none
        ((step.consistent consistent).forward_of_canonical (step.canonical found))
    simp only [forwardTo, ends_bind, ends_pure, if_neg (Ne.symm different), ends_modify, ends_get]
    simp only [withdraw] at step ended
    rw [ended]
    exact ⟨settling.tail step, arena, (step.consistent consistent).settled_of_canonical found,
      .inr ⟨_, found⟩, promoted⟩

/-- A mention whose name becomes canonical stays one, unless it is the canonical definition. -/
theorem Consistent.mentionsName_establish (consistent : catalog.Consistent) {id target : TypeId}
    (mention : catalog.mentionsName id = true)
    (present : catalog.provisional.get? (catalog.resolveAlias (catalog.definition id).name) =
      some target)
    (different : id ≠ target) :
    (catalog.establish (catalog.resolveAlias (catalog.definition id).name)
      target).mentionsName id = true := by
  rw [mentionsName_iff] at mention ⊢
  refine mention.imp_right (And.imp_right (Or.imp_right fun own => ?_))
  have known : catalog.isKnown (catalog.definition id).name = true := by
    simp [Catalog.isKnown, known?, own]
  have resolved := AliasTable.resolve_of_not_isSpelling (consistent.unspelled _ known)
  rw [resolveAlias, resolved] at present
  exact absurd (Option.some.inj (own.symm.trans present)) different

theorem ends_resolve (consistent : catalog.Consistent) {id : TypeId} (held : catalog.Holds id) :
    Ends (resolve id) catalog (fun landing after => Landed catalog id landing after)
      (· = catalog) := by
  have hereHeld : catalog.Holds (catalog.landing id).target := by
    rw [target_landing]
    exact consistent.holds_follow held
  have leads := consistent.leadsTo_landing id
  have unforwarded : catalog.forward.get? (catalog.landing id).target = none := by
    rw [target_landing]
    exact consistent.forward_follow id
  have landed (final : catalog.mentionsName (catalog.landing id).target = false) :
      Landed catalog id (catalog.landing id) catalog :=
    ⟨.refl, rfl, ⟨unforwarded, .inr final⟩, leads, fun _ _ found => .inl found⟩
  simp only [resolve, ends_bind, ends_get]
  refine ends_ite (fun mention => ?_) fun final => landed (by simpa using final)
  rw [ends_bind]
  refine ends_promote _ (fun target found => ?_) (fun target free present => ?_) fun unknown => ?_
  · exact (landed_of_canonical consistent .refl rfl (fun _ _ found => .inl found) hereHeld leads
      (fun _ => mention) found).mono (fun _ _ landed => landed) fun _ ended => ended.elim
  · have step := SettlingStep.promote free present
    have found : (catalog.establish (catalog.resolveAlias
        (catalog.definition (catalog.landing id).target).name) target).canonical.get?
          (catalog.resolveAlias (catalog.definition (catalog.landing id).target).name) =
            some target := by
      simp [OrderedMap.get?_set]
    refine (landed_of_canonical (step.consistent consistent) (.single step) rfl
      (fun name other found => ?_) hereHeld (leads.imp_right
        (Exists.imp fun _ found => step.canonical found))
      (consistent.mentionsName_establish mention present)
      found).mono (fun _ _ landed => landed) fun _ ended => ended.elim
    rw [establish_canonical, OrderedMap.get?_set] at found
    split at found
    · exact .inr (Option.some.inj found).symm
    · exact .inl found
  · refine ends_ite (fun _ => rfl) fun notUnknown => ?_
    have named : (catalog.definition (catalog.landing id).target).isNamed = true := by
      exact (((mentionsName_iff _ _).mp mention).resolve_left notUnknown).1
    have known := consistent.named _ hereHeld named
    rw [resolveAlias,
      AliasTable.resolve_of_not_isSpelling (consistent.unspelled _ known)] at unknown
    exact absurd known (by simp [unknown])

/-- What resolving each of several ids leaves. -/
structure AllLanded (before : Catalog) (ids : List TypeId) (landings : List Landing)
    (after : Catalog) : Prop where
  settling : Settling before after
  arena : after.arena = before.arena
  settled : ∀ landing ∈ landings, after.Settled landing.target
  leads : List.Forall₂ after.LeadsTo ids landings
  canonical : ∀ name other, after.canonical.get? name = some other →
    before.canonical.get? name = some other ∨ other ∈ landings.map Landing.target

theorem LeadsTo.settling {id : TypeId} {landing : Landing} (leads : before.LeadsTo id landing)
    (settling : Settling before after) : after.LeadsTo id landing :=
  leads.imp_right (Exists.imp fun _ found => settling.canonical found)

theorem AllLanded.cons {middle : Catalog} {id : TypeId} {ids : List TypeId} {landing : Landing}
    {landings : List Landing} (consistent : middle.Consistent)
    (first : Landed before id landing middle) (others : AllLanded middle ids landings after) :
    AllLanded before (id :: ids) (landing :: landings) after where
  settling := first.settling.trans others.settling
  arena := others.arena.trans first.arena
  settled := List.forall_mem_cons.mpr
    ⟨others.settling.settled consistent first.settled, others.settled⟩
  leads := .cons (first.leads.settling others.settling) others.leads
  canonical name other found := by
    rw [List.map_cons, List.mem_cons]
    rcases others.canonical name other found with found | member
    · exact (first.canonical name other found).imp_right .inl
    · exact .inr (.inr member)

theorem ends_mapM_resolve (consistent : catalog.Consistent) (ids : List TypeId)
    (held : ∀ id ∈ ids, catalog.Holds id) :
    Ends (ids.mapM resolve) catalog (fun landings after => AllLanded catalog ids landings after)
      (Settling catalog) := by
  induction ids generalizing catalog with
  | nil => exact ⟨.refl, rfl, by simp, .nil, fun _ _ found => .inl found⟩
  | cons id rest ih =>
    obtain ⟨idHeld, restHeld⟩ := List.forall_mem_cons.mp held
    simp only [List.mapM_cons, ends_bind]
    refine (ends_resolve consistent idHeld).mono (fun landing middle first => ?_)
      fun after same => same ▸ .refl
    have middleConsistent := first.settling.consistent consistent
    have middleHeld : ∀ other ∈ rest, middle.Holds other := fun other member =>
      (first.settling.holds_iff other).mpr (restHeld other member)
    refine (ih middleConsistent middleHeld).mono (fun landings after others => ?_)
      fun after more => first.settling.trans more
    exact .cons middleConsistent first others

end DocShapes.Catalog
