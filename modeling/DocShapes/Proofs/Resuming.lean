import DocShapes.Proofs.Alike
import DocShapes.Proofs.Permanence
import DocShapes.Proofs.Resolving

/-! # Resuming after an unknown name

A walk that meets a name nobody knows stops there, and leaves behind what it resolved on its way.
Once a type of that name is registered, the walk can start again from what it left: it ends as one
that finds the type registered from the beginning (`Reachable.dereference_resumes`). What was
resolved before the stop is found resolved, and no part of it had to do with the missing name
(`resolve_enroll`); a definition that was visited before the stop is visited once more without a
change (`settleFrom_revisit`).
-/

namespace DocShapes.Catalog

variable {catalog before after broken : Catalog} {definition : Definition}

/-! ## A new type -/

/-- The definition can be registered under a name that nobody knows. -/
structure Enrollable (catalog : Catalog) (definition : Definition) : Prop where
  registrable : catalog.Registrable definition
  children : ∀ child ∈ definition.shape.children, catalog.Holds child
  unknown : catalog.provisional.get? definition.name = none

/-- The catalog with the definition registered. -/
def enroll (catalog : Catalog) (definition : Definition) : Catalog :=
  (catalog.push definition).establish definition.name catalog.next

theorem Enrollable.consistent (enrollable : catalog.Enrollable definition)
    (consistent : catalog.Consistent) : (catalog.enroll definition).Consistent :=
  (NamingStep.establish enrollable.registrable enrollable.children
    enrollable.unknown).consistent consistent

theorem Enrollable.known?_eq_none (enrollable : catalog.Enrollable definition) :
    catalog.known? definition.name = none := by
  simp [known?, enrollable.registrable.free, enrollable.unknown]

theorem Enrollable.register_eq (enrollable : catalog.Enrollable definition) :
    register definition catalog = .ok catalog.next (catalog.enroll definition) := by
  have accepted : checkRegistrable definition catalog = .ok () catalog := by
    obtain ⟨named, unspelled, free⟩ := enrollable.registrable
    simp only [checkRegistrable, get_bind, named, unspelled, free, OrderedMap.contains,
      Option.isSome_none, Bool.not_true, Bool.false_eq_true, ↓reduceIte]
    rfl
  rw [register, bind_of_ok accepted]
  rw [get_bind, enrollable.unknown]
  rw [enroll, establish, push_provisional, OrderedMap.erase_of_get?_eq_none enrollable.unknown]
  rfl

/-- What nobody knows after settling, nobody knew before. -/
theorem Enrollable.of_settling (enrollable : after.Enrollable definition)
    (consistent : before.Consistent) (settling : Settling before after) :
    before.Enrollable definition where
  registrable :=
    { named := enrollable.registrable.named
      unspelled := settling.aliases ▸ enrollable.registrable.unspelled
      free := by
        by_contra found
        obtain ⟨id, found⟩ := Option.ne_none_iff_exists'.mp found
        simpa [settling.canonical found] using enrollable.registrable.free }
  children child inside := (settling.holds_iff child).mp (enrollable.children child inside)
  unknown := by
    by_contra found
    obtain ⟨id, found⟩ := Option.ne_none_iff_exists'.mp found
    obtain ⟨other, found | found⟩ := (settling.lasting consistent).provisional _ id found
    · simpa [found] using enrollable.unknown
    · simpa [found] using enrollable.registrable.free

theorem definition_enroll {id : TypeId} (held : catalog.Holds id) :
    (catalog.enroll definition).definition id = catalog.definition id := by
  rw [enroll, definition_establish, definition_push, if_neg (ne_next_of_holds held)]

theorem Enrollable.provisional_enroll (enrollable : catalog.Enrollable definition) :
    (catalog.enroll definition).provisional = catalog.provisional := by
  rw [enroll, establish_provisional, push_provisional,
    OrderedMap.erase_of_get?_eq_none enrollable.unknown]

theorem Enrollable.mentionsName_enroll (enrollable : catalog.Enrollable definition) {id : TypeId}
    (held : catalog.Holds id) :
    (catalog.enroll definition).mentionsName id = catalog.mentionsName id := by
  rw [mentionsName, mentionsName, definition_enroll held, enrollable.provisional_enroll]

theorem known?_enroll {name : String} (different : definition.name ≠ name) :
    (catalog.enroll definition).known? name = catalog.known? name := by
  rw [enroll, known?_establish, if_neg different, known?_push]

/-- A name that becomes canonical can do so before or after another one is registered. -/
theorem alike_lead_enroll {name : String} (different : definition.name ≠ name)
    (source target : TypeId) :
    ((catalog.enroll definition).lead name source target).Alike
      ((catalog.lead name source target).enroll definition) := by
  have swapped : ((catalog.enroll definition).establish name target).Alike
      ((catalog.establish name target).enroll definition) := by
    refine ⟨rfl, fun other => ?_, ?_, rfl, rfl, rfl, rfl, rfl⟩
    · simp only [enroll, establish_canonical, push_canonical, OrderedMap.get?_set]
      by_cases own : definition.name = other
      · rw [if_pos own, if_neg fun same => different (own.trans same.symm), if_pos own]
        rfl
      · rw [if_neg own, if_neg own]
    · simp only [enroll, establish_provisional, push_provisional]
      exact OrderedMap.erase_comm _ _ _
  rw [lead, lead]
  split
  · exact swapped
  · exact swapped.withdraw source ⟨target, none⟩

theorem resolve_enroll (consistent : catalog.Consistent) {id : TypeId} (held : catalog.Holds id)
    {landing : Landing} (done : resolve id catalog = .ok landing after)
    (enrollable : after.Enrollable definition) :
    Matched (resolve id (catalog.enroll definition)) (.ok landing (after.enroll definition)) := by
  have landed := (ends_resolve consistent held).of_ok done
  have first := enrollable.of_settling consistent landed.settling
  have hereHeld : catalog.Holds (catalog.landing id).target := by
    rw [target_landing]
    exact consistent.holds_follow held
  have enrolledHeld : (catalog.enroll definition).Holds id := by simp [enroll, held]
  have here : (catalog.enroll definition).landing id = catalog.landing id := by
    apply landing_congr
    rfl
  have same : (catalog.enroll definition).wanted (catalog.landing id).target =
      catalog.wanted (catalog.landing id).target := by
    rw [wanted, wanted, definition_enroll hereHeld]
    rfl
  rw [resolve_eq (first.consistent consistent) enrolledHeld, here, same,
    first.mentionsName_enroll hereHeld]
  rw [resolve_eq consistent held] at done
  split at done
  · rename_i mention
    rw [if_pos mention]
    split at done
    · rename_i target known
      cases done
      have different : definition.name ≠ catalog.wanted (catalog.landing id).target := by
        intro equal
        rw [← equal, first.known?_eq_none] at known
        cases known
      rw [known?_enroll different, known]
      exact .ok _ (alike_lead_enroll different _ _)
    · cases done
  · rename_i mention
    rw [if_neg mention]
    cases done
    exact .refl _

/-! ## Lists of ids -/

theorem mapM_resolve_cons {id : TypeId} {rest : List TypeId} {landings : List Landing}
    (done : (id :: rest).mapM resolve before = .ok landings after) :
    ∃ landing middle others, resolve id before = .ok landing middle ∧
      rest.mapM resolve middle = .ok others after ∧ landings = landing :: others := by
  rw [List.mapM_cons] at done
  obtain ⟨landing, middle, first, done⟩ := of_bind_eq_ok done
  obtain ⟨others, last, more, done⟩ := of_bind_eq_ok done
  cases done
  exact ⟨landing, middle, others, first, more, rfl⟩

theorem mapM_resolve_cons_error {id : TypeId} {rest : List TypeId} {error : Error}
    (fails : (id :: rest).mapM resolve before = .error error after) :
    resolve id before = .error error after ∨
      ∃ landing middle, resolve id before = .ok landing middle ∧
        rest.mapM resolve middle = .error error after := by
  rw [List.mapM_cons] at fails
  refine (of_bind_eq_error fails).imp_right ?_
  rintro ⟨landing, middle, first, fails⟩
  rcases of_bind_eq_error fails with stuck | ⟨others, last, _, fails⟩
  · exact ⟨landing, middle, first, stuck⟩
  · cases fails

theorem mapM_resolve_enroll (consistent : before.Consistent) {ids : List TypeId}
    (held : ∀ id ∈ ids, before.Holds id) {landings : List Landing}
    (done : ids.mapM resolve before = .ok landings after)
    (enrollable : after.Enrollable definition) :
    Matched (ids.mapM resolve (before.enroll definition))
      (.ok landings (after.enroll definition)) := by
  induction ids generalizing before landings with
  | nil =>
    cases done
    exact .refl _
  | cons id rest ih =>
    obtain ⟨idHeld, restHeld⟩ := List.forall_mem_cons.mp held
    obtain ⟨landing, middle, others, first, more, rfl⟩ := mapM_resolve_cons done
    have landed := (ends_resolve consistent idHeld).of_ok first
    have now := landed.settling.consistent consistent
    have stillHeld : ∀ other ∈ rest, middle.Holds other := fun other member =>
      (landed.settling.holds_iff other).mpr (restHeld other member)
    have settling := ((ends_mapM_resolve now rest stillHeld).of_ok more).settling
    have enrolled := resolve_enroll consistent idHeld first (enrollable.of_settling now settling)
    rw [List.mapM_cons]
    refine (enrolled.next ?_).trans ((ih now stillHeld more).next (.pure _))
    exact (Respects.mapM respects_resolve rest).bind fun _ => .pure _

/-- When one of several ids leads to a name that nobody knows, and a type of this name is
registered then, resolving all of them once more is like resolving them with the type there from
the beginning. -/
theorem mapM_resolve_resumes (consistent : before.Consistent) {ids : List TypeId}
    (held : ∀ id ∈ ids, before.Holds id) {error : Error}
    (fails : ids.mapM resolve before = .error error broken)
    (enrollable : broken.Enrollable definition) :
    Matched (ids.mapM resolve (broken.enroll definition))
      (ids.mapM resolve (before.enroll definition)) := by
  induction ids generalizing before with
  | nil => cases fails
  | cons id rest ih =>
    obtain ⟨idHeld, restHeld⟩ := List.forall_mem_cons.mp held
    rcases mapM_resolve_cons_error fails with stuck | ⟨landing, middle, first, more⟩
    · rw [(ends_resolve consistent idHeld).of_error stuck]
      exact .refl _
    · have landed := (ends_resolve consistent idHeld).of_ok first
      have now := landed.settling.consistent consistent
      have stillHeld : ∀ other ∈ rest, middle.Holds other := fun other member =>
        (landed.settling.holds_iff other).mpr (restHeld other member)
      have settling := (ends_mapM_resolve now rest stillHeld).of_error more
      have kept := ((ends_mapM_resolve_delivered now rest stillHeld).of_error more).1
      -- The first id leads where it did, from what the failure left and with the new type.
      have again := resolve_again consistent idHeld first settling kept
      have brokenHeld : broken.Holds id :=
        (settling.holds_iff id).mpr ((landed.settling.holds_iff id).mpr idHeld)
      have resumed := resolve_enroll (settling.consistent now) brokenHeld again enrollable
      have direct := resolve_enroll consistent idHeld first (enrollable.of_settling now settling)
      have others : Respects (do return landing :: (← rest.mapM resolve)) :=
        (Respects.mapM respects_resolve rest).bind fun _ => .pure _
      rw [List.mapM_cons]
      refine ((resumed.next others).trans ?_).trans (direct.next others).symm
      exact (ih now stillHeld more).bind fun found after other same => .ok _ same

/-! ## Walks -/

theorem enroll_relinked {id : TypeId} (held : catalog.Holds id) (landings : List Landing) :
    (catalog.relinked id landings).enroll definition =
      (catalog.enroll definition).relinked id landings := by
  have arena (other : Definition) :
      (catalog.arena.setIfInBounds id.index other).push definition =
        (catalog.arena.push definition).setIfInBounds id.index other := by
    have bound : id.index < catalog.arena.size := held
    grind
  rw [relinked, relinked, definition_enroll held]
  simp only [enroll, establish, push, put, next, arena, Array.size_setIfInBounds]

theorem shape_enroll {id : TypeId} (held : catalog.Holds id) :
    (catalog.enroll definition).shape id = catalog.shape id := by
  rw [Catalog.shape, definition_enroll held]
  rfl

theorem relinked_of_children {id : TypeId} :
    catalog.relinked id ((catalog.shape id).children.map fun child => ⟨child, none⟩) = catalog := by
  have same : (catalog.definition id).shape.relink
      ((catalog.shape id).children.map fun child => ⟨child, none⟩) = catalog.shape id :=
    relink_self (catalog.shape id)
  rw [relinked, same]
  exact put_definition catalog id

/-- Visiting a definition whose children lead to where they are resolved to. -/
theorem settleFrom_visit {id : TypeId} {seen : List TypeId} {landings : List Landing}
    (fuel : Nat) (stack : List TypeId) (unseen : id ∉ seen)
    (resolved : Matched ((before.shape id).children.mapM resolve before) (.ok landings after)) :
    Matched (settleFrom (fuel + 1) (id :: stack) seen before)
      (settleFrom fuel (landings.map Landing.target ++ stack) (id :: seen)
        (after.relinked id landings)) := by
  rw [settleFrom, if_neg unseen, get_bind]
  refine resolved.next fun left right alike => .get ?_
  rw [alike.definition]
  exact respects_settleFrom _ _ _ _ _ (alike.put id _)

/-- A visit with a new type around. -/
theorem settleFrom_visit_enroll {id : TypeId} {seen : List TypeId} (fuel : Nat)
    (stack : List TypeId) (consistent : before.Consistent) (held : before.Holds id)
    {landings : List Landing} (unseen : id ∉ seen)
    (resolved : (before.shape id).children.mapM resolve before = .ok landings after)
    (enrollable : after.Enrollable definition) :
    Matched (settleFrom (fuel + 1) (id :: stack) seen (before.enroll definition))
      (settleFrom fuel (landings.map Landing.target ++ stack) (id :: seen)
        ((after.relinked id landings).enroll definition)) := by
  have childHeld := consistent.linked id held
  have landed := (ends_mapM_resolve consistent _ childHeld).of_ok resolved
  have enrolled := mapM_resolve_enroll consistent childHeld resolved enrollable
  rw [← shape_enroll held] at enrolled
  rw [enroll_relinked ((landed.settling.holds_iff id).mpr held)]
  exact settleFrom_visit fuel stack unseen enrolled

/-- A definition whose parts are settled is visited once more without a change. -/
theorem settleFrom_revisit {id : TypeId} {seen : List TypeId} (fuel : Nat) (stack : List TypeId)
    (consistent : catalog.Consistent) (held : catalog.Holds id) (unseen : id ∉ seen)
    (settled : ∀ child ∈ (catalog.shape id).children, catalog.Settled child)
    (enrollable : catalog.Enrollable definition) :
    Matched (settleFrom (fuel + 1) (id :: stack) seen (catalog.enroll definition))
      (settleFrom fuel ((catalog.shape id).children ++ stack) (id :: seen)
        (catalog.enroll definition)) := by
  have visited := settleFrom_visit_enroll fuel stack consistent held unseen
    (mapM_resolve_eq consistent settled) enrollable
  simpa only [relinked_of_children, List.map_map, Function.comp_def, List.map_id'] using visited

/-- A visit fails while it resolves the children of its definition, or after it. -/
theorem settleFrom_fails {id : TypeId} {stack seen : List TypeId} {fuel : Nat} {error : Error}
    (unseen : id ∉ seen)
    (fails : settleFrom (fuel + 1) (id :: stack) seen before = .error error broken) :
    (before.shape id).children.mapM resolve before = .error error broken ∨
      ∃ landings middle, (before.shape id).children.mapM resolve before = .ok landings middle ∧
        settleFrom fuel (landings.map Landing.target ++ stack) (id :: seen)
          (middle.relinked id landings) = .error error broken := by
  rw [settleFrom, if_neg unseen, get_bind] at fails
  exact of_bind_eq_error fails

/-- A visit that fails while it resolves the children changes no definition, and the children are
resolved once more. -/
theorem settleFrom_resumes_resolving {id : TypeId} {stack seen : List TypeId} (fuel : Nat)
    (consistent : before.Consistent) (held : before.Holds id) (unseen : id ∉ seen) {error : Error}
    (stuck : (before.shape id).children.mapM resolve before = .error error broken)
    (enrollable : broken.Enrollable definition) :
    Matched (settleFrom (fuel + 1) (id :: stack) seen (broken.enroll definition))
      (settleFrom (fuel + 1) (id :: stack) seen (before.enroll definition)) := by
  have childHeld := consistent.linked id held
  have settling := (ends_mapM_resolve consistent _ childHeld).of_error stuck
  have brokenHeld : broken.Holds id := (settling.holds_iff id).mpr held
  have same : broken.shape id = before.shape id := by
    rw [Catalog.shape, Catalog.definition,
      ((ends_mapM_resolve_delivered consistent _ childHeld).of_error stuck).2]
    rfl
  simp only [settleFrom, if_neg unseen, get_bind, shape_enroll held, shape_enroll brokenHeld, same]
  refine (mapM_resolve_resumes consistent childHeld stuck enrollable).bind
    fun landings left right alike => .get ?_
  rw [alike.definition]
  exact respects_settleFrom _ _ _ _ _ (alike.put id _)

/-- A walk that has stopped goes on from what it left as from the beginning: each of its visits
either failed while it resolved children, or is repeated without a change. -/
theorem settleFrom_resumes (fuel extra : Nat) {stack seen : List TypeId}
    (walk : before.Walk stack seen) {error : Error}
    (fails : settleFrom fuel stack seen before = .error error broken)
    (enrollable : broken.Enrollable definition) :
    Matched (settleFrom (fuel + extra) stack seen (broken.enroll definition))
      (settleFrom (fuel + extra) stack seen (before.enroll definition)) := by
  induction fuel generalizing before stack seen with
  | zero => cases fails
  | succ fuel ih =>
    cases stack with
    | nil => cases fails
    | cons id stack =>
      rw [Nat.succ_add]
      by_cases member : id ∈ seen
      · rw [settleFrom, if_pos member] at fails
        simp only [settleFrom, if_pos member]
        exact ih (walk.skip member) fails
      · have held := walk.held id List.mem_cons_self
        rcases settleFrom_fails member fails with stuck | ⟨landings, middle, resolved, later⟩
        · exact settleFrom_resumes_resolving _ walk.consistent held member stuck enrollable
        · have landed := (ends_mapM_resolve walk.consistent _
            (walk.consistent.linked id held)).of_ok resolved
          have visited := walk.visit landed
          have delivers := (ends_settleFrom_delivers visited.consistent fuel _ _ .refl
            visited.held).of_error later
          have children : ((middle.relinked id landings).shape id).children =
              landings.map Landing.target := by
            rw [landed.children_relinked held, if_pos rfl]
          have settled : ∀ child ∈ ((middle.relinked id landings).shape id).children,
              (middle.relinked id landings).Settled child := by
            rw [children]
            exact fun child inside => visited.settled child (.inl (List.mem_append_left _ inside))
          -- What the visit has made of the definition stays.
          have same := delivers.shape_of_settled settled
          have brokenHeld : broken.Holds id := (delivers.settling.holds_iff id).mpr
            (((landed.relink held).holds_iff id).mpr ((landed.settling.holds_iff id).mpr held))
          have again := settleFrom_revisit (fuel + extra) stack
            (delivers.consistent visited.consistent) brokenHeld member
            (fun child inside => delivers.settling.settled visited.consistent
              (settled child (same ▸ inside))) enrollable
          have settling : Settling middle broken := .head (landed.relink held) delivers.settling
          have direct := settleFrom_visit_enroll (fuel + extra) stack walk.consistent held member
            resolved (enrollable.of_settling (landed.settling.consistent walk.consistent) settling)
          rw [same, children] at again
          exact (again.trans (ih visited later)).trans direct.symm

theorem slotCount_enroll (catalog : Catalog) (definition : Definition) :
    (catalog.enroll definition).slotCount = catalog.slotCount + definition.shape.slots.length := by
  simp [slotCount, enroll]

theorem settle_resumes (consistent : before.Consistent) {ids : List TypeId}
    (held : ∀ id ∈ ids, before.Holds id) (settled : ∀ id ∈ ids, before.Settled id) {error : Error}
    (fails : settle ids before = .error error broken) (enrollable : broken.Enrollable definition) :
    Matched (settle ids (broken.enroll definition)) (settle ids (before.enroll definition)) := by
  have delivers := (ends_settle_delivers consistent .refl ids held).of_error fails
  rw [settle, get_bind] at fails ⊢
  rw [get_bind, slotCount_enroll, slotCount_enroll, delivers.slotCount, ← Nat.add_assoc]
  exact settleFrom_resumes _ _ ⟨consistent, held, by simpa using settled, by simp⟩ fails enrollable

/-! ## Names that nobody knows -/

/-- When the step stops at a name, nobody knows it. -/
def StopsAtUnknown {α : Type} (step : CatalogM α) : Prop :=
  ∀ before word after, step before = .error (.unresolved word) after →
    after.isKnown (after.resolveAlias word) = false

section

variable {α β : Type}

theorem StopsAtUnknown.pure (found : α) : StopsAtUnknown (Pure.pure found : CatalogM α) :=
  fun _ _ _ fails => by cases fails

theorem StopsAtUnknown.get {next : Catalog → CatalogM α}
    (more : ∀ catalog, StopsAtUnknown (next catalog)) :
    StopsAtUnknown (MonadState.get >>= next) :=
  fun before => more before before

theorem StopsAtUnknown.bind {step : CatalogM α} {next : α → CatalogM β}
    (first : StopsAtUnknown step) (more : ∀ found, StopsAtUnknown (next found)) :
    StopsAtUnknown (step >>= next) := by
  intro before word after fails
  rcases of_bind_eq_error fails with stuck | ⟨found, middle, _, fails⟩
  · exact first before word after stuck
  · exact more found middle word after fails

theorem StopsAtUnknown.mapM {step : α → CatalogM β} (each : ∀ item, StopsAtUnknown (step item))
    (items : List α) : StopsAtUnknown (items.mapM step) := by
  induction items with
  | nil => exact .pure []
  | cons item rest ih =>
    rw [List.mapM_cons]
    exact (each item).bind fun found => ih.bind fun others => .pure (found :: others)

end

theorem promote_eq_ok (catalog : Catalog) (word : String) :
    ∃ target? after, promote word catalog = .ok target? after ∧
      (target? = none → after.isKnown (after.resolveAlias word) = false) :=
  (ends_promote word (fun _ _ none => by cases none) (fun _ _ _ none => by cases none)
    fun unknown _ => unknown).exists_ok

theorem stopsAtUnknown_resolve (id : TypeId) : StopsAtUnknown (resolve id) := by
  intro before word after fails
  rw [resolve, get_bind] at fails
  dsimp only at fails
  split at fails
  · obtain ⟨target?, middle, promoted, missed⟩ :=
      before.promote_eq_ok (before.definition (before.landing id).target).name
    rw [bind_of_ok promoted] at fails
    cases target? with
    | none =>
      dsimp only at fails
      split at fails
      · cases fails
        exact missed rfl
      · cases fails
    | some target =>
      dsimp only at fails
      split at fails
      · cases fails
      · rw [forwardTo] at fails
        split at fails <;> cases fails
  · cases fails

theorem stopsAtUnknown_settleFrom (fuel : Nat) (stack seen : List TypeId) :
    StopsAtUnknown (settleFrom fuel stack seen) := by
  induction fuel generalizing stack seen with
  | zero => exact .pure ()
  | succ fuel ih =>
    cases stack with
    | nil => exact .pure ()
    | cons id stack =>
      rw [settleFrom]
      split
      · exact ih stack seen
      · refine .get fun catalog => (StopsAtUnknown.mapM stopsAtUnknown_resolve _).bind
          fun landings => .get fun state => StopsAtUnknown.bind ?_ fun _ => ih _ _
        exact fun _ _ _ fails => by cases fails

/-! ## Slots outside the catalog -/

/-- The rest of a dereferencing, once the slot has been resolved. -/
def finish (slot : Slot) (landing : Landing) : CatalogM (Slot × Option Error) := do
  match ← attempt (settle [landing.target]) with
  | .error error => return (landOutside slot landing, some error)
  | .ok _ => return (landOutside slot landing, none)

/-- A slot that has landed lands where it is. -/
theorem finish_landOutside (slot : Slot) (landing : Landing) :
    finish (landOutside slot landing) ⟨(landOutside slot landing).target, none⟩ =
      finish slot landing := by
  simp only [finish, landOutside_self]
  rw [target_landOutside]

theorem finish_resumes {slot : Slot} {landing : Landing} {left right : Catalog}
    (settles : Matched (settle [landing.target] left) (settle [landing.target] right)) :
    Matched (finish slot landing left) (finish slot landing right) := by
  refine settles.attempt.bind fun result after other same => ?_
  cases result with
  | error error => exact .ok _ same
  | ok => exact .ok _ same

theorem dereference_of_resolved {slot : Slot} {landing : Landing}
    (resolved : Matched (resolve slot.target before) (.ok landing after)) :
    Matched (dereference slot before) (finish slot landing after) := by
  have attempted : Matched (attempt (resolve slot.target) before) (.ok (.ok landing) after) :=
    @Matched.attempt _ _ _ _ (pure landing) resolved
  rw [dereference]
  refine attempted.next fun left right alike => finish_resumes ?_
  exact respects_settle _ left right alike

/-- A dereferencing fails at its slot, or at what the slot leads to. -/
theorem dereference_fails {slot partly : Slot} {error : Error}
    (fails : dereference slot before = .ok (partly, some error) broken) :
    (resolve slot.target before = .error error broken ∧ partly = slot) ∨
      ∃ landing middle, resolve slot.target before = .ok landing middle ∧
        settle [landing.target] middle = .error error broken ∧
        partly = landOutside slot landing := by
  cases resolved : resolve slot.target before with
  | error other stopped =>
    rw [dereference, bind_of_ok (attempt_of_error resolved)] at fails
    cases fails
    exact .inl ⟨rfl, rfl⟩
  | ok landing middle =>
    rw [dereference, bind_of_ok (attempt_of_ok resolved)] at fails
    change finish slot landing middle = _ at fails
    cases settled : settle [landing.target] middle with
    | error other stopped =>
      rw [finish, bind_of_ok (attempt_of_error settled)] at fails
      cases fails
      exact .inr ⟨landing, middle, rfl, settled, rfl⟩
    | ok done last =>
      rw [finish, bind_of_ok (attempt_of_ok settled)] at fails
      cases fails

theorem stopsAtUnknown_dereference {slot partly : Slot} {word : String}
    (fails : dereference slot before = .ok (partly, some (.unresolved word)) broken) :
    broken.isKnown (broken.resolveAlias word) = false := by
  rcases dereference_fails fails with ⟨stuck, _⟩ | ⟨landing, middle, _, stuck, _⟩
  · exact stopsAtUnknown_resolve slot.target before word broken stuck
  · exact StopsAtUnknown.get (fun _ => stopsAtUnknown_settleFrom _ _ _) middle word broken stuck

/-- A slot whose walk has stopped goes on from what that left as from the beginning. -/
theorem dereference_matched (consistent : before.Consistent) {slot partly : Slot}
    (held : before.Holds slot.target) {error : Error}
    (fails : dereference slot before = .ok (partly, some error) broken)
    (enrollable : broken.Enrollable definition) :
    Matched (dereference partly (broken.enroll definition))
      (dereference slot (before.enroll definition)) := by
  rcases dereference_fails fails with ⟨stuck, rfl⟩ | ⟨landing, middle, first, stuck, rfl⟩
  · rw [(ends_resolve consistent held).of_error stuck]
    exact .refl _
  · have landed := (ends_resolve consistent held).of_ok first
    have now := landed.settling.consistent consistent
    have targetHeld : middle.Holds landing.target :=
      now.holds_of_leads (by simpa using (landed.settling.holds_iff _).mpr held)
        (.cons landed.leads .nil) landing List.mem_cons_self
    have delivers := (ends_settle_delivers now .refl [landing.target]
      (by simpa using targetHeld)).of_error stuck
    have later := delivers.consistent now
    have settled := delivers.settling.settled now landed.settled
    -- The slot has landed already, so it stays where it is.
    have again : resolve (landOutside slot landing).target broken =
        .ok ⟨(landOutside slot landing).target, none⟩ broken := by
      rw [target_landOutside]
      exact settled.resolve_eq later
    have brokenHeld : broken.Holds (landOutside slot landing).target := by
      rw [target_landOutside]
      exact (delivers.settling.holds_iff _).mpr targetHeld
    have resumed := dereference_of_resolved (resolve_enroll later brokenHeld again enrollable)
    have direct := dereference_of_resolved
      (resolve_enroll consistent held first (enrollable.of_settling now delivers.settling))
    have settles := settle_resumes now (by simpa using targetHeld) (by simpa using landed.settled)
      stuck enrollable
    rw [finish_landOutside] at resumed
    exact (resumed.trans (finish_resumes settles)).trans direct.symm

theorem registrable_of_succeeds (accepted : succeeds (register definition) catalog = true) :
    catalog.Registrable definition := by
  obtain ⟨id, registered⟩ := eq_ok_of_succeeds accepted
  have ends : Ends (register definition) catalog (fun _ _ => catalog.Registrable definition)
      fun _ => True := ends_registrable trivial fun registrable => by
    unfold Ends
    split
    · exact registrable
    · trivial
  exact ends.of_ok registered

/-- Both before and after a walk has stopped at a name, the same definitions of it are accepted. -/
theorem enrollable_of_accepted (settling : Settling catalog broken)
    (children : ∀ child ∈ definition.shape.children, catalog.Holds child)
    (missed : broken.isKnown definition.name = false)
    (accepted : succeeds (register definition) broken = true ∨
      succeeds (register definition) catalog = true) :
    broken.Enrollable definition := by
  have fit : definition.isNamed = true ∧ broken.aliases.isSpelling definition.name = false := by
    rcases accepted with accepted | accepted
    · have registrable := registrable_of_succeeds accepted
      exact ⟨registrable.named, registrable.unspelled⟩
    · have registrable := registrable_of_succeeds accepted
      exact ⟨registrable.named, settling.aliases ▸ registrable.unspelled⟩
  have known : broken.known? definition.name = none := by
    simpa [isKnown] using missed
  have free : broken.canonical.get? definition.name = none ∧
      broken.provisional.get? definition.name = none := by
    simpa [known?] using known
  exact ⟨⟨fit.1, fit.2, free.1⟩,
    fun child inside => (settling.holds_iff child).mpr (children child inside), free.2⟩

/-- Whatever a dereferenced slot is made of has taken the docs that were kept for its slots. -/
theorem taken_of_dereference (consistent : before.Consistent) {slot landed : Slot}
    (held : before.Holds slot.target)
    (done : dereference slot before = .ok (landed, none) after) :
    (∃ landing, before.Delivered slot.target landing ∧ landed = landOutside slot landing) ∧
      ∀ part, after.Reaches landed.target part →
        ∃ landings, List.Forall₂ before.Delivered (before.shape part).children landings ∧
          after.shape part = (before.shape part).relink landings := by
  obtain ⟨delivers, delivered⟩ :=
    (ends_dereference_delivers consistent .refl slot held).of_ok done
  obtain ⟨landing, same, delivered⟩ := delivered rfl
  obtain ⟨all, walk, seen⟩ := walked_of_dereference consistent held done
  refine ⟨⟨landing, delivered, same⟩, fun part reaches => ?_⟩
  have within := walk.mem_of_reaches seen reaches
  exact delivers.relinked_of_settled fun child inside =>
    walk.settled child (walk.closed part within child inside)

/-- A dereferencing that has stopped at a name nobody knows is resumed once a type of this name is
registered: it gives what dereferencing the original slot gives with the type registered first, the
same slot and the same failure if any, and leaves the same catalog. If there is no failure, each
slot of all that the slot is made of has taken the doc that was kept for its target, once, however
much of it the first walk had come to. -/
theorem Reachable.dereference_resumes (reachable : catalog.Reachable) {slot partly : Slot}
    (held : catalog.Holds slot.target) {word : String}
    (fails : dereference slot catalog = .ok (partly, some (.unresolved word)) broken)
    (named : definition.name = catalog.resolveAlias word)
    (children : ∀ child ∈ definition.shape.children, catalog.Holds child)
    (accepted : succeeds (register definition) broken = true ∨
      succeeds (register definition) catalog = true) :
    ∃ id registered ready result resumed direct,
      register definition broken = .ok id registered ∧
      register definition catalog = .ok id ready ∧
      dereference partly registered = .ok result resumed ∧
      dereference slot ready = .ok result direct ∧
      resumed.Alike direct ∧
      (result.2 = none →
        (∃ landing, ready.Delivered slot.target landing ∧ result.1 = landOutside slot landing) ∧
          ∀ part, resumed.Reaches result.1.target part →
            ∃ landings, List.Forall₂ ready.Delivered (ready.shape part).children landings ∧
              resumed.shape part = (ready.shape part).relink landings) := by
  have consistent := reachable.consistent
  have settling := (ends_dereference consistent slot held).of_ok fails
  have missed : broken.isKnown definition.name = false := by
    rw [named, resolveAlias, ← Settling.aliases settling]
    exact stopsAtUnknown_dereference fails
  have enrollable := enrollable_of_accepted settling children missed accepted
  have first := enrollable.of_settling consistent settling
  have ready := first.consistent consistent
  have readyHeld : (catalog.enroll definition).Holds slot.target := by simp [enroll, held]
  obtain ⟨result, direct, done, _⟩ := (ends_dereference ready slot readyHeld).exists_ok
  have matched := dereference_matched consistent held fails enrollable
  rw [done] at matched
  obtain ⟨resumed, again, alike⟩ := matched.exists_ok
  have next : broken.next = catalog.next := congrArg TypeId.mk (Settling.size settling)
  refine ⟨catalog.next, _, _, result, resumed, direct, next ▸ enrollable.register_eq,
    first.register_eq, again, done, alike, fun complete => ?_⟩
  obtain ⟨landed, error?⟩ := result
  cases complete
  obtain ⟨root, parts⟩ := taken_of_dereference ready readyHeld done
  refine ⟨root, fun part reaches => ?_⟩
  rw [alike.shape]
  exact parts part (reaches.of_arena alike.arena.symm)

/-- Two channels declare one name, and the merge stops at a name in what they declare. -/
def missingWidget : List Operation :=
  [.parseEntries ⟨some .read, false⟩ "x : Foo\n    A.\n    C.\n\n    a : list(widget)",
    .parseEntries ⟨some .write, false⟩ "y : Foo\n    B.\n    C.\n\n    b : int",
    .mergePending]

theorem reachable_missingWidget : (empty.run missingWidget).Reachable :=
  @reachable_run .standard _ _ rfl ⟨trivial, trivial, trivial, trivial⟩

/-- The site takes its line before the walk stops, and has it once in the end. -/
theorem dereference_resumes_widget :
    ∃ partly broken,
      dereference sharedSite (empty.run missingWidget) =
        .ok (partly, some (.unresolved "widget")) broken ∧
      partly.toSite.doc = some "A." ∧
      ∃ id registered ready result resumed direct,
        register (.ofShape (.record "widget" [])) broken = .ok id registered ∧
        register (.ofShape (.record "widget" [])) (empty.run missingWidget) = .ok id ready ∧
        dereference partly registered = .ok result resumed ∧
        dereference sharedSite ready = .ok result direct ∧ resumed.Alike direct ∧
        result.2.isNone = true ∧ result.1.toSite.doc = some "A." := by
  have stops : succeedsWith (fun found => found.2 == some (.unresolved "widget") &&
      found.1.toSite.doc == some "A.") (dereference sharedSite) (empty.run missingWidget) =
        true := by decide +kernel
  have held : (empty.run missingWidget).Holds sharedSite.target := by decide +kernel
  have accepted : succeeds (register (.ofShape (.record "widget" []))) (empty.run missingWidget) =
      true := by decide +kernel
  have passes : succeedsWith (fun found => found.2.isNone && found.1.toSite.doc == some "A.")
      (dereference sharedSite)
      (leaves (register (.ofShape (.record "widget" []))) (empty.run missingWidget)) = true := by
    decide +kernel
  obtain ⟨⟨partly, error?⟩, fails, test⟩ := eq_ok_of_succeedsWith stops
  obtain ⟨rfl, doc⟩ : error? = some (.unresolved "widget") ∧ partly.toSite.doc = some "A." := by
    simpa using test
  have known : (Definition.ofShape (.record "widget" [])).name =
      (empty.run missingWidget).resolveAlias "widget" := by decide +kernel
  obtain ⟨id, registered, ready, result, resumed, direct, later, first, again, done, alike, _⟩ :=
    reachable_missingWidget.dereference_resumes held fails known (by simp [Definition.ofShape,
      Shape.children, Shape.slots]) (.inr accepted)
  have made : leaves (register (.ofShape (.record "widget" []))) (empty.run missingWidget) =
      ready := by rw [leaves, first]
  rw [made, succeedsWith, done] at passes
  exact ⟨partly, _, fails, doc, id, registered, ready, result, resumed, direct, later, first, again,
    done, alike, by simpa using passes⟩

end DocShapes.Catalog
