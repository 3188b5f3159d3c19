import DocShapes.Proofs.Settling
import Mathlib.Algebra.BigOperators.Group.Finset.Basic

/-! # Settling sees everything

A walk that settles definitions visits all that they are made of, and has the steps for it: at
its end the children of everything seen are seen, and nothing seen is left to resolve
(`ends_settle`).
-/

namespace DocShapes.Catalog

variable {catalog before after : Catalog}

/-! ## Steps of a walk -/

/-- The slots of the definitions that a walk has not seen yet. -/
def unseenSlots (catalog : Catalog) (seen : List TypeId) : Nat :=
  ∑ index ∈ (Finset.range catalog.arena.size).filter (fun index => (⟨index⟩ : TypeId) ∉ seen),
    (catalog.shape ⟨index⟩).slots.length

theorem length_flatMap_eq_sum_range (slots : Definition → List Slot)
    (definitions : List Definition) (default : Definition) :
    (definitions.flatMap slots).length =
      ∑ index ∈ Finset.range definitions.length,
        (slots (definitions.getD index default)).length := by
  induction definitions with
  | nil => rfl
  | cons definition rest ih =>
    rw [List.flatMap_cons, List.length_append, ih, List.length_cons, Finset.sum_range_succ']
    exact Nat.add_comm _ _

theorem unseenSlots_nil (catalog : Catalog) : catalog.unseenSlots [] = catalog.slotCount := by
  simp only [unseenSlots, slotCount, List.not_mem_nil, not_false_eq_true, Finset.filter_true,
    length_flatMap_eq_sum_range _ _ (.ofShape (.unknown "")), Array.length_toList]
  refine Finset.sum_congr rfl fun index _ => ?_
  simp [Catalog.shape, Catalog.definition, Array.getD_eq_getD_getElem?, List.getD_eq_getElem?_getD]

theorem unseenSlots_cons {id : TypeId} {seen : List TypeId} (held : catalog.Holds id)
    (unseen : id ∉ seen) :
    catalog.unseenSlots seen =
      catalog.unseenSlots (id :: seen) + (catalog.shape id).slots.length := by
  have split : (Finset.range catalog.arena.size).filter
        (fun index => (⟨index⟩ : TypeId) ∉ id :: seen) =
      ((Finset.range catalog.arena.size).filter (fun index => (⟨index⟩ : TypeId) ∉ seen)).erase
        id.index := by
    ext index
    obtain ⟨own⟩ := id
    simp only [Finset.mem_filter, Finset.mem_erase, List.mem_cons, TypeId.mk.injEq]
    tauto
  have member : id.index ∈ (Finset.range catalog.arena.size).filter
      (fun index => (⟨index⟩ : TypeId) ∉ seen) :=
    Finset.mem_filter.mpr ⟨Finset.mem_range.mpr held, unseen⟩
  rw [unseenSlots, unseenSlots, split, Finset.sum_erase_add _ _ member]

theorem unseenSlots_congr {seen : List TypeId} (size : after.arena.size = before.arena.size)
    (slots : ∀ id, (after.shape id).slots.length = (before.shape id).slots.length) :
    after.unseenSlots seen = before.unseenSlots seen := by
  rw [unseenSlots, unseenSlots, size]
  exact Finset.sum_congr rfl fun index _ => slots ⟨index⟩

/-! ## Walks -/

/-- A walk has seen some definitions and has others on its stack. -/
structure Walk (catalog : Catalog) (stack seen : List TypeId) : Prop where
  consistent : catalog.Consistent
  held : ∀ id ∈ stack, catalog.Holds id
  settled : ∀ id, id ∈ stack ∨ id ∈ seen → catalog.Settled id
  closed : ∀ id ∈ seen, ∀ child ∈ (catalog.shape id).children, child ∈ stack ∨ child ∈ seen

theorem Walk.skip {id : TypeId} {stack seen : List TypeId} (walk : catalog.Walk (id :: stack) seen)
    (member : id ∈ seen) : catalog.Walk stack seen where
  consistent := walk.consistent
  held other within := walk.held other (List.mem_cons_of_mem id within)
  settled other within := walk.settled other (within.imp_left (List.mem_cons_of_mem id))
  closed other within child inside := by
    rcases walk.closed other within child inside with onStack | seen
    · rcases List.mem_cons.mp onStack with rfl | onStack
      · exact .inr member
      · exact .inl onStack
    · exact .inr seen

/-! ## Visits -/

/-- The catalog in which the slots of a definition land. -/
def relinked (catalog : Catalog) (id : TypeId) (landings : List Landing) : Catalog :=
  catalog.put id
    { catalog.definition id with shape := (catalog.definition id).shape.relink landings }

/-- The change that ends a visit. -/
theorem AllLanded.relink {id : TypeId} {landings : List Landing} (held : before.Holds id)
    (landed : AllLanded before (before.shape id).children landings after) :
    SettlingStep after (after.relinked id landings) := by
  refine .relink ((landed.settling.holds_iff id).mpr held) ?_
  rw [Catalog.shape, Catalog.definition, landed.arena]
  exact landed.leads

/-- After a visit the definition is made of the landings, and the other ones are as before. -/
theorem AllLanded.shape_relinked {id : TypeId} {landings : List Landing} (held : before.Holds id)
    (landed : AllLanded before (before.shape id).children landings after) (other : TypeId) :
    (after.relinked id landings).shape other =
      if other = id then (before.shape id).relink landings else before.shape other := by
  have afterHeld : after.Holds id := (landed.settling.holds_iff id).mpr held
  rw [relinked, Catalog.shape, definition_put]
  simp only [afterHeld, and_true]
  split <;> rw [Catalog.definition, landed.arena] <;> rfl

theorem AllLanded.children_relinked {id : TypeId} {landings : List Landing}
    (held : before.Holds id)
    (landed : AllLanded before (before.shape id).children landings after) (other : TypeId) :
    ((after.relinked id landings).shape other).children =
      if other = id then landings.map Landing.target else (before.shape other).children := by
  rw [landed.shape_relinked held]
  split
  · exact children_relink (length_of_leads landed.leads)
  · rfl

theorem AllLanded.unseenSlots_relinked {id : TypeId} {landings : List Landing}
    {seen : List TypeId} (held : before.Holds id)
    (landed : AllLanded before (before.shape id).children landings after) :
    (after.relinked id landings).unseenSlots seen = before.unseenSlots seen := by
  refine unseenSlots_congr (by simp [relinked, landed.arena]) fun other => ?_
  rw [landed.shape_relinked held]
  split
  · rename_i same
    rw [same]
    exact length_slots_relink (length_of_leads landed.leads)
  · rfl

/-- One visit: the children of the first definition on the stack are resolved and put on it. -/
theorem Walk.visit {id : TypeId} {stack seen : List TypeId} {landings : List Landing}
    (walk : before.Walk (id :: stack) seen)
    (landed : AllLanded before (before.shape id).children landings after) :
    (after.relinked id landings).Walk (landings.map Landing.target ++ stack) (id :: seen) := by
  obtain ⟨idHeld, stackHeld⟩ := List.forall_mem_cons.mp walk.held
  have step := landed.relink idHeld
  have settling : Settling before _ := landed.settling.tail step
  have consistent := landed.settling.consistent walk.consistent
  refine ⟨settling.consistent walk.consistent, fun other member => ?_, fun other member => ?_,
    fun other member child inside => ?_⟩
  · rcases List.mem_append.mp member with member | member
    · obtain ⟨landing, within, rfl⟩ := List.mem_map.mp member
      rw [step.holds_iff]
      refine consistent.holds_of_leads (fun child inside => ?_) landed.leads landing within
      exact (landed.settling.holds_iff child).mpr (walk.consistent.linked id idHeld child inside)
    · exact (settling.holds_iff other).mpr (stackHeld other member)
  · have old (within : other ∈ id :: stack ∨ other ∈ seen) :=
      settling.settled walk.consistent (walk.settled other within)
    rcases member with member | member
    · rcases List.mem_append.mp member with member | member
      · obtain ⟨landing, within, rfl⟩ := List.mem_map.mp member
        exact step.settled consistent (landed.settled landing within)
      · exact old (.inl (List.mem_cons_of_mem id member))
    · rcases List.mem_cons.mp member with rfl | member
      · exact old (.inl List.mem_cons_self)
      · exact old (.inr member)
  · rw [landed.children_relinked idHeld] at inside
    split at inside
    · exact .inl (List.mem_append_left stack inside)
    · rename_i different
      have seen := (List.mem_cons.mp member).resolve_left different
      rcases walk.closed other seen child inside with onStack | seen
      · rcases List.mem_cons.mp onStack with rfl | onStack
        · exact .inr List.mem_cons_self
        · exact .inl (List.mem_append_right _ onStack)
      · exact .inr (List.mem_cons_of_mem id seen)

/-! ## Whole walks -/

/-- What a walk leaves: it has seen its stack and all that becomes canonical on the way. -/
structure Walked (before : Catalog) (stack seen : List TypeId) (after : Catalog) : Prop where
  settling : Settling before after
  walk : ∃ all, after.Walk [] all ∧ (∀ id, id ∈ stack ∨ id ∈ seen → id ∈ all) ∧
    ∀ name id, after.canonical.get? name = some id → before.canonical.get? name = some id ∨ id ∈ all

theorem Walked.nil {seen : List TypeId} (walk : catalog.Walk [] seen) :
    Walked catalog [] seen catalog :=
  ⟨.refl, seen, walk, by simp, fun _ _ found => .inl found⟩

theorem Walked.skip {id : TypeId} {stack seen : List TypeId}
    (walked : Walked before stack seen after) (member : id ∈ seen) : Walked before (id :: stack) seen after := by
  obtain ⟨all, walk, within, canonical⟩ := walked.walk
  refine ⟨walked.settling, all, walk, fun other old => within other ?_, canonical⟩
  rcases old with onStack | seen
  · rcases List.mem_cons.mp onStack with rfl | onStack
    · exact .inr member
    · exact .inl onStack
  · exact .inr seen

theorem Walked.visit {middle : Catalog} {id : TypeId} {stack seen : List TypeId}
    {landings : List Landing} (held : before.Holds id)
    (landed : AllLanded before (before.shape id).children landings middle)
    (walked : Walked (middle.relinked id landings) (landings.map Landing.target ++ stack)
      (id :: seen) after) :
    Walked before (id :: stack) seen after := by
  obtain ⟨all, walk, within, canonical⟩ := walked.walk
  refine ⟨(landed.settling.tail (landed.relink held)).trans walked.settling, all, walk,
    fun other old => within other ?_, fun name other found => ?_⟩
  · rcases old with onStack | seen
    · rcases List.mem_cons.mp onStack with rfl | onStack
      · exact .inr List.mem_cons_self
      · exact .inl (List.mem_append_right _ onStack)
    · exact .inr (List.mem_cons_of_mem id seen)
  · rcases canonical name other found with found | member
    · exact (landed.canonical name other found).imp_right fun member =>
        within other (.inl (List.mem_append_left stack member))
    · exact .inr member

/-- What outlasts every visit, and every failure in one, outlasts a walk. -/
theorem ends_settleFrom_of {holds : Catalog → Prop}
    (visit : ∀ middle id, middle.Consistent → middle.Holds id → holds middle →
      Ends ((middle.shape id).children.mapM resolve) middle
        (fun landings after => holds (after.relinked id landings)) holds)
    (fuel : Nat) (stack seen : List TypeId) (consistent : catalog.Consistent)
    (held : ∀ id ∈ stack, catalog.Holds id) (start : holds catalog) :
    Ends (settleFrom fuel stack seen) catalog (fun _ => holds) holds := by
  induction fuel generalizing catalog stack seen with
  | zero => exact start
  | succ fuel ih =>
    cases stack with
    | nil => exact start
    | cons id stack =>
      obtain ⟨idHeld, stackHeld⟩ := List.forall_mem_cons.mp held
      have linked := consistent.linked id idHeld
      rw [settleFrom]
      apply ends_ite
      · intro _
        exact ih stack seen consistent stackHeld start
      intro _
      simp only [ends_bind, ends_get]
      apply ((ends_mapM_resolve consistent _ linked).and
        (visit catalog id consistent idHeld start)).mono
      · intro landings middle found
        obtain ⟨landed, kept⟩ := found
        have now := landed.settling.consistent consistent
        have step := landed.relink idHeld
        have settling : Settling catalog (middle.relinked id landings) := landed.settling.tail step
        apply ih _ _ (step.consistent now) _ kept
        intro other member
        rcases List.mem_append.mp member with member | member
        · obtain ⟨landing, inside, rfl⟩ := List.mem_map.mp member
          rw [step.holds_iff]
          apply now.holds_of_leads _ landed.leads landing inside
          intro child within
          exact (landed.settling.holds_iff child).mpr (linked child within)
        · exact (settling.holds_iff other).mpr (stackHeld other member)
      · intro after failed
        exact failed.2

/-- A walk sees everything before its fuel runs out: each visit puts as many ids on the stack as
it takes from the slots that are left. -/
theorem ends_settleFrom (fuel : Nat) (stack seen : List TypeId) (walk : catalog.Walk stack seen)
    (enough : stack.length + catalog.unseenSlots seen ≤ fuel) :
    Ends (settleFrom fuel stack seen) catalog (fun _ after => Walked catalog stack seen after)
      (Settling catalog) := by
  induction fuel generalizing catalog stack seen with
  | zero =>
    have empty : stack = [] := List.length_eq_zero_iff.mp (by omega)
    subst empty
    exact .nil walk
  | succ fuel ih =>
    cases stack with
    | nil => exact .nil walk
    | cons id stack =>
      rw [List.length_cons] at enough
      rw [settleFrom]
      refine ends_ite (fun member => ?_) fun unseen => ?_
      · exact (ih stack seen (walk.skip member) (by omega)).mono
          (fun _ after walked => walked.skip member) fun _ settling => settling
      · have held := walk.held id List.mem_cons_self
        simp only [ends_bind, ends_get]
        refine (ends_mapM_resolve walk.consistent _ (walk.consistent.linked id held)).mono
          (fun landings middle landed => ?_) fun _ settling => settling
        -- The slots of the visited definition pay for the ids that it puts on the stack.
        have left : (landings.map Landing.target ++ stack).length +
            (middle.relinked id landings).unseenSlots (id :: seen) ≤ fuel := by
          have length := length_of_leads landed.leads
          have split := unseenSlots_cons held unseen
          rw [landed.unseenSlots_relinked held, List.length_append, List.length_map]
          omega
        exact (ih _ _ (walk.visit landed) left).mono
          (fun _ after walked => walked.visit held landed)
          fun _ more => (landed.settling.tail (landed.relink held)).trans more

/-- Settling sees all that the given definitions are made of. -/
theorem ends_settle (consistent : catalog.Consistent) (ids : List TypeId)
    (held : ∀ id ∈ ids, catalog.Holds id) (settled : ∀ id ∈ ids, catalog.Settled id) :
    Ends (settle ids) catalog (fun _ after => Walked catalog ids [] after) (Settling catalog) := by
  simp only [settle, ends_bind, ends_get]
  refine ends_settleFrom _ ids [] ⟨consistent, held, by simpa using settled, by simp⟩ ?_
  rw [unseenSlots_nil]

/-! ## Slots outside the catalog -/

theorem attempt_of_ok {α : Type} {step : CatalogM α} {found : α}
    (done : step before = .ok found after) : attempt step before = .ok (.ok found) after := by
  rw [attempt, done]

theorem attempt_of_error {α : Type} {step : CatalogM α} {error : Error}
    (fails : step before = .error error after) : attempt step before = .ok (.error error) after := by
  rw [attempt, fails]

theorem ends_attempt {α : Type} {step : CatalogM α} {done : α → Catalog → Prop}
    {failed : Catalog → Prop} (ends : Ends step catalog done failed) :
    Ends (attempt step) catalog
      (fun result after =>
        match result with
        | .ok found => done found after
        | .error _ => failed after)
      fun _ => False := by
  unfold Ends at ends ⊢
  unfold attempt
  cases same : step catalog <;> simpa [same] using ends

/-- A dereference resolves the target of its slot and settles what that leads to. -/
theorem ends_dereference_of (consistent : catalog.Consistent) (slot : Slot)
    (held : catalog.Holds slot.target) {holds : Slot × Option Error → Catalog → Prop}
    (unresolved : ∀ error, holds (slot, some error) catalog)
    (resolved : ∀ landing middle, resolve slot.target catalog = .ok landing middle →
      Landed catalog slot.target landing middle → middle.Consistent →
      middle.Holds landing.target →
      Ends (settle [landing.target]) middle
        (fun _ after => holds (landOutside slot landing, none) after)
        fun after => ∀ error, holds (landOutside slot landing, some error) after) :
    Ends (dereference slot) catalog holds fun _ => False := by
  rw [dereference, ends_bind]
  apply (ends_attempt ((ends_self _ _).and (ends_resolve consistent held))).imp
  intro result middle first
  cases result with
  | error error =>
    obtain ⟨_, same⟩ := first
    rw [same]
    exact unresolved error
  | ok landing =>
    obtain ⟨done, landed⟩ := first
    have further := landed.settling.consistent consistent
    have targetHeld : middle.Holds landing.target :=
      further.holds_of_leads (by simpa using (landed.settling.holds_iff _).mpr held)
        (.cons landed.leads .nil) landing List.mem_cons_self
    dsimp only
    rw [ends_bind]
    apply (ends_attempt (resolved landing middle done landed further targetHeld)).imp
    intro result after settled
    cases result with
    | error error => exact settled error
    | ok => exact settled

theorem ends_dereference (consistent : catalog.Consistent) (slot : Slot)
    (held : catalog.Holds slot.target) :
    Ends (dereference slot) catalog (fun _ => Settling catalog) fun _ => False := by
  apply ends_dereference_of consistent slot held
  · intro _
    exact .refl
  · intro landing middle _ landed further targetHeld
    apply (ends_settle further [landing.target] (by simpa using targetHeld)
      (by simpa using landed.settled)).mono
    · intro _ after walked
      exact landed.settling.trans walked.settling
    · intro after settling _
      exact landed.settling.trans settling

end DocShapes.Catalog
