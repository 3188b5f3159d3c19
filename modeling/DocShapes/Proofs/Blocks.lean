import DocShapes.Proofs.Elaboration

/-! # Reading blocks grows a catalog

A body is read while the definition that takes it stands in front of everything that the body
makes, so that the slots it gets lead forward and never back.
-/

namespace DocShapes.Catalog

open Outline (Line)

/-! ## Readings under way -/

/-- A reading that started at `base` has come to this catalog. -/
structure Underway (catalog : Catalog) (base : Nat) : Prop where
  start : base ≤ catalog.arena.size
  closed : catalog.ClosedFrom base

theorem underway_size (catalog : Catalog) : catalog.Underway catalog.arena.size :=
  ⟨Nat.le_refl _, catalog.closedFrom_size⟩

theorem Growth.underway {base : Nat} {before after : Catalog} (growth : Growth base before after)
    (reading : before.Underway base) : after.Underway base :=
  ⟨Nat.le_trans reading.start growth.size_le, growth.closedFrom reading.closed⟩

/-- From any catalog that a reading has come to, a feed into one of its definitions lets the
catalog grow. -/
def Feed.Grows (feed : Feed) : Prop :=
  ∀ base catalog id body, catalog.Underway base → catalog.HoldsFrom base id →
    Ends (feed id body) catalog (fun _ => Growth base catalog) (Growth base catalog)

variable {base : Nat} {catalog : Catalog} {feed : Feed}

/-! ## Staging -/

/-- What holds of the stack and of the ids seen, and of all children of what it holds of, holds of
all that is reachable. -/
theorem forall_reachableFrom {holds : TypeId → Prop}
    (closed : ∀ id, holds id → ∀ child ∈ (catalog.shape id).children, holds child)
    (fuel : Nat) (stack seen : List TypeId) (onStack : ∀ id ∈ stack, holds id)
    (onSeen : ∀ id ∈ seen, holds id) :
    ∀ id ∈ catalog.reachableFrom fuel stack seen, holds id := by
  induction fuel generalizing stack seen with
  | zero => simpa [reachableFrom] using onSeen
  | succ fuel ih =>
    cases stack with
    | nil => simpa [reachableFrom] using onSeen
    | cons id stack =>
      obtain ⟨first, others⟩ := List.forall_mem_cons.mp onStack
      rw [reachableFrom]
      split
      · exact ih stack seen others onSeen
      · refine ih _ _ (List.forall_mem_append.mpr ⟨closed id first, others⟩) ?_
        exact List.forall_mem_append.mpr ⟨onSeen, by simpa using first⟩

theorem ends_stage (reading : catalog.Underway base) (channel : Channel) {slot : Slot}
    (own : catalog.HoldsFrom base slot.target) :
    Ends (stage channel slot) catalog
      (fun found after => Growth base catalog after ∧ after.HoldsFrom base found.target)
      fun _ => False := by
  have reached : ∀ id ∈ catalog.namedReachable slot.target,
      catalog.HoldsFrom base id ∧ (catalog.definition id).isNamed = true := by
    intro id member
    obtain ⟨member, named⟩ := List.mem_filter.mp member
    exact ⟨forall_reachableFrom reading.closed _ [slot.target] [] (by simpa using own) (by simp)
      id member, named⟩
  simp only [stage, ends_bind, ends_get, ends_pure]
  refine (ends_forM (fun after => Growth base catalog after ∧
    ∀ id, after.definition id = catalog.definition id) _ _ _ (fun id member middle found => ?_)
    catalog ⟨.refl, fun _ => rfl⟩).imp fun _ after found => ⟨found.1, ?_⟩
  · obtain ⟨growth, same⟩ := found
    have step : GrowthStep base middle (middle.enlist ⟨id, channel⟩) :=
      .enlist (growth.holdsFrom (reached id member).1) (by rw [same]; exact (reached id member).2)
    exact ⟨growth.tail step, fun other => same other⟩
  · refine found.1.holdsFrom ?_
    cases slot with
    | bare id =>
      simp only [stagedSlot]
      split <;> exact own
    | sited site => exact own

/-! ## Entries -/

/-- The slot of an entry, if it has one, leads to a definition of the reading. -/
def Entry.OwnedFrom (catalog : Catalog) (base : Nat) (entry : Entry) : Prop :=
  ∀ slot ∈ entry.slot, catalog.HoldsFrom base slot.target

theorem ends_declare (grows : feed.Grows) (reading : catalog.Underway base)
    (name spec : String) (body : List String) :
    Ends (declare feed name spec body) catalog
      (fun slot after => Growth base catalog after ∧ after.HoldsFrom base slot.target)
      (Growth base catalog) := by
  simp only [declare]
  refine ends_ite (fun _ => .refl) fun _ => ?_
  rw [ends_bind]
  refine (ends_parseDeclaration reading.start spec).mono (fun found middle grown => ?_)
    fun _ grown => grown
  rw [ends_bind]
  refine (grows base middle found.1 body (grown.1.underway reading) grown.2).mono
    (fun doc after more => ?_) fun _ more => grown.1.trans more
  exact ⟨grown.1.trans more, more.holdsFrom grown.2⟩

theorem ends_declareAlone (grows : feed.Grows) (reading : catalog.Underway base)
    (text : String) (body : List String) :
    Ends (declareAlone feed text body) catalog
      (fun slot after => Growth base catalog after ∧ after.HoldsFrom base slot.target)
      (Growth base catalog) := by
  simp only [declareAlone, ends_bind]
  refine (ends_parseType reading.start text).mono (fun id middle grown => ?_) fun _ grown => grown
  refine (grows base middle id body (grown.1.underway reading) grown.2).mono
    (fun doc after more => ?_) fun _ more => grown.1.trans more
  cases doc <;> exact ⟨grown.1.trans more, more.holdsFrom grown.2⟩

theorem ends_declaration? (grows : feed.Grows) (reading : catalog.Underway base)
    (mode : Mode) (line : Line) :
    Ends (declaration? feed mode line) catalog
      (fun slot? after => Growth base catalog after ∧
        ∀ slot ∈ slot?, after.HoldsFrom base slot.target)
      (Growth base catalog) := by
  simp only [declaration?]
  split
  · rw [ends_map]
    exact (ends_declare grows reading _ _ _).mono
      (fun slot _ found => ⟨found.1, by simpa using found.2⟩) fun _ grown => grown
  · rw [ends_bind, ends_get]
    refine ends_ite (fun _ => ?_) fun _ => ⟨.refl, by simp⟩
    rw [ends_map]
    exact (ends_declareAlone grows reading _ _).mono
      (fun slot _ found => ⟨found.1, by simpa using found.2⟩) fun _ grown => grown

theorem ends_nextEntry (grows : feed.Grows) (reading : catalog.Underway base) (mode : Mode)
    (prose : List String) (lines : List Line) :
    Ends (nextEntry feed mode prose lines) catalog
      (fun found after => Growth base catalog after ∧
        ∀ next ∈ found, next.1.OwnedFrom after base)
      (Growth base catalog) := by
  induction lines generalizing prose catalog with
  | nil =>
    refine ⟨.refl, fun next member => ?_⟩
    obtain ⟨doc, _, rfl⟩ := Option.map_eq_some_iff.mp member
    simp [Entry.OwnedFrom]
  | cons line rest ih =>
    rw [nextEntry]
    refine ends_ite (fun _ => ih reading _) fun _ => ?_
    rw [ends_bind]
    refine (ends_declaration? grows reading mode line).mono (fun slot? middle found => ?_)
      fun _ grown => grown
    have further := found.1.underway reading
    cases slot? with
    | none =>
      exact (ih further _).mono (fun _ _ later => ⟨found.1.trans later.1, later.2⟩)
        fun _ later => found.1.trans later
    | some slot =>
      have own := found.2 slot rfl
      cases mode.channel with
      | none => exact ⟨found.1, by simpa [Entry.OwnedFrom] using own⟩
      | some channel =>
        simp only [ends_bind, ends_pure]
        exact (ends_stage further channel own).mono
          (fun _ _ staged => ⟨found.1.trans staged.1, by simpa [Entry.OwnedFrom] using staged.2⟩)
          fun _ ended => ended.elim

theorem ends_drawEntries (grows : feed.Grows) (reading : catalog.Underway base) (mode : Mode)
    (count : Nat) (lines : List Line) :
    Ends (drawEntries feed mode count lines) catalog
      (fun found after => Growth base catalog after ∧
        ∀ entry ∈ found.1, entry.OwnedFrom after base)
      fun _ => False := by
  induction count generalizing catalog lines with
  | zero => exact ⟨.refl, by simp⟩
  | succ count ih =>
    have first := ends_nextEntry grows reading mode [] lines
    unfold Ends at first ⊢
    rw [drawEntries]
    split at first
    · rename_i found after drawn
      cases found with
      | none => simpa [drawn] using! first.1
      | some next =>
        obtain ⟨entry, rest⟩ := next
        have others := ih (first.1.underway reading) rest
        simp only [drawn]
        change Ends (drawEntries feed mode count rest >>= _) after _ _
        rw [ends_bind]
        refine others.imp fun found final later => ?_
        refine ⟨first.1.trans later.1, List.forall_mem_cons.mpr ⟨?_, later.2⟩⟩
        exact fun slot member => later.1.holdsFrom (first.2 _ rfl slot member)
    · rename_i drawn
      simpa [drawn] using! first

theorem ends_allEntries (grows : feed.Grows) (reading : catalog.Underway base) (mode : Mode)
    (lines : List Line) :
    Ends (allEntries feed mode lines) catalog
      (fun entries after => Growth base catalog after ∧
        ∀ entry ∈ entries, entry.OwnedFrom after base)
      (Growth base catalog) := by
  rw [allEntries, ends_bind]
  refine (ends_drawEntries grows reading mode _ lines).mono (fun found after drawn => ?_)
    fun _ ended => ended.elim
  obtain ⟨entries, error?⟩ := found
  cases error? with
  | none => exact drawn
  | some => exact drawn.1

/-! ## Bodies -/

theorem holdsFrom_bodyTarget? (closed : catalog.ClosedFrom base) {depth : Nat} {id target : TypeId}
    (own : catalog.HoldsFrom base id) (found : catalog.bodyTarget? depth id = some target) :
    catalog.HoldsFrom base target := by
  induction depth generalizing id with
  | zero => cases found
  | succ depth ih =>
    rw [bodyTarget?] at found
    split at found
    · rename_i item same
      split at found
      · refine ih (closed id own item.target ?_) found
        simp [same, Shape.children, Shape.slots]
      · cases found
    · split at found
      · cases found
        exact own
      · cases found

theorem Content.forall_ofEntries {holds : TypeId → Prop} (entries : List Entry)
    (each : ∀ entry ∈ entries, ∀ slot ∈ entry.slot, holds slot.target) :
    ∀ slot ∈ (Content.ofEntries entries).slots, holds slot.target := by
  have fold (content : Content) (start : ∀ slot ∈ content.slots, holds slot.target) :
      ∀ slot ∈ (entries.foldl Content.add content).slots, holds slot.target := by
    induction entries generalizing content with
    | nil => exact start
    | cons entry rest ih =>
      obtain ⟨first, others⟩ := List.forall_mem_cons.mp each
      refine ih others (content.add entry) ?_
      unfold Content.add
      split
      · exact start
      · rename_i slot same
        have own := first slot (by simp [same])
        split
        · simpa using own
        · have kept : holds (withProse entry.doc slot).target := by
            cases slot <;> exact own
          exact List.forall_mem_append.mpr ⟨start, by simpa using kept⟩
  exact fold _ (by simp)

theorem sited_of_namedFields {owner : String} {slots : List Slot} {fields : List Site}
    (found : namedFields owner slots = .ok fields) : fields.map Slot.sited = slots := by
  induction slots generalizing fields with
  | nil =>
    cases found
    rfl
  | cons slot rest ih =>
    cases slot with
    | bare => cases found
    | sited site =>
      simp only [namedFields, List.mapM_cons] at found
      split at found
      · cases others : namedFields owner rest with
        | error => simp [namedFields] at others; simp [others, bind, Except.bind] at found
        | ok sites =>
          have same := ih others
          simp only [namedFields] at others
          simp only [others, bind, Except.bind, pure, Except.pure, Except.ok.injEq] at found
          simp [← found, same]
      · cases found

theorem ends_setFields (fields : List Site) :
    Ends (Edit.setFields fields) (.ofShape (.anonymous []))
      (fun _ after =>
        (Definition.ofShape (.anonymous [])).Appended (fields.map .sited) after)
      fun _ => True :=
  (Edit.ends_pushFields fields (.ofShape (.anonymous []))).mono (fun _ _ appended => appended)
    fun _ _ => trivial

theorem ends_recordOf (start : base ≤ catalog.arena.size) {slots : List Slot}
    (owned : ∀ slot ∈ slots, catalog.HoldsFrom base slot.target) :
    Ends (itemOfBody.recordOf slots) catalog
      (fun item after => Growth base catalog after ∧ after.HoldsFrom base item.target)
      (Growth base catalog) := by
  rw [itemOfBody.recordOf, ends_bind, ends_ofExcept]
  cases named : namedFields "record" slots with
  | error => exact .refl
  | ok fields =>
    have fill := ends_setFields fields
    unfold Ends at fill
    dsimp only
    split
    · rename_i record filled
      rw [filled] at fill
      obtain ⟨shape, extra, rfl, grown, subset⟩ := fill
      rw [sited_of_namedFields named] at subset
      rw [ends_bind]
      refine (ends_allocate_unnamed start .refl grown.isNamed
        (grown.fields (Shape.fieldsDistinct_of_sites_eq_nil rfl)) ?_).mono
        (fun _ _ made => made) fun _ ended => ended.elim
      intro child member
      rw [show Shape.children _ = _ from grown.children] at member
      obtain ⟨slot, within, rfl⟩ := List.mem_map.mp
        ((List.mem_append.mp member).resolve_left List.not_mem_nil)
      exact owned slot (subset within)
    · exact .refl

theorem ends_itemOfBody (start : base ≤ catalog.arena.size) {slots : List Slot}
    (owned : ∀ slot ∈ slots, catalog.HoldsFrom base slot.target) :
    Ends (itemOfBody slots) catalog
      (fun item after => Growth base catalog after ∧ after.HoldsFrom base item.target)
      (Growth base catalog) := by
  unfold itemOfBody
  split
  · exact ⟨.refl, owned _ List.mem_cons_self⟩
  · exact ends_ite (fun _ => ⟨.refl, owned _ List.mem_cons_self⟩) fun _ => ends_recordOf start owned
  · exact ends_recordOf start owned

/-- The body makes its definitions behind all that are there, the one that it is fed into among
them. -/
theorem ends_feedTarget (grows : feed.Grows) (reading : catalog.Underway base) {id : TypeId}
    (own : catalog.HoldsFrom base id) (body : List String) :
    Ends (feedTarget feed id body) catalog (fun _ => Growth base catalog)
      (Growth base catalog) := by
  have document {middle : Catalog} (grown : Growth base catalog middle) (fresh : Bool)
      (doc : Option String) :
      Ends (if (fresh && doc.isSome) = true then do
          setDefinition id { (← get).definition id with doc }
          return none
        else return doc) middle (fun _ => Growth base catalog) (Growth base catalog) := by
    refine ends_ite (fun _ => ?_) fun _ => grown
    exact grown.tail (.document (grown.holdsFrom own))
  have append {middle : Catalog} {given : List Slot} {definition : Definition}
      (grown : Growth catalog.arena.size catalog middle)
      (later : ∀ slot ∈ given, middle.HoldsFrom catalog.arena.size slot.target)
      (appended : (middle.definition id).Appended given definition) :
      Growth base catalog (middle.put id definition) :=
    (grown.mono reading.start).tail (.append own.1 own.2 grown.size_le
      (grown.closedFrom catalog.closedFrom_size) later appended)
  simp only [feedTarget, ends_bind, ends_get]
  refine (ends_allEntries grows catalog.underway_size _ _).mono (fun entries middle read => ?_)
    fun _ grown => grown.mono reading.start
  have slotsOwned := Content.forall_ofEntries entries read.2
  refine ends_ite (fun _ => ?_) fun _ => ends_ite (fun _ => ?_) fun _ => ?_
  · rw [ends_bind, ends_ofExcept]
    split
    · rename_i fields named
      rw [ends_bind, ends_edit]
      rw [← sited_of_namedFields named] at slotsOwned
      have pushed := Edit.ends_pushFields fields (middle.definition id)
      unfold Ends at pushed
      split at pushed
      · rename_i edited
        simp only [edited]
        exact document (append read.1 slotsOwned pushed) _ _
      · rename_i edited
        simp only [edited]
        exact append read.1 slotsOwned pushed
    · exact read.1.mono reading.start
  · rw [ends_bind]
    refine (ends_itemOfBody read.1.size_le slotsOwned).mono (fun item further made => ?_)
      fun _ grown => (read.1.trans grown).mono reading.start
    rw [ends_bind, ends_edit]
    have filled := Edit.ends_setInner item (further.definition id)
    have later : ∀ slot ∈ [item], further.HoldsFrom catalog.arena.size slot.target := by
      simpa using made.2
    unfold Ends at filled
    split at filled
    · rename_i edited
      simp only [edited]
      exact document (append (read.1.trans made.1) later filled) _ _
    · rename_i edited
      simp only [edited]
      exact append (read.1.trans made.1) later filled
  · exact document (read.1.mono reading.start) _ _

theorem grows_feedWithin (depth : Nat) : (feedWithin depth).Grows := by
  induction depth with
  | zero => exact fun _ _ _ _ _ _ => .refl
  | succ depth ih =>
    intro base catalog id body reading own
    rw [feedWithin, feedBody]
    refine ends_ite (fun _ => .refl) fun _ => ?_
    rw [ends_bind, ends_get]
    split
    · exact .refl
    · rename_i target found
      exact ends_feedTarget ih reading (holdsFrom_bodyTarget? reading.closed own found) body

/-! ## Whole blocks -/

theorem ends_parseBlock (reading : catalog.Underway base) (mode : Mode) (count : Nat)
    (text : String) :
    Ends (parseBlock mode count text) catalog
      (fun found after => Growth base catalog after ∧
        ∀ entry ∈ found.1, entry.OwnedFrom after base)
      fun _ => False :=
  ends_drawEntries (grows_feedWithin _) reading mode count _

theorem ends_parseEntries (reading : catalog.Underway base) (mode : Mode) (text : String) :
    Ends (parseEntries mode text) catalog
      (fun entries after => Growth base catalog after ∧
        ∀ entry ∈ entries, entry.OwnedFrom after base)
      (Growth base catalog) :=
  ends_allEntries (grows_feedWithin _) reading mode _

theorem ends_joinEntries (grows : feed.Grows) (reading : catalog.Underway base) (mode : Mode)
    (text : String) (count : Nat) (docs : List (Option String)) (slot? : Option Slot)
    (lines : List Line) (owned : ∀ slot ∈ slot?, catalog.HoldsFrom base slot.target) :
    Ends (joinEntries feed mode text count docs slot? lines) catalog
      (fun entry after => Growth base catalog after ∧ entry.OwnedFrom after base)
      (Growth base catalog) := by
  induction count generalizing catalog docs slot? lines with
  | zero => exact ⟨.refl, owned⟩
  | succ count ih =>
    rw [joinEntries, ends_bind]
    refine (ends_nextEntry grows reading mode [] lines).mono (fun found middle drawn => ?_)
      fun _ grown => grown
    have kept : ∀ slot ∈ slot?, middle.HoldsFrom base slot.target :=
      fun slot member => drawn.1.holdsFrom (owned slot member)
    cases found with
    | none => exact ⟨drawn.1, kept⟩
    | some next =>
      obtain ⟨entry, rest⟩ := next
      have entryOwned := drawn.2 _ rfl
      refine ends_ite (fun _ => drawn.1) fun _ => ?_
      refine (ih (drawn.1.underway reading) _ _ rest ?_).mono
        (fun _ _ later => ⟨drawn.1.trans later.1, later.2⟩) fun _ later => drawn.1.trans later
      intro slot member
      cases same : entry.slot with
      | none => exact kept slot (by simpa [same] using member)
      | some first => exact entryOwned slot (by simpa [same] using member)

theorem ends_parseSingle (reading : catalog.Underway base) (mode : Mode) (text : String) :
    Ends (parseSingle mode text) catalog
      (fun entry after => Growth base catalog after ∧ entry.OwnedFrom after base)
      (Growth base catalog) :=
  ends_joinEntries (grows_feedWithin _) reading mode text _ [] none _ (by simp)

end DocShapes.Catalog
