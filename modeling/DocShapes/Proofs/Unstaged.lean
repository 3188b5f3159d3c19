import DocShapes.Proofs.Identity

/-! # Steps that stage nothing

Specs, bodies and blocks that are read without a channel leave the buckets as they are, and so do
new names and new spellings. This holds in every catalog and also where a step fails, and it is
taken apart along the steps themselves: what the parts of a step leave alone, the step leaves
alone.
-/

namespace DocShapes.Catalog

open Outline (Line)

variable {α β : Type} {catalog : Catalog} {feed : Feed}

/-- The buckets are the same after the step as before it, whether it succeeds or fails. -/
def StagesNothing (step : CatalogM α) : Prop :=
  ∀ catalog, (leaves step catalog).pending = catalog.pending

namespace StagesNothing

theorem ends {step : CatalogM α} (quiet : StagesNothing step) (catalog : Catalog) :
    Ends step catalog (fun _ after => after.pending = catalog.pending)
      fun after => after.pending = catalog.pending :=
  ends_leaves_iff.mpr (quiet catalog)

theorem of_ends {step : CatalogM α}
    (ends : ∀ catalog, Ends step catalog (fun _ after => after.pending = catalog.pending)
      fun after => after.pending = catalog.pending) : StagesNothing step :=
  fun catalog => ends_leaves_iff.mp (ends catalog)

theorem pure (found : α) : StagesNothing (Pure.pure found) := fun _ => rfl

theorem throw (error : Error) : StagesNothing (MonadExcept.throw error : CatalogM α) := fun _ => rfl

theorem get : StagesNothing (MonadState.get : CatalogM Catalog) := fun _ => rfl

theorem modify {change : Catalog → Catalog}
    (same : ∀ catalog, (change catalog).pending = catalog.pending) :
    StagesNothing (modify change : CatalogM PUnit) := same

theorem bind {step : CatalogM α} {next : α → CatalogM β} (quiet : StagesNothing step)
    (later : ∀ found, StagesNothing (next found)) : StagesNothing (step >>= next) := by
  apply of_ends
  intro catalog
  rw [ends_bind]
  refine (quiet.ends catalog).imp fun found middle same => ?_
  exact ((later found).ends middle).mono (fun _ _ more => more.trans same)
    fun _ more => more.trans same

theorem map {step : CatalogM α} (view : α → β) (quiet : StagesNothing step) :
    StagesNothing (view <$> step) := by
  apply of_ends
  intro catalog
  rw [ends_map]
  exact quiet.ends catalog

theorem ite {condition : Prop} [Decidable condition] {step other : CatalogM α}
    (ifTrue : StagesNothing step) (ifFalse : StagesNothing other) :
    StagesNothing (if condition then step else other) := by
  split
  · exact ifTrue
  · exact ifFalse

theorem ofExcept (result : Except Error α) : StagesNothing (Catalog.ofExcept result) := by
  cases result with
  | ok found => exact pure found
  | error error => exact throw error

theorem attempt {step : CatalogM α} (quiet : StagesNothing step) :
    StagesNothing (attempt step) := by
  apply of_ends
  intro catalog
  refine (ends_attempt (quiet.ends catalog)).mono (fun result after same => ?_)
    fun _ ended => ended.elim
  cases result <;> exact same

end StagesNothing

/-! ## Definitions and specs -/

theorem stagesNothing_allocate (definition : Definition) : StagesNothing (allocate definition) :=
  .bind .get fun _ => .bind (.modify fun _ => rfl) fun _ => .pure _

theorem stagesNothing_setDefinition (id : TypeId) (definition : Definition) :
    StagesNothing (setDefinition id definition) := .modify fun _ => rfl

theorem stagesNothing_edit (id : TypeId) (change : Edit Unit) : StagesNothing (edit id change) := by
  refine .bind .get fun catalog => ?_
  split
  · exact stagesNothing_setDefinition id _
  · exact .bind (stagesNothing_setDefinition id _) fun _ => .throw _

theorem stagesNothing_elaborateName (name : String) : StagesNothing (elaborateName name) := by
  refine .bind .get fun catalog => ?_
  split
  · exact stagesNothing_allocate _
  · exact stagesNothing_allocate _
  · refine .bind (stagesNothing_allocate _) fun id => .bind (.bind .get fun found => ?_) fun _ =>
      .pure id
    exact .ite (.pure _) (.modify fun _ => rfl)
  · exact stagesNothing_allocate _

mutual

theorem stagesNothing_elaborate (spec : Spec) : StagesNothing (elaborate spec) := by
  cases spec with
  | named name => exact stagesNothing_elaborateName name
  | listOf item =>
    rw [elaborate]
    exact .bind (stagesNothing_elaborate item) fun _ => stagesNothing_allocate _
  | referenceTo target =>
    rw [elaborate]
    exact .bind (stagesNothing_elaborate target) fun _ => stagesNothing_allocate _
  | sequence connective items =>
    rw [elaborate]
    exact .bind (stagesNothing_elaborateEach items) fun _ => stagesNothing_allocate _
  | _ => exact stagesNothing_allocate _

theorem stagesNothing_elaborateEach (specs : List Spec) :
    StagesNothing (elaborate.elaborateEach specs) := by
  cases specs with
  | nil => exact .pure _
  | cons spec rest =>
    rw [elaborate.elaborateEach]
    exact .bind (stagesNothing_elaborate spec) fun _ =>
      .bind (stagesNothing_elaborateEach rest) fun _ => .pure _

end

theorem stagesNothing_accept (reading : Spec.Reading α) : StagesNothing (accept reading) := by
  cases reading with
  | ok found => exact .pure found
  | error rejection => exact .bind (stagesNothing_elaborateEach _) fun _ => .throw _

theorem stagesNothing_parseType (text : String) : StagesNothing (parseType text) :=
  .bind .get fun _ => .bind (stagesNothing_accept _) fun _ => stagesNothing_elaborate _

theorem stagesNothing_parseFront (text : String) : StagesNothing (parseFront text) :=
  .bind .get fun _ => .bind (stagesNothing_accept _) fun _ =>
    .bind (stagesNothing_elaborate _) fun _ => .pure _

theorem stagesNothing_parseDeclaration (text : String) : StagesNothing (parseDeclaration text) :=
  .bind .get fun _ => .bind (stagesNothing_accept _) fun _ =>
    .bind (stagesNothing_elaborate _) fun _ => .pure _

/-! ## Blocks without a channel -/

/-- A feed stages nothing, whatever it is fed. -/
def Feed.Quiet (feed : Feed) : Prop := ∀ id body, StagesNothing (feed id body)

theorem stagesNothing_declare (quiet : feed.Quiet) (name spec : String) (body : List String) :
    StagesNothing (declare feed name spec body) := by
  refine .ite (.throw _) ?_
  exact .bind (stagesNothing_parseDeclaration spec) fun _ => .bind (quiet _ body) fun _ => .pure _

theorem stagesNothing_declareAlone (quiet : feed.Quiet) (text : String) (body : List String) :
    StagesNothing (declareAlone feed text body) := by
  refine .bind (stagesNothing_parseType text) fun _ => .bind (quiet _ body) fun doc? => ?_
  cases doc? <;> exact .pure _

/-- A declaration is staged only once it has been read as a whole, with its body. -/
theorem stagesNothing_declaration? (quiet : feed.Quiet) (mode : Mode) (line : Line) :
    StagesNothing (declaration? feed mode line) := by
  unfold declaration?
  split
  · exact .map _ (stagesNothing_declare quiet _ _ _)
  · refine .bind .get fun _ => .ite ?_ (.pure _)
    exact .map _ (stagesNothing_declareAlone quiet _ _)

theorem stagesNothing_nextEntry (quiet : feed.Quiet) (eager : Bool) (prose : List String)
    (lines : List Line) : StagesNothing (nextEntry feed ⟨none, eager⟩ prose lines) := by
  induction lines generalizing prose with
  | nil => exact .pure _
  | cons line rest ih =>
    rw [nextEntry]
    refine .ite (ih _) (.bind (stagesNothing_declaration? quiet _ line) fun slot? => ?_)
    cases slot? with
    | none => exact ih _
    | some slot => exact .bind (.pure _) fun _ => .pure _

theorem stagesNothing_drawEntries (quiet : feed.Quiet) (eager : Bool) (count : Nat)
    (lines : List Line) : StagesNothing (drawEntries feed ⟨none, eager⟩ count lines) := by
  induction count generalizing lines with
  | zero => exact .pure _
  | succ count ih =>
    rw [drawEntries_succ]
    refine .bind (.attempt (stagesNothing_nextEntry quiet eager [] lines)) fun result => ?_
    cases result with
    | error => exact .pure _
    | ok found =>
      cases found with
      | none => exact .pure _
      | some next => exact .bind (ih next.2) fun _ => .pure _

theorem stagesNothing_allEntries (quiet : feed.Quiet) (eager : Bool) (lines : List Line) :
    StagesNothing (allEntries feed ⟨none, eager⟩ lines) := by
  refine .bind (stagesNothing_drawEntries quiet eager _ lines) fun found => ?_
  split
  · exact .pure _
  · exact .throw _

theorem stagesNothing_joinEntries (quiet : feed.Quiet) (eager : Bool) (text : String)
    (count : Nat) (docs : List (Option String)) (slot? : Option Slot) (lines : List Line) :
    StagesNothing (joinEntries feed ⟨none, eager⟩ text count docs slot? lines) := by
  induction count generalizing docs slot? lines with
  | zero => exact .pure _
  | succ count ih =>
    rw [joinEntries]
    refine .bind (stagesNothing_nextEntry quiet eager [] lines) fun found => ?_
    cases found with
    | none => exact .pure _
    | some next =>
      refine .ite (.bind (.throw _) fun _ => ?_) ?_
      · exact ih _ _ _
      · exact ih _ _ _

/-! ## Bodies -/

theorem stagesNothing_itemOfBody (slots : List Slot) : StagesNothing (itemOfBody slots) := by
  have recordOf : StagesNothing (itemOfBody.recordOf slots) := by
    refine .bind (.ofExcept _) fun fields => ?_
    split
    · exact .bind (stagesNothing_allocate _) fun _ => .pure _
    · exact .throw _
  unfold itemOfBody
  split
  · exact .pure _
  · exact .ite (.pure _) recordOf
  · exact recordOf

theorem stagesNothing_feedTarget (quiet : feed.Quiet) (id : TypeId) (body : List String) :
    StagesNothing (feedTarget feed id body) := by
  have document (fresh : Bool) (doc : Option String) :
      StagesNothing (if (fresh && doc.isSome) = true then do
          setDefinition id { (← MonadState.get).definition id with doc }
          return none
        else return doc) :=
    .ite (.bind .get fun _ => .bind (stagesNothing_setDefinition _ _) fun _ => .pure _) (.pure _)
  refine .bind .get fun catalog => ?_
  dsimp only
  refine .bind (stagesNothing_allEntries quiet _ _) fun entries => ?_
  refine .ite ?_ (.ite ?_ (document _ _))
  · exact .bind (.ofExcept _) fun _ => .bind (stagesNothing_edit _ _) fun _ => document _ _
  · exact .bind (stagesNothing_itemOfBody _) fun _ => .bind (stagesNothing_edit _ _) fun _ =>
      document _ _

theorem quiet_feedWithin (depth : Nat) : (feedWithin depth).Quiet := by
  induction depth with
  | zero => exact fun _ _ => .pure _
  | succ depth ih =>
    intro id body
    rw [feedWithin, feedBody]
    refine .ite (.pure _) (.bind .get fun catalog => ?_)
    split
    · exact .pure _
    · exact stagesNothing_feedTarget ih _ body

/-! ## Names and spellings -/

theorem stagesNothing_checkRegistrable (definition : Definition) :
    StagesNothing (checkRegistrable definition) := by
  refine .of_ends fun catalog => ?_
  exact (ends_checkRegistrable definition).mono (fun _ _ same => same.1 ▸ rfl)
    fun _ same => same ▸ rfl

theorem stagesNothing_register (definition : Definition) : StagesNothing (register definition) := by
  refine .bind (stagesNothing_checkRegistrable definition) fun _ => .bind .get fun catalog => ?_
  split
  · exact .bind (.modify fun _ => rfl) fun _ => .bind (stagesNothing_setDefinition _ _) fun _ =>
      .bind (.modify fun _ => rfl) fun _ => .pure _
  · exact .bind (stagesNothing_allocate _) fun _ => .bind (.modify fun _ => rfl) fun _ => .pure _

theorem stagesNothing_allocateProvisional (definition : Definition) (name : String) :
    StagesNothing (do
      let id ← allocate definition
      setProvisional name id
      return id) :=
  .bind (stagesNothing_allocate definition) fun _ => .bind (.modify fun _ => rfl) fun _ => .pure _

theorem stagesNothing_registerProvisional (definition : Definition) :
    StagesNothing (registerProvisional definition) := by
  refine .bind (stagesNothing_checkRegistrable definition) fun _ => .bind .get fun catalog => ?_
  refine .ite (.bind (.throw _) fun _ => ?_) ?_
  · exact stagesNothing_allocateProvisional _ _
  · exact stagesNothing_allocateProvisional _ _

theorem stagesNothing_defineProvisional (definition : Definition) (origin : Option TypeId) :
    StagesNothing (defineProvisional definition origin) := by
  refine .bind (stagesNothing_checkRegistrable definition) fun _ => .bind .get fun catalog => ?_
  split
  · exact stagesNothing_allocateProvisional _ _
  · refine .ite (.bind (stagesNothing_setDefinition _ _) fun _ => .pure _) (.ite ?_ (.throw _))
    exact stagesNothing_allocateProvisional _ _

theorem stagesNothing_defineEntries (source : Option String) (entries : List Entry) :
    StagesNothing (defineEntries source entries) := by
  induction entries with
  | nil => exact .pure _
  | cons entry rest ih =>
    rw [defineEntries]
    split
    · exact ih
    · refine .bind .get fun catalog => ?_
      exact .bind (stagesNothing_defineProvisional _ _) fun _ => .bind ih fun _ => .pure _

theorem stagesNothing_addAlias (spelling target : String) :
    StagesNothing (addAlias spelling target) := by
  refine .of_ends fun catalog => ?_
  refine (ends_addAlias spelling target).mono (fun _ after step => ?_) fun _ same => same ▸ rfl
  cases step <;> rfl

/-! ## Operations -/

/-- The channel that stages what an operation reads. -/
def Operation.channel? : Operation → Option Channel
  | .parseBlock mode _ _ => mode.channel
  | .parseEntries mode _ => mode.channel
  | .parseSingle mode _ => mode.channel
  | _ => none

/-- Without a channel only a merge changes the buckets. -/
theorem pending_perform {operation : Operation} (consistent : catalog.Consistent)
    (allowed : operation.Allowed catalog) (detached : Operation.channel? operation = none)
    (unmerged : operation ≠ .mergePending) :
    (leaves operation.perform catalog).pending = catalog.pending := by
  have quiet (depth : Nat) := quiet_feedWithin depth
  cases operation with
  | parseType text => exact (stagesNothing_parseType text).map _ catalog
  | parseFront text => exact (stagesNothing_parseFront text).map _ catalog
  | parseDeclaration text => exact (stagesNothing_parseDeclaration text).map _ catalog
  | parseBlock mode count text =>
    obtain ⟨channel, eager⟩ := mode
    obtain rfl : channel = none := detached
    refine StagesNothing.bind (stagesNothing_drawEntries (quiet _) eager count _) (fun found => ?_)
      catalog
    cases found.2 with
    | none => exact .pure _
    | some error => exact .throw error
  | parseEntries mode text =>
    obtain ⟨channel, eager⟩ := mode
    obtain rfl : channel = none := detached
    exact (stagesNothing_allEntries (quiet _) eager _).map _ catalog
  | parseSingle mode text =>
    obtain ⟨channel, eager⟩ := mode
    obtain rfl : channel = none := detached
    exact (stagesNothing_joinEntries (quiet _) eager text _ _ _ _).map _ catalog
  | loadExtension text source =>
    refine StagesNothing.map _ (.bind (stagesNothing_allEntries (quiet _) true _) fun entries => ?_)
      catalog
    exact stagesNothing_defineEntries source entries
  | register definition => exact (stagesNothing_register definition).map _ catalog
  | registerProvisional definition => exact (stagesNothing_registerProvisional definition).map _ catalog
  | addAlias spelling target => exact stagesNothing_addAlias spelling target catalog
  | dereference slot =>
    have ends : Ends (Operation.dereference slot).perform catalog
        (fun _ after => after.pending = catalog.pending)
        fun after => after.pending = catalog.pending := by
      rw [Operation.perform, ends_bind]
      exact (ends_dereference consistent slot allowed).mono (fun _ after settled =>
        @ends_failWith _ _ (fun after => after.pending = catalog.pending) settled.pending)
          fun _ ended => ended.elim
    exact ends_leaves_iff.mp ends
  | mergePending => exact absurd rfl unmerged

end DocShapes.Catalog
