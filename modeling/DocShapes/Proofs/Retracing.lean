import DocShapes.Proofs.Comparing

/-! # Blocks read in two catalogs

The reading of a block in one catalog is retraced by its reading in another one: the same lines
declare, the same types take the bodies, and the same declarations go to the buckets
(`simulates_parseEntries`).
-/

namespace DocShapes.Catalog

open Outline (Line)

variable {comparison : Comparison} {left right left' right' : Catalog} {feed : Feed}

/-! ## What names mean -/

theorem Titled.meaning_eq {told : String → Option Base} {catalog : Catalog}
    (titled : catalog.Titled told) {name : String} (plain : Name.keyword? name = none) :
    catalog.meaning name =
      if catalog.customTypes && Name.isCustom name then
        if catalog.isKnown name then .registered ((told name).getD .record) else .custom
      else .unknown := by
  rw [meaning, plain]
  cases known : catalog.known? name with
  | none =>
    rw [isKnown, known]
    rfl
  | some id =>
    obtain ⟨_, customTypes, custom, base⟩ := titled.known name id known
    rw [isKnown, known, customTypes, custom]
    exact congrArg Meaning.registered base

theorem Compares.resolveAlias_eq (compares : Compares comparison left right) (name : String) :
    right.resolveAlias name = left.resolveAlias name := by
  rw [resolveAlias, resolveAlias, compares.aliases, compares.aliases']

theorem Compares.isStandalone_eq (compares : Compares comparison left right) (mode : Mode)
    (line : Line) : right.isStandalone mode line = left.isStandalone mode line := by
  rw [isStandalone, isStandalone, compares.resolveAlias_eq]
  congr 1
  generalize left.resolveAlias line.text = name
  cases plain : Name.keyword? name with
  | some keyword => simp only [meaning, plain]
  | none =>
    rw [compares.titled.meaning_eq plain, compares.titled'.meaning_eq plain, compares.customTypes]
    cases left.customTypes && Name.isCustom name with
    | false => rfl
    | true => cases left.isKnown name <;> cases right.isKnown name <;> rfl

/-! ## Types that take bodies -/

/-- A spec takes bodies in both catalogs alike if nothing was told of the name that it feeds. -/
theorem Compares.intake?_eq (compares : Compares comparison left right) (spec : Spec)
    (untold : ∀ name ∈ spec.fed?, comparison.told name = none) :
    right.intake? spec = left.intake? spec := by
  induction spec using Spec.induction with
  | step spec ih =>
    cases spec with
    | named name =>
      have own := untold name rfl
      rw [intake?, intake?, mention, mention]
      cases plain : Name.keyword? name with
      | some keyword => simp only [meaning, plain]
      | none =>
        rw [compares.titled.meaning_eq plain, compares.titled'.meaning_eq plain,
          compares.customTypes, own]
        cases left.customTypes && Name.isCustom name with
        | false => rfl
        | true => cases left.isKnown name <;> cases right.isKnown name <;> rfl
    | listOf item => exact ih item List.mem_cons_self untold
    | _ => rfl

theorem Compares.twin_of_unnamed (compares : Compares comparison left right) {one other : TypeId}
    (links : comparison.Links one other) (held : left.Holds one)
    (unnamed : (left.shape one).isNamed = false) :
    (left.shape one).Twin comparison.Links (right.shape other) :=
  (compares.shape_twin links held fun named => by
    rw [show (left.definition one).isNamed = (left.shape one).isNamed from rfl, unnamed] at named
    cases named).shape

/-- Chains of lists lead to their ends in both catalogs side by side. -/
theorem Innermost.links {id target : TypeId} (innermost : left.Innermost id target)
    (compares : Compares comparison left right) (consistent : left.Consistent)
    (held : left.Holds id) (ended : ∀ item, left.shape target ≠ .list (some item))
    {id' target' : TypeId} (links : comparison.Links id id')
    (innermost' : right.Innermost id' target')
    (ended' : ∀ item, right.shape target' ≠ .list (some item)) :
    comparison.Links target target' := by
  induction innermost generalizing id' with
  | @here id =>
    cases innermost' with
    | here => exact links
    | @item _ _ item list _ =>
      -- A list of the second catalog is a list of the first one as well.
      have resembles := compares.definitions links held
      have unnamed : (left.definition id).isNamed = false := by
        rw [← resembles.isNamed]
        change (right.shape id').isNamed = false
        rw [list]
        rfl
      have twin := compares.twin_of_unnamed links held unnamed
      rw [list] at twin
      cases shape : left.shape id with
      | list item =>
        rw [shape] at twin
        cases twin with
        | list items =>
          cases items
          exact absurd shape (ended _)
      | _ =>
        rw [shape] at twin
        cases twin
  | @item id target item list inner ih =>
    have twin := compares.twin_of_unnamed links held (by rw [list]; rfl)
    rw [list] at twin
    cases shape : right.shape id' with
    | list item' =>
      rw [shape] at twin
      cases twin with
      | list items =>
        cases items with
        | @some _ item' slot =>
          have further : left.Holds item.target :=
            consistent.linked id held _ (by simp [list, Shape.children, Shape.slots])
          cases innermost' with
          | here => exact absurd shape (ended' item')
          | item list' inner' =>
            rw [shape] at list'
            cases list'
            exact ih further ended slot.target inner'
    | _ =>
      rw [shape] at twin
      cases twin

/-- A type with a name at the end of the lists of a spec has the name that the spec feeds. -/
theorem Represents.fed?_of_isNamed {catalog : Catalog} {spec : Spec} {id target : TypeId}
    (represents : catalog.Represents spec id) (innermost : catalog.Innermost id target)
    (named : (catalog.definition target).isNamed = true) :
    spec.fed? = some (catalog.definition target).name := by
  induction innermost generalizing spec with
  | here id =>
    obtain ⟨_, definition, _, _, _, _⟩ := represents
    rw [definition] at named ⊢
    cases spec with
    | named name => exact congrArg some (name_mention catalog name).symm
    | _ => cases named
  | @item id target item list _ ih =>
    obtain ⟨held, definition, standing, earlier, count, parts⟩ := represents
    rename_i ids
    have shape : catalog.shapeOf spec ids = .list (some item) := by
      rw [← list, Catalog.shape, definition]
      rfl
    cases spec with
    | listOf inner =>
      obtain ⟨child, rfl⟩ := List.length_eq_one_iff.mp count.symm
      cases shape
      have inside : (inner, child) ∈ (Spec.listOf inner).parts.zip [child] := by simp [Spec.parts]
      change inner.fed? = _
      exact ih (parts inside) named
    | named name =>
      rcases intake?_named catalog name with ⟨_, record⟩ | ⟨_, _, unlisted⟩
      · rw [show catalog.mention name = .list (some item) from shape] at record
        cases record
      · exact absurd shape (unlisted item)
    | _ => cases shape

/-! ## Types of texts -/

theorem simulates_accept {α : Type} (reading : Spec.Reading α) :
    Simulates (accept reading) left (accept reading) right
      fun found after found' later =>
        reading = .ok found ∧ found' = found ∧ after = left ∧ later = right := by
  cases reading with
  | ok found => exact simulates_pure ⟨rfl, rfl, rfl, rfl⟩
  | error rejection =>
    intro found after done
    rw [accept] at done
    obtain ⟨_, _, _, thrown⟩ := of_bind_eq_ok done
    cases thrown

/-- The types of one spec in both catalogs. -/
structure Typed (comparison : Comparison) (spec : Spec) (id : TypeId) (left : Catalog)
    (id' : TypeId) (right : Catalog) : Prop where
  links : comparison.Links id id'
  compares : Compares comparison left right
  represents : left.Represents spec id
  represents' : right.Represents spec id'

theorem simulates_elaborate_typed {spec : Spec} (consistent : left.Consistent)
    (consistent' : right.Consistent) (compares : Compares comparison left right)
    (canonical : spec.Canonical comparison.words.aliases) :
    Simulates (elaborate spec) left (elaborate spec) right
      fun id after id' later => Typed comparison spec id after id' later := by
  intro id after done
  obtain ⟨id', later, done', links, further⟩ :=
    simulates_elaborate spec compares canonical id after done
  have made := ((elaborates spec) left consistent (compares.aliases ▸ canonical)).of_ok done
  have made' := ((elaborates spec) right consistent' (compares.aliases' ▸ canonical)).of_ok done'
  exact ⟨id', later, done', links, further, made.2, made'.2⟩

theorem simulates_parseDeclaration (consistent : left.Consistent) (consistent' : right.Consistent)
    (compares : Compares comparison left right) (text : String) :
    Simulates (parseDeclaration text) left (parseDeclaration text) right
      fun found after found' later => ∃ spec,
        Spec.readDeclaration comparison.words text = .ok (spec, found.2) ∧ found'.2 = found.2 ∧
          Typed comparison spec found.1 after found'.1 later := by
  refine simulates_get ?_
  rw [compares.words, compares.words']
  refine (simulates_accept _).bind ?_
  rintro ⟨spec, qualifiers⟩ after _ later _ _ ⟨read, rfl, rfl, rfl⟩
  have canonical := Spec.reads_readDeclaration comparison.words text
  rw [read] at canonical
  refine (simulates_elaborate_typed consistent consistent' compares canonical.1).bind
    fun _ _ _ _ _ _ typed => ?_
  exact simulates_pure ⟨spec, read, rfl, typed⟩

theorem simulates_parseType (consistent : left.Consistent) (consistent' : right.Consistent)
    (compares : Compares comparison left right) (text : String) :
    Simulates (parseType text) left (parseType text) right
      fun id after id' later => ∃ spec, Spec.read comparison.words text = .ok spec ∧
        Typed comparison spec id after id' later := by
  refine simulates_get ?_
  rw [compares.words, compares.words']
  refine (simulates_accept _).bind ?_
  rintro _ after spec later _ _ ⟨read, rfl, rfl, rfl⟩
  have canonical := Spec.reads_read comparison.words text
  rw [read] at canonical
  refine (simulates_elaborate_typed consistent consistent' compares canonical).imp
    fun _ _ _ _ typed => ?_
  exact ⟨spec, read, typed⟩

/-! ## Declarations -/

/-- No body stands under a line that feeds a name which was told to the first catalog. -/
def Comparison.Spares (comparison : Comparison) (lines : List Line) : Prop :=
  ∀ line, Outline.Within lines line → line.body ≠ [] →
    ∀ name ∈ line.fed? comparison.words, comparison.told name = none

theorem Comparison.Spares.mono {lines more : List Line} (spares : comparison.Spares more)
    (subset : lines ⊆ more) : comparison.Spares lines :=
  fun line within => spares line (within.mono subset)

theorem Comparison.Spares.body {lines : List Line} (spares : comparison.Spares lines)
    {line : Line} (member : line ∈ lines) : comparison.Spares (Outline.ofLines line.body) :=
  fun inner within => spares inner ((Outline.Within.top member).trans within)

/-- Feeding a body into a type is retraced by feeding it into the type of the same spec. -/
def Feed.Retraces (comparison : Comparison) (feed : Feed) : Prop :=
  ∀ {left right : Catalog} {spec : Spec} {id id' : TypeId} (body : List String),
    left.Consistent → right.Consistent → Typed comparison spec id left id' right →
      (body ≠ [] → ∀ name ∈ spec.fed?, comparison.told name = none) →
        comparison.Spares (Outline.ofLines body) →
          Simulates (feed id body) left (feed id' body) right
            fun doc after doc' later => doc' = doc ∧ Compares comparison after later

theorem simulates_declare (retraces : feed.Retraces comparison) (consistent : left.Consistent)
    (consistent' : right.Consistent) (compares : Compares comparison left right)
    (name spec : String) {body : List String}
    (untold : body ≠ [] → ∀ type qualifiers,
      Spec.readDeclaration comparison.words spec = .ok (type, qualifiers) →
        ∀ name ∈ type.fed?, comparison.told name = none)
    (spares : comparison.Spares (Outline.ofLines body)) :
    Simulates (declare feed name spec body) left (declare feed name spec body) right
      fun slot after slot' later =>
        slot.Twin comparison.Links slot' ∧ Compares comparison after later := by
  rw [declare]
  refine simulates_ite Iff.rfl (fun _ _ => simulates_throw _) fun _ _ => ?_
  refine (simulates_parseDeclaration consistent consistent' compares spec).bind ?_
  rintro ⟨id, _⟩ after ⟨id', qualifiers⟩ later done done' ⟨type, read, rfl, typed⟩
  have grown := ((ends_parseDeclaration (Nat.le_refl _) spec).of_ok done).1
  have grown' := ((ends_parseDeclaration (Nat.le_refl _) spec).of_ok done').1
  refine (retraces body (grown.consistent consistent) (grown'.consistent consistent') typed
    (fun filled => untold filled type qualifiers read) spares).bind ?_
  rintro _ _ doc _ _ _ ⟨rfl, compares⟩
  exact simulates_pure ⟨.sited ⟨typed.links, rfl, rfl, rfl⟩, compares⟩

theorem simulates_declareAlone (retraces : feed.Retraces comparison) (consistent : left.Consistent)
    (consistent' : right.Consistent) (compares : Compares comparison left right)
    (text : String) {body : List String}
    (untold : body ≠ [] → ∀ type, Spec.read comparison.words text = .ok type →
      ∀ name ∈ type.fed?, comparison.told name = none)
    (spares : comparison.Spares (Outline.ofLines body)) :
    Simulates (declareAlone feed text body) left (declareAlone feed text body) right
      fun slot after slot' later =>
        slot.Twin comparison.Links slot' ∧ Compares comparison after later := by
  rw [declareAlone]
  refine (simulates_parseType consistent consistent' compares text).bind ?_
  rintro id after id' later done done' ⟨type, read, typed⟩
  have grown := ((ends_parseType (Nat.le_refl _) text).of_ok done).1
  have grown' := ((ends_parseType (Nat.le_refl _) text).of_ok done').1
  refine (retraces body (grown.consistent consistent) (grown'.consistent consistent') typed
    (fun filled => untold filled type read) spares).bind ?_
  rintro _ _ doc _ _ _ ⟨rfl, compares⟩
  cases doc with
  | none => exact simulates_pure ⟨.bare typed.links, compares⟩
  | some doc => exact simulates_pure ⟨.sited ⟨typed.links, rfl, rfl, rfl⟩, compares⟩

theorem simulates_declaration? (retraces : feed.Retraces comparison) (consistent : left.Consistent)
    (consistent' : right.Consistent) (compares : Compares comparison left right) (mode : Mode)
    {lines : List Line} (spares : comparison.Spares lines) {line : Line} (member : line ∈ lines) :
    Simulates (declaration? feed mode line) left (declaration? feed mode line) right
      fun slot after slot' later =>
        Option.Rel (Slot.Twin comparison.Links) slot slot' ∧ Compares comparison after later := by
  have own := spares line (.top member)
  rw [declaration?]
  cases declaration : line.declaration with
  | some heading =>
    obtain ⟨name, spec⟩ := heading
    refine (simulates_declare retraces consistent consistent' compares name spec
      (fun filled type qualifiers read => ?_) (spares.body member)).map
        fun _ _ _ _ made => ⟨.some made.1, made.2⟩
    simpa only [Line.fed?, declaration, read] using own filled
  | none =>
    refine simulates_get (simulates_ite (by rw [compares.isStandalone_eq]) (fun _ _ => ?_)
      fun _ _ => simulates_pure ⟨.none, compares⟩)
    refine (simulates_declareAlone retraces consistent consistent' compares line.text
      (fun filled type read => ?_) (spares.body member)).map
        fun _ _ _ _ made => ⟨.some made.1, made.2⟩
    simpa only [Line.fed?, declaration, read] using own filled

/-! ## Staging -/

theorem Preorder.unique {catalog : Catalog} {seen roots order other : List TypeId}
    (preorder : catalog.Preorder seen roots order) (further : catalog.Preorder seen roots other) :
    other = order := by
  induction preorder generalizing other with
  | done =>
    cases further
    rfl
  | skip known _ ih =>
    cases further with
    | skip _ later => exact ih later
    | visit unseen => exact absurd known unseen
  | visit unseen _ _ inner later =>
    cases further with
    | skip known => exact absurd known unseen
    | visit _ inner' later' =>
      obtain rfl := inner inner'
      obtain rfl := later later'
      rfl

/-- A walk through the first catalog is retraced by a walk through the second one. -/
theorem Preorder.retraced {seen roots order : List TypeId}
    (preorder : left.Preorder seen roots order) (compares : Compares comparison left right)
    (consistent : left.Consistent) (held : ∀ id ∈ roots, left.Holds id)
    {seen' roots' : List TypeId} (sameSeen : List.Forall₂ comparison.Links seen seen')
    (sameRoots : List.Forall₂ comparison.Links roots roots') :
    ∃ order', right.Preorder seen' roots' order' ∧ List.Forall₂ comparison.Links order order' := by
  have mem_iff {seen seen' : List TypeId} (same : List.Forall₂ comparison.Links seen seen')
      {id id' : TypeId} (links : comparison.Links id id') : id ∈ seen ↔ id' ∈ seen' :=
    List.rel_mem comparison.biUnique_links links same
  induction preorder generalizing seen' roots' with
  | done =>
    cases sameRoots
    exact ⟨[], .done, .nil⟩
  | skip known _ ih =>
    obtain ⟨_, rest⟩ := List.forall_mem_cons.mp held
    obtain _ | ⟨links, sameRest⟩ := sameRoots
    obtain ⟨order', later, same⟩ := ih rest sameSeen sameRest
    exact ⟨order', .skip ((mem_iff sameSeen links).mp known) later, same⟩
  | @visit seen rest below order id unseen _ _ inner later =>
    obtain ⟨own, restHeld⟩ := List.forall_mem_cons.mp held
    obtain _ | ⟨links, sameRest⟩ := sameRoots
    have children := (compares.definitions links own).children
    obtain ⟨below', inner, sameBelow⟩ := inner (consistent.linked id own)
      (List.rel_append sameSeen (.cons links .nil)) children
    obtain ⟨order', later, same⟩ := later restHeld
      (List.rel_append sameSeen (.cons links sameBelow)) sameRest
    exact ⟨_, .visit (mt (mem_iff sameSeen links).mpr unseen) inner later,
      .cons links (List.rel_append sameBelow same)⟩

theorem Compares.namedReachable (compares : Compares comparison left right)
    (consistent : left.Consistent) (consistent' : right.Consistent) {id id' : TypeId}
    (links : comparison.Links id id') (held : left.Holds id) :
    List.Forall₂ comparison.Links (left.namedReachable id) (right.namedReachable id') := by
  have held' := (compares.holds links).mp held
  obtain ⟨order, preorder, same⟩ := (preorder_reachable consistent held).retraced compares
    consistent (by simpa using held) .nil (.cons links .nil)
  obtain rfl := (preorder_reachable consistent' held').unique preorder
  -- What is reached is held, so that its definitions are compared.
  have reached : ∀ part ∈ left.reachable id, left.Holds part :=
    forall_reachableFrom (fun part => consistent.linked part) _ [id] [] (by simpa using held)
      (by simp)
  have both : List.Forall₂ (fun part part' => left.Holds part ∧ comparison.Links part part')
      (left.reachable id) (right.reachable id') :=
    (List.forall₂_and_left _ _).mpr ⟨reached, same⟩
  refine (List.rel_filter (fun part part' linked => ?_) both).imp fun _ _ linked => linked.2
  change (left.definition part).isNamed = true ↔ (right.definition part').isNamed = true
  rw [(compares.definitions linked.2 linked.1).isNamed]

theorem simulates_stageDeclaration (staging : comparison.staging = true)
    (compares : Compares comparison left right) {id id' : TypeId}
    (links : comparison.Links id id') (held : left.Holds id) (channel : Channel) :
    Simulates (stageDeclaration ⟨id, channel⟩) left (stageDeclaration ⟨id', channel⟩) right
      fun _ after _ later => Compares comparison after later ∧ after.arena = left.arena := by
  have name := (compares.definitions links held).name
  have pending := compares.pending staging
  refine simulates_modify ⟨?_, rfl⟩
  refine { compares with pending := fun _ => ?_, titled := ?_, titled' := ?_ }
  · exact compares.titled.of_arena rfl (fun _ => rfl) rfl rfl
  · exact compares.titled'.of_arena rfl (fun _ => rfl) rfl rfl
  · dsimp only
    rw [name]
    refine pending.set OrderedMap.biUnique_eq rfl ?_
    refine List.rel_append ?_ (.cons ⟨links, rfl⟩ .nil)
    have bucket := pending.get? OrderedMap.biUnique_eq (rfl :
      (left.definition id).name = (left.definition id).name)
    generalize left.pending.get? (left.definition id).name = one at bucket
    generalize right.pending.get? (left.definition id).name = other at bucket
    cases bucket with
    | none => exact .nil
    | some same => exact same

theorem Compares.stagedSlot (compares : Compares comparison left right) {slot slot' : Slot}
    (twin : slot.Twin comparison.Links slot') (held : left.Holds slot.target) :
    (left.stagedSlot slot).Twin comparison.Links (right.stagedSlot slot') := by
  cases twin with
  | @bare id id' links =>
    have named := (compares.definitions links held).isNamed
    rw [Catalog.stagedSlot, Catalog.stagedSlot, named]
    split
    · exact .sited ⟨links, rfl, rfl, rfl⟩
    · exact .bare links
  | sited site => exact .sited site

theorem simulates_stage (staging : comparison.staging = true) (consistent : left.Consistent)
    (consistent' : right.Consistent) (compares : Compares comparison left right)
    (channel : Channel) {slot slot' : Slot} (twin : slot.Twin comparison.Links slot')
    (held : left.Holds slot.target) :
    Simulates (stage channel slot) left (stage channel slot') right
      fun found after found' later =>
        found.Twin comparison.Links found' ∧ Compares comparison after later := by
  have reached : ∀ part ∈ left.namedReachable slot.target, left.Holds part := fun part member =>
    forall_reachableFrom (fun part => consistent.linked part) _ [slot.target] []
      (by simpa using held) (by simp) part (List.mem_filter.mp member).1
  have both : List.Forall₂ (fun part part' => left.Holds part ∧ comparison.Links part part')
      (left.namedReachable slot.target) (right.namedReachable slot'.target) :=
    (List.forall₂_and_left _ _).mpr
      ⟨reached, compares.namedReachable consistent consistent' twin.target held⟩
  have each (part part' : TypeId) (one other : Catalog)
      (linked : left.Holds part ∧ comparison.Links part part')
      (state : Compares comparison one other ∧ one.arena = left.arena) :
      Simulates (stageDeclaration ⟨part, channel⟩) one (stageDeclaration ⟨part', channel⟩) other
        fun _ after _ later => Compares comparison after later ∧ after.arena = left.arena := by
    have own : one.Holds part := by
      rw [Holds, state.2]
      exact linked.1
    exact (simulates_stageDeclaration staging state.1 linked.2 own channel).imp
      fun _ _ _ _ next => ⟨next.1, next.2.trans state.2⟩
  refine simulates_get ((simulates_forM each both ⟨compares, rfl⟩).bind
    fun _ _ _ _ _ _ staged => simulates_pure ⟨compares.stagedSlot twin held, staged.1⟩)

/-! ## Entries -/

/-- The same entry with slots of linked types. -/
structure Entry.Twin (linked : TypeId → TypeId → Prop) (one other : Entry) : Prop where
  doc : other.doc = one.doc
  slot : Option.Rel (Slot.Twin linked) one.slot other.slot

/-- A block is read without a channel, or what it stages is compared. -/
def Comparison.Admits (comparison : Comparison) (mode : Mode) : Prop :=
  mode.channel ≠ none → comparison.staging = true

theorem simulates_nextEntry (grows : feed.Grows) (retraces : feed.Retraces comparison)
    {mode : Mode} (admits : comparison.Admits mode) (prose : List String) (lines : List Line)
    (consistent : left.Consistent) (consistent' : right.Consistent)
    (compares : Compares comparison left right) (spares : comparison.Spares lines) :
    Simulates (nextEntry feed mode prose lines) left (nextEntry feed mode prose lines) right
      fun found after found' later =>
        Option.Rel (fun next next' => next.1.Twin comparison.Links next'.1 ∧ next'.2 = next.2 ∧
          next.2 ⊆ lines) found found' ∧ Compares comparison after later := by
  induction lines generalizing prose left right with
  | nil =>
    rw [nextEntry]
    refine simulates_pure ⟨?_, compares⟩
    cases Doc.ofLines prose with
    | none => exact .none
    | some doc => exact .some ⟨⟨rfl, .none⟩, rfl, List.Subset.refl _⟩
  | cons line rest ih =>
    have later (prose : List String) {left right : Catalog} (consistent : left.Consistent)
        (consistent' : right.Consistent) (compares : Compares comparison left right) :
        Simulates (nextEntry feed mode prose rest) left (nextEntry feed mode prose rest) right
          fun found after found' later =>
            Option.Rel (fun next next' => next.1.Twin comparison.Links next'.1 ∧
              next'.2 = next.2 ∧ next.2 ⊆ line :: rest) found found' ∧
                Compares comparison after later := by
      refine (ih prose consistent consistent' compares
        (spares.mono (List.subset_cons_self _ _))).imp fun found _ found' _ next => ⟨?_, next.2⟩
      cases next.1 with
      | none => exact .none
      | some same =>
        exact .some ⟨same.1, same.2.1, List.Subset.trans same.2.2 (List.subset_cons_self _ _)⟩
    rw [nextEntry]
    refine simulates_ite Iff.rfl (fun _ _ => later _ consistent consistent' compares) fun _ _ => ?_
    refine (simulates_declaration? retraces consistent consistent' compares mode spares
      List.mem_cons_self).bind ?_
    rintro slot middle slot' middle' done done' ⟨twin, compared⟩
    have grown := (ends_declaration? grows left.underway_size mode line).of_ok done
    have grown' := (ends_declaration? grows right.underway_size mode line).of_ok done'
    have sound := grown.1.consistent consistent
    have sound' := grown'.1.consistent consistent'
    cases twin with
    | none => exact later _ sound sound' compared
    | @some slot slot' twin =>
      have held : middle.Holds slot.target := (grown.2 slot rfl).2
      dsimp only
      cases own : mode.channel with
      | none =>
        exact simulates_pure
          ⟨.some ⟨⟨rfl, .some twin⟩, rfl, List.subset_cons_self _ _⟩, compared⟩
      | some channel =>
        refine (simulates_stage (admits (by simp [own])) sound sound' compared channel twin
          held).bind fun _ _ _ _ _ _ staged => ?_
        exact simulates_pure
          ⟨.some ⟨⟨rfl, .some staged.1⟩, rfl, List.subset_cons_self _ _⟩, staged.2⟩

theorem drawEntries_retraced (grows : feed.Grows) (retraces : feed.Retraces comparison)
    {mode : Mode} (admits : comparison.Admits mode) (count : Nat) {lines : List Line}
    (consistent : left.Consistent) (consistent' : right.Consistent)
    (compares : Compares comparison left right) (spares : comparison.Spares lines)
    {entries : List Entry} {after : Catalog}
    (drawn : drawEntries feed mode count lines left = .ok (entries, none) after) :
    ∃ entries' later, drawEntries feed mode count lines right = .ok (entries', none) later ∧
      List.Forall₂ (Entry.Twin comparison.Links) entries entries' ∧
        Compares comparison after later := by
  induction count generalizing left right lines entries with
  | zero =>
    cases drawn
    exact ⟨[], right, rfl, .nil, compares⟩
  | succ count ih =>
    cases found : nextEntry feed mode [] lines left with
    | error error state =>
      rw [drawEntries_of_error count found] at drawn
      cases drawn
    | ok next state =>
      obtain ⟨next', state', found', same, compared⟩ := simulates_nextEntry grows retraces admits []
        lines consistent consistent' compares spares next state found
      have grown := ((ends_nextEntry grows left.underway_size mode [] lines).of_ok found).1
      have grown' := ((ends_nextEntry grows right.underway_size mode [] lines).of_ok found').1
      cases same with
      | none =>
        rw [drawEntries_of_none count found] at drawn
        cases drawn
        exact ⟨[], state', drawEntries_of_none count found', .nil, compared⟩
      | @some next next' same =>
        obtain ⟨entry, rest⟩ := next
        obtain ⟨entry', rest'⟩ := next'
        obtain ⟨twin, rfl, subset⟩ := same
        obtain ⟨others, error?, last, more⟩ := exists_drawEntries_eq_ok grows state mode count rest'
        rw [drawEntries_of_some found more] at drawn
        cases drawn
        obtain ⟨others', later, more', twins, compared⟩ := ih (grown.consistent consistent)
          (grown'.consistent consistent') compared (spares.mono subset) more
        exact ⟨entry' :: others', later, drawEntries_of_some found' more', .cons twin twins,
          compared⟩

theorem simulates_allEntries (grows : feed.Grows) (retraces : feed.Retraces comparison)
    {mode : Mode} (admits : comparison.Admits mode) {lines : List Line}
    (consistent : left.Consistent) (consistent' : right.Consistent)
    (compares : Compares comparison left right) (spares : comparison.Spares lines) :
    Simulates (allEntries feed mode lines) left (allEntries feed mode lines) right
      fun entries after entries' later =>
        List.Forall₂ (Entry.Twin comparison.Links) entries entries' ∧
          Compares comparison after later := by
  intro entries after done
  rw [allEntries] at done
  obtain ⟨⟨drawn, error?⟩, middle, first, rest⟩ := of_bind_eq_ok done
  cases error? with
  | some error => cases rest
  | none =>
    cases rest
    obtain ⟨entries', later, first', twins, compared⟩ :=
      drawEntries_retraced grows retraces admits _ consistent consistent' compares spares first
    refine ⟨entries', later, ?_, twins, compared⟩
    rw [allEntries, bind_of_ok first']
    rfl

end DocShapes.Catalog
